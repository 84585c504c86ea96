import UtxoWorkshop.UtxoConservation
import UtxoWorkshop.UtxoExecution
import UtxoWorkshop.UtxoPool
import UtxoWorkshop.UtxoRejection

/-! How long a verdict of the pool lasts. A transaction that was accepted keeps its very verdict
while its inputs stay; one that waited for outpoints can, once they are all there, be turned down
only for what could not be looked at before they came. -/
namespace UtxoReadiness

open MachineWords ScaleCodec KeyedStore HistoryLedger UtxoTransaction UtxoPallet UtxoValidation
  UtxoChainSpec UtxoRuntime UtxoHistory UtxoExecution UtxoPool UtxoConservation UtxoRejection

variable {N : Type} [BlockNumber N] {E : Env N} {genesisUtxos : List TransactionOutput}
  {p : Phase} {tr ys : List (Transition N)} {s s' : State N} {t : Transaction}
  {v : ValidTransaction}

/-- An output that is still there is the one that was there. -/
theorem stored_unchanged (hrep : Represents s.utxoStore (historyOf E genesisUtxos tr))
    (hvalid' : HistoryLedger.Valid (historyOf E genesisUtxos (ys ++ tr)))
    (hrep' : Represents s'.utxoStore (historyOf E genesisUtxos (ys ++ tr))) {k : H256}
    {o o' : TransactionOutput} (ho : s.utxoStore.lookup k = some o)
    (ho' : s'.utxoStore.lookup k = some o') : o = o' := by
  obtain ⟨b, hb, hk⟩ := created_historyOf.mp ((hrep k o).mp ho).1
  have hlater : (b, o) ∈ allWrites E genesisUtxos (ys ++ tr) := by
    rw [allWrites, List.flatMap_append, List.append_assoc]
    exact List.mem_append_right _ hb
  exact created_functional hvalid' (created_historyOf.mpr ⟨b, hlater, hk⟩) ((hrep' k o').mp ho').1

/-- The faults that a transaction may still have when its last input arrives. -/
inductive ArrivalFault (E : Env N) (s' : State N) (t : Transaction) (requires : List Bytes) :
    String → Prop where
  | signature {input utxo} (hin : input ∈ t.inputs.toList)
      (harrived : input.outpoint.bytes ∈ requires)
      (hu : s'.utxoStore.lookup input.outpoint = some utxo)
      (hsig : ¬ E.sr25519Verify input.sigscript (getSimpleTransaction t) utxo.pubkey) :
      ArrivalFault E s' t requires "signature must be valid"
  | overflow (hover : 2 ^ 128 ≤ inputTotal s' t) :
      ArrivalFault E s' t requires "input value overflow"
  | unbalanced (hlt : inputTotal s' t < outputTotal t) :
      ArrivalFault E s' t requires "output value must not exceed input value"

omit [BlockNumber N] in
theorem prefix_sum_le {before after : List TransactionInput} {input : TransactionInput}
    (h : t.inputs.toList = before ++ input :: after) :
    (before.map (inputValue s)).sum + inputValue s input ≤ inputTotal s t := by
  rw [inputTotal, h]
  simp only [List.map_append, List.map_cons, List.sum_append, List.sum_cons]
  omega

omit [BlockNumber N] in
/-- A transaction that was valid once, has its inputs and has fresh keys is valid again unless one
of the arrived inputs is at fault. -/
theorem revalidation (hv : validateTransaction E s t = .ok v)
    (hsame : ∀ k o o', s.utxoStore.lookup k = some o → s'.utxoStore.lookup k = some o' → o = o')
    (hpresent : ∀ k ∈ t.outpoints, k ∈ s'.utxoStore)
    (hfree : ∀ e ∈ createdOutputs E t, e.1 ∉ s'.utxoStore) :
    (∃ v', validateTransaction E s' t = .ok v' ∧ v'.requires = [] ∧ v'.provides = v.provides) ∨
      ∃ msg, validateTransaction E s' t = .error msg ∧ ArrivalFault E s' t v.requires msg := by
  have hvalid := (validateTransaction_eq_ok.mp hv).1
  cases hv' : validateTransaction E s' t with
  | ok v' =>
    obtain ⟨-, -, rfl⟩ := validateTransaction_eq_ok.mp hv'
    obtain ⟨-, -, rfl⟩ := validateTransaction_eq_ok.mp hv
    exact Or.inl ⟨_, rfl, List.map_eq_nil_iff.mpr (getMissingUtxos_eq_nil.mpr hpresent), rfl⟩
  | error msg =>
    refine Or.inr ⟨msg, rfl, ?_⟩
    cases validateTransaction_eq_error.mp hv' with
    | noInputs hin => exact absurd hin hvalid.inputs_nonempty
    | noOutputs hin hout => exact absurd hout hvalid.outputs_nonempty
    | inputTwice hin hout hdup => exact absurd hvalid.inputs_distinct hdup
    | outputTwice hin hout hn hdup => exact absurd hvalid.outputs_distinct hdup
    | unbalanced hw hinputs houtputs hall hlt => exact .unbalanced hlt
    | @input before input after msg hw hsplit hpass hfault =>
      have hmem : input ∈ t.inputs.toList := by simp [hsplit]
      cases hfault with
      | @signature utxo hu hsig =>
        have harrived : input.outpoint ∉ s.utxoStore := by
          intro hstored
          obtain ⟨o, ho⟩ := Finmap.mem_iff.mp hstored
          obtain rfl := hsame _ _ _ ho hu
          exact hsig (hvalid.signatures input hmem o ho)
        exact .signature hmem ((mem_requires hv (List.mem_map_of_mem hmem)).mpr harrived) hu hsig
      | overflow hu hsig hover =>
        have hle := prefix_sum_le (s := s') hsplit
        rw [inputValue_some hu] at hle
        exact .overflow (hover.trans hle)
    | @output before output after msg hw hinputs hsplit hpass hfault =>
      have hmem : output ∈ t.outputs.toList := by simp [hsplit]
      cases hfault with
      | zero hzero => exact absurd (hvalid.outputs_positive output hmem) hzero
      | taken hpos hkey =>
        exfalso
        have hcreated : outputKey E t before.length ∈ (createdOutputs E t).map Prod.fst :=
          mem_createdKeys.mpr ⟨before.length, by simp [hsplit], rfl⟩
        obtain ⟨e, he, hek⟩ := List.mem_map.mp hcreated
        exact hfree e he (hek ▸ hkey)
      | overflow hpos hkey hover =>
        exfalso
        have hfit := hvalid.outputs_fit
        rw [outputTotal, hsplit] at hfit
        simp only [List.map_append, List.map_cons, List.sum_append, List.sum_cons,
          outputValue] at hfit hover
        omega

omit [BlockNumber N] in
theorem revalidation_same (hv : validateTransaction E s t = .ok v) (hreq : v.requires = [])
    (hlookup : ∀ k ∈ t.outpoints, s'.utxoStore.lookup k = s.utxoStore.lookup k)
    (hfree : ∀ e ∈ createdOutputs E t, e.1 ∉ s'.utxoStore) :
    validateTransaction E s' t = .ok v := by
  have hs : Spendable E s t := spendable_iff.mpr ⟨v, hv, hreq⟩
  have hs' := (spendable_congr hs hlookup hfree).1
  have hmissing := getMissingUtxos_eq_nil.mpr hs.present
  have hmissing' := getMissingUtxos_eq_nil.mpr hs'.present
  obtain ⟨-, hlen, rfl⟩ := validateTransaction_eq_ok.mp hv
  refine validateTransaction_eq_ok.mpr ⟨hs'.toValid, hlen, ?_⟩
  simp only [validTransaction, priority, hmissing, hmissing', inputTotal_congr hlookup]

/-- What the pool was told of a transaction is still true in any later block that has all of its
inputs: an accepted one gets the same verdict, and one that waited is accepted or at fault in what
it waited for. -/
theorem verdict_lasts {p' : Phase} (hr : Run E genesisUtxos p tr s)
    (hr' : Run E genesisUtxos p' (ys ++ tr) s') (hb : BlocksIncrease (ys ++ tr))
    (hc : CollisionFree E ((outputWrites t).map Prod.fst ++
      keyPreimages E genesisUtxos (ys ++ tr)))
    (hv : validateTransaction E s t = .ok v) (hpresent : ∀ k ∈ t.outpoints, k ∈ s'.utxoStore) :
    (v.requires = [] → validateTransaction E s' t = .ok v) ∧
    ((∃ v', validateTransaction E s' t = .ok v' ∧ v'.requires = [] ∧ v'.provides = v.provides) ∨
      ∃ msg, validateTransaction E s' t = .error msg ∧ ArrivalFault E s' t v.requires msg) := by
  have hlater : CollisionFree E (keyPreimages E genesisUtxos (ys ++ tr)) :=
    hc.mono fun b hb => List.mem_append_right _ hb
  have hbefore : CollisionFree E (keyPreimages E genesisUtxos tr) :=
    hlater.mono fun b hb => mem_keyPreimages_append hb ys
  have hblocks : BlocksIncrease tr :=
    List.Pairwise.sublist ((List.sublist_append_right ys tr).filterMap _) hb
  have hrep := (run_ledger hr hblocks hbefore).2
  obtain ⟨hvalid', hrep'⟩ := run_ledger hr' hb hlater
  have hsame : ∀ k o o', s.utxoStore.lookup k = some o → s'.utxoStore.lookup k = some o' →
      o = o' := fun k o o' => stored_unchanged hrep hvalid' hrep'
  have hin := (validateTransaction_eq_ok.mp hv).1.inputs_nonempty
  have hfree := keys_unused hrep' hin hpresent hc
  refine ⟨?_, revalidation hv hsame hpresent hfree⟩
  intro hreq
  have hs : Spendable E s t := spendable_iff.mpr ⟨v, hv, hreq⟩
  apply revalidation_same hv hreq _ hfree
  intro k hk
  obtain ⟨o, ho⟩ := Finmap.mem_iff.mp (hs.present k hk)
  obtain ⟨o', ho'⟩ := Finmap.mem_iff.mp (hpresent k hk)
  rw [ho, ho', hsame k o o' ho ho']

theorem poolBlock_executes :
    (execute demoPool demoBlock (start demoPool (testnetGenesis [alice, bob]))).isSome := by
  decide +kernel

theorem poolOpen_executes :
    (execute demoPool (demoBlock.take 2) (start demoPool (testnetGenesis [alice, bob]))).isSome := by
  decide +kernel

theorem demo_accepted :
    (validateTransaction demoPool poolGenesis demoTransaction).toOption.any fun v =>
      v.requires = [] := by
  decide +kernel

/-- Bob's transaction waits for what Alice pays him in block 1, and hers stays accepted while the
block is open. -/
theorem chained_verdict_lasts : (∃ v p tr s', Run demoPool (testnetGenesis [alice, bob]) p tr s' ∧
    validateTransaction demoPool poolGenesis chained = .ok v ∧
    ((∃ v', validateTransaction demoPool s' chained = .ok v' ∧ v'.requires = [] ∧
        v'.provides = v.provides) ∨
      ∃ msg, validateTransaction demoPool s' chained = .error msg ∧
        ArrivalFault demoPool s' chained v.requires msg)) ∧
    ∃ v p tr s', Run demoPool (testnetGenesis [alice, bob]) p tr s' ∧
      validateTransaction demoPool poolGenesis demoTransaction = .ok v ∧
      validateTransaction demoPool s' demoTransaction = .ok v := by
  have hgenesis : Run demoPool (testnetGenesis [alice, bob]) .closed [] poolGenesis := .genesis
  constructor
  · obtain ⟨v, hv⟩ := Option.isSome_iff_exists.mp chained_waits
    have hlater := run_of_execute_get poolBlock_executes
    rw [← List.append_nil (Option.get _ poolBlock_executes).2.1] at hlater
    have hlasts := verdict_lasts hgenesis hlater (by decide +kernel) (by decide +kernel)
      (toOption_eq_some.mp hv) (by decide +kernel)
    exact ⟨v, _, _, _, hlater, toOption_eq_some.mp hv, hlasts.2⟩
  · obtain ⟨v, hv, hreq⟩ := (Option.any_eq_true _ _).mp demo_accepted
    have hlater := run_of_execute_get poolOpen_executes
    rw [← List.append_nil (Option.get _ poolOpen_executes).2.1] at hlater
    have hlasts := verdict_lasts hgenesis hlater (by decide +kernel) (by decide +kernel)
      (toOption_eq_some.mp hv) (by decide +kernel)
    exact ⟨v, _, _, _, hlater, toOption_eq_some.mp hv, hlasts.1 (of_decide_eq_true hreq)⟩

end UtxoReadiness
