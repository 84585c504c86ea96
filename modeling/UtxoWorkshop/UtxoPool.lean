import UtxoWorkshop.UtxoHistory

/-! The transaction pool. The runtime API hands a spend to the pallet's own validation and its
answer to the pool: whether the spend is acceptable, which outpoints it still waits for and which
keys it will create. -/
namespace UtxoPool

open MachineWords ScaleCodec KeyedStore HistoryLedger UtxoTransaction UtxoPallet UtxoValidation
  UtxoChainSpec UtxoRuntime UtxoHistory

/-- `other` is whatever else the framework reports. -/
inductive TransactionValidityError where
  | invalidCustom (code : Word 8)
  | other
  deriving DecidableEq

abbrev TransactionValidity := Except TransactionValidityError ValidTransaction

variable {N : Type}

/-- `TaggedTransactionQueue::validate_transaction`; all but spends are left to the framework. -/
def taggedValidateTransaction (executive : Call → TransactionValidity) (E : Env N) (s : State N) :
    Call → TransactionValidity
  | .spend transaction =>
    match validateTransaction E s transaction with
    | .error _ => .error (.invalidCustom 1)
    | .ok tv => .ok tv
  | call => executive call

/-- What makes a transaction acceptable, in no particular order and without machine integers. -/
structure Acceptable (E : Env N) (s : State N) (t : Transaction) : Prop where
  inputs_nonempty : t.inputs.toList ≠ []
  outputs_nonempty : t.outputs.toList ≠ []
  inputs_distinct : t.inputs.toList.Nodup
  outputs_distinct : t.outputs.toList.Nodup
  inputs_owned : ∀ input ∈ t.inputs.toList, ∃ utxo,
    s.utxoStore.lookup input.outpoint = some utxo ∧
      E.sr25519Verify input.sigscript (getSimpleTransaction t) utxo.pubkey
  outputs_nonzero : ∀ output ∈ t.outputs.toList, output.value ≠ 0
  keys_free : ∀ i < t.outputs.toList.length, outputHash E t (Fin.ofNat _ i) ∉ s.utxoStore
  inputs_fit : (t.inputs.toList.map (inputValue s)).sum < 2 ^ 128
  balanced : (t.outputs.toList.map outputValue).sum ≤ (t.inputs.toList.map (inputValue s)).sum

variable {E : Env N} {s s' : State N} {t u : Transaction}

theorem mem_createdKeys {k : H256} : k ∈ (createdOutputs E t).map Prod.fst ↔
    ∃ i < t.outputs.toList.length, outputHash E t (Fin.ofNat _ i) = k := by
  simp only [createdOutputs, outputEntries, List.map_map, List.mem_map, Prod.exists,
    List.mem_zipIdx_iff_getElem?, Function.comp_apply, outputKey]
  constructor
  · intro h
    rcases h with ⟨o, i, ho, hk⟩
    exact ⟨i, (List.getElem?_eq_some_iff.mp ho).1, hk⟩
  · intro h
    rcases h with ⟨i, hi, hk⟩
    exact ⟨_, i, List.getElem?_eq_getElem hi, hk⟩

theorem acceptable_iff : Acceptable E s t ↔ Spendable E s t := by
  constructor
  · intro h
    exact {
      inputs_nonempty := h.inputs_nonempty
      outputs_nonempty := h.outputs_nonempty
      inputs_distinct := h.inputs_distinct
      outputs_distinct := h.outputs_distinct
      signatures := by
        intro input hin utxo hu
        obtain ⟨utxo', hu', hsig⟩ := h.inputs_owned input hin
        cases hu.symm.trans hu'
        exact hsig
      outputs_positive := fun output hout => Fin.pos_of_ne_zero (h.outputs_nonzero output hout)
      keys_fresh := by
        intro e he
        obtain ⟨i, hi, hk⟩ := mem_createdKeys.mp (List.mem_map_of_mem (f := Prod.fst) he)
        exact hk ▸ h.keys_free i hi
      inputs_fit := h.inputs_fit
      outputs_fit := h.balanced.trans_lt h.inputs_fit
      balanced := fun _ => h.balanced
      present := by
        intro k hk
        obtain ⟨input, hin, rfl⟩ := List.mem_map.mp hk
        obtain ⟨utxo, hu, -⟩ := h.inputs_owned input hin
        exact Finmap.mem_iff.mpr ⟨utxo, hu⟩ }
  · intro h
    exact {
      inputs_nonempty := h.inputs_nonempty
      outputs_nonempty := h.outputs_nonempty
      inputs_distinct := h.inputs_distinct
      outputs_distinct := h.outputs_distinct
      inputs_owned := by
        intro input hin
        obtain ⟨utxo, hu⟩ := Finmap.mem_iff.mp (h.present _ (List.mem_map_of_mem hin))
        exact ⟨utxo, hu, h.signatures input hin utxo hu⟩
      outputs_nonzero := fun output hout => (h.outputs_positive output hout).ne'
      keys_free := by
        intro i hi
        obtain ⟨e, he, hk⟩ := List.mem_map.mp (mem_createdKeys.mpr ⟨i, hi, rfl⟩)
        exact hk ▸ h.keys_fresh e he
      inputs_fit := h.inputs_fit
      balanced := h.balanced (getMissingUtxos_eq_nil.mpr h.present) }

/-- The pool and the execution both decide by the same order-free conditions. -/
theorem acceptance_exact (executive : Call → TransactionValidity) (E : Env N) (s : State N)
    (o : Origin) (t : Transaction) :
    ((∃ v, validateTransaction E s t = .ok v ∧ v.requires = []) ↔ Acceptable E s t) ∧
    ((∃ s', (spend E o t).run s = .ok () s') ↔ Acceptable E s t ∧
      ∀ v, validateTransaction E s t = .ok v → s.rewardTotal.val + v.priority.val < 2 ^ 128) ∧
    ((∃ s', (spend E o t).run s = .ok () s') ↔
      ∃ v, taggedValidateTransaction executive E s (.spend t) = .ok v ∧ v.requires = [] ∧
        s.rewardTotal.val + v.priority.val < 2 ^ 128) := by
  have haccept : (∃ v, validateTransaction E s t = .ok v ∧ v.requires = []) ↔
      Acceptable E s t := spendable_iff.symm.trans acceptable_iff.symm
  refine ⟨haccept, ?_, ?_⟩
  · rw [spend_succeeds_iff, ← haccept]
    constructor
    · intro h
      rcases h with ⟨v, hv, hreq, hfit⟩
      refine ⟨⟨v, hv, hreq⟩, ?_⟩
      intro w hw
      cases hv.symm.trans hw
      exact hfit
    · intro h
      rcases h with ⟨⟨v, hv, hreq⟩, hfit⟩
      exact ⟨v, hv, hreq, hfit v hv⟩
  · have htagged (v : ValidTransaction) : validateTransaction E s t = .ok v ↔
        taggedValidateTransaction executive E s (.spend t) = .ok v := by
      rw [taggedValidateTransaction]
      cases validateTransaction E s t with
      | error message => exact ⟨nofun, nofun⟩
      | ok tv => exact Iff.of_eq (by rw [Except.ok.injEq, Except.ok.injEq])
    simp only [spend_succeeds_iff, htagged]

/-- Successful spends from `s` on, newest first, whether or not a block is open. -/
inductive Spends (E : Env N) (s : State N) : List (Transition N) → State N → Prop where
  | nil : Spends E s [] s
  | snoc {ys s₁ o t s₂} : Spends E s ys s₁ → (spend E o t).run s₁ = .ok () s₂ →
      Spends E s (⟨s₁, .call o (.spend t)⟩ :: ys) s₂

theorem mem_requires {v : ValidTransaction} {k : H256} (hv : validateTransaction E s t = .ok v)
    (hk : k ∈ t.outpoints) : k.bytes ∈ v.requires ↔ k ∉ s.utxoStore := by
  obtain ⟨-, -, rfl⟩ := validateTransaction_eq_ok.mp hv
  rw [validTransaction, List.mem_map_of_injective fixedHash_injective, getMissingUtxos,
    List.mem_filter, Option.isNone_iff_eq_none, Finmap.lookup_eq_none]
  exact and_iff_right hk

theorem mem_provides {v : ValidTransaction} {k : H256} (hv : validateTransaction E s t = .ok v) :
    k.bytes ∈ v.provides ↔ k ∈ (createdOutputs E t).map Prod.fst := by
  obtain ⟨-, -, rfl⟩ := validateTransaction_eq_ok.mp hv
  rw [← List.mem_map_of_injective fixedHash_injective, List.map_map]
  rfl

/-- A spend writes the keys its validation provides, in the order of its outputs. -/
theorem spend_writes_provides {o : Origin} (h : (spend E o t).run s = .ok () s') :
    ∃ v entries, validateTransaction E s t = .ok v ∧
      s'.utxoStore = insertAll (removeAll s.utxoStore t.outpoints) entries ∧
      entries.map Prod.snd = t.outputs.toList ∧
      entries.map (fun e => e.1.bytes) = v.provides := by
  obtain ⟨hs, total, -, rfl⟩ := spend_eq_ok.mp h
  obtain ⟨v, hv, -⟩ := spendable_iff.mp hs
  obtain ⟨-, -, rfl⟩ := validateTransaction_eq_ok.mp hv
  refine ⟨_, createdOutputs E t, hv, rfl, ?_, rfl⟩
  rw [createdOutputs, outputEntries, List.map_map]
  exact List.zipIdx_map_fst 0 t.outputs.toList

/-- A key that no spend consumes is there when it was there before or one of them created it. -/
theorem Spends.mem_iff {ys : List (Transition N)} (h : Spends E s ys s') {k : H256}
    (hk : ∀ x ∈ ys, k ∉ consumes E x) : k ∈ s'.utxoStore ↔
      (∃ x ∈ ys, ∃ u, x.spent E = some u ∧ k ∈ (createdOutputs E u).map Prod.fst) ∨
        k ∈ s.utxoStore := by
  induction h with
  | nil => simp
  | @snoc ys s₁ o t s₂ h hspend ih =>
    obtain ⟨hx, hk⟩ := List.forall_mem_cons.mp hk
    have hspent := spent_of_ok hspend
    have hkt : k ∉ t.outpoints := fun hmem => hx (mem_consumes.mpr ⟨t, hspent, hmem⟩)
    obtain ⟨-, total, -, rfl⟩ := spend_eq_ok.mp hspend
    rw [List.exists_mem_cons_iff, or_assoc, ← ih hk, afterSpend, mem_update, hspent]
    simp [hkt]

variable [BlockNumber N] {genesisUtxos : List TransactionOutput} {p : Phase}
  {tr ys : List (Transition N)}

/-- Spends extend the history of a reachable state, also between two blocks. -/
theorem Spends.ledger (h : Spends E s ys s') (hv : HistoryLedger.Valid (historyOf E genesisUtxos tr))
    (hr : Represents s.utxoStore (historyOf E genesisUtxos tr))
    (hc : CollisionFree E (keyPreimages E genesisUtxos (ys ++ tr))) :
    HistoryLedger.Valid (historyOf E genesisUtxos (ys ++ tr)) ∧
      Represents s'.utxoStore (historyOf E genesisUtxos (ys ++ tr)) := by
  induction h with
  | nil => exact ⟨hv, hr⟩
  | @snoc ys s₁ o t s₂ h hspend ih =>
    obtain ⟨hv, hr⟩ := ih hc.tail
    have hspent := spent_of_ok hspend
    have ha := spent_admissible hspent hc hr
    obtain ⟨hs, total, htotal, rfl⟩ := spend_eq_ok.mp hspend
    refine ⟨.cons hv ha, ?_⟩
    rw [effect_utxoStore (.spent o t total hs htotal)]
    exact hr.update hv ha

/-- What a spend consumed never comes back, whatever the later spends create. -/
theorem consumed_gone (hr : Run E genesisUtxos p tr s) (hb : BlocksIncrease tr)
    (hs : Spends E s ys s') (hc : CollisionFree E (keyPreimages E genesisUtxos (ys ++ tr)))
    {k : H256} (hcon : ∃ x ∈ ys, ∃ u, x.spent E = some u ∧ k ∈ u.outpoints) :
    k ∉ s'.utxoStore := by
  have hbefore : CollisionFree E (keyPreimages E genesisUtxos tr) := by
    apply hc.mono
    intro b hmem
    exact mem_keyPreimages_append hmem ys
  obtain ⟨hvalid, hrep⟩ := run_ledger hr hb hbefore
  obtain ⟨-, hrep'⟩ := hs.ledger hvalid hrep hc
  intro hmem
  obtain ⟨o, hlive⟩ := hrep'.mem.mp hmem
  obtain ⟨x, hx, u, hu, hku⟩ := hcon
  apply hlive.2
  exact consumed_historyOf.mpr ⟨x, List.mem_append_left _ hx, mem_consumes.mpr ⟨u, hu, hku⟩⟩

/-- What validation tells the pool: the keys a spend will write, and the outpoints it waits for,
kept up to date by the spends that come in between. -/
theorem tags_tell_the_truth (hr : Run E genesisUtxos p tr s) (hb : BlocksIncrease tr)
    (hs : Spends E s ys s') (hc : CollisionFree E (keyPreimages E genesisUtxos (ys ++ tr))) :
    (∀ s₁ o u s₂, (spend E o u).run s₁ = .ok () s₂ →
      ∃ v entries, validateTransaction E s₁ u = .ok v ∧
        s₂.utxoStore = insertAll (removeAll s₁.utxoStore u.outpoints) entries ∧
        entries.map Prod.snd = u.outputs.toList ∧
        entries.map (fun e => e.1.bytes) = v.provides) ∧
    ∀ t v v', validateTransaction E s t = .ok v → validateTransaction E s' t = .ok v' →
      ∀ k ∈ t.outpoints, (k.bytes ∈ v'.requires ↔
        (∃ x ∈ ys, ∃ u, x.spent E = some u ∧ k ∈ u.outpoints) ∨
        k.bytes ∈ v.requires ∧ ∀ x ∈ ys, ∀ u w, x.spent E = some u →
          validateTransaction E x.state u = .ok w → k.bytes ∉ w.provides) := by
  refine ⟨fun s₁ o u s₂ h => spend_writes_provides h, ?_⟩
  intro t v v' hv hv' k hk
  rw [mem_requires hv hk, mem_requires hv' hk]
  by_cases hcon : ∃ x ∈ ys, ∃ u, x.spent E = some u ∧ k ∈ u.outpoints
  · exact iff_of_true (consumed_gone hr hb hs hc hcon) (Or.inl hcon)
  · have hkeep : ∀ x ∈ ys, k ∉ consumes E x := by
      intro x hx hmem
      obtain ⟨u, hu, hku⟩ := mem_consumes.mp hmem
      exact hcon ⟨x, hx, u, hu, hku⟩
    rw [hs.mem_iff hkeep, not_or, or_iff_right hcon, and_comm]
    apply and_congr_right
    intro _
    constructor
    · intro hnot x hx u w hu hw hkw
      exact hnot ⟨x, hx, u, hu, (mem_provides hw).mp hkw⟩
    · rintro hnot ⟨x, hx, u, hu, hku⟩
      obtain ⟨w, hw, -⟩ := spendable_iff.mp (spent_spendable hu)
      exact hnot x hx u w hu hw ((mem_provides hw).mpr hku)

/-- Bob passes on a part of what Alice is about to pay him. -/
def chained : Transaction where
  inputs := ⟨[{
    outpoint := newUtxoHash
    sigscript :=
      fixedHash 64 (0xc2bce20fba3952d5cea710d67b69efba5b0d8d3007987c4ac0bd0e0f66392833 <<< 256 +
        0x78ba81c8668dc19aeb91f48e868a712a748fda9d33ae15d410bb20941b01d98a) }], by decide⟩
  outputs := ⟨[{ value := 20, pubkey := alice }], by decide⟩

def demoPool : Env U32 where
  issuance _ := some 50
  blakeTwo256 := hashFrom ((outputPreimage chained 0,
    fixedHash 32 0x64b1eaece9678ae53ffecb06a5987f429ee6f7604e809904bed6054c4b543ee8) :: digests)
  sr25519Verify signature message key :=
    demo.sr25519Verify signature message key ∨
      (∃ input ∈ chained.inputs.toList, input.sigscript = signature) ∧
        message = getSimpleTransaction chained ∧ key = bob
  overflowChecks := false

def poolGenesis : State U32 := genesisState demoPool (testnetGenesis [alice, bob])

def poolSpend : Transition U32 := ⟨poolGenesis, .call .root (.spend demoTransaction)⟩

def poolSpent : State U32 := (next demoPool poolGenesis poolSpend.action).getD poolGenesis

theorem poolSpend_run : (spend demoPool .root demoTransaction).run poolGenesis =
    .ok () poolSpent := by
  obtain ⟨s₂, hs₂⟩ := spend_of_valid (o := .root) (E := demoPool) (s := poolGenesis)
    (t := demoTransaction) (by decide +kernel)
  have hsame : poolSpent = s₂ := by simp [poolSpent, poolSpend, next, Call.dispatch, hs₂]
  rw [hsame, hs₂]

theorem chained_waits : (validateTransaction demoPool poolGenesis chained).toOption.isSome := by
  decide +kernel

theorem chained_ready : (validateTransaction demoPool poolSpent chained).toOption.isSome := by
  decide +kernel

theorem demo_tags : ∃ v v', validateTransaction demoPool poolGenesis chained = .ok v ∧
    validateTransaction demoPool poolSpent chained = .ok v' ∧
    (newUtxoHash.bytes ∈ v'.requires ↔
      (∃ x ∈ [poolSpend], ∃ u, Transition.spent demoPool x = some u ∧
        newUtxoHash ∈ u.outpoints) ∨
      newUtxoHash.bytes ∈ v.requires ∧ ∀ x ∈ [poolSpend], ∀ u w,
        Transition.spent demoPool x = some u →
          validateTransaction demoPool x.state u = .ok w → newUtxoHash.bytes ∉ w.provides) := by
  obtain ⟨v, hv⟩ := Option.isSome_iff_exists.mp chained_waits
  obtain ⟨v', hv'⟩ := Option.isSome_iff_exists.mp chained_ready
  have hv := toOption_eq_some.mp hv
  have hv' := toOption_eq_some.mp hv'
  have hgenesis : Run demoPool (testnetGenesis [alice, bob]) .closed [] poolGenesis := .genesis
  have htags := tags_tell_the_truth hgenesis (by decide) (.snoc .nil poolSpend_run)
    (by decide +kernel)
  exact ⟨v, v', hv, hv', htags.2 chained v v' hv hv' newUtxoHash (by decide +kernel)⟩

end UtxoPool
