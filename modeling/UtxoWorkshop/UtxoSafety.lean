import UtxoWorkshop.UtxoHistory

/-! What the refinement gives the users of the chain: an output can be spent while its creation
is not yet followed by its consumption, nothing is spent twice, and only the owner of an output
can make it disappear. -/
namespace UtxoSafety

open MachineWords ScaleCodec KeyedStore HistoryLedger UtxoTransaction UtxoPallet UtxoValidation
  UtxoChainSpec UtxoRuntime UtxoHistory

variable {N : Type} [BlockNumber N] {E : Env N} {genesisUtxos : List TransactionOutput}
  {p : Phase} {tr : List (Transition N)} {s s' : State N}

/-- By genesis, as an output of a successful spend, or as the reward of a block. -/
inductive CreatedIn (E : Env N) (genesisUtxos : List TransactionOutput)
    (tr : List (Transition N)) : H256 → TransactionOutput → Prop where
  | genesis {u} : u ∈ genesisUtxos → CreatedIn E genesisUtxos tr (E.blakeTwo256 u.encode) u
  | output {x t i o} : x ∈ tr → x.spent E = some t → t.outputs.toList[i]? = some o →
      CreatedIn E genesisUtxos tr (outputKey E t i) o
  | reward {x utxo} : x ∈ tr → x.reward E = some utxo →
      CreatedIn E genesisUtxos tr (rewardHash E x.state utxo) utxo

def ConsumedIn (E : Env N) (tr : List (Transition N)) (k : H256) : Prop :=
  ∃ x ∈ tr, ∃ t, x.spent E = some t ∧ k ∈ t.outpoints

def spentTransactions (E : Env N) (tr : List (Transition N)) : List Transaction :=
  tr.filterMap (Transition.spent E)

theorem consumedIn_iff (genesisUtxos : List TransactionOutput) {k : H256} :
    ConsumedIn E tr k ↔ Consumed (historyOf E genesisUtxos tr) k := by
  rw [consumed_historyOf]
  simp only [mem_consumes]
  rfl

theorem createdIn_iff {k : H256} {o : TransactionOutput} :
    CreatedIn E genesisUtxos tr k o ↔ Created (historyOf E genesisUtxos tr) k o := by
  rw [created_historyOf]
  constructor
  · intro h
    cases h with
    | genesis hu =>
      exact ⟨_, List.mem_append_right _ (List.mem_map_of_mem (f := fun u => (_, u)) hu), rfl⟩
    | @output x t i o hx ht ho =>
      have hi : (o, i) ∈ t.outputs.toList.zipIdx := List.mem_zipIdx_iff_getElem?.mpr ho
      refine ⟨outputPreimage t (Fin.ofNat _ i), List.mem_append_left _ ?_, rfl⟩
      exact List.mem_flatMap.mpr ⟨x, hx, mem_writes.mpr
        (Or.inl ⟨t, ht, List.mem_map.mpr ⟨_, hi, rfl⟩⟩)⟩
    | @reward x _ hx hu =>
      refine ⟨(rewardWrite x.state o).1, List.mem_append_left _ ?_, rfl⟩
      exact List.mem_flatMap.mpr ⟨x, hx, mem_writes.mpr (Or.inr ⟨o, hu, rfl⟩)⟩
  · intro h
    rcases h with ⟨b, hb, rfl⟩
    rcases List.mem_append.mp hb with hb | hb
    · obtain ⟨x, hx, hw⟩ := List.mem_flatMap.mp hb
      rcases mem_writes.mp hw with ⟨t, ht, hw⟩ | ⟨utxo, hu, hw⟩
      · obtain ⟨⟨u, i⟩, hi, hw⟩ := List.mem_map.mp hw
        cases hw
        exact .output hx ht (List.mem_zipIdx_iff_getElem?.mp hi)
      · obtain ⟨rfl, rfl⟩ := Prod.mk.inj hw
        exact .reward hx hu
    · obtain ⟨u, hu, h⟩ := List.mem_map.mp hb
      cases h
      exact .genesis hu

theorem spent_disjoint (hv : Valid (historyOf E genesisUtxos tr)) :
    tr.Pairwise fun x y => ∀ k ∈ consumes E x, k ∉ consumes E y := by
  have h := consumed_once hv
  rw [historyOf, List.pairwise_append] at h
  exact List.pairwise_map.mp h.1

theorem spentTransactions_disjoint (hv : Valid (historyOf E genesisUtxos tr)) :
    (spentTransactions E tr).Pairwise fun t u => ∀ k ∈ t.outpoints, k ∉ u.outpoints := by
  apply List.Pairwise.filterMap (Transition.spent E) _ (spent_disjoint hv)
  intro x y hxy t ht u hu k hk hku
  exact hxy k (mem_consumes.mpr ⟨t, ht, hk⟩) (mem_consumes.mpr ⟨u, hu, hku⟩)

/-- A repeated transaction would consume its outpoints twice, and it has one. -/
theorem spentTransactions_nodup (hv : Valid (historyOf E genesisUtxos tr)) :
    (spentTransactions E tr).Nodup := by
  apply List.Pairwise.imp_of_mem _ (spentTransactions_disjoint hv)
  intro t u ht _ hdis htu
  obtain ⟨x, _, hx⟩ := List.mem_filterMap.mp ht
  obtain ⟨k, hmem⟩ := (spent_spendable hx).exists_outpoint
  exact hdis k hmem (htu ▸ hmem)

theorem store_refines_history (hr : Run E genesisUtxos p tr s) (hb : BlocksIncrease tr)
    (hc : CollisionFree E (keyPreimages E genesisUtxos tr)) :
    (∀ k o, s.utxoStore.lookup k = some o ↔
      CreatedIn E genesisUtxos tr k o ∧ ¬ ConsumedIn E tr k) ∧
    ((spentTransactions E tr).Pairwise fun t u => ∀ k ∈ t.outpoints, k ∉ u.outpoints) ∧
    (∀ k, ConsumedIn E tr k → k ∉ s.utxoStore) ∧
    (spentTransactions E tr).Nodup := by
  obtain ⟨hv, hrep⟩ := run_ledger hr hb hc
  refine ⟨?_, spentTransactions_disjoint hv, ?_, spentTransactions_nodup hv⟩
  · intro k o
    rw [createdIn_iff, consumedIn_iff genesisUtxos]
    exact hrep k o
  · intro k hk hmem
    obtain ⟨o, hl⟩ := hrep.mem.mp hmem
    exact hl.2 ((consumedIn_iff genesisUtxos).mp hk)

theorem demo_refines_history :
    (demoRun.2.2.utxoStore.lookup newUtxoHash = some { value := 50, pubkey := bob } ↔
      CreatedIn demo (testnetGenesis [alice, bob]) demoRun.2.1 newUtxoHash
        { value := 50, pubkey := bob } ∧ ¬ ConsumedIn demo demoRun.2.1 newUtxoHash) ∧
    (spentTransactions demo demoRun.2.1).Nodup := by
  obtain ⟨hstore, -, -, hnodup⟩ :=
    store_refines_history demoRun_run (by decide +kernel) (by decide +kernel)
  exact ⟨hstore _ _, hnodup⟩

/-- What a transition does not consume it leaves as it was, new keys being new. -/
theorem lookup_of_notMem_consumes {a : Action N} {k : H256} {o : TransactionOutput}
    (hr : Represents s.utxoStore (historyOf E genesisUtxos tr))
    (ha : Admissible (historyOf E genesisUtxos tr) (entry E ⟨s, a⟩)) (he : Effect E s a s')
    (hk : s.utxoStore.lookup k = some o) (hn : k ∉ consumes E ⟨s, a⟩) :
    s'.utxoStore.lookup k = some o := by
  have hlive := (hr k o).mp hk
  have hnew : k ∉ (entry E ⟨s, a⟩).created.map Prod.fst := by
    intro hmem
    obtain ⟨⟨k', u⟩, hu, rfl⟩ := List.mem_map.mp hmem
    exact ha.fresh k' u hu o hlive.1
  rw [effect_utxoStore he]
  exact (lookup_update_of_notMem hnew hn).trans hk

theorem only_owner_removes {a : Action N} {p' : Phase} {k : H256} {o : TransactionOutput}
    (hr : Run E genesisUtxos p tr s) (hp : p.next a = some p') (hn : next E s a = some s')
    (hb : BlocksIncrease (⟨s, a⟩ :: tr))
    (hc : CollisionFree E (keyPreimages E genesisUtxos (⟨s, a⟩ :: tr)))
    (hk : s.utxoStore.lookup k = some o) (hk' : s'.utxoStore.lookup k ≠ some o) :
    ∃ origin t, a = .call origin (.spend t) ∧ (spend E origin t).run s = .ok () s' ∧
      ∃ input ∈ t.inputs.toList, input.outpoint = k ∧
        E.sr25519Verify input.sigscript (getSimpleTransaction t) o.pubkey := by
  obtain ⟨-, hrep⟩ := run_ledger hr hb.tail hc.tail
  have he := next_effect hn
  have ha := effect_admissible he (by simp [hp]) (run_numbered hr) hb.tail hc hrep
  have hmem : k ∈ consumes E ⟨s, a⟩ := by
    by_contra hnot
    exact hk' (lookup_of_notMem_consumes hrep ha he hk hnot)
  obtain ⟨t, ht, hkt⟩ := mem_consumes.mp hmem
  obtain ⟨origin, s₁, haction, hrun⟩ := spent_run ht
  have haction : a = .call origin (.spend t) := haction
  subst haction
  have hs₁ : s₁ = s' := by simpa only [next, Call.dispatch, hrun, Option.some.injEq] using hn
  obtain ⟨input, hin, hout⟩ := List.mem_map.mp hkt
  have hsig := (spent_spendable ht).signatures input hin o (hout ▸ hk)
  exact ⟨origin, t, rfl, hs₁ ▸ hrun, input, hin, hout, hsig⟩

theorem demoOpened_executes : (execute demo (demoBlock.take 2)
    (start demo (testnetGenesis [alice, bob]))).isSome := by
  decide +kernel

/-- The demo just before Alice pays Bob. -/
def demoOpened : State U32 := (Option.get _ demoOpened_executes).2.2

def demoSpend : Action U32 := .call (.signed alice) (.spend demoTransaction)

theorem demoSpend_next : (next demo demoOpened demoSpend).isSome := by decide +kernel

theorem demoSpend_phase : (Option.get _ demoOpened_executes).1.next demoSpend = some .opened := by
  decide +kernel

theorem demo_owner_removes : ∃ origin t, demoSpend = .call origin (.spend t) ∧
    (spend demo origin t).run demoOpened = .ok () (Option.get _ demoSpend_next) ∧
    ∃ input ∈ t.inputs.toList, input.outpoint = aliceOutpoint ∧
      demo.sr25519Verify input.sigscript (getSimpleTransaction t) alice :=
  only_owner_removes (o := { value := 100, pubkey := alice })
    (run_of_execute_get demoOpened_executes) demoSpend_phase (Option.some_get _).symm
    (by decide +kernel) (by decide +kernel) (by decide +kernel) (by decide +kernel)

end UtxoSafety
