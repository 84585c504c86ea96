import UtxoWorkshop.HistoryLedger
import UtxoWorkshop.UtxoRuntime

/-! The store refines its history. Every key is the hash of a preimage; the three formats differ
in length, a transaction repeats no preimage unless the same transaction succeeded before, and a
reward carries its block number. So while the hash does not collide no key is written twice. -/
namespace UtxoHistory

open MachineWords ScaleCodec KeyedStore HistoryLedger UtxoTransaction UtxoPallet UtxoValidation
  UtxoChainSpec UtxoRuntime

abbrev Ledger := HistoryLedger.History H256 TransactionOutput

section Writes

variable {N : Type} [BlockNumber N] (E : Env N) (genesisUtxos : List TransactionOutput)

/-- The outputs of a transaction, each with the preimage of its key. -/
def outputWrites (t : Transaction) : List (Bytes × TransactionOutput) :=
  t.outputs.toList.zipIdx.map fun p => (outputPreimage t (Fin.ofNat _ p.2), p.1)

def rewardWrite (s : State N) (utxo : TransactionOutput) : Bytes × TransactionOutput :=
  (rewardPreimage utxo (BlockNumber.saturatedInto s.blockNumber), utxo)

def writes (x : Transition N) : List (Bytes × TransactionOutput) :=
  (x.spent E).elim [] outputWrites ++ (x.reward E).elim [] fun utxo => [rewardWrite x.state utxo]

def consumes (x : Transition N) : List H256 := (x.spent E).elim [] Transaction.outpoints

def genesisWrites : List (Bytes × TransactionOutput) := genesisUtxos.map fun u => (u.encode, u)

def allWrites (tr : List (Transition N)) : List (Bytes × TransactionOutput) :=
  tr.flatMap (writes E) ++ genesisWrites genesisUtxos

/-- The strings whose hashes a run has used as keys. -/
def keyPreimages (tr : List (Transition N)) : List Bytes :=
  (allWrites E genesisUtxos tr).map Prod.fst

def hashed (w : Bytes × TransactionOutput) : H256 × TransactionOutput := (E.blakeTwo256 w.1, w.2)

def entry (x : Transition N) : Entry H256 TransactionOutput where
  consumed := consumes E x
  created := (writes E x).map (hashed E)

def genesisEntry : Entry H256 TransactionOutput where
  consumed := []
  created := (genesisWrites genesisUtxos).map (hashed E)

def historyOf (tr : List (Transition N)) : Ledger :=
  tr.map (entry E) ++ [genesisEntry E genesisUtxos]

def CollisionFree (bs : List Bytes) : Prop :=
  ∀ b ∈ bs, ∀ c ∈ bs, E.blakeTwo256 b = E.blakeTwo256 c → b = c

instance (bs : List Bytes) : Decidable (CollisionFree E bs) :=
  inferInstanceAs (Decidable (∀ b ∈ bs, ∀ c ∈ bs, _))

def blockNumbers (tr : List (Transition N)) : List N :=
  tr.filterMap fun x => x.action.opens

/-- Newest first, so each number is above all that follow it. -/
def BlocksIncrease (tr : List (Transition N)) : Prop := (blockNumbers tr).Pairwise (· > ·)

instance (tr : List (Transition N)) : Decidable (BlocksIncrease tr) :=
  inferInstanceAs (Decidable (List.Pairwise _ _))

end Writes

variable {N : Type} [BlockNumber N] {E : Env N} {genesisUtxos : List TransactionOutput}
  {p : Phase} {tr : List (Transition N)} {s s' : State N} {x : Transition N}

omit [BlockNumber N] in
theorem CollisionFree.mono {bs cs : List Bytes} (h : CollisionFree E cs)
    (hsub : ∀ b ∈ bs, b ∈ cs) : CollisionFree E bs := by
  intro b hb c hc
  exact h b (hsub b hb) c (hsub c hc)

theorem keyPreimages_cons : keyPreimages E genesisUtxos (x :: tr) =
    (writes E x).map Prod.fst ++ keyPreimages E genesisUtxos tr := by
  simp [keyPreimages, allWrites]

theorem BlocksIncrease.tail (h : BlocksIncrease (x :: tr)) : BlocksIncrease tr :=
  List.Pairwise.sublist ((List.sublist_cons_self x tr).filterMap _) h

theorem created_historyOf {k : H256} {o : TransactionOutput} :
    Created (historyOf E genesisUtxos tr) k o ↔
      ∃ b, (b, o) ∈ allWrites E genesisUtxos tr ∧ E.blakeTwo256 b = k := by
  simp only [Created, historyOf, allWrites, List.mem_append, List.mem_map, List.mem_flatMap,
    List.mem_singleton]
  constructor
  · intro h
    rcases h with ⟨e, ⟨x, hx, rfl⟩ | rfl, he⟩
    · obtain ⟨⟨b, o'⟩, hw, h⟩ := List.mem_map.mp he
      cases h
      exact ⟨b, Or.inl ⟨x, hx, hw⟩, rfl⟩
    · obtain ⟨⟨b, o'⟩, hw, h⟩ := List.mem_map.mp he
      cases h
      exact ⟨b, Or.inr hw, rfl⟩
  · intro h
    rcases h with ⟨b, ⟨x, hx, hw⟩ | hw, rfl⟩
    · exact ⟨entry E x, Or.inl ⟨x, hx, rfl⟩, List.mem_map_of_mem (f := hashed E) hw⟩
    · exact ⟨genesisEntry E genesisUtxos, Or.inr rfl, List.mem_map_of_mem (f := hashed E) hw⟩

theorem consumed_historyOf {k : H256} :
    Consumed (historyOf E genesisUtxos tr) k ↔ ∃ x ∈ tr, k ∈ consumes E x := by
  simp [Consumed, historyOf, entry, genesisEntry]

theorem mem_keyPreimages_new {w : Bytes × TransactionOutput} (h : w ∈ writes E x) :
    w.1 ∈ keyPreimages E genesisUtxos (x :: tr) := by
  rw [keyPreimages_cons]
  exact List.mem_append_left _ (List.mem_map_of_mem h)

theorem mem_keyPreimages_old {b : Bytes} (h : b ∈ keyPreimages E genesisUtxos tr) :
    b ∈ keyPreimages E genesisUtxos (x :: tr) := by
  rw [keyPreimages_cons]
  exact List.mem_append_right _ h

theorem mem_keyPreimages_append {b : Bytes} (h : b ∈ keyPreimages E genesisUtxos tr)
    (ys : List (Transition N)) : b ∈ keyPreimages E genesisUtxos (ys ++ tr) := by
  induction ys with
  | nil => exact h
  | cons y ys ih => exact mem_keyPreimages_old ih

theorem CollisionFree.tail (h : CollisionFree E (keyPreimages E genesisUtxos (x :: tr))) :
    CollisionFree E (keyPreimages E genesisUtxos tr) := by
  apply h.mono
  intro b hb
  exact mem_keyPreimages_old hb

/-- Where no preimage is repeated the hash repeats no key. -/
theorem admissible_entry (hc : CollisionFree E (keyPreimages E genesisUtxos (x :: tr)))
    (hlive : ∀ k ∈ consumes E x, ∃ o, Live (historyOf E genesisUtxos tr) k o)
    (hfresh : ∀ w ∈ writes E x, w.1 ∉ keyPreimages E genesisUtxos tr)
    (hfun : ∀ b o o', (b, o) ∈ writes E x → (b, o') ∈ writes E x → o = o') :
    Admissible (historyOf E genesisUtxos tr) (entry E x) := by
  refine ⟨hlive, ?_, ?_⟩
  · intro k o hk u hu
    obtain ⟨⟨b, o'⟩, hw, h⟩ := List.mem_map.mp hk
    obtain ⟨c, hcw, hbc⟩ := created_historyOf.mp hu
    cases h
    have hcm : c ∈ keyPreimages E genesisUtxos tr := List.mem_map_of_mem (f := Prod.fst) hcw
    have hcb := hc c (mem_keyPreimages_old hcm) b (mem_keyPreimages_new hw) hbc
    exact hfresh _ hw (hcb ▸ hcm)
  · intro k o o' ho ho'
    obtain ⟨⟨b, u⟩, hw, h⟩ := List.mem_map.mp ho
    obtain ⟨⟨c, u'⟩, hw', h'⟩ := List.mem_map.mp ho'
    obtain ⟨hb, rfl⟩ := Prod.mk.inj h
    obtain ⟨hk, rfl⟩ := Prod.mk.inj h'
    have hcb := hc c (mem_keyPreimages_new hw') b (mem_keyPreimages_new hw) (hk.trans hb.symm)
    exact hfun b u u' hw (hcb ▸ hw')

omit [BlockNumber N] in
theorem hashed_outputWrites (t : Transaction) :
    (outputWrites t).map (hashed E) = createdOutputs E t := by
  simp only [outputWrites, createdOutputs, outputEntries, List.map_map]
  rfl

/-- A transition leaves the store alone, spends a transaction or pays a reward. -/
theorem effect_writes {a : Action N} (h : Effect E s a s') :
    consumes E ⟨s, a⟩ = [] ∧ writes E ⟨s, a⟩ = [] ∧ s'.utxoStore = s.utxoStore ∨
    (∃ t, Transition.spent E ⟨s, a⟩ = some t ∧ Spendable E s t ∧
      writes E ⟨s, a⟩ = outputWrites t ∧
      s'.utxoStore = update s.utxoStore t.outpoints (createdOutputs E t)) ∨
    ∃ utxo, a = .onFinalize ∧ consumes E ⟨s, a⟩ = [] ∧ writes E ⟨s, a⟩ = [rewardWrite s utxo] ∧
      s'.utxoStore = s.utxoStore.insert (rewardHash E s utxo) utxo := by
  cases h with
  | initialized n => exact Or.inl ⟨rfl, rfl, rfl⟩
  | spent o t total hs ht =>
    have hok : (spend E o t).run s = .ok () (afterSpend E s t total) :=
      spend_eq_ok.mpr ⟨hs, total, ht, rfl⟩
    have hspent := spent_of_ok hok
    refine Or.inr (Or.inl ⟨t, hspent, hs, ?_, rfl⟩)
    simp [writes, hspent, Transition.reward]
  | rejected o t e he =>
    have hspent : Transition.spent E ⟨s, .call o (.spend t)⟩ = none := by
      simp only [Transition.spent, he]
    refine Or.inl ⟨?_, ?_, rfl⟩
    · simp [consumes, hspent]
    · simp [writes, hspent, Transition.reward]
  | declared author hn => exact Or.inl ⟨rfl, rfl, rfl⟩
  | refused o author h => exact Or.inl ⟨rfl, rfl, rfl⟩
  | wasted hn =>
    refine Or.inl ⟨rfl, ?_, rfl⟩
    simp [writes, Transition.spent, Transition.reward, hn]
  | rewarded author utxo ha hu =>
    refine Or.inr (Or.inr ⟨utxo, rfl, rfl, ?_, rfl⟩)
    simp [writes, Transition.spent, Transition.reward, ha, hu]

theorem effect_blockNumber {a : Action N} (h : Effect E s a s') :
    s'.blockNumber = a.opens.getD s.blockNumber := by
  cases h <;> rfl

/-- Every finalization belongs to a block of its own: an open block has the newest number, and
only earlier blocks are finalized. -/
def Numbered : Phase → List (Transition N) → State N → Prop
  | .closed, tr, _ => ∀ x ∈ tr, x.action = .onFinalize → x.state.blockNumber ∈ blockNumbers tr
  | .opened, tr, s => ∃ rest, blockNumbers tr = s.blockNumber :: rest ∧
      ∀ x ∈ tr, x.action = .onFinalize → x.state.blockNumber ∈ rest

theorem run_numbered (hr : Run E genesisUtxos p tr s) : Numbered p tr s := by
  induction hr with
  | genesis => simp [Numbered]
  | @step p p' tr s a s' _ hp hn ih =>
    have hnum := effect_blockNumber (next_effect hn)
    cases a with
    | onInitialize n =>
      obtain ⟨rfl, rfl⟩ := Phase.next_onInitialize hp
      refine ⟨blockNumbers tr, ?_, ?_⟩
      · rw [hnum]
        rfl
      · exact List.forall_mem_cons.mpr ⟨nofun, ih⟩
    | call o c =>
      obtain ⟨rfl, rfl⟩ := Phase.next_call hp
      obtain ⟨rest, hrest, hfin⟩ := ih
      refine ⟨rest, ?_, ?_⟩
      · rw [hnum]
        exact hrest
      · exact List.forall_mem_cons.mpr ⟨nofun, hfin⟩
    | onFinalize =>
      obtain ⟨rfl, rfl⟩ := Phase.next_onFinalize hp
      obtain ⟨rest, hrest, hfin⟩ := ih
      have hsame : blockNumbers (⟨s, .onFinalize⟩ :: tr) = s.blockNumber :: rest := hrest
      rw [Numbered, hsame]
      refine List.forall_mem_cons.mpr ⟨?_, ?_⟩
      · intro _
        exact List.mem_cons_self
      · intro y hy hf
        exact List.mem_cons_of_mem _ (hfin y hy hf)

omit [BlockNumber N] in
theorem mem_consumes {x : Transition N} {k : H256} :
    k ∈ consumes E x ↔ ∃ t, x.spent E = some t ∧ k ∈ t.outpoints := by
  cases h : x.spent E <;> simp [consumes, h]

theorem mem_writes {x : Transition N} {w : Bytes × TransactionOutput} :
    w ∈ writes E x ↔ (∃ t, x.spent E = some t ∧ w ∈ outputWrites t) ∨
      ∃ utxo, x.reward E = some utxo ∧ w = rewardWrite x.state utxo := by
  cases h : x.spent E <;> cases h' : x.reward E <;> simp [writes, h, h']

theorem keyPreimages_cases {b : Bytes} (h : b ∈ keyPreimages E genesisUtxos tr) :
    (∃ u ∈ genesisUtxos, b = u.encode) ∨
    (∃ x ∈ tr, ∃ t, x.spent E = some t ∧ ∃ i, b = outputPreimage t i) ∨
    ∃ x ∈ tr, ∃ utxo, x.reward E = some utxo ∧ b = (rewardWrite x.state utxo).1 := by
  obtain ⟨w, hw, rfl⟩ := List.mem_map.mp h
  rcases List.mem_append.mp hw with hw | hw
  · obtain ⟨x, hx, hw⟩ := List.mem_flatMap.mp hw
    rcases mem_writes.mp hw with ⟨t, ht, hw⟩ | ⟨utxo, hu, rfl⟩
    · obtain ⟨q, _, rfl⟩ := List.mem_map.mp hw
      exact Or.inr (Or.inl ⟨x, hx, t, ht, _, rfl⟩)
    · exact Or.inr (Or.inr ⟨x, hx, utxo, hu, rfl⟩)
  · obtain ⟨u, hu, rfl⟩ := List.mem_map.mp hw
    exact Or.inl ⟨u, hu, rfl⟩

/-- If the preimage were there the same transaction would have succeeded before, and its inputs
would be gone. -/
theorem outputPreimage_unused {t : Transaction}
    (hr : Represents s.utxoStore (historyOf E genesisUtxos tr)) (hin : t.inputs.toList ≠ [])
    (hpresent : ∀ k ∈ t.outpoints, k ∈ s.utxoStore) (i : U64) :
    outputPreimage t i ∉ keyPreimages E genesisUtxos tr := by
  intro h
  have hlen := outputPreimage_length hin i
  rcases keyPreimages_cases h with ⟨u, _, hu⟩ | ⟨x, hx, t', ht', j, hj⟩ | ⟨x, _, utxo, _, hu⟩
  · rw [hu, output_encode_length] at hlen
    omega
  · obtain ⟨rfl, -⟩ := outputPreimage_injective hj
    obtain ⟨input, hinput⟩ := List.exists_mem_of_ne_nil _ hin
    have hmem : input.outpoint ∈ t.outpoints := List.mem_map_of_mem hinput
    obtain ⟨o, hlive⟩ := hr.mem.mp (hpresent _ hmem)
    apply hlive.2
    apply consumed_historyOf.mpr
    exact ⟨x, hx, mem_consumes.mpr ⟨t, ht', hmem⟩⟩
  · rw [hu, rewardWrite, rewardPreimage_length] at hlen
    omega

theorem outputPreimage_fresh {t : Transaction} (hs : Spendable E s t)
    (hr : Represents s.utxoStore (historyOf E genesisUtxos tr)) (i : U64) :
    outputPreimage t i ∉ keyPreimages E genesisUtxos tr :=
  outputPreimage_unused hr hs.inputs_nonempty hs.present i

theorem rewardPreimage_fresh (hn : Numbered .opened tr s) (hb : BlocksIncrease tr)
    (utxo : TransactionOutput) : (rewardWrite s utxo).1 ∉ keyPreimages E genesisUtxos tr := by
  intro h
  have hlen : (rewardWrite s utxo).1.length = 56 := rewardPreimage_length _ _
  obtain ⟨rest, hrest, hfin⟩ := hn
  rcases keyPreimages_cases h with ⟨u, _, hu⟩ | ⟨x, _, t, ht, i, hi⟩ | ⟨x, hx, u, hu, hxu⟩
  · rw [hu, output_encode_length] at hlen
    omega
  · have hlong := outputPreimage_length (spent_spendable ht).inputs_nonempty i
    rw [hi] at hlen
    omega
  · have hnum : BlockNumber.saturatedInto s.blockNumber =
        BlockNumber.saturatedInto x.state.blockNumber := (rewardPreimage_injective hxu).2
    have hmem := hfin x hx (reward_action hu)
    rw [BlocksIncrease, hrest] at hb
    have hlt : x.state.blockNumber < s.blockNumber := (List.pairwise_cons.mp hb).1 _ hmem
    exact (BlockNumber.saturatedInto_strictMono hlt).ne hnum.symm

theorem outputWrites_functional {t : Transaction} {b : Bytes} {o o' : TransactionOutput}
    (h : (b, o) ∈ outputWrites t) (h' : (b, o') ∈ outputWrites t) : o = o' := by
  obtain ⟨⟨u, i⟩, hi, hw⟩ := List.mem_map.mp h
  obtain ⟨⟨u', j⟩, hj, hw'⟩ := List.mem_map.mp h'
  obtain ⟨hb, rfl⟩ := Prod.mk.inj hw
  obtain ⟨hb', rfl⟩ := Prod.mk.inj hw'
  have hi := List.mem_zipIdx_iff_getElem?.mp hi
  have hj := List.mem_zipIdx_iff_getElem?.mp hj
  obtain ⟨hilt, -⟩ := List.getElem?_eq_some_iff.mp hi
  obtain ⟨hjlt, -⟩ := List.getElem?_eq_some_iff.mp hj
  have hsize := t.outputs.size
  have hmod : i % 2 ^ 64 = j % 2 ^ 64 :=
    congrArg Fin.val (outputPreimage_injective (hb.trans hb'.symm)).2
  have hij : i = j := by
    rw [Nat.mod_eq_of_lt (by omega), Nat.mod_eq_of_lt (by omega)] at hmod
    exact hmod
  subst hij
  exact Option.some.inj (hi.symm.trans hj)

theorem outputWrites_fresh {t : Transaction} (hs : Spendable E s t)
    (hr : Represents s.utxoStore (historyOf E genesisUtxos tr)) :
    ∀ w ∈ outputWrites t, w.1 ∉ keyPreimages E genesisUtxos tr := by
  intro w hw
  obtain ⟨q, _, rfl⟩ := List.mem_map.mp hw
  exact outputPreimage_fresh hs hr _

theorem writes_spent {t : Transaction} (ht : x.spent E = some t) : writes E x = outputWrites t := by
  obtain ⟨o, s', ha, -⟩ := spent_run ht
  have hreward : x.reward E = none := by simp only [Transition.reward, ha]
  rw [writes, ht, hreward]
  exact List.append_nil _

theorem spent_admissible {t : Transaction} (ht : x.spent E = some t)
    (hc : CollisionFree E (keyPreimages E genesisUtxos (x :: tr)))
    (hr : Represents x.state.utxoStore (historyOf E genesisUtxos tr)) :
    Admissible (historyOf E genesisUtxos tr) (entry E x) := by
  have hs := spent_spendable ht
  have hwr := writes_spent ht
  apply admissible_entry hc
  · intro k hk
    obtain ⟨u, hu, hmem⟩ := mem_consumes.mp hk
    cases ht.symm.trans hu
    exact hr.mem.mp (hs.present k hmem)
  · rw [hwr]
    exact outputWrites_fresh hs hr
  · intro b o o' ho ho'
    rw [hwr] at ho ho'
    exact outputWrites_functional ho ho'

theorem effect_admissible {a : Action N} (h : Effect E s a s') (hp : p.next a ≠ none)
    (hn : Numbered p tr s) (hb : BlocksIncrease tr)
    (hc : CollisionFree E (keyPreimages E genesisUtxos (⟨s, a⟩ :: tr)))
    (hr : Represents s.utxoStore (historyOf E genesisUtxos tr)) :
    Admissible (historyOf E genesisUtxos tr) (entry E ⟨s, a⟩) := by
  rcases effect_writes h with ⟨hcon, hwr, -⟩ | ⟨t, ht, -, -, -⟩ | ⟨utxo, rfl, hcon, hwr, -⟩
  · apply admissible_entry hc
    · simp [hcon]
    · simp [hwr]
    · simp [hwr]
  · exact spent_admissible ht hc hr
  · cases p with
    | closed => exact absurd rfl hp
    | opened =>
      apply admissible_entry hc
      · simp [hcon]
      · simp only [hwr, List.forall_mem_singleton]
        exact rewardPreimage_fresh hn hb utxo
      · simp only [hwr, List.mem_singleton]
        intro b o o' ho ho'
        exact congrArg Prod.snd (ho.trans ho'.symm)

theorem effect_utxoStore {a : Action N} (h : Effect E s a s') :
    s'.utxoStore = update s.utxoStore (entry E ⟨s, a⟩).consumed (entry E ⟨s, a⟩).created := by
  rcases effect_writes h with ⟨hcon, hwr, hst⟩ | ⟨t, ht, -, hwr, hst⟩ | ⟨u, -, hcon, hwr, hst⟩
  · rw [entry, hcon, hwr, hst]
    rfl
  · rw [entry, consumes, ht, hwr, hashed_outputWrites, hst]
    rfl
  · rw [entry, hcon, hwr, hst]
    rfl

theorem genesis_ledger (hc : CollisionFree E (keyPreimages E genesisUtxos [])) :
    Valid (historyOf E genesisUtxos []) ∧
      Represents (genesisState E genesisUtxos).utxoStore (historyOf E genesisUtxos []) := by
  have ha : Admissible [] (genesisEntry E genesisUtxos) := by
    refine ⟨by simp [genesisEntry], by simp [Created], ?_⟩
    intro k o o' ho ho'
    obtain ⟨w, hw, h⟩ := List.mem_map.mp ho
    obtain ⟨w', hw', h'⟩ := List.mem_map.mp ho'
    obtain ⟨hk, rfl⟩ := Prod.mk.inj h
    obtain ⟨hk', rfl⟩ := Prod.mk.inj h'
    have hb := hc _ (List.mem_map_of_mem (f := Prod.fst) hw) _
      (List.mem_map_of_mem (f := Prod.fst) hw') (hk.trans hk'.symm)
    obtain ⟨u, _, rfl⟩ := List.mem_map.mp hw
    obtain ⟨u', _, rfl⟩ := List.mem_map.mp hw'
    exact output_selfDelimiting.injective hb
  have hstore : (genesisState E genesisUtxos).utxoStore =
      update ∅ (genesisEntry E genesisUtxos).consumed (genesisEntry E genesisUtxos).created := by
    simp only [genesisState, genesisEntries, genesisEntry, genesisWrites, List.map_map]
    rfl
  refine ⟨.cons .nil ha, ?_⟩
  rw [hstore]
  exact represents_nil.update .nil ha

/-- Along every run the history is valid and the store holds its live outputs. -/
theorem run_ledger (hr : Run E genesisUtxos p tr s) (hb : BlocksIncrease tr)
    (hc : CollisionFree E (keyPreimages E genesisUtxos tr)) :
    Valid (historyOf E genesisUtxos tr) ∧
      Represents s.utxoStore (historyOf E genesisUtxos tr) := by
  induction hr with
  | genesis => exact genesis_ledger hc
  | step hr hp hn ih =>
    obtain ⟨hv, hrep⟩ := ih hb.tail hc.tail
    have he := next_effect hn
    have ha := effect_admissible he (by simp [hp]) (run_numbered hr) hb.tail hc hrep
    refine ⟨.cons hv ha, ?_⟩
    rw [effect_utxoStore he]
    exact hrep.update hv ha

end UtxoHistory
