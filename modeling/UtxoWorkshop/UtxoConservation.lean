import UtxoWorkshop.UtxoFees
import UtxoWorkshop.UtxoHistory
import UtxoWorkshop.UtxoInflation

/-! The books of a run, balanced to the last unit. While no key is written twice, a step moves
exactly the outputs it names, whatever they are weighed by; weighed by value, the store and the
reward total hold the genesis and the issuance less what the machine integers cut off, and
weighed by owner, a spend moves between owners just what its inputs and outputs say. -/
namespace UtxoConservation

open MachineWords ScaleCodec KeyedStore HistoryLedger UtxoTransaction UtxoPallet UtxoValidation
  UtxoChainSpec UtxoRuntime UtxoHistory UtxoInflation UtxoFees

section Spends

variable {N : Type} {E : Env N} {s : State N} {t : Transaction}

/-- The part of a fee that does not fit the `u64` it travels through. -/
def truncatedFee (s : State N) (t : Transaction) : ℕ :=
  2 ^ 64 * ((inputTotal s t - outputTotal t) / 2 ^ 64)

/-- The outputs of a key, added up. -/
def ownValue (key : Public) (output : TransactionOutput) : ℕ :=
  if output.pubkey = key then outputValue output else 0

def holdings (s : State N) (key : Public) : ℕ := total (ownValue key) s.utxoStore

theorem outputWrites_nodup (t : Transaction) : ((outputWrites t).map Prod.fst).Nodup := by
  have hmap : (outputWrites t).map Prod.fst =
      (t.outputs.toList.zipIdx.map Prod.snd).map fun i => outputPreimage t (Fin.ofNat _ i) := by
    simp only [outputWrites, List.map_map]
    rfl
  have hsize := t.outputs.size
  rw [hmap, List.zipIdx_map_snd]
  refine List.Nodup.map_on ?_ (List.nodup_range' )
  intro i hi j hj hij
  have hi := (List.mem_range'_1.mp hi).2
  have hj := (List.mem_range'_1.mp hj).2
  have hmod : i % 2 ^ 64 = j % 2 ^ 64 := congrArg Fin.val (outputPreimage_injective hij).2
  rwa [Nat.mod_eq_of_lt (by omega), Nat.mod_eq_of_lt (by omega)] at hmod

theorem outputWrites_weights (weight : TransactionOutput → ℕ) (t : Transaction) :
    (outputWrites t).map (fun w => weight w.2) = t.outputs.toList.map weight := by
  have hfst : (outputWrites t).map (fun w => weight w.2) =
      (t.outputs.toList.zipIdx.map Prod.fst).map weight := by
    simp only [outputWrites, List.map_map]
    rfl
  rw [hfst, List.zipIdx_map_fst]

theorem hashed_nodup {ws : List (Bytes × TransactionOutput)} (hn : (ws.map Prod.fst).Nodup)
    (hc : CollisionFree E (ws.map Prod.fst)) : ((ws.map (hashed E)).map Prod.fst).Nodup := by
  have hmap : (ws.map (hashed E)).map Prod.fst = (ws.map Prod.fst).map E.blakeTwo256 := by
    simp only [List.map_map]
    rfl
  rw [hmap]
  exact hn.map_on hc

theorem spend_total (weight : TransactionOutput → ℕ) (total' : Value) (hs : Spendable E s t)
    (hn : t.outpoints.Nodup) (hc : CollisionFree E ((outputWrites t).map Prod.fst)) :
    total weight (afterSpend E s t total').utxoStore +
        (t.outpoints.map (weightAt weight s.utxoStore)).sum =
      total weight s.utxoStore + (t.outputs.toList.map weight).sum := by
  have hkeys : ((createdOutputs E t).map Prod.fst).Nodup := by
    rw [← hashed_outputWrites]
    exact hashed_nodup (outputWrites_nodup t) hc
  have hfresh : ∀ k ∈ (createdOutputs E t).map Prod.fst, k ∉ s.utxoStore := by
    intro k hk
    obtain ⟨e, he, rfl⟩ := List.mem_map.mp hk
    exact hs.keys_fresh e he
  have hmap : (createdOutputs E t).map (fun e => weight e.2) = t.outputs.toList.map weight := by
    rw [← hashed_outputWrites, List.map_map]
    exact outputWrites_weights weight t
  rw [← hmap]
  exact total_update weight hn hkeys hfresh

end Spends

variable {N : Type} [BlockNumber N] {E : Env N} {genesisUtxos : List TransactionOutput}
  {p p' : Phase} {tr : List (Transition N)} {s s' : State N} {a : Action N}

/-- What a transition leaves to nobody: the high bits of a fee, and of a reward that wraps. -/
def lostBy (E : Env N) (x : Transition N) : ℕ :=
  (x.spent E).elim 0 (truncatedFee x.state) + (x.reward E).elim 0 fun _ =>
    2 ^ 128 * ((x.state.rewardTotal.val + issuedBy E x) / 2 ^ 128)

def lost (E : Env N) (tr : List (Transition N)) : ℕ := (tr.map (lostBy E)).sum

omit [BlockNumber N] in
theorem consumes_nodup {x : Transition N} (h : SpendsCountOnce E x) : (consumes E x).Nodup := by
  cases hx : x.spent E with
  | none => simp [consumes, hx]
  | some t =>
    obtain ⟨o, s', ha, -⟩ := spent_run hx
    have hone : CountsOnce E x.state t :=
      h.of_spendable (by simp [ha, Action.transaction]) (spent_spendable hx)
    simpa [consumes, hx] using outpoints_nodup (spent_spendable hx) hone

theorem writes_nodup (x : Transition N) : ((writes E x).map Prod.fst).Nodup := by
  cases hx : x.spent E with
  | some t =>
    rw [writes_spent hx]
    exact outputWrites_nodup t
  | none =>
    cases hr : x.reward E <;> simp [writes, hx, hr]

theorem run_admissible (hr : Run E genesisUtxos p tr s) (hp : p.next a = some p')
    (hn : next E s a = some s') (hb : BlocksIncrease tr)
    (hc : CollisionFree E (keyPreimages E genesisUtxos (⟨s, a⟩ :: tr))) :
    Represents s.utxoStore (historyOf E genesisUtxos tr) ∧
      Admissible (historyOf E genesisUtxos tr) (entry E ⟨s, a⟩) := by
  have hrep := (run_ledger hr hb hc.tail).2
  exact ⟨hrep, effect_admissible (next_effect hn) (by simp [hp]) (run_numbered hr) hb hc hrep⟩

/-- Whoever still has all its inputs has fresh keys. -/
theorem keys_unused {t : Transaction}
    (hrep : Represents s.utxoStore (historyOf E genesisUtxos tr)) (hin : t.inputs.toList ≠ [])
    (hpresent : ∀ k ∈ t.outpoints, k ∈ s.utxoStore)
    (hc : CollisionFree E ((outputWrites t).map Prod.fst ++ keyPreimages E genesisUtxos tr)) :
    ∀ e ∈ createdOutputs E t, e.1 ∉ s.utxoStore := by
  intro e he hmem
  obtain ⟨o, hlive⟩ := hrep.mem.mp hmem
  obtain ⟨b, hb, hbe⟩ := created_historyOf.mp hlive.1
  rw [← hashed_outputWrites] at he
  obtain ⟨w, hw, rfl⟩ := List.mem_map.mp he
  have hkey : b ∈ keyPreimages E genesisUtxos tr := List.mem_map_of_mem (f := Prod.fst) hb
  have hwb := hc _ (List.mem_append_left _ (List.mem_map_of_mem hw)) _
    (List.mem_append_right _ hkey) hbe.symm
  obtain ⟨q, -, rfl⟩ := List.mem_map.mp hw
  exact outputPreimage_unused hrep hin hpresent _ (hwb ▸ hkey)

/-- A step of a run moves the outputs it consumes and writes, and no others. -/
theorem step_total (weight : TransactionOutput → ℕ) (hr : Run E genesisUtxos p tr s)
    (hp : p.next a = some p') (hn : next E s a = some s') (hb : BlocksIncrease tr)
    (hc : CollisionFree E (keyPreimages E genesisUtxos (⟨s, a⟩ :: tr)))
    (hone : SpendsCountOnce E ⟨s, a⟩) :
    total weight s'.utxoStore + ((consumes E ⟨s, a⟩).map (weightAt weight s.utxoStore)).sum =
      total weight s.utxoStore + ((writes E ⟨s, a⟩).map fun w => weight w.2).sum := by
  obtain ⟨hrep, ha⟩ := run_admissible hr hp hn hb hc
  have hkeys : ((entry E ⟨s, a⟩).created.map Prod.fst).Nodup := by
    apply hashed_nodup (writes_nodup _)
    apply hc.mono
    intro b hb
    rw [keyPreimages_cons]
    exact List.mem_append_left _ hb
  have hmap : (entry E ⟨s, a⟩).created.map (fun e => weight e.2) =
      (writes E ⟨s, a⟩).map fun w => weight w.2 := by
    simp only [entry, List.map_map]
    rfl
  rw [effect_utxoStore (next_effect hn), ← hmap]
  exact total_update weight (consumes_nodup hone) hkeys (hrep.fresh ha)

theorem step_supply (hr : Run E genesisUtxos p tr s) (hp : p.next a = some p')
    (hn : next E s a = some s') (hb : BlocksIncrease tr)
    (hc : CollisionFree E (keyPreimages E genesisUtxos (⟨s, a⟩ :: tr)))
    (hone : SpendsCountOnce E ⟨s, a⟩) :
    supply s' + lostBy E ⟨s, a⟩ = supply s + issuedBy E ⟨s, a⟩ := by
  have htotal := step_total outputValue hr hp hn hb hc hone
  cases next_effect hn with
  | initialized n => rfl
  | declared author hnone => rfl
  | refused o author h => rfl
  | rejected o t e he =>
    have hspent : Transition.spent E ⟨s, .call o (.spend t)⟩ = none := by
      simp only [Transition.spent, he]
    simp [lostBy, hspent, Transition.reward, issuedBy]
  | wasted hnone => simp [lostBy, Transition.spent, Transition.reward, issuedBy, hnone, supply,
      State.depositEvent]
  | spent o t total' hs ht =>
    have hspent := spent_of_ok (o := o) (spend_eq_ok.mpr ⟨hs, total', ht, rfl⟩)
    have hin : ((consumes E ⟨s, .call o (.spend t)⟩).map
        (weightAt outputValue s.utxoStore)).sum = inputTotal s t := by
      rw [consumes, hspent, Option.elim_some, Transaction.outpoints, List.map_map]
      rfl
    have hout : ((writes E ⟨s, .call o (.spend t)⟩).map fun w => outputValue w.2).sum =
        outputTotal t := by
      rw [writes_spent hspent, outputWrites_weights, outputTotal]
    have hlost : lostBy E ⟨s, .call o (.spend t)⟩ = truncatedFee s t := by
      simp [lostBy, hspent, Transition.reward]
    have hcredit := credit_val hs
    have hbalanced := hs.balanced (getMissingUtxos_eq_nil.mpr hs.present)
    rw [hin, hout] at htotal
    simp only [hlost, truncatedFee, supply, issuedBy]
    simp only [afterSpend] at htotal ⊢
    omega
  | rewarded author utxo ha hu =>
    obtain ⟨issuance, hi, -, hval⟩ := rewardUtxo_val hu
    have hreward : Transition.reward E ⟨s, .onFinalize⟩ = some utxo := by
      simp [Transition.reward, ha, hu]
    have hspent : Transition.spent E ⟨s, .onFinalize⟩ = none := rfl
    have hissued : issuedBy E ⟨s, .onFinalize⟩ = issuance.val := by simp [issuedBy, ha, hi]
    have hvalue : outputValue utxo = (s.rewardTotal.val + issuance.val) % 2 ^ 128 := hval
    simp only [consumes, writes, hspent, hreward, Option.elim_none, Option.elim_some, List.map_nil,
      List.nil_append, List.map_cons, List.sum_cons, List.sum_nil, rewardWrite, hvalue] at htotal
    simp only [lostBy, hspent, hreward, Option.elim_none, Option.elim_some, hissued, supply]
    simp only [afterReward, Fin.val_zero] at htotal ⊢
    omega

theorem genesis_supply_eq (hc : CollisionFree E (keyPreimages E genesisUtxos [])) :
    supply (genesisState E genesisUtxos) = endowment genesisUtxos.dedup := by
  have hinj : Function.Injective fun u : TransactionOutput => (E.blakeTwo256 u.encode, u) :=
    fun u v h => congrArg Prod.snd h
  have hfun : ∀ k u v, (k, u) ∈ genesisEntries E genesisUtxos →
      (k, v) ∈ genesisEntries E genesisUtxos → u = v := by
    intro k u v hu hv
    obtain ⟨u', hu', h⟩ := List.mem_map.mp hu
    obtain ⟨v', hv', h'⟩ := List.mem_map.mp hv
    obtain ⟨hk, rfl⟩ := Prod.mk.inj h
    obtain ⟨hk', rfl⟩ := Prod.mk.inj h'
    have hmem : ∀ w ∈ genesisUtxos, w.encode ∈ keyPreimages E genesisUtxos [] := by
      intro w hw
      simpa [keyPreimages, allWrites, genesisWrites] using ⟨w, hw, rfl⟩
    exact output_selfDelimiting.injective (hc _ (hmem _ hu') _ (hmem _ hv') (hk.trans hk'.symm))
  rw [supply, genesisState, total_insertAll_empty outputValue hfun, genesisEntries,
    List.dedup_map_of_injective hinj, List.map_map, Fin.val_zero, Nat.add_zero]
  rfl

/-- Along every run the store and the reward total hold the distinct genesis outputs and all that
was issued, except for the high bits that a fee or a wrapping reward has lost on the way. -/
theorem supply_balances (hr : Run E genesisUtxos p tr s) (hb : BlocksIncrease tr)
    (hc : CollisionFree E (keyPreimages E genesisUtxos tr))
    (hone : ∀ x ∈ tr, SpendsCountOnce E x) :
    supply s + lost E tr = endowment genesisUtxos.dedup + issued E tr := by
  induction hr with
  | genesis => exact genesis_supply_eq hc
  | step hr hp hn ih =>
    obtain ⟨hx, hrest⟩ := List.forall_mem_cons.mp hone
    have hbefore := ih hb.tail hc.tail hrest
    have hstep := step_supply hr hp hn hb.tail hc hx
    simp only [lost, issued, List.map_cons, List.sum_cons] at hbefore ⊢
    omega

theorem demo_supply_balances : supply demoRun.2.2 + lost demo demoRun.2.1 =
    endowment (testnetGenesis [alice, bob]).dedup + issued demo demoRun.2.1 :=
  supply_balances demoRun_run (by decide +kernel) (by decide +kernel) (by decide +kernel)

end UtxoConservation
