import UtxoWorkshop.UtxoHistory

/-! Spends without blocks around them. A spend that fails has written nothing, though no storage
layer would take it back; spends of separate outputs can be executed in any order. -/
namespace UtxoExecution

open MachineWords ScaleCodec KeyedStore UtxoTransaction UtxoPallet UtxoValidation UtxoChainSpec
  UtxoRuntime UtxoHistory

variable {N : Type} {E : Env N} {s s' : State N} {t u : Transaction} {l l' : List Transaction}

/-- The counter that could stop the writes halfway has been run before by the checks. -/
theorem updateStorage_error {v : ValidTransaction} {reward : Value} {e : DispatchError}
    {s₁ s₂ : State N} (hv : validateTransaction E s t = .ok v)
    (h : (updateStorage E t reward).run s₁ = .error e s₂) :
    e = .other "Reward overflow" ∧ s₂ = s₁ := by
  obtain ⟨-, hlen, -⟩ := validateTransaction_eq_ok.mp hv
  rw [updateStorage_run hlen] at h
  cases hadd : checkedAdd s₁.rewardTotal reward with
  | none =>
    rw [hadd] at h
    cases h
    exact ⟨rfl, rfl⟩
  | some total =>
    rw [hadd] at h
    cases h

theorem insertOutputs_of_checked {outputs : List TransactionOutput}
    {r : Value × List Bytes} (h : checkOutputs E s t outputs 0 0 [] = .ok r) (s₁ : State N) :
    ∃ s₂, (insertOutputs E t outputs 0).run s₁ = .ok () s₂ := by
  obtain ⟨total, provides⟩ := r
  obtain ⟨-, hlen, -⟩ := checkOutputs_eq_ok.mp h
  exact ⟨_, insertOutputs_run hlen s₁⟩

theorem failed_spend_changes_nothing (E : Env N) (s : State N) (t : Transaction) :
    (∀ o e s', (spend E o t).run s = .error e s' → s' = s) ∧
    (∀ v, validateTransaction E s t = .ok v → ∀ reward s₁ e s₂,
      (updateStorage E t reward).run s₁ = .error e s₂ →
        e ≠ .other "output index overflow" ∧ s₂ = s₁) ∧
    ∀ outputs r, checkOutputs E s t outputs 0 0 [] = .ok r →
      ∀ s₁, ∃ s₂, (insertOutputs E t outputs 0).run s₁ = .ok () s₂ := by
  refine ⟨?_, ?_, ?_⟩
  · intro o e s' h
    exact spend_error h
  · intro v hv reward s₁ e s₂ h
    obtain ⟨rfl, hs⟩ := updateStorage_error hv h
    exact ⟨by decide, hs⟩
  · intro outputs r h
    exact insertOutputs_of_checked h

def Failed {α : Type} (r : EStateM.Result DispatchError (State N) α) : Bool :=
  match r with
  | .ok _ _ => false
  | .error _ _ => true

theorem failed_iff {α : Type} {r : EStateM.Result DispatchError (State N) α} :
    Failed r ↔ ∃ e s', r = .error e s' := by
  cases r <;> simp [Failed]

/-- The demo with a reward total that takes no fee any more. -/
def demoFull : State U32 := { demoGenesis with rewardTotal := Fin.last _ }

theorem demoFull_spend_fails : Failed ((spend demo .root demoTransaction).run demoFull) := by
  decide +kernel

theorem demoFull_updateStorage_fails :
    Failed ((updateStorage demo demoTransaction 50).run demoFull) := by
  decide +kernel

theorem demoFull_valid : (validateTransaction demo demoFull demoTransaction).toOption.isSome := by
  decide +kernel

theorem demo_failed_spend : ∃ e s', (spend demo .root demoTransaction).run demoFull = .error e s' ∧
    s' = demoFull ∧ ∃ d s₂, (updateStorage demo demoTransaction 50).run demoFull = .error d s₂ ∧
      d ≠ .other "output index overflow" ∧ s₂ = demoFull := by
  obtain ⟨hspend, hupdate, -⟩ := failed_spend_changes_nothing demo demoFull demoTransaction
  obtain ⟨e, s', hs⟩ := failed_iff.mp demoFull_spend_fails
  obtain ⟨d, s₂, hu⟩ := failed_iff.mp demoFull_updateStorage_fails
  obtain ⟨v, hv⟩ := Option.isSome_iff_exists.mp demoFull_valid
  have hupdate := hupdate v (toOption_eq_some.mp hv) 50 demoFull d s₂ hu
  exact ⟨e, s', hs, hspend _ e s' hs, d, s₂, hu, hupdate⟩

/-- The spends one after the other, if all of them succeed. -/
def spendAll (E : Env N) (origin : Transaction → Origin) :
    List Transaction → State N → Option (State N)
  | [], s => some s
  | t :: rest, s =>
    match (spend E (origin t) t).run s with
    | .ok _ s' => spendAll E origin rest s'
    | .error _ _ => none

def Separate (t u : Transaction) : Prop := ∀ k ∈ t.outpoints, k ∉ u.outpoints

instance : DecidableRel Separate := fun _ _ => inferInstanceAs (Decidable (∀ k ∈ _, _))

/-- The strings hashed for the outputs of the transactions. -/
def outputPreimages (l : List Transaction) : List Bytes :=
  l.flatMap fun t => (outputWrites t).map Prod.fst

structure Independent (E : Env N) (s : State N) (l : List Transaction) : Prop where
  spendable : ∀ t ∈ l, Spendable E s t
  separate : l.Pairwise Separate
  collisionFree : CollisionFree E (outputPreimages l)

theorem Separate.symm (h : Separate t u) : Separate u t := by
  intro k hk hkt
  exact h k hkt hk

theorem Separate.ne (hs : Spendable E s t) (h : Separate t u) : t ≠ u := by
  rintro rfl
  obtain ⟨k, hmem⟩ := hs.exists_outpoint
  exact h k hmem hmem

theorem Independent.of_perm (h : Independent E s l) (hp : l.Perm l') : Independent E s l' := by
  refine ⟨?_, ?_, ?_⟩
  · intro t ht
    exact h.spendable t (hp.mem_iff.mpr ht)
  · exact (hp.pairwise_iff Separate.symm).mp h.separate
  · apply h.collisionFree.mono
    intro b hb
    exact ((hp.flatMap_right _).mem_iff).mpr hb

/-- New keys are hashed from different preimages, so two transactions share none. -/
theorem createdOutputs_disjoint (hc : CollisionFree E (outputPreimages l)) (ht : t ∈ l)
    (hu : u ∈ l) (hne : t ≠ u) :
    ∀ k ∈ (createdOutputs E t).map Prod.fst, k ∉ (createdOutputs E u).map Prod.fst := by
  have hpre : ∀ v ∈ l, ∀ k ∈ (createdOutputs E v).map Prod.fst, ∃ i,
      E.blakeTwo256 (outputPreimage v i) = k ∧ outputPreimage v i ∈ outputPreimages l := by
    intro v hv k hk
    rw [← hashed_outputWrites, List.map_map] at hk
    obtain ⟨w, hw, rfl⟩ := List.mem_map.mp hk
    have hmem : w.1 ∈ outputPreimages l :=
      List.mem_flatMap.mpr ⟨v, hv, List.mem_map_of_mem hw⟩
    obtain ⟨q, _, rfl⟩ := List.mem_map.mp hw
    exact ⟨_, rfl, hmem⟩
  intro k hk hk'
  obtain ⟨i, hi, hti⟩ := hpre t ht k hk
  obtain ⟨j, hj, huj⟩ := hpre u hu k hk'
  exact hne (outputPreimage_injective (hc _ hti _ huj (hi.trans hj.symm))).1

theorem inputTotal_congr (h : ∀ k ∈ u.outpoints, s'.utxoStore.lookup k = s.utxoStore.lookup k) :
    inputTotal s' u = inputTotal s u := by
  have hmap : u.inputs.toList.map (inputValue s') = u.inputs.toList.map (inputValue s) := by
    apply List.map_congr_left
    intro input hin
    simp only [inputValue, weightAt, h _ (List.mem_map_of_mem hin)]
  rw [inputTotal, hmap, inputTotal]

/-- A transaction stays spendable, with the same fee, while its inputs stay and its keys stay
free. -/
theorem spendable_congr (hs : Spendable E s u)
    (hlookup : ∀ k ∈ u.outpoints, s'.utxoStore.lookup k = s.utxoStore.lookup k)
    (hfree : ∀ e ∈ createdOutputs E u, e.1 ∉ s'.utxoStore) :
    Spendable E s' u ∧ credit s' u = credit s u := by
  have htotal := inputTotal_congr hlookup
  have hpresent : ∀ k ∈ u.outpoints, k ∈ s'.utxoStore := by
    intro k hk
    rw [← Finmap.lookup_isSome, hlookup k hk, Finmap.lookup_isSome]
    exact hs.present k hk
  have hmissing := getMissingUtxos_eq_nil.mpr hs.present
  have hmissing' := getMissingUtxos_eq_nil.mpr hpresent
  constructor
  · exact {
      inputs_nonempty := hs.inputs_nonempty
      outputs_nonempty := hs.outputs_nonempty
      inputs_distinct := hs.inputs_distinct
      outputs_distinct := hs.outputs_distinct
      signatures := by
        intro input hin utxo hu
        rw [hlookup _ (List.mem_map_of_mem hin)] at hu
        exact hs.signatures input hin utxo hu
      outputs_positive := hs.outputs_positive
      keys_fresh := hfree
      inputs_fit := htotal ▸ hs.inputs_fit
      outputs_fit := hs.outputs_fit
      balanced := fun _ => htotal ▸ hs.balanced hmissing
      present := hpresent }
  · simp only [credit, priority, hmissing, hmissing', htotal]

/-- After one of the independent spends the others are as they were. -/
theorem spendable_afterSpend {total : Value} (hi : Independent E s l) (ht : t ∈ l) (hu : u ∈ l)
    (hsep : Separate t u) :
    Spendable E (afterSpend E s t total) u ∧
      credit (afterSpend E s t total) u = credit s u := by
  have hst := hi.spendable t ht
  have hsu := hi.spendable u hu
  apply spendable_congr hsu
  · intro k hk
    apply lookup_update_of_notMem
    · intro hkey
      obtain ⟨e, he, rfl⟩ := List.mem_map.mp hkey
      exact hst.keys_fresh e he (hsu.present _ hk)
    · exact hsep.symm k hk
  · intro e he hmem
    have hkey : e.1 ∈ (createdOutputs E u).map Prod.fst := List.mem_map_of_mem he
    rcases mem_update.mp hmem with hnew | ⟨-, hold⟩
    · exact createdOutputs_disjoint hi.collisionFree ht hu (hsep.ne hst) e.1 hnew hkey
    · exact hsu.keys_fresh e he hold

def credits (s : State N) (l : List Transaction) : ℕ := ((l.map (credit s)).map Fin.val).sum

def updates (E : Env N) (l : List Transaction) (m : Store H256 TransactionOutput) :
    Store H256 TransactionOutput :=
  l.foldl (fun m t => update m t.outpoints (createdOutputs E t)) m

theorem Independent.tail (hi : Independent E s (t :: l)) (total : Value) :
    Independent E (afterSpend E s t total) l ∧
      credits (afterSpend E s t total) l = credits s l := by
  obtain ⟨hsep, htail⟩ := List.pairwise_cons.mp hi.separate
  have hstep : ∀ u ∈ l, Spendable E (afterSpend E s t total) u ∧
      credit (afterSpend E s t total) u = credit s u := by
    intro u hu
    exact spendable_afterSpend hi List.mem_cons_self (List.mem_cons_of_mem t hu) (hsep u hu)
  refine ⟨⟨?_, htail, ?_⟩, ?_⟩
  · intro u hu
    exact (hstep u hu).1
  · apply hi.collisionFree.mono
    intro b hb
    exact List.mem_append_right _ hb
  · have hmap : l.map (credit (afterSpend E s t total)) = l.map (credit s) := by
      apply List.map_congr_left
      intro u hu
      exact (hstep u hu).2
    rw [credits, hmap, credits]

theorem spendAll_cons {origin : Transaction → Origin} (hs : Spendable E s t) :
    spendAll E origin (t :: l) s =
      (checkedAdd s.rewardTotal (credit s t)).bind fun total =>
        spendAll E origin l (afterSpend E s t total) := by
  cases hadd : checkedAdd s.rewardTotal (credit s t) with
  | some total =>
    have hok : (spend E (origin t) t).run s = .ok () (afterSpend E s t total) :=
      spend_eq_ok.mpr ⟨hs, total, checkedAdd_eq_some.mp hadd, rfl⟩
    simp only [spendAll, hok, Option.bind_some]
  | none =>
    cases hr : (spend E (origin t) t).run s with
    | error e s' => simp only [spendAll, hr, Option.bind_none]
    | ok _ s' =>
      obtain ⟨-, total, htotal, -⟩ := spend_eq_ok.mp hr
      rw [checkedAdd_eq_some.mpr htotal] at hadd
      cases hadd

/-- Independent spends all succeed when their fees fit, and then their effects add up. -/
theorem spendAll_isSome {origin : Transaction → Origin} (hi : Independent E s l) :
    (spendAll E origin l s).isSome ↔ s.rewardTotal.val + credits s l < 2 ^ 128 := by
  induction l generalizing s with
  | nil => simp [spendAll, credits]
  | cons t l ih =>
    have hsum : credits s (t :: l) = (credit s t).val + credits s l := rfl
    rw [spendAll_cons (hi.spendable t List.mem_cons_self), hsum]
    cases hadd : checkedAdd s.rewardTotal (credit s t) with
    | none =>
      have hover := checkedAdd_eq_none.mp hadd
      simp only [Option.bind_none, Option.isSome_none, Bool.false_eq_true, false_iff]
      omega
    | some total =>
      have htotal := checkedAdd_eq_some.mp hadd
      obtain ⟨hrest, hcredits⟩ := hi.tail total
      rw [Option.bind_some, ih hrest, hcredits]
      simp only [afterSpend]
      omega

theorem spendAll_eq_some {origin : Transaction → Origin} (hi : Independent E s l) {r : State N}
    (h : spendAll E origin l s = some r) : r.utxoStore = updates E l s.utxoStore ∧
      r.rewardTotal.val = s.rewardTotal.val + credits s l := by
  induction l generalizing s with
  | nil =>
    cases h
    exact ⟨rfl, rfl⟩
  | cons t l ih =>
    have hsum : credits s (t :: l) = (credit s t).val + credits s l := rfl
    rw [spendAll_cons (hi.spendable t List.mem_cons_self), Option.bind_eq_some_iff] at h
    obtain ⟨total, hadd, h⟩ := h
    have htotal := checkedAdd_eq_some.mp hadd
    obtain ⟨hrest, hcredits⟩ := hi.tail total
    obtain ⟨hstore, hreward⟩ := ih hrest h
    refine ⟨hstore, ?_⟩
    rw [hreward, hcredits, hsum]
    simp only [afterSpend]
    omega

theorem updates_perm (hi : Independent E s l) (hp : l.Perm l') (m : Store H256 TransactionOutput) :
    updates E l m = updates E l' m := by
  apply foldl_update_perm hp
  · intro t ht u hu hne
    exact createdOutputs_disjoint hi.collisionFree ht hu hne
  · intro t ht u hu k hk hku
    obtain ⟨e, he, rfl⟩ := List.mem_map.mp hk
    exact (hi.spendable t ht).keys_fresh e he ((hi.spendable u hu).present _ hku)

theorem credits_perm (hp : l.Perm l') : credits s l = credits s l' :=
  ((hp.map _).map _).sum_eq

/-- Orders of execution agree: on whether every spend succeeds, and on what is left behind. -/
theorem independent_spends_commute {origin : Transaction → Origin}
    (haccepted : ∀ t ∈ l, ∃ v, validateTransaction E s t = .ok v ∧ v.requires = [])
    (hseparate : l.Pairwise Separate) (hc : CollisionFree E (outputPreimages l))
    (hp : l.Perm l') :
    ((spendAll E origin l s).isSome ↔ s.rewardTotal.val + credits s l < 2 ^ 128) ∧
    ((spendAll E origin l' s).isSome ↔ (spendAll E origin l s).isSome) ∧
    ∀ r r', spendAll E origin l s = some r → spendAll E origin l' s = some r' →
      r.utxoStore = r'.utxoStore ∧ r.rewardTotal = r'.rewardTotal := by
  have hi : Independent E s l := ⟨fun t ht => spendable_iff.mpr (haccepted t ht), hseparate, hc⟩
  have hi' := hi.of_perm hp
  refine ⟨spendAll_isSome hi, ?_, ?_⟩
  · rw [spendAll_isSome hi', spendAll_isSome hi, credits_perm hp]
  · intro r r' hr hr'
    obtain ⟨hstore, hreward⟩ := spendAll_eq_some hi hr
    obtain ⟨hstore', hreward'⟩ := spendAll_eq_some hi' hr'
    refine ⟨?_, Fin.ext ?_⟩
    · rw [hstore, hstore', updates_perm hi hp]
    · rw [hreward, hreward', credits_perm hp]

def bobTransaction : Transaction where
  inputs := ⟨[{
    outpoint :=
      fixedHash 32 0x9b21ba85ff6651f18763950a500d4cb591d13a3c8b9d798b54a29fb1192edd7a
    sigscript :=
      fixedHash 64 (0x1ae9dd8f26d185798337046207b1e0a20eb3c45ffe6145d5bc3311cea493c02c <<< 256 +
        0xd4c54393d1fa626d739963327fc1ee6a2d53d74646ad1686f42529d3399b218a) }], by decide⟩
  outputs := ⟨[{ value := 30, pubkey := alice }], by decide⟩

/-- The demo with a transfer by Bob beside the one by Alice. -/
def demoPair : Env U32 where
  issuance _ := some 50
  blakeTwo256 := hashFrom ((outputPreimage bobTransaction 0,
    fixedHash 32 0x3203aa4b426e18fb1b99d9e09771ee3a8c437ef62f60e050a9b83e59b7dcb7af) :: digests)
  sr25519Verify signature message key :=
    demo.sr25519Verify signature message key ∨
      (∃ input ∈ bobTransaction.inputs.toList, input.sigscript = signature) ∧
        message = getSimpleTransaction bobTransaction ∧ key = bob
  overflowChecks := false

def pairGenesis : State U32 := genesisState demoPair (testnetGenesis [alice, bob])

theorem pair_accepted : ∀ t ∈ [demoTransaction, bobTransaction],
    ((validateTransaction demoPair pairGenesis t).toOption.any fun v => v.requires = []) := by
  decide +kernel

theorem pair_spends_commute : ((spendAll demoPair (fun _ => .root)
      [demoTransaction, bobTransaction] pairGenesis).isSome ↔
      pairGenesis.rewardTotal.val + credits pairGenesis [demoTransaction, bobTransaction] <
        2 ^ 128) ∧
    ((spendAll demoPair (fun _ => .root) [bobTransaction, demoTransaction] pairGenesis).isSome ↔
      (spendAll demoPair (fun _ => .root) [demoTransaction, bobTransaction] pairGenesis).isSome) ∧
    ∀ r r', spendAll demoPair (fun _ => .root) [demoTransaction, bobTransaction] pairGenesis =
        some r →
      spendAll demoPair (fun _ => .root) [bobTransaction, demoTransaction] pairGenesis = some r' →
        r.utxoStore = r'.utxoStore ∧ r.rewardTotal = r'.rewardTotal := by
  apply independent_spends_commute
  · intro t ht
    obtain ⟨v, hv, hreq⟩ := (Option.any_eq_true _ _).mp (pair_accepted t ht)
    exact ⟨v, toOption_eq_some.mp hv, of_decide_eq_true hreq⟩
  · decide +kernel
  · decide +kernel
  · exact List.Perm.swap _ _ _

end UtxoExecution
