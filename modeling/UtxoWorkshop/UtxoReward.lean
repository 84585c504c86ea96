import UtxoWorkshop.BitcoinHalving
import UtxoWorkshop.UtxoHistory

/-! The block reward. The author cell is emptied when a block opens, set by the first unsigned
declaration and read when the block closes; the reward that is then minted is the one output
whose value nobody checks. -/
namespace UtxoReward

open MachineWords ScaleCodec KeyedStore UtxoTransaction UtxoPallet UtxoValidation UtxoChainSpec
  UtxoRuntime UtxoHistory

section Calls

variable {N : Type} [BlockNumber N] (E : Env N)

/-- What a call leaves behind, whether or not it fails. -/
def afterCall (s : State N) (call : Origin × Call) : State N :=
  match (call.2.dispatch E call.1).run s with
  | .ok _ s' => s'
  | .error _ s' => s'

def afterCalls (s : State N) (calls : List (Origin × Call)) : State N :=
  calls.foldl (afterCall E) s

/-- The state of block `n` after its calls, before its finalization. -/
def blockState (s : State N) (n : N) (calls : List (Origin × Call)) : State N :=
  afterCalls E (onInitialize n s) calls

end Calls

/-- The author an unsigned declaration names. -/
def unsignedAuthor (call : Origin × Call) : Option Public :=
  match call.2, call.1 with
  | .setAuthor author, .none => some author
  | _, _ => none

def firstAuthor (calls : List (Origin × Call)) : Option Public := calls.findSome? unsignedAuthor

variable {N : Type} [BlockNumber N] {E : Env N} {s s' : State N} {n : N}
  {calls before after : List (Origin × Call)} {author : Public}

theorem next_call (o : Origin) (c : Call) : next E s (.call o c) = some (afterCall E s (o, c)) := by
  simp only [next, afterCall]
  cases (c.dispatch E o).run s <;> rfl

theorem afterCall_effect (s : State N) (call : Origin × Call) :
    Effect E s (.call call.1 call.2) (afterCall E s call) :=
  next_effect (next_call call.1 call.2)

theorem unsignedAuthor_eq_some {call : Origin × Call} :
    unsignedAuthor call = some author ↔ call = (.none, .setAuthor author) := by
  obtain ⟨o, c⟩ := call
  cases c with
  | spend t => simp [unsignedAuthor]
  | setAuthor a => cases o <;> simp [unsignedAuthor]

/-- An author that is set stays set, and an unset one is set by the first unsigned declaration. -/
theorem effect_author {o : Origin} {c : Call} (he : Effect E s (.call o c) s') :
    s'.author = s.author.or (unsignedAuthor (o, c)) := by
  cases he with
  | spent _ t total hs ht => exact Option.or_none.symm
  | rejected _ t e hr => exact Option.or_none.symm
  | declared author hn => rw [hn, Option.none_or, unsignedAuthor]
  | refused _ author h =>
    cases ha : s.author with
    | some a => rfl
    | none =>
      have ho : o ≠ .none := h.resolve_right fun hne => hne ha
      cases o with
      | none => exact absurd rfl ho
      | root => rfl
      | signed who => rfl

theorem afterCalls_author (s : State N) (calls : List (Origin × Call)) :
    (afterCalls E s calls).author = s.author.or (firstAuthor calls) := by
  induction calls generalizing s with
  | nil => exact Option.or_none.symm
  | cons call rest ih =>
    have hcall := effect_author (afterCall_effect (E := E) s call)
    have hfirst : firstAuthor (call :: rest) = (unsignedAuthor call).or (firstAuthor rest) := by
      rw [firstAuthor, List.findSome?_cons]
      cases unsignedAuthor call <;> rfl
    rw [afterCalls, List.foldl_cons]
    exact (ih _).trans (by rw [hcall, hfirst, Option.or_assoc])

theorem afterCalls_blockNumber (s : State N) (calls : List (Origin × Call)) :
    (afterCalls E s calls).blockNumber = s.blockNumber := by
  induction calls generalizing s with
  | nil => rfl
  | cons call rest ih =>
    have hcall := effect_blockNumber (afterCall_effect (E := E) s call)
    exact (ih _).trans hcall

theorem blockState_author (s : State N) (n : N) (calls : List (Origin × Call)) :
    (blockState E s n calls).author = firstAuthor calls :=
  (afterCalls_author _ calls).trans Option.none_or

theorem firstAuthor_eq_none :
    firstAuthor calls = none ↔ ∀ a, (Origin.none, Call.setAuthor a) ∉ calls := by
  rw [firstAuthor, List.findSome?_eq_none_iff]
  constructor
  · intro h a hmem
    have hnone := h _ hmem
    rw [unsignedAuthor_eq_some.mpr rfl] at hnone
    cases hnone
  · intro h call hmem
    cases hcall : unsignedAuthor call with
    | none => rfl
    | some a => exact absurd (unsignedAuthor_eq_some.mp hcall ▸ hmem) (h a)

theorem firstAuthor_append (h : ∀ a, (Origin.none, Call.setAuthor a) ∉ before) :
    firstAuthor (before ++ (.none, .setAuthor author) :: after) = some author := by
  have hbefore := firstAuthor_eq_none.mpr h
  rw [firstAuthor] at hbefore ⊢
  rw [List.findSome?_append, hbefore, Option.none_or, List.findSome?_cons,
    unsignedAuthor_eq_some.mpr rfl]

theorem onFinalize_of_none (h : s.author = none) :
    UtxoPallet.onFinalize E s = some (s.depositEvent .rewardsWasted) := by
  simp only [onFinalize, h]

theorem onFinalize_of_author {issuance : Value} (ha : s.author = some author)
    (hi : E.issuance s.blockNumber = some issuance)
    (hfit : s.rewardTotal.val + issuance.val < 2 ^ 128) :
    ∃ utxo, utxo.pubkey = author ∧ utxo.value.val = s.rewardTotal.val + issuance.val ∧
      UtxoPallet.onFinalize E s = some (afterReward E s utxo) := by
  obtain ⟨reward, hr, hval⟩ := exists_plainAdd E.overflowChecks hfit
  have hutxo : rewardUtxo E s author = some { value := reward, pubkey := author } := by
    simp [rewardUtxo, hi, hr]
  refine ⟨{ value := reward, pubkey := author }, rfl, hval, ?_⟩
  simp [onFinalize, ha, disperseReward, hutxo, afterReward, State.depositEvent]

omit [BlockNumber N] in
theorem setAuthor_fails {o : Origin} (h : o ≠ .none ∨ s.author ≠ none) (author : Public) :
    ∃ e, (setAuthor o author).run s = .error e s := by
  rw [setAuthor_run]
  by_cases ho : o = .none
  · have ha : s.author ≠ none := h.resolve_left fun hne => hne ho
    exact ⟨.authorAlreadySet, by rw [if_neg (not_not.mpr ho), if_pos ha]⟩
  · exact ⟨.badOrigin, if_pos ho⟩

/-- Only the first unsigned declaration of a block is accepted. -/
theorem later_author_refused {o : Origin} {a : Public}
    (h : o ≠ .none ∨ ∃ b, (Origin.none, Call.setAuthor b) ∈ before) :
    ∃ e, (setAuthor o a).run (blockState E s n before) = .error e (blockState E s n before) := by
  apply setAuthor_fails
  apply h.imp_right
  rintro ⟨b, hb⟩
  rw [blockState_author]
  exact fun hnone => firstAuthor_eq_none.mp hnone b hb

/-- A block mints at most once, for the first author that was declared in it, whatever the state
before it held. -/
theorem first_author_paid (E : Env N) (s : State N) (n : N) (calls : List (Origin × Call))
    {issuance : Value} (hi : E.issuance n = some issuance)
    (hfit : (blockState E s n calls).rewardTotal.val + issuance.val < 2 ^ 128) :
    ∃ s', UtxoPallet.onFinalize E (blockState E s n calls) = some s' ∧
      ((∀ a, (Origin.none, Call.setAuthor a) ∉ calls) →
        s'.utxoStore = (blockState E s n calls).utxoStore ∧
        s'.events = (blockState E s n calls).events ++ [.rewardsWasted]) ∧
      (∀ before a after, calls = before ++ (.none, .setAuthor a) :: after →
        (∀ b, (Origin.none, Call.setAuthor b) ∉ before) →
        ∃ utxo, utxo.pubkey = a ∧
          utxo.value.val = (blockState E s n calls).rewardTotal.val + issuance.val ∧
          s'.utxoStore = (blockState E s n calls).utxoStore.insert
            (rewardHash E (blockState E s n calls) utxo) utxo ∧
          s'.events = (blockState E s n calls).events ++
            [.rewardsIssued utxo.value (rewardHash E (blockState E s n calls) utxo)]) ∧
      ∀ before o a after, calls = before ++ (o, .setAuthor a) :: after →
        (o ≠ .none ∨ ∃ b, (Origin.none, Call.setAuthor b) ∈ before) →
        ∃ e, (setAuthor o a).run (blockState E s n before) =
          .error e (blockState E s n before) := by
  have hauthor := blockState_author (E := E) s n calls
  have hnumber : (blockState E s n calls).blockNumber = n := afterCalls_blockNumber _ calls
  have hrefused : ∀ before o a after, calls = before ++ (o, .setAuthor a) :: after →
      (o ≠ .none ∨ ∃ b, (Origin.none, Call.setAuthor b) ∈ before) →
      ∃ e, (setAuthor o a).run (blockState E s n before) =
        .error e (blockState E s n before) :=
    fun _ _ _ _ _ h => later_author_refused h
  cases hfirst : firstAuthor calls with
  | none =>
    refine ⟨_, onFinalize_of_none (hauthor.trans hfirst), fun _ => ⟨rfl, rfl⟩, ?_, hrefused⟩
    rintro before a after rfl hbefore
    rw [firstAuthor_append hbefore] at hfirst
    cases hfirst
  | some a =>
    obtain ⟨utxo, hkey, hval, hfinal⟩ := onFinalize_of_author (hauthor.trans hfirst)
      (hnumber.symm ▸ hi) hfit
    refine ⟨_, hfinal, ?_, ?_, hrefused⟩
    · intro hnone
      rw [firstAuthor_eq_none.mpr hnone] at hfirst
      cases hfirst
    · rintro before b after rfl hbefore
      rw [firstAuthor_append hbefore] at hfirst
      exact ⟨utxo, hkey.trans (Option.some.inj hfirst).symm, hval, rfl, rfl⟩

/-- The author of an earlier block is still in its cell. -/
def staleGenesis : State U32 := { demoGenesis with author := some bob }

def rivalCalls : List (Origin × Call) :=
  [(.signed alice, .setAuthor bob), (.none, .setAuthor alice), (.none, .setAuthor bob)]

theorem rivals_first_paid : ∃ s' utxo,
    UtxoPallet.onFinalize demo (blockState demo staleGenesis 1 rivalCalls) = some s' ∧
    utxo.pubkey = alice ∧ s'.utxoStore = (blockState demo staleGenesis 1 rivalCalls).utxoStore.insert
      (rewardHash demo (blockState demo staleGenesis 1 rivalCalls) utxo) utxo := by
  have hissuance : demo.issuance 1 = some 50 := rfl
  obtain ⟨s', hfinal, -, hpaid, -⟩ :=
    first_author_paid demo staleGenesis 1 rivalCalls hissuance (by decide +kernel)
  obtain ⟨utxo, hkey, -, hstore, -⟩ := hpaid [(.signed alice, .setAuthor bob)] alice
    [(.none, .setAuthor bob)] rfl (by simp)
  exact ⟨s', utxo, hfinal, hkey, hstore⟩

/-- The node's runtime over a host: the issuance is Bitcoin's. -/
def runtime (blakeTwo256 : Bytes → H256) (sr25519Verify : H512 → Bytes → H256 → Bool)
    (overflowChecks : Bool) : Env U32 where
  issuance := BitcoinHalving.issuance overflowChecks
  blakeTwo256 := blakeTwo256
  sr25519Verify := sr25519Verify
  overflowChecks := overflowChecks

/-- A finalization with an author has something to pay: the fees and the issuance are not zero
together, and do not wrap around to zero. -/
def PaysSomething (E : Env N) (x : Transition N) : Prop :=
  x.action = .onFinalize → x.state.author ≠ none →
    (E.issuance x.state.blockNumber).all fun issuance =>
      x.state.rewardTotal.val + issuance.val ≠ 0 ∧
        x.state.rewardTotal.val + issuance.val ≠ 2 ^ 128

instance [DecidableEq N] (x : Transition N) : Decidable (PaysSomething E x) :=
  inferInstanceAs (Decidable (_ → _ → _ = true))

def Nonzero (s : State N) : Prop := ∀ k o, s.utxoStore.lookup k = some o → 0 < o.value

theorem wrapped_eq_zero {a b : Value} :
    (a.val + b.val) % 2 ^ 128 = 0 ↔ a.val + b.val = 0 ∨ a.val + b.val = 2 ^ 128 := by
  omega

theorem effect_nonzero {a : Action N} (he : Effect E s a s') (hx : PaysSomething E ⟨s, a⟩)
    (h : Nonzero s) : Nonzero s' := by
  cases he with
  | initialized n => exact h
  | rejected o t e hr => exact h
  | declared author hn => exact h
  | refused o author hr => exact h
  | wasted hn => exact h
  | spent o t total hs ht =>
    intro k u hu
    rcases lookup_insertAll_some hu with hnew | ⟨-, hold⟩
    · obtain ⟨⟨v, i⟩, hv, hk⟩ := List.mem_map.mp hnew
      cases hk
      exact hs.outputs_positive _ (List.fst_mem_of_mem_zipIdx hv)
    · rw [lookup_removeAll] at hold
      split_ifs at hold
      exact h k u hold
  | rewarded author utxo ha hu =>
    obtain ⟨issuance, hi, -, hval⟩ := rewardUtxo_val hu
    have hpays := hx rfl (by simp [ha])
    simp only [hi, Option.all_some, decide_eq_true_eq] at hpays
    intro k u hk
    rw [afterReward, lookup_insert_eq] at hk
    split_ifs at hk
    · cases hk
      apply Fin.pos_of_ne_zero
      intro hzero
      rw [hzero, Fin.val_zero] at hval
      exact (wrapped_eq_zero.mp hval.symm).elim hpays.1 hpays.2
    · exact h k u hk

theorem genesis_nonzero {genesisUtxos : List TransactionOutput}
    (hg : ∀ u ∈ genesisUtxos, 0 < u.value) : Nonzero (genesisState E genesisUtxos) := by
  intro k o h
  rcases lookup_insertAll_some h with h | ⟨-, h⟩
  · obtain ⟨u, hu, hk⟩ := List.mem_map.mp h
    cases hk
    exact hg _ hu
  · simp at h

/-- Without anything to pay, the reward is an output of value zero. -/
theorem zero_reward_stored (h : next E s .onFinalize = some s')
    (hx : ¬ PaysSomething E ⟨s, .onFinalize⟩) :
    ∃ k o, s'.utxoStore.lookup k = some o ∧ o.value = 0 := by
  rcases onFinalize_eq_some h with ⟨ha, -⟩ | ⟨author, utxo, ha, hu, rfl⟩
  · exact absurd (fun _ hne => absurd ha hne) hx
  · obtain ⟨issuance, hi, -, hval⟩ := rewardUtxo_val hu
    refine ⟨rewardHash E s utxo, utxo, Finmap.lookup_insert _, ?_⟩
    by_contra hne
    apply hx
    intro _ _
    simp only [hi, Option.all_some, decide_eq_true_eq]
    have hpos : utxo.value.val ≠ 0 := fun hzero => hne (Fin.ext hzero)
    rw [hval] at hpos
    exact not_or.mp (mt wrapped_eq_zero.mpr hpos)

/-- No output of value zero is stored while every author has something to be paid, and one is as
soon as an author has not. -/
theorem stored_values_nonzero {blakeTwo256 : Bytes → H256}
    {sr25519Verify : H512 → Bytes → H256 → Bool} {overflowChecks : Bool}
    {genesisUtxos : List TransactionOutput} {p : Phase} {tr : List (Transition U32)}
    {s : State U32} (hg : ∀ u ∈ genesisUtxos, 0 < u.value)
    (hr : Run (runtime blakeTwo256 sr25519Verify overflowChecks) genesisUtxos p tr s) :
    ((∀ x ∈ tr, PaysSomething (runtime blakeTwo256 sr25519Verify overflowChecks) x) →
      ∀ k o, s.utxoStore.lookup k = some o → 0 < o.value) ∧
    ∀ s', next (runtime blakeTwo256 sr25519Verify overflowChecks) s .onFinalize = some s' →
      ¬ PaysSomething (runtime blakeTwo256 sr25519Verify overflowChecks) ⟨s, .onFinalize⟩ →
      ∃ k o, s'.utxoStore.lookup k = some o ∧ o.value = 0 := by
  refine ⟨?_, fun s' h hx => zero_reward_stored h hx⟩
  apply hr.invariant (I := fun tr s => (∀ x ∈ tr, PaysSomething _ x) → Nonzero s)
  · intro _
    exact genesis_nonzero hg
  · intro tr s a s' he ih hpays
    obtain ⟨hx, hrest⟩ := List.forall_mem_cons.mp hpays
    exact effect_nonzero he hx (ih hrest)

theorem demoBlock_halving_executes : (execute (runtime demo.blakeTwo256 demo.sr25519Verify false)
    demoBlock (start (runtime demo.blakeTwo256 demo.sr25519Verify false)
      (testnetGenesis [alice, bob]))).isSome := by
  decide +kernel

theorem demo_values_nonzero : ∃ p tr s, Run (runtime demo.blakeTwo256 demo.sr25519Verify false)
    (testnetGenesis [alice, bob]) p tr s ∧ newUtxoHash ∈ s.utxoStore ∧
    ∀ k o, s.utxoStore.lookup k = some o → 0 < o.value := by
  have hr := run_of_execute_get demoBlock_halving_executes
  have hvalues := (stored_values_nonzero (by decide +kernel) hr).1 (by decide +kernel)
  exact ⟨_, _, _, hr, by decide +kernel, hvalues⟩

/-- Blocks 1 to `n`, each without a call. -/
def idleBlocks (n : ℕ) : List (Action U32) :=
  (List.range n).flatMap fun i => [.onInitialize (Fin.ofNat _ (i + 1)), .onFinalize]

theorem idle_run (E : Env U32) (genesisUtxos : List TransactionOutput) (n : ℕ) :
    ∃ tr s, Run E genesisUtxos .closed tr s ∧
      (tr.map Transition.action).reverse = idleBlocks n ∧ s.rewardTotal = 0 := by
  induction n with
  | zero => exact ⟨[], _, .genesis, rfl, rfl⟩
  | succ n ih =>
    obtain ⟨tr, s, hr, htr, htotal⟩ := ih
    have hopened := hr.step (a := .onInitialize (Fin.ofNat _ (n + 1))) rfl rfl
    have hwasted := onFinalize_of_none (E := E) (s := onInitialize (Fin.ofNat _ (n + 1)) s) rfl
    refine ⟨_, _, hopened.step (a := .onFinalize) rfl hwasted, ?_, htotal⟩
    rw [idleBlocks, List.range_succ, List.flatMap_append, ← idleBlocks, ← htr]
    simp

/-- The host of the demo, at the block where the issuance has become zero. -/
def lateHost : Env U32 :=
  runtime (hashFrom ((rewardPreimage { value := 0, pubkey := alice } 1260000,
    fixedHash 32 0x638cde720226dbf49aeaf43c0393a6f5e9a57cb120959d6664c96188c12e5a96) :: digests))
    demo.sr25519Verify false

/-- After six halvings an author whose block has no fees is paid an output of value zero. -/
theorem zero_value_stored : ∃ tr s k o, Run lateHost (testnetGenesis [alice, bob]) .closed tr s ∧
    (∀ u ∈ testnetGenesis [alice, bob], 0 < u.value) ∧
    (tr.map Transition.action).reverse = idleBlocks 1259999 ++
      [.onInitialize 1260000, .call .none (.setAuthor alice), .onFinalize] ∧
    s.utxoStore.lookup k = some o ∧ o.value = 0 := by
  obtain ⟨tr, s, hr, htr, htotal⟩ := idle_run lateHost (testnetGenesis [alice, bob]) 1259999
  have hopened := hr.step (a := .onInitialize 1260000) rfl rfl
  have hdeclared := hopened.step (a := .call .none (.setAuthor alice)) rfl (next_call _ _)
  have hauthor : (blockState lateHost s 1260000 [(.none, .setAuthor alice)]).author = some alice :=
    blockState_author s 1260000 _
  have hnumber : (blockState lateHost s 1260000 [(.none, .setAuthor alice)]).blockNumber =
      1260000 :=
    afterCalls_blockNumber _ _
  have hissuance : lateHost.issuance 1260000 = some 0 := by decide +kernel
  have hzero : (blockState lateHost s 1260000 [(.none, .setAuthor alice)]).rewardTotal = 0 := by
    simp [blockState, afterCalls, afterCall, Call.dispatch, setAuthor_run, onInitialize, htotal]
  obtain ⟨utxo, -, hval, hfinal⟩ := onFinalize_of_author hauthor (hnumber.symm ▸ hissuance)
    (by rw [hzero]; decide)
  refine ⟨_, _, _, utxo, hdeclared.step (a := .onFinalize) rfl hfinal, by decide, ?_,
    Finmap.lookup_insert _, ?_⟩
  · simp [← htr]
  · rw [hzero] at hval
    exact Fin.ext hval

end UtxoReward
