import UtxoWorkshop.BitcoinHalving
import UtxoWorkshop.UtxoRuntime

/-! Where the fees go. A spend credits its fee to the reward total through a `u64`, and only a
finalization that finds an author takes the total out: a block without one leaves its fees to the
next author, whatever its event says. -/
namespace UtxoFees

open MachineWords ScaleCodec KeyedStore UtxoTransaction UtxoPallet UtxoValidation UtxoChainSpec
  UtxoRuntime

variable {N : Type} {E : Env N} {s s' : State N} {t : Transaction} {o : Origin}

theorem credit_val (hs : Spendable E s t) :
    (credit s t).val = (inputTotal s t - outputTotal t) % 2 ^ 64 := by
  rw [credit, cast_val_of_le _ (by decide), priority,
    if_pos (getMissingUtxos_eq_nil.mpr hs.present)]
  rfl

/-- The fee is credited exactly while it fits the priority it travels through. -/
theorem fee_credited_iff (h : (spend E o t).run s = .ok () s') :
    (s'.rewardTotal.val : ℤ) =
        s.rewardTotal.val + (((t.inputs.toList.map (inputValue s)).sum : ℤ) -
          (t.outputs.toList.map outputValue).sum) ↔
      ((t.inputs.toList.map (inputValue s)).sum : ℤ) -
        (t.outputs.toList.map outputValue).sum < 2 ^ 64 := by
  obtain ⟨hs, total, htotal, rfl⟩ := spend_eq_ok.mp h
  have hbalanced := hs.balanced (getMissingUtxos_eq_nil.mpr hs.present)
  have hcredit := credit_val hs
  simp only [afterSpend]
  rw [inputTotal, outputTotal] at hbalanced hcredit
  omega

theorem demo_fee : ∃ s', (spend demo .root demoTransaction).run demoGenesis = .ok () s' ∧
    ((s'.rewardTotal.val : ℤ) = demoGenesis.rewardTotal.val +
        (((demoTransaction.inputs.toList.map (inputValue demoGenesis)).sum : ℤ) -
          (demoTransaction.outputs.toList.map outputValue).sum) ↔
      ((demoTransaction.inputs.toList.map (inputValue demoGenesis)).sum : ℤ) -
        (demoTransaction.outputs.toList.map outputValue).sum < 2 ^ 64) := by
  obtain ⟨s', hs'⟩ := spend_of_valid (o := .root) (E := demo) (s := demoGenesis)
    (t := demoTransaction) (by decide +kernel)
  exact ⟨s', hs', fee_credited_iff hs'⟩

/-- Alice's endowment is too large for a `u64`, and so is the fee she pays. -/
def richOutput : TransactionOutput := { value := 2 ^ 64 + 100, pubkey := alice }

def richOutpoint : H256 :=
  fixedHash 32 0x7a56ddf32677f17c6e13d63940e129b725cb4b0c81ce6662a01771daeea9aab7

def richTransaction : Transaction where
  inputs := ⟨[{
    outpoint := richOutpoint
    sigscript :=
      fixedHash 64 (0xbaccaf4cdb05933abd053cdc50da43a2bd5d20af37480780a41b73bb9168db40 <<< 256 +
        0x02f84b7fa46ea09de0fa448dc8e1eba2f5c523ec2d538ccde0197ce24f20798c) }], by decide⟩
  outputs := demoTransaction.outputs

def richHost : Env U32 where
  issuance := BitcoinHalving.issuance false
  blakeTwo256 := hashFrom [(richOutput.encode, richOutpoint), (outputPreimage richTransaction 0,
    fixedHash 32 0x0ffebf44bd37182632844e0fb8dca69e04934f38f882c1e4a2127b520d4b3ed4)]
  sr25519Verify signature message key :=
    signature ∈ richTransaction.inputs.toList.map TransactionInput.sigscript ∧
      message = getSimpleTransaction richTransaction ∧ key = alice
  overflowChecks := false

def richGenesis : State U32 := genesisState richHost [richOutput]

/-- A fee of 2^64 + 50 is credited as 50. -/
theorem fee_truncated : ∃ s', (spend richHost .root richTransaction).run richGenesis = .ok () s' ∧
    (richTransaction.inputs.toList.map (inputValue richGenesis)).sum =
      (richTransaction.outputs.toList.map outputValue).sum + (2 ^ 64 + 50) ∧
    richGenesis.rewardTotal = 0 ∧ s'.rewardTotal = 50 := by
  obtain ⟨s', hs'⟩ := spend_of_valid (o := .root) (E := richHost) (s := richGenesis)
    (t := richTransaction) (by decide +kernel)
  have hcredit : richGenesis.rewardTotal.val + (credit richGenesis richTransaction).val =
      (50 : Value).val := by
    decide +kernel
  obtain ⟨-, total, htotal, rfl⟩ := spend_eq_ok.mp hs'
  exact ⟨_, hs', by decide +kernel, rfl, Fin.ext (htotal.symm.trans hcredit)⟩

/-- What a transition credits to the reward total, if it spent. -/
def credited (E : Env N) (x : Transition N) : ℕ :=
  (x.spent E).elim 0 fun t => (credit x.state t).val

/-- The fees of the current block. -/
def blockFees (E : Env N) : List (Transition N) → ℕ
  | [] => 0
  | x :: earlier =>
    match x.action with
    | .onInitialize _ => 0
    | _ => credited E x + blockFees E earlier

/-- The reward total with which the current block began. -/
def carried : List (Transition N) → ℕ
  | [] => 0
  | x :: earlier =>
    match x.action with
    | .onInitialize _ => x.state.rewardTotal.val
    | _ => carried earlier

/-- Inside a block the reward total is what was carried into it and its fees so far, and no
reward is issued yet; a reward is the total before the finalization that has just been run. -/
def Accounted (E : Env N) : Phase → List (Transition N) → State N → Prop
  | .opened, tr, s => s.rewardTotal.val = carried tr + blockFees E tr ∧
      ∀ v h, Event.rewardsIssued v h ∉ s.events
  | .closed, tr, s => ∀ v h, Event.rewardsIssued v h ∈ s.events →
      ∃ s₀ earlier issuance, tr = ⟨s₀, .onFinalize⟩ :: earlier ∧ s₀.author ≠ none ∧
        s₀.blockNumber = s.blockNumber ∧ E.issuance s.blockNumber = some issuance ∧
        s₀.rewardTotal.val = carried tr + blockFees E tr ∧
        v.val = (s₀.rewardTotal.val + issuance.val) % 2 ^ 128

variable [BlockNumber N] {genesisUtxos : List TransactionOutput} {p p' : Phase}
  {tr : List (Transition N)}

theorem effect_accounted {a : Action N} (he : Effect E s a s') (hp : p.next a = some p')
    (h : Accounted E p tr s) : Accounted E p' (⟨s, a⟩ :: tr) s' := by
  cases he with
  | initialized n =>
    obtain ⟨rfl, rfl⟩ := Phase.next_onInitialize hp
    exact ⟨rfl, by simp [onInitialize]⟩
  | spent o t total hs ht =>
    obtain ⟨rfl, rfl⟩ := Phase.next_call hp
    obtain ⟨htotal, hevents⟩ := h
    have hspent := spent_of_ok (o := o) (spend_eq_ok.mpr ⟨hs, total, ht, rfl⟩)
    refine ⟨?_, ?_⟩
    · simp only [afterSpend, carried, blockFees, credited, hspent, Option.elim_some]
      omega
    · simpa [afterSpend] using hevents
  | rejected o t e hr =>
    obtain ⟨rfl, rfl⟩ := Phase.next_call hp
    have hspent : Transition.spent E ⟨s, .call o (.spend t)⟩ = none := by
      simp only [Transition.spent, hr]
    simpa [Accounted, carried, blockFees, credited, hspent] using h
  | declared author hn =>
    obtain ⟨rfl, rfl⟩ := Phase.next_call hp
    simpa [Accounted, carried, blockFees, credited, Transition.spent] using h
  | refused o author hr =>
    obtain ⟨rfl, rfl⟩ := Phase.next_call hp
    simpa [Accounted, carried, blockFees, credited, Transition.spent] using h
  | wasted hn =>
    obtain ⟨rfl, rfl⟩ := Phase.next_onFinalize hp
    obtain ⟨-, hevents⟩ := h
    intro v k hmem
    simp only [State.depositEvent, List.mem_append, List.mem_singleton, reduceCtorEq,
      or_false] at hmem
    exact absurd hmem (hevents v k)
  | rewarded author utxo ha hu =>
    obtain ⟨rfl, rfl⟩ := Phase.next_onFinalize hp
    obtain ⟨htotal, hevents⟩ := h
    obtain ⟨issuance, hi, -, hval⟩ := rewardUtxo_val hu
    intro v k hmem
    rcases List.mem_append.mp hmem with hmem | hmem
    · exact absurd hmem (hevents v k)
    · obtain ⟨rfl, -⟩ := Event.rewardsIssued.inj (List.mem_singleton.mp hmem)
      refine ⟨s, tr, issuance, rfl, by simp [ha], rfl, hi, ?_, hval⟩
      simpa [carried, blockFees, credited, Transition.spent] using htotal

theorem run_accounted (hr : Run E genesisUtxos p tr s) : Accounted E p tr s := by
  induction hr with
  | genesis => simp [Accounted, genesisState]
  | step _ hp hn ih => exact effect_accounted (next_effect hn) hp ih

/-- A finalization without an author finds nothing to leave behind, and one with an author does
not overflow. -/
def PaysOut (E : Env N) (x : Transition N) : Prop :=
  x.action = .onFinalize → (x.state.author = none → x.state.rewardTotal = 0) ∧
    (x.state.author ≠ none → (E.issuance x.state.blockNumber).all fun issuance =>
      x.state.rewardTotal.val + issuance.val < 2 ^ 128)

instance [DecidableEq N] (x : Transition N) : Decidable (PaysOut E x) :=
  inferInstanceAs (Decidable (_ → _ ∧ (_ → _ = true)))

theorem effect_drained {a : Action N} (he : Effect E s a s') (hp : p.next a = some p')
    (hx : PaysOut E ⟨s, a⟩) (hc : carried tr = 0) (ht : p = .closed → s.rewardTotal = 0) :
    carried (⟨s, a⟩ :: tr) = 0 ∧ (p' = .closed → s'.rewardTotal = 0) := by
  cases he with
  | initialized n =>
    obtain ⟨rfl, rfl⟩ := Phase.next_onInitialize hp
    exact ⟨congrArg Fin.val (ht rfl), nofun⟩
  | spent o t total hs htotal =>
    obtain ⟨rfl, rfl⟩ := Phase.next_call hp
    exact ⟨hc, nofun⟩
  | rejected o t e hr =>
    obtain ⟨rfl, rfl⟩ := Phase.next_call hp
    exact ⟨hc, nofun⟩
  | declared author hn =>
    obtain ⟨rfl, rfl⟩ := Phase.next_call hp
    exact ⟨hc, nofun⟩
  | refused o author hr =>
    obtain ⟨rfl, rfl⟩ := Phase.next_call hp
    exact ⟨hc, nofun⟩
  | wasted hn => exact ⟨hc, fun _ => (hx rfl).1 hn⟩
  | rewarded author utxo ha hu => exact ⟨hc, fun _ => rfl⟩

/-- Nothing is carried into a block when no block leaves anything behind. -/
theorem run_drained (hr : Run E genesisUtxos p tr s) (h : ∀ x ∈ tr, PaysOut E x) :
    carried tr = 0 ∧ (p = .closed → s.rewardTotal = 0) := by
  induction hr with
  | genesis => exact ⟨rfl, fun _ => rfl⟩
  | step _ hp hn ih =>
    obtain ⟨hx, hrest⟩ := List.forall_mem_cons.mp h
    obtain ⟨hc, ht⟩ := ih hrest
    exact effect_drained (next_effect hn) hp hx hc ht

/-- A reward that has been issued was paid from the total its finalization found. -/
theorem issued_reward (hr : Run E genesisUtxos p tr s) {v : Value} {k : H256}
    (h : Event.rewardsIssued v k ∈ s.events) : ∃ s₀ earlier issuance,
      tr = ⟨s₀, .onFinalize⟩ :: earlier ∧ s₀.author ≠ none ∧ s₀.blockNumber = s.blockNumber ∧
      E.issuance s.blockNumber = some issuance ∧ s₀.rewardTotal.val = carried tr + blockFees E tr ∧
      v.val = (s₀.rewardTotal.val + issuance.val) % 2 ^ 128 := by
  have hacc := run_accounted hr
  cases p with
  | opened => exact absurd h (hacc.2 v k)
  | closed => exact hacc v k h

theorem reward_exact_iff (hr : Run E genesisUtxos p tr s) {v : Value} {k : H256}
    (h : Event.rewardsIssued v k ∈ s.events) : ∃ issuance,
      E.issuance s.blockNumber = some issuance ∧
      (v.val = issuance.val + blockFees E tr ↔
        carried tr = 0 ∧ issuance.val + blockFees E tr < 2 ^ 128) := by
  obtain ⟨s₀, earlier, issuance, -, -, -, hi, htotal, hval⟩ := issued_reward hr h
  have hlt := s₀.rewardTotal.isLt
  exact ⟨issuance, hi, by omega⟩

/-- An author is paid for its own block exactly when the block began with nothing to pay out, and
so in every run that leaves nothing behind. -/
theorem author_paid_own_block (hr : Run E genesisUtxos p tr s) :
    (∀ v k, Event.rewardsIssued v k ∈ s.events → ∃ issuance,
      E.issuance s.blockNumber = some issuance ∧
      (v.val = issuance.val + blockFees E tr ↔
        carried tr = 0 ∧ issuance.val + blockFees E tr < 2 ^ 128)) ∧
    ((∀ x ∈ tr, PaysOut E x) → carried tr = 0 ∧
      ∀ v k, Event.rewardsIssued v k ∈ s.events → ∃ issuance,
        E.issuance s.blockNumber = some issuance ∧ v.val = issuance.val + blockFees E tr) := by
  refine ⟨fun v k h => reward_exact_iff hr h, ?_⟩
  intro hpays
  have hcarried := (run_drained hr hpays).1
  refine ⟨hcarried, ?_⟩
  intro v k h
  obtain ⟨s₀, earlier, issuance, rfl, hauthor, hnum, hi, htotal, hval⟩ := issued_reward hr h
  have hfit := (hpays ⟨s₀, .onFinalize⟩ List.mem_cons_self rfl).2 hauthor
  simp only [hnum, hi, Option.all_some, decide_eq_true_eq] at hfit
  rw [Nat.mod_eq_of_lt hfit] at hval
  exact ⟨issuance, hi, by omega⟩

def demoRewardHash : H256 :=
  fixedHash 32 0xc5c32bed737c173dc86f677750508a20f814f62e1b84d2ce1ad27eb6d8edebde

theorem demo_author_paid : ∃ issuance, demo.issuance demoRun.2.2.blockNumber = some issuance ∧
    (100 : Value).val = issuance.val + blockFees demo demoRun.2.1 :=
  ((author_paid_own_block demoRun_run).2 (by decide +kernel)).2 100 demoRewardHash
    (by decide +kernel)

def carriedHost : Env U32 where
  issuance := BitcoinHalving.issuance false
  blakeTwo256 := hashFrom ((rewardPreimage { value := 100, pubkey := alice } 2,
    fixedHash 32 0x3784422801a32690363f69694d3992d88a7ce84dcefe78ba747100fe32bd238a) :: digests)
  sr25519Verify := demo.sr25519Verify
  overflowChecks := false

/-- Alice pays a fee of 50 in a block without an author, and is the author of the next block. -/
def carriedBlocks : List (Action U32) :=
  [.onInitialize 1, .call (.signed alice) (.spend demoTransaction), .onFinalize,
    .onInitialize 2, .call .none (.setAuthor alice), .onFinalize]

theorem carriedBlocks_execute : (execute carriedHost carriedBlocks
    (start carriedHost (testnetGenesis [alice, bob]))).isSome := by
  decide +kernel

/-- Block 2 has no fees and pays 50 more than its issuance. -/
theorem fees_carried : ∃ p tr s k, Run carriedHost (testnetGenesis [alice, bob]) p tr s ∧
    tr.map Transition.action = carriedBlocks.reverse ∧
    Event.rewardsIssued 100 k ∈ s.events ∧
    carriedHost.issuance s.blockNumber = some 50 ∧ blockFees carriedHost tr = 0 := by
  refine ⟨_, _, _, fixedHash 32
    0x3784422801a32690363f69694d3992d88a7ce84dcefe78ba747100fe32bd238a,
    run_of_execute_get carriedBlocks_execute, ?_, ?_, ?_, ?_⟩
  · decide +kernel
  · decide +kernel
  · decide +kernel
  · decide +kernel

end UtxoFees
