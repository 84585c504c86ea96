import UtxoWorkshop.UtxoInflation
import UtxoWorkshop.UtxoRejection
import UtxoWorkshop.UtxoReward

/-! How much money there can be. A block number is finalized once, so the halvings bound what all
the blocks of any run issue together, also when the schedule starts again; a genesis that leaves
room for that much is never brought to an overflow. -/
namespace UtxoSolvency

open MachineWords ScaleCodec KeyedStore UtxoTransaction UtxoPallet UtxoValidation UtxoChainSpec
  UtxoRuntime UtxoHistory UtxoInflation UtxoRejection UtxoReward BitcoinHalving

section Finalizations

variable {N : Type} [BlockNumber N] {E : Env N} {genesisUtxos : List TransactionOutput}
  {p : Phase} {tr : List (Transition N)} {s : State N}

def finalizedBlock (x : Transition N) : Option N :=
  match x.action with
  | .onFinalize => some x.state.blockNumber
  | _ => none

def finalized (tr : List (Transition N)) : List N := tr.filterMap finalizedBlock

/-- What a block issues if it has an author. -/
def issuanceAt (E : Env N) (n : N) : ℕ := ((E.issuance n).map Fin.val).getD 0

omit [BlockNumber N] in
theorem finalizedBlock_eq_some {x : Transition N} {n : N} :
    finalizedBlock x = some n ↔ x.action = .onFinalize ∧ x.state.blockNumber = n := by
  obtain ⟨s, a⟩ := x
  cases a with
  | onInitialize m => simp [finalizedBlock]
  | call o c => simp [finalizedBlock]
  | onFinalize => simp [finalizedBlock]

/-- The number of an open block is above all that were finalized before it. -/
theorem opened_notMem_finalized (hr : Run E genesisUtxos .opened tr s) (hb : BlocksIncrease tr) :
    s.blockNumber ∉ finalized tr := by
  intro hmem
  obtain ⟨x, hx, hfin⟩ := List.mem_filterMap.mp hmem
  obtain ⟨hact, hnum⟩ := finalizedBlock_eq_some.mp hfin
  obtain ⟨rest, hrest, hearlier⟩ := run_numbered hr
  rw [BlocksIncrease, hrest] at hb
  have hlt : x.state.blockNumber < s.blockNumber :=
    (List.pairwise_cons.mp hb).1 _ (hearlier x hx hact)
  exact hlt.ne hnum

theorem finalized_nodup (hr : Run E genesisUtxos p tr s) (hb : BlocksIncrease tr) :
    (finalized tr).Nodup := by
  induction hr with
  | genesis => exact List.nodup_nil
  | @step p p' tr s a s' hr hp hn ih =>
    cases a with
    | onInitialize n => exact ih hb.tail
    | call o c => exact ih hb.tail
    | onFinalize =>
      obtain ⟨rfl, -⟩ := Phase.next_onFinalize hp
      exact List.nodup_cons.mpr ⟨opened_notMem_finalized hr hb.tail, ih hb.tail⟩

omit [BlockNumber N] in
theorem issued_le_finalized (tr : List (Transition N)) :
    issued E tr ≤ ((finalized tr).map (issuanceAt E)).sum := by
  induction tr with
  | nil => exact le_rfl
  | cons x tr ih =>
    obtain ⟨s, a⟩ := x
    cases a with
    | onInitialize n => exact (Nat.zero_add _).trans_le ih
    | call o c => exact (Nat.zero_add _).trans_le ih
    | onFinalize =>
      have hx : issuedBy E ⟨s, .onFinalize⟩ ≤ issuanceAt E s.blockNumber := by
        cases ha : s.author <;> simp [issuedBy, issuanceAt, ha]
      exact Nat.add_le_add hx ih

omit [BlockNumber N] in
/-- Inputs that verify and count once are worth no more than what is stored. -/
theorem verified_sum_le {t : Transaction} {verified : List TransactionInput}
    (hone : CountsOnce E s t) (hn : t.inputs.toList.Nodup) (hsub : verified <+: t.inputs.toList)
    (hsig : SignaturesValid E s (getSimpleTransaction t) verified) :
    (verified.map (inputValue s)).sum ≤ total outputValue s.utxoStore := by
  have hmap : verified.map (inputValue s) = (verified.map TransactionInput.outpoint).map
      (weightAt outputValue s.utxoStore) := by
    rw [List.map_map]
    rfl
  rw [hmap]
  apply sum_weightAt_le
  rw [List.filter_map]
  apply List.Nodup.map_on _ ((hn.sublist hsub.sublist).filter _)
  have hverifies : ∀ i ∈ verified.filter ((fun k => decide (k ∈ s.utxoStore)) ∘
      TransactionInput.outpoint), i ∈ t.inputs.toList ∧ Verifies E s t i := by
    intro i hi
    obtain ⟨hmem, hstored⟩ := List.mem_filter.mp hi
    obtain ⟨utxo, hu⟩ := Finmap.mem_iff.mp (of_decide_eq_true hstored)
    have hvalid := hsig i hmem utxo hu
    exact ⟨hsub.subset hmem, by simpa [Verifies, hu] using hvalid⟩
  intro i hi j hj hij
  exact hone i (hverifies i hi).1 j (hverifies j hj).1 (hverifies i hi).2 (hverifies j hj).2 hij

end Finalizations

/-- What each block of a halving issues; a build with overflow checks has no block there while the
shift is out of width. -/
def perBlock (c : Bool) (k : ℕ) : ℕ := if c ∧ 32 ≤ k ∧ k < 64 then 0 else unchecked k

/-- All that can ever be issued: the schedule once, or twice where it starts again. -/
def maxIssuance (c : Bool) : ℕ := 210000 * (50 + 25 + 12 + 6 + 3 + 1) * if c then 1 else 2

theorem issuedAt_eq {n : ℕ} (h : n < 2 ^ 32) (c : Bool) :
    issuedAt c n = perBlock c (n / 210000) := by
  have hwidth : OutOfWidth (Fin.ofNat _ n) ↔ 32 ≤ n / 210000 ∧ n / 210000 < 64 := by
    rw [OutOfWidth, halvings_ofNat h]
  simp only [issuedAt, issuance_val, perBlock, hwidth, halvings_ofNat h]
  split_ifs <;> rfl

theorem sum_perBlock (c : Bool) (m : ℕ) :
    ∑ k ∈ Finset.range (64 + m), perBlock c k = ∑ k ∈ Finset.range 64, perBlock c k := by
  rw [Finset.sum_range_add, Finset.sum_eq_zero (s := Finset.range m), Nat.add_zero]
  intro k _
  rw [perBlock, if_neg (by omega), unchecked, if_pos (by omega)]

theorem issuedBefore_le_max (c : Bool) : issuedBefore c (2 ^ 32) ≤ maxIssuance c := by
  have hblocks : issuedBefore c (2 ^ 32) =
      ∑ n ∈ Finset.range (2 ^ 32), perBlock c (n / 210000) := by
    apply Finset.sum_congr rfl
    intro n hn
    exact issuedAt_eq (Finset.mem_range.mp hn) c
  have hmore : ∑ n ∈ Finset.range (2 ^ 32), perBlock c (n / 210000) ≤
      ∑ n ∈ Finset.range ((64 + 20389) * 210000), perBlock c (n / 210000) :=
    Finset.sum_le_sum_of_subset (Finset.range_mono (by omega))
  rw [sum_range_div (perBlock c) (by decide), sum_perBlock] at hmore
  have hcap : 210000 * ∑ k ∈ Finset.range 64, perBlock c k = maxIssuance c := by
    cases c <;> decide +kernel
  omega

section Runs

variable {blakeTwo256 : Bytes → H256} {sr25519Verify : H512 → Bytes → H256 → Bool} {c : Bool}
  {genesisUtxos : List TransactionOutput} {p : Phase} {tr : List (Transition U32)} {s : State U32}
  {t : Transaction}

theorem sum_issuanceAt_le {blocks : List U32} (hn : blocks.Nodup) :
    (blocks.map (issuanceAt (runtime blakeTwo256 sr25519Verify c))).sum ≤ maxIssuance c := by
  have hmap : blocks.map (issuanceAt (runtime blakeTwo256 sr25519Verify c)) =
      (blocks.map Fin.val).map (issuedAt c) := by
    rw [List.map_map]
    apply List.map_congr_left
    intro n _
    simp only [issuanceAt, runtime, issuedAt, Function.comp_apply, Fin.ofNat_val_eq_self]
  have hsub : (blocks.map Fin.val).toFinset ⊆ Finset.range (2 ^ 32) := by
    intro n hn
    obtain ⟨b, -, rfl⟩ := List.mem_map.mp (List.mem_toFinset.mp hn)
    exact Finset.mem_range.mpr b.isLt
  have hval : (blocks.map Fin.val).Nodup := hn.map Fin.val_injective
  rw [hmap, ← List.sum_toFinset _ hval]
  exact (Finset.sum_le_sum_of_subset hsub).trans (issuedBefore_le_max c)

theorem issued_capped (hr : Run (runtime blakeTwo256 sr25519Verify c) genesisUtxos p tr s)
    (hb : BlocksIncrease tr) : issued (runtime blakeTwo256 sr25519Verify c) tr ≤ maxIssuance c :=
  (issued_le_finalized tr).trans (sum_issuanceAt_le (finalized_nodup hr hb))

/-- An open block still has its own issuance left of the cap. -/
theorem issued_opened_capped
    (hr : Run (runtime blakeTwo256 sr25519Verify c) genesisUtxos .opened tr s)
    (hb : BlocksIncrease tr) : issued (runtime blakeTwo256 sr25519Verify c) tr +
      issuanceAt (runtime blakeTwo256 sr25519Verify c) s.blockNumber ≤ maxIssuance c := by
  have hn : (s.blockNumber :: finalized tr).Nodup :=
    List.nodup_cons.mpr ⟨opened_notMem_finalized hr hb, finalized_nodup hr hb⟩
  have hsum : ((s.blockNumber :: finalized tr).map
      (issuanceAt (runtime blakeTwo256 sr25519Verify c))).sum ≤ maxIssuance c :=
    sum_issuanceAt_le hn
  have hissued := issued_le_finalized (E := runtime blakeTwo256 sr25519Verify c) tr
  rw [List.map_cons, List.sum_cons] at hsum
  omega

/-- A spend that counts once cannot overflow what the supply has room for. -/
theorem spend_never_overflows {N : Type} {E : Env N} {s s' : State N} {t : Transaction}
    {o : Origin} {e : DispatchError} (hfit : supply s < 2 ^ 128) (hone : CountsOnce E s t)
    (h : (spend E o t).run s = .error e s') :
    e ≠ .other "Reward overflow" ∧ e ≠ .other "input value overflow" := by
  rw [supply] at hfit
  cases (spend_eq_error.mp h).1 with
  | missing hv hm => exact ⟨by decide, by decide⟩
  | rejected hr =>
    have hmem := hr.message
    constructor
    · rintro ⟨⟩
      exact absurd hmem (by decide)
    · intro he
      obtain ⟨verified, hsub, hw, hsig, hover⟩ := hr.inputs_overflow (DispatchError.other.inj he)
      have hle := verified_sum_le hone hw.inputs_distinct hsub hsig
      omega
  | overflow hs hover =>
    exfalso
    have hle := verified_sum_le hone hs.inputs_distinct List.prefix_rfl hs.signatures
    have hcredit := hs.credit_le
    rw [inputTotal] at hcredit
    omega

/-- With a genesis that leaves room for the whole issuance, no sum of a run overflows: every open
block can pay its author in full unless the schedule's own shift panics, and no spend that counts
once fails because of the size of its values. -/
theorem sums_never_overflow (hr : Run (runtime blakeTwo256 sr25519Verify c) genesisUtxos p tr s)
    (hb : BlocksIncrease tr)
    (hone : ∀ x ∈ tr, SpendsCountOnce (runtime blakeTwo256 sr25519Verify c) x)
    (hfit : endowment genesisUtxos + maxIssuance c < 2 ^ 128) :
    supply s ≤ endowment genesisUtxos + maxIssuance c ∧
    (p = .opened → ∀ author, s.author = some author →
      if c ∧ OutOfWidth s.blockNumber then
        UtxoPallet.onFinalize (runtime blakeTwo256 sr25519Verify c) s = none
      else ∃ utxo, utxo.pubkey = author ∧
        utxo.value.val = s.rewardTotal.val + unchecked (halvings s.blockNumber) ∧
        UtxoPallet.onFinalize (runtime blakeTwo256 sr25519Verify c) s =
          some (afterReward (runtime blakeTwo256 sr25519Verify c) s utxo)) ∧
    ∀ o t, CountsOnce (runtime blakeTwo256 sr25519Verify c) s t → ∀ e s',
      (spend (runtime blakeTwo256 sr25519Verify c) o t).run s = .error e s' →
        e ≠ .other "Reward overflow" ∧ e ≠ .other "input value overflow" := by
  have hsupply : supply s ≤ endowment genesisUtxos +
      issued (runtime blakeTwo256 sr25519Verify c) tr := hr.sum_le genesis_supply effect_supply hone
  have hcap := issued_capped hr hb
  refine ⟨by omega, ?_, fun o t ht e s' => spend_never_overflows (by omega) ht⟩
  rintro rfl author hauthor
  split_ifs with hwidth
  · have hnone : (runtime blakeTwo256 sr25519Verify c).issuance s.blockNumber = none := by
      have hval := issuance_val c s.blockNumber
      rw [if_pos hwidth] at hval
      exact Option.map_eq_none_iff.mp hval
    simp [onFinalize, hauthor, disperseReward, rewardUtxo, hnone]
  · have hval := issuance_val c s.blockNumber
    rw [if_neg hwidth] at hval
    obtain ⟨issuance, hi, hissuance⟩ := Option.map_eq_some_iff.mp hval
    have hopen := issued_opened_capped hr hb
    have hat : issuanceAt (runtime blakeTwo256 sr25519Verify c) s.blockNumber = issuance.val := by
      simp [issuanceAt, runtime, hi]
    rw [supply] at hsupply
    rw [hat] at hopen
    rw [← hissuance]
    exact onFinalize_of_author hauthor hi (by omega)

end Runs

def demoHalving : Env U32 := runtime demo.blakeTwo256 demo.sr25519Verify false

theorem demoOpen_executes : (execute demoHalving (demoBlock.take 3)
    (start demoHalving (testnetGenesis [alice, bob]))).isSome := by
  decide +kernel

/-- Alice may be paid her own fee and the issuance of block 1. -/
theorem demo_pays_in_full : ∃ tr s utxo, Run demoHalving (testnetGenesis [alice, bob]) .opened tr s ∧
    supply s ≤ endowment (testnetGenesis [alice, bob]) + maxIssuance false ∧
    utxo.pubkey = alice ∧ utxo.value.val = s.rewardTotal.val + unchecked (halvings s.blockNumber) ∧
    UtxoPallet.onFinalize demoHalving s = some (afterReward demoHalving s utxo) := by
  have hphase : (Option.get _ demoOpen_executes).1 = .opened := by decide +kernel
  have hr := run_of_execute_get demoOpen_executes
  rw [hphase] at hr
  obtain ⟨hsupply, hpays, -⟩ := sums_never_overflow hr (by decide +kernel) (by decide +kernel)
    (by decide +kernel)
  have hauthor : (Option.get _ demoOpen_executes).2.2.author = some alice := by decide +kernel
  have hpaid := hpays rfl alice hauthor
  rw [if_neg (by decide +kernel)] at hpaid
  obtain ⟨utxo, hkey, hval, hfinal⟩ := hpaid
  exact ⟨_, _, utxo, hr, hsupply, hkey, hval, hfinal⟩

end UtxoSolvency
