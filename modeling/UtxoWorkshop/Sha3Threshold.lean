import Mathlib.Algebra.Order.Floor.Div
import Mathlib.Data.Set.Card
import UtxoWorkshop.Sha3Pow

/-! What a difficulty is worth. A hash meets it when the product does not overflow, and as the
32 bytes of a hash are every number below 2^256 once, the accepted hashes can be counted. -/
namespace Sha3Threshold

open MachineWords ScaleCodec Sha3Pow

variable {hash : H256} {difficulty difficulty' : U256}

def hashValue (hash : H256) : ℕ := fromBigEndian hash.bytes

theorem hashValue_injective : Function.Injective hashValue := by
  intro h h' heq
  have hle : h.bytes.reverse = h'.bytes.reverse := by
    rw [← littleEndian_fromLittleEndian h.bytes.reverse,
      ← littleEndian_fromLittleEndian h'.bytes.reverse, List.length_reverse, List.length_reverse,
      h.size, h'.size]
    exact congrArg (littleEndian 32) heq
  exact fixedHash_injective (List.reverse_injective hle)

theorem hashValue_fixedHash {n : ℕ} (hn : n < 2 ^ 256) : hashValue (fixedHash 32 n) = n := by
  rw [hashValue, fixedHash, fromBigEndian, List.reverse_reverse]
  exact fromLittleEndian_littleEndian hn

/-- As many hashes have a value below a bound as there are numbers below it. -/
theorem ncard_hashValue_lt {bound : ℕ} (hb : bound ≤ 2 ^ 256) :
    {hash : H256 | hashValue hash < bound}.ncard = bound := by
  have himage : hashValue '' {hash | hashValue hash < bound} = ↑(Finset.range bound) := by
    ext n
    simp only [Set.mem_image, Set.mem_ofPred_eq, Finset.coe_range, Set.mem_Iio]
    constructor
    · intro h
      rcases h with ⟨hash, hlt, rfl⟩
      exact hlt
    · intro hlt
      have hvalue := hashValue_fixedHash (hlt.trans_le hb)
      exact ⟨fixedHash 32 n, hvalue.trans_lt hlt, hvalue⟩
  rw [← Set.ncard_image_of_injective _ hashValue_injective, himage, Set.ncard_coe_finset,
    Finset.card_range]

theorem hashMeetsDifficulty_iff :
    hashMeetsDifficulty hash difficulty ↔ hashValue hash * difficulty.val < 2 ^ 256 := by
  have hvalue : (numHash hash).val = hashValue hash := rfl
  simp only [hashMeetsDifficulty, overflowingMul, hvalue, Bool.not_eq_true', decide_eq_false_iff_not,
    not_le]

/-- The quotient is rounded up, since the value of a hash may be zero. -/
theorem meets_iff_lt_ceilDiv (hd : 1 ≤ difficulty.val) :
    hashMeetsDifficulty hash difficulty ↔ hashValue hash < 2 ^ 256 ⌈/⌉ difficulty.val := by
  rw [hashMeetsDifficulty_iff, ← not_le, ← not_le, not_iff_not, ceilDiv_le_iff_le_mul hd,
    Nat.mul_comm]

theorem meets_of_le (hle : difficulty' ≤ difficulty) (h : hashMeetsDifficulty hash difficulty) :
    hashMeetsDifficulty hash difficulty' := by
  have hproduct := Nat.mul_le_mul_left (hashValue hash) (Fin.le_def.mp hle)
  exact hashMeetsDifficulty_iff.mpr (hproduct.trans_lt (hashMeetsDifficulty_iff.mp h))

/-- The work that a difficulty stands for. -/
theorem threshold_exact (hd : 1 ≤ difficulty.val) :
    (∀ hash, hashMeetsDifficulty hash difficulty ↔
      fromBigEndian hash.bytes * difficulty.val < 2 ^ 256) ∧
    Nat.card H256 = 2 ^ 256 ∧
    {hash | hashMeetsDifficulty hash difficulty}.ncard = 2 ^ 256 ⌈/⌉ difficulty.val ∧
    ∀ hash, ∀ difficulty' ≤ difficulty, hashMeetsDifficulty hash difficulty →
      hashMeetsDifficulty hash difficulty' := by
  refine ⟨fun hash => hashMeetsDifficulty_iff, ?_, ?_, fun hash d' hle => meets_of_le hle⟩
  · have hall : {hash : H256 | hashValue hash < 2 ^ 256} = Set.univ :=
      Set.eq_univ_of_forall fun hash => fromBigEndian_lt hash
    rw [← Set.ncard_univ, ← hall, ncard_hashValue_lt le_rfl]
  · have hbound : 2 ^ 256 ⌈/⌉ difficulty.val ≤ 2 ^ 256 :=
      (ceilDiv_le_iff_le_mul hd).mpr (Nat.le_mul_of_pos_left _ hd)
    simp only [meets_iff_lt_ceilDiv hd]
    exact ncard_hashValue_lt hbound

theorem threshold_demo :
    {hash | hashMeetsDifficulty hash 4000000}.ncard = 2 ^ 256 ⌈/⌉ (4000000 : U256).val :=
  (threshold_exact (by decide)).2.2.1

end Sha3Threshold
