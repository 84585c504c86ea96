import Mathlib.Data.List.Basic
import Mathlib.Data.Nat.Basic
import Mathlib.Tactic.Common
import UtxoWorkshop.MachineWords

/-! The SCALE byte format: little-endian integers, fixed byte arrays, and vectors behind a
compact length prefix. Encodings are compared through one notion, `SelfDelimiting`: two encoded
values with anything behind them agree only if the values and the remainders do. Decoders read
a prefix of their input; `Exact` says that they accept the encodings and nothing else. -/
namespace ScaleCodec

open MachineWords

abbrev Bytes := List UInt8

structure FixedHash (n : ℕ) where
  bytes : Bytes
  size : bytes.length = n
  deriving DecidableEq

abbrev H256 := FixedHash 32
abbrev H512 := FixedHash 64

def FixedHash.zero (n : ℕ) : FixedHash n := ⟨List.replicate n 0, List.length_replicate⟩

/-- A vector as the codec carries it: its length fits the `u32` length prefix. -/
structure Vec (α : Type*) where
  toList : List α
  size : toList.length < 2 ^ 32
  deriving DecidableEq

variable {α β : Type*}

def Vec.map (f : α → β) (v : Vec α) : Vec β := ⟨v.toList.map f, by simpa using v.size⟩

theorem Vec.ext {u v : Vec α} (h : u.toList = v.toList) : u = v := by
  cases u
  cases v
  simpa using h

def littleEndian : ℕ → ℕ → Bytes
  | 0, _ => []
  | k + 1, n => UInt8.ofNat (n % 256) :: littleEndian k (n / 256)

def fromLittleEndian : Bytes → ℕ
  | [] => 0
  | b :: bs => b.toNat + 256 * fromLittleEndian bs

def fromBigEndian (bs : Bytes) : ℕ := fromLittleEndian bs.reverse

@[simp] theorem littleEndian_length (k n : ℕ) : (littleEndian k n).length = k := by
  induction k generalizing n with
  | zero => rfl
  | succ k ih => simp [littleEndian, ih]

/-- A hash from its digits, the most significant byte first. -/
def fixedHash (n digits : ℕ) : FixedHash n := ⟨(littleEndian n digits).reverse, by simp⟩

theorem fromLittleEndian_lt (bs : Bytes) : fromLittleEndian bs < 256 ^ bs.length := by
  induction bs with
  | nil => simp [fromLittleEndian]
  | cons b bs ih =>
    have hb := b.toNat_lt
    simp only [fromLittleEndian, List.length_cons, Nat.pow_succ]
    omega

theorem fromLittleEndian_littleEndian {k n : ℕ} (h : n < 256 ^ k) :
    fromLittleEndian (littleEndian k n) = n := by
  induction k generalizing n with
  | zero => simp at h; simp [littleEndian, fromLittleEndian, h]
  | succ k ih =>
    have hq : n / 256 < 256 ^ k := by
      rw [Nat.pow_succ] at h
      omega
    have hb : (UInt8.ofNat (n % 256)).toNat = n % 256 := by simp
    simp only [littleEndian, fromLittleEndian, ih hq, hb]
    omega

theorem littleEndian_fromLittleEndian (bs : Bytes) :
    littleEndian bs.length (fromLittleEndian bs) = bs := by
  induction bs with
  | nil => rfl
  | cons b bs ih =>
    have hb := b.toNat_lt
    have hm : (b.toNat + 256 * fromLittleEndian bs) % 256 = b.toNat := by omega
    have hd : (b.toNat + 256 * fromLittleEndian bs) / 256 = fromLittleEndian bs := by omega
    simp only [List.length_cons, littleEndian, fromLittleEndian, hm, hd, ih, UInt8.ofNat_toNat]

theorem littleEndian_injective {k m n : ℕ} (hm : m < 256 ^ k) (hn : n < 256 ^ k)
    (h : littleEndian k m = littleEndian k n) : m = n := by
  rw [← fromLittleEndian_littleEndian hm, h, fromLittleEndian_littleEndian hn]

/-- Self-delimiting encodings. -/
def SelfDelimiting (enc : α → Bytes) : Prop :=
  ∀ a b r s, enc a ++ r = enc b ++ s → a = b ∧ r = s

theorem SelfDelimiting.injective {enc : α → Bytes} (h : SelfDelimiting enc) : Function.Injective enc :=
  fun a b hab => (h a b [] [] (by simpa using hab)).1

theorem SelfDelimiting.of_fixed {enc : α → Bytes} {n : ℕ} (hlen : ∀ a, (enc a).length = n)
    (hinj : Function.Injective enc) : SelfDelimiting enc := by
  intro a b r s h
  obtain ⟨hab, hrs⟩ := List.append_inj h ((hlen a).trans (hlen b).symm)
  exact ⟨hinj hab, hrs⟩

theorem SelfDelimiting.append {ea : α → Bytes} {eb : β → Bytes} (ha : SelfDelimiting ea)
    (hb : SelfDelimiting eb) : SelfDelimiting (fun p : α × β => ea p.1 ++ eb p.2) := by
  rintro ⟨a, b⟩ ⟨a', b'⟩ r s h
  simp only [List.append_assoc] at h
  obtain ⟨haa, h⟩ := ha _ _ _ _ h
  obtain ⟨hbb, h⟩ := hb _ _ _ _ h
  exact ⟨Prod.ext haa hbb, h⟩

theorem SelfDelimiting.comap {enc : α → Bytes} (h : SelfDelimiting enc) {f : β → α}
    (hf : Function.Injective f) : SelfDelimiting (fun b => enc (f b)) := by
  intro a b r s hab
  obtain ⟨he, hrs⟩ := h _ _ _ _ hab
  exact ⟨hf he, hrs⟩

/-- The number of records has to be known from elsewhere: a bare sequence has no end marker. -/
theorem SelfDelimiting.flatMap {enc : α → Bytes} (h : SelfDelimiting enc) {l m : List α} {r s : Bytes}
    (hlen : l.length = m.length) (he : l.flatMap enc ++ r = m.flatMap enc ++ s) :
    l = m ∧ r = s := by
  induction l generalizing m with
  | nil =>
    obtain rfl : m = [] := List.length_eq_zero_iff.mp hlen.symm
    exact ⟨rfl, he⟩
  | cons a l ih =>
    cases m with
    | nil => simp at hlen
    | cons b m =>
      simp only [List.flatMap_cons, List.append_assoc] at he
      obtain ⟨hab, he⟩ := h _ _ _ _ he
      obtain ⟨hl, hrs⟩ := ih (by simpa using hlen) he
      exact ⟨by rw [hab, hl], hrs⟩

def encodeUint {w : ℕ} (x : Word w) : Bytes := littleEndian (w / 8) x.val

@[simp] theorem encodeUint_length {w : ℕ} (x : Word w) : (encodeUint x).length = w / 8 := by
  simp [encodeUint]

theorem encodeUint_injective {w : ℕ} (hw : 256 ^ (w / 8) = 2 ^ w) :
    Function.Injective (@encodeUint w) := fun x y h =>
  Fin.ext (littleEndian_injective (x.isLt.trans_eq hw.symm) (y.isLt.trans_eq hw.symm) h)

theorem encodeUint_selfDelimiting {w : ℕ} (hw : 256 ^ (w / 8) = 2 ^ w) :
    SelfDelimiting (@encodeUint w) :=
  .of_fixed encodeUint_length (encodeUint_injective hw)

theorem fixedHash_injective {n : ℕ} : Function.Injective (@FixedHash.bytes n) := by
  rintro ⟨a, ha⟩ ⟨b, hb⟩ h
  simpa using h

theorem fixedHash_selfDelimiting (n : ℕ) : SelfDelimiting (@FixedHash.bytes n) :=
  .of_fixed FixedHash.size fixedHash_injective

/-- The low two bits of the first byte of a compact integer say how wide it is. -/
def compactMode (n : ℕ) : ℕ :=
  if n < 2 ^ 6 then 0 else if n < 2 ^ 14 then 1 else if n < 2 ^ 30 then 2 else 3

/-- The compact length prefix. Lengths are `u32` in the format, so four bytes follow the
marker of the last mode; a longer list has no encoding. -/
def compact (n : ℕ) : Bytes :=
  if n < 2 ^ 6 then littleEndian 1 (4 * n)
  else if n < 2 ^ 14 then littleEndian 2 (4 * n + 1)
  else if n < 2 ^ 30 then littleEndian 4 (4 * n + 2)
  else 3 :: littleEndian 4 n

theorem compact_head (n : ℕ) : ∃ b bs, compact n = b :: bs ∧ b.toNat % 4 = compactMode n := by
  have low (m : ℕ) : (UInt8.ofNat (m % 256)).toNat % 4 = m % 4 := by
    have h : (UInt8.ofNat (m % 256)).toNat = m % 256 := by simp
    omega
  unfold compact compactMode
  split_ifs
  · exact ⟨_, _, rfl, by rw [low]; omega⟩
  · exact ⟨_, _, rfl, by rw [low]; omega⟩
  · exact ⟨_, _, rfl, by rw [low]; omega⟩
  · exact ⟨_, _, rfl, rfl⟩

theorem compact_length_congr {m n : ℕ} (h : compactMode m = compactMode n) :
    (compact m).length = (compact n).length := by
  unfold compactMode at h
  unfold compact
  split_ifs at h ⊢ <;> simp_all

/-- What follows a length prefix is determined, whatever the length was. -/
theorem compact_append {m n : ℕ} {r s : Bytes} (h : compact m ++ r = compact n ++ s) :
    compact m = compact n ∧ r = s := by
  obtain ⟨b, bs, hb, hmb⟩ := compact_head m
  obtain ⟨c, cs, hc, hnc⟩ := compact_head n
  have hbc : b = c := by
    rw [hb, hc] at h
    exact (List.cons.inj h).1
  exact List.append_inj h (compact_length_congr (by rw [← hmb, ← hnc, hbc]))

theorem compact_injective {m n : ℕ} (hm : m < 2 ^ 32) (hn : n < 2 ^ 32)
    (h : compact m = compact n) : m = n := by
  have hmode : compactMode m = compactMode n := by
    obtain ⟨b, bs, hb, hmb⟩ := compact_head m
    obtain ⟨c, cs, hc, hnc⟩ := compact_head n
    rw [hb, hc] at h
    rw [← hmb, ← hnc, (List.cons.inj h).1]
  unfold compactMode at hmode
  unfold compact at h
  split_ifs at hmode h <;> try contradiction
  · have := littleEndian_injective (by omega) (by omega) h
    omega
  · have := littleEndian_injective (by omega) (by omega) h
    omega
  · have := littleEndian_injective (by omega) (by omega) h
    omega
  · exact littleEndian_injective (by omega) (by omega) (List.cons.inj h).2

def encodeVec (enc : α → Bytes) (v : Vec α) : Bytes :=
  compact v.toList.length ++ v.toList.flatMap enc

theorem SelfDelimiting.vec {enc : α → Bytes} (h : SelfDelimiting enc) : SelfDelimiting (encodeVec enc) := by
  intro u v r s he
  simp only [encodeVec, List.append_assoc] at he
  obtain ⟨hc, he⟩ := compact_append he
  obtain ⟨hl, hrs⟩ := h.flatMap (compact_injective u.size v.size hc) he
  exact ⟨Vec.ext hl, hrs⟩

/-- The encoding of an already encoded value, as a vector of bytes. -/
def encodeBytes (bs : Bytes) : Bytes := compact bs.length ++ bs

abbrev Decoder (α : Type*) := Bytes → Option (α × Bytes)

/-- The decoder accepts exactly the encodings, and leaves the rest of the input unread. -/
def Exact (dec : Decoder α) (enc : α → Bytes) : Prop :=
  ∀ bs a rest, dec bs = some (a, rest) ↔ bs = enc a ++ rest

def decodeFixed (n : ℕ) : Decoder (FixedHash n) := fun bs =>
  if h : n ≤ bs.length then some (⟨bs.take n, List.length_take_of_le h⟩, bs.drop n) else none

def decodeUint (w : ℕ) : Decoder (Word w) := fun bs =>
  if w / 8 ≤ bs.length then
    some (⟨fromLittleEndian (bs.take (w / 8)) % 2 ^ w, Nat.mod_lt _ (Nat.two_pow_pos w)⟩,
      bs.drop (w / 8))
  else none

theorem decodeFixed_exact (n : ℕ) : Exact (decodeFixed n) FixedHash.bytes := by
  intro bs a rest
  unfold decodeFixed
  split
  · constructor
    · intro h
      cases h
      exact (List.take_append_drop n bs).symm
    · rintro rfl
      simp [List.take_left' a.size, List.drop_left' a.size]
  · rename_i h
    refine ⟨nofun, ?_⟩
    rintro rfl
    simp [a.size] at h

theorem decodeUint_exact {w : ℕ} (hw : 256 ^ (w / 8) = 2 ^ w) :
    Exact (decodeUint w) encodeUint := by
  intro bs a rest
  unfold decodeUint
  split
  · rename_i h
    have hlen := List.length_take_of_le h
    have hlt : fromLittleEndian (bs.take (w / 8)) < 2 ^ w := by
      have := fromLittleEndian_lt (bs.take (w / 8))
      rwa [hlen, hw] at this
    simp only [Option.some.injEq, Prod.mk.injEq, Fin.ext_iff, Nat.mod_eq_of_lt hlt]
    constructor
    · intro h
      rcases h with ⟨ha, rfl⟩
      have hle := littleEndian_fromLittleEndian (bs.take (w / 8))
      rw [hlen, ha] at hle
      rw [encodeUint, hle, List.take_append_drop]
    · rintro rfl
      rw [List.take_left' (encodeUint_length a), List.drop_left' (encodeUint_length a)]
      exact ⟨fromLittleEndian_littleEndian (a.isLt.trans_eq hw.symm), rfl⟩
  · rename_i h
    refine ⟨nofun, ?_⟩
    rintro rfl
    simp at h

end ScaleCodec
