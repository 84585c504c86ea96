import UtxoWorkshop.ScaleCodec

/-! The proof of work: what a miner seals, what a verifier accepts, and the byte string between
them. The verifier decodes a prefix of the raw seal and recomputes it from the header, so it
accepts the computed seals of good nonces, with anything behind them. -/
namespace Sha3Pow

open MachineWords ScaleCodec

structure Seal where
  difficulty : U256
  work : H256
  nonce : H256
  deriving DecidableEq

structure Compute where
  difficulty : U256
  preHash : H256
  nonce : H256
  deriving DecidableEq

def Seal.encode (s : Seal) : Bytes :=
  encodeUint s.difficulty ++ (s.work.bytes ++ s.nonce.bytes)

def Compute.encode (compute : Compute) : Bytes :=
  encodeUint compute.difficulty ++ (compute.preHash.bytes ++ compute.nonce.bytes)

/-- `Decode::decode` on a slice: the rest of the input is not looked at. -/
def Seal.decode : Decoder Seal := fun input => do
  let (difficulty, input) ← decodeUint 256 input
  let (work, input) ← decodeFixed 32 input
  let (nonce, input) ← decodeFixed 32 input
  pure ({ difficulty := difficulty, work := work, nonce := nonce }, input)

theorem fromBigEndian_lt (hash : H256) : fromBigEndian hash.bytes < 2 ^ 256 := by
  have hlt := fromLittleEndian_lt hash.bytes.reverse
  rwa [List.length_reverse, hash.size] at hlt

/-- `U256::from(&hash[..])` reads the bytes with the most significant one first. -/
def numHash (hash : H256) : U256 := ⟨fromBigEndian hash.bytes, fromBigEndian_lt hash⟩

def hashMeetsDifficulty (hash : H256) (difficulty : U256) : Bool :=
  let (_, overflowed) := overflowingMul (numHash hash) difficulty
  !overflowed

inductive Error where
  | environment (message : String)
  deriving DecidableEq

section Algorithm

variable (sha3 : Bytes → H256)

def Compute.compute (compute : Compute) : Seal where
  nonce := compute.nonce
  difficulty := compute.difficulty
  work := sha3 compute.encode

def verify (preHash : H256) (rawSeal : Bytes) (difficulty : U256) : Except Error Bool :=
  match Seal.decode rawSeal with
  | none => .ok false
  | some (s, _) =>
    if hashMeetsDifficulty s.work difficulty then
      let compute : Compute :=
        { difficulty := difficulty, preHash := preHash, nonce := s.nonce }
      if compute.compute sha3 ≠ s then .ok false
      else .ok true
    else .ok false

/-- `rounds` more rounds, after `drawn` nonces have been drawn. -/
def mineRounds (preHash : H256) (difficulty : U256) (nonces : ℕ → H256) :
    (rounds drawn : ℕ) → Option Bytes
  | 0, _ => none
  | rounds + 1, drawn =>
    let compute : Compute :=
      { difficulty := difficulty, preHash := preHash, nonce := nonces drawn }
    let s := compute.compute sha3
    if hashMeetsDifficulty s.work difficulty then some s.encode
    else mineRounds preHash difficulty nonces rounds (drawn + 1)

/-- The random source is either missing or yields a sequence of nonces. -/
def mine (rng : Except String (ℕ → H256)) (preHash : H256) (difficulty : U256) (round : U32) :
    Except Error (Option Bytes) :=
  match rng with
  | .error e => .error (.environment ("Initialize RNG failed for mining: " ++ e))
  | .ok nonces => .ok (mineRounds sha3 preHash difficulty nonces round 0)

end Algorithm

variable {sha3 : Bytes → H256} {preHash : H256} {difficulty : U256} {rawSeal : Bytes}

theorem sealDecode_exact : Exact Seal.decode Seal.encode := by
  intro bs s rest
  simp only [Seal.decode, Option.bind_eq_bind, Option.bind_eq_some_iff, Prod.exists,
    decodeUint_exact (w := 256) rfl _ _ _, decodeFixed_exact 32 _ _ _, Option.pure_def,
    Option.some.injEq, Prod.mk.injEq]
  constructor
  · intro h
    rcases h with ⟨d, r₁, rfl, w, r₂, rfl, n, r₃, rfl, rfl, rfl⟩
    simp [Seal.encode]
  · rintro rfl
    exact ⟨s.difficulty, _, by simp [Seal.encode], s.work, _, rfl, s.nonce, _, rfl, rfl, rfl⟩

theorem compute_selfDelimiting : SelfDelimiting Compute.encode := by
  have h := (encodeUint_selfDelimiting (w := 256) rfl).append
    ((fixedHash_selfDelimiting 32).append (fixedHash_selfDelimiting 32))
  exact h.comap (f := fun compute : Compute =>
    (compute.difficulty, compute.preHash, compute.nonce))
    (by rintro ⟨d, p, n⟩ ⟨d', p', n'⟩ h; simpa using h)

/-- The seal the miner would make of a nonce. -/
def sealOf (sha3 : Bytes → H256) (preHash : H256) (difficulty : U256) (nonce : H256) : Seal :=
  Compute.compute sha3 { difficulty := difficulty, preHash := preHash, nonce := nonce }

def Meets (sha3 : Bytes → H256) (preHash : H256) (difficulty : U256) (nonce : H256) : Prop :=
  hashMeetsDifficulty (sealOf sha3 preHash difficulty nonce).work difficulty

instance (nonce : H256) : Decidable (Meets sha3 preHash difficulty nonce) :=
  inferInstanceAs (Decidable (_ = true))

theorem verify_append (s : Seal) (rest : Bytes) :
    verify sha3 preHash (s.encode ++ rest) difficulty = .ok true ↔
      Meets sha3 preHash difficulty s.nonce ∧ sealOf sha3 preHash difficulty s.nonce = s := by
  have hdecode : Seal.decode (s.encode ++ rest) = some (s, rest) :=
    (sealDecode_exact _ _ _).mpr rfl
  have hverify : verify sha3 preHash (s.encode ++ rest) difficulty =
      if hashMeetsDifficulty s.work difficulty then
        if sealOf sha3 preHash difficulty s.nonce ≠ s then .ok false else .ok true
      else .ok false := by
    rw [verify, hdecode]
    rfl
  rw [hverify]
  by_cases heq : sealOf sha3 preHash difficulty s.nonce = s
  · -- the seal's own work is then the recomputed one, so both tests are on the same hash
    have hmeets : Meets sha3 preHash difficulty s.nonce ↔ hashMeetsDifficulty s.work difficulty := by
      rw [Meets, heq]
    simp [hmeets, heq]
  · simp [heq]

/-- The verifier accepts the computed seal of a good nonce, whatever follows it. -/
theorem verify_eq_true : verify sha3 preHash rawSeal difficulty = .ok true ↔
    ∃ nonce rest, rawSeal = (sealOf sha3 preHash difficulty nonce).encode ++ rest ∧
      Meets sha3 preHash difficulty nonce := by
  constructor
  · intro h
    cases hdecode : Seal.decode rawSeal with
    | none => simp [verify, hdecode] at h
    | some r =>
      obtain ⟨s, rest⟩ := r
      have hraw := (sealDecode_exact _ _ _).mp hdecode
      rw [hraw, verify_append] at h
      exact ⟨s.nonce, rest, by rw [h.2, hraw], h.1⟩
  · intro h
    rcases h with ⟨nonce, rest, rfl, hmeets⟩
    exact (verify_append _ _).mpr ⟨hmeets, rfl⟩

theorem mineRounds_succ (nonces : ℕ → H256) (rounds drawn : ℕ) :
    mineRounds sha3 preHash difficulty nonces (rounds + 1) drawn =
      if Meets sha3 preHash difficulty (nonces drawn) then
        some (sealOf sha3 preHash difficulty (nonces drawn)).encode
      else mineRounds sha3 preHash difficulty nonces rounds (drawn + 1) := rfl

theorem mineRounds_eq_some {nonces : ℕ → H256} {rounds drawn : ℕ}
    (h : mineRounds sha3 preHash difficulty nonces rounds drawn = some rawSeal) :
    ∃ i, Meets sha3 preHash difficulty (nonces i) ∧
      rawSeal = (sealOf sha3 preHash difficulty (nonces i)).encode := by
  induction rounds generalizing drawn with
  | zero => cases h
  | succ rounds ih =>
    rw [mineRounds_succ] at h
    by_cases hmeets : Meets sha3 preHash difficulty (nonces drawn)
    · rw [if_pos hmeets] at h
      exact ⟨drawn, hmeets, (Option.some.inj h).symm⟩
    · rw [if_neg hmeets] at h
      exact ih h

theorem mineRounds_eq_none {nonces : ℕ → H256} {rounds drawn : ℕ}
    (h : mineRounds sha3 preHash difficulty nonces rounds drawn = none) :
    ∀ i < rounds, ¬ Meets sha3 preHash difficulty (nonces (drawn + i)) := by
  induction rounds generalizing drawn with
  | zero => simp
  | succ rounds ih =>
    rw [mineRounds_succ] at h
    by_cases hmeets : Meets sha3 preHash difficulty (nonces drawn)
    · rw [if_pos hmeets] at h
      cases h
    · rw [if_neg hmeets] at h
      intro i hi
      cases i with
      | zero => exact hmeets
      | succ i =>
        have hnext := ih h i (by omega)
        rwa [Nat.add_right_comm] at hnext

/-- Whatever is mined verifies, and a nonce that was drawn in vain has no accepted seal. -/
theorem mined_verifies (sha3 : Bytes → H256) (rng : Except String (ℕ → H256)) (preHash : H256)
    (difficulty : U256) (round : U32) :
    (∀ raw, mine sha3 rng preHash difficulty round = .ok (some raw) →
      verify sha3 preHash raw difficulty = .ok true) ∧
    ∀ nonces, rng = .ok nonces → mine sha3 rng preHash difficulty round = .ok none →
      ∀ i < round.val, ∀ rest, verify sha3 preHash
        ((sealOf sha3 preHash difficulty (nonces i)).encode ++ rest) difficulty ≠ .ok true := by
  constructor
  · intro raw h
    cases rng with
    | error e => cases h
    | ok nonces =>
      obtain ⟨i, hmeets, rfl⟩ := mineRounds_eq_some (Except.ok.inj h)
      exact verify_eq_true.mpr ⟨nonces i, [], (List.append_nil _).symm, hmeets⟩
  · intro nonces hrng h i hi rest haccept
    subst hrng
    have hmiss := mineRounds_eq_none (Except.ok.inj h) i hi
    rw [Nat.zero_add] at hmiss
    exact hmiss ((verify_append _ _).mp haccept).1

def zeroHash : H256 := .zero 32

/-- The digests of two attempts on the zero header, at the least difficulty and the greatest. -/
def demoSha3 (bs : Bytes) : H256 :=
  if bs = Compute.encode { difficulty := 1, preHash := zeroHash, nonce := zeroHash } then
    fixedHash 32 0x4cebc3b5fa393c9a4554a32dda7badacab51846b99e7a57e3130550909bc5bff
  else if bs = Compute.encode
      { difficulty := Fin.last _, preHash := zeroHash, nonce := zeroHash } then
    fixedHash 32 0xca00ec94c68980d1d898b07d14aee1d1e93047ff4807d2b3c9852fe567e10c8b
  else zeroHash

def demoRng : Except String (ℕ → H256) := .ok fun _ => zeroHash

def demoRaw : Bytes := (sealOf demoSha3 zeroHash 1 zeroHash).encode

theorem demo_mined_verifies : verify demoSha3 zeroHash demoRaw 1 = .ok true ∧
    verify demoSha3 zeroHash ((sealOf demoSha3 zeroHash (Fin.last _) zeroHash).encode ++ [])
      (Fin.last _) ≠ .ok true :=
  ⟨(mined_verifies demoSha3 demoRng zeroHash 1 1).1 demoRaw (by decide +kernel),
    (mined_verifies demoSha3 demoRng zeroHash (Fin.last _) 1).2 (fun _ => zeroHash) rfl
      (by decide +kernel) 0 (by decide) []⟩

/-- The nonce that a raw seal names. -/
def nonceOf (rawSeal : Bytes) : Option H256 := (Seal.decode rawSeal).map fun r => r.1.nonce

theorem nonceOf_append (s : Seal) (rest : Bytes) : nonceOf (s.encode ++ rest) = some s.nonce := by
  rw [nonceOf, (sealDecode_exact _ _ _).mpr rfl]
  rfl

theorem seal_encode_length (s : Seal) : s.encode.length = 96 := by
  simp [Seal.encode, s.work.size, s.nonce.size]

/-- A proof of work has one accepted seal up to the bytes behind its encoding. -/
theorem accepted_seals (sha3 : Bytes → H256) (preHash : H256) (difficulty : U256) :
    (∀ raw, verify sha3 preHash raw difficulty = .ok true ↔
      ∃ nonce rest, raw = (sealOf sha3 preHash difficulty nonce).encode ++ rest ∧
        Meets sha3 preHash difficulty nonce) ∧
    ∀ raw raw', verify sha3 preHash raw difficulty = .ok true →
      verify sha3 preHash raw' difficulty = .ok true → nonceOf raw = nonceOf raw' →
        raw.take 96 = raw'.take 96 := by
  refine ⟨fun raw => verify_eq_true, ?_⟩
  intro raw raw' h h' hnonce
  obtain ⟨nonce, rest, rfl, -⟩ := verify_eq_true.mp h
  obtain ⟨nonce', rest', rfl, -⟩ := verify_eq_true.mp h'
  rw [nonceOf_append, nonceOf_append] at hnonce
  obtain rfl : nonce = nonce' := Option.some.inj hnonce
  rw [List.take_left' (seal_encode_length _), List.take_left' (seal_encode_length _)]

theorem demo_accepted_seals : demoRaw.take 96 = (demoRaw ++ [0]).take 96 :=
  (accepted_seals demoSha3 zeroHash 1).2 demoRaw (demoRaw ++ [0]) (by decide +kernel)
    (by decide +kernel) (by decide +kernel)

/-- One byte behind the seal makes a second accepted raw seal, the encoding of none. -/
theorem trailing_byte_accepted : verify demoSha3 zeroHash demoRaw 1 = .ok true ∧
    verify demoSha3 zeroHash (demoRaw ++ [0]) 1 = .ok true ∧
    nonceOf demoRaw = nonceOf (demoRaw ++ [0]) ∧ demoRaw ≠ demoRaw ++ [0] ∧
    ¬ ∃ nonce, demoRaw ++ [0] = (sealOf demoSha3 zeroHash 1 nonce).encode ∧
      Meets demoSha3 zeroHash 1 nonce := by
  refine ⟨by decide +kernel, by decide +kernel, by decide +kernel, by simp, ?_⟩
  rintro ⟨nonce, hraw, _⟩
  have hlen := congrArg List.length hraw
  rw [List.length_append, demoRaw, seal_encode_length, seal_encode_length] at hlen
  simp at hlen

/-- The strings a verification hashes: at most one, for the nonce it decodes. -/
def hashedBy (preHash : H256) (difficulty : U256) (rawSeal : Bytes) : List Bytes :=
  (nonceOf rawSeal).elim [] fun nonce =>
    [Compute.encode { difficulty := difficulty, preHash := preHash, nonce := nonce }]

theorem accepted_seal_binds (sha3 : Bytes → H256) (rawSeal : Bytes) {preHash preHash' : H256}
    {difficulty difficulty' : U256}
    (hc : ∀ b ∈ hashedBy preHash difficulty rawSeal,
      ∀ c ∈ hashedBy preHash' difficulty' rawSeal, sha3 b = sha3 c → b = c)
    (h : verify sha3 preHash rawSeal difficulty = .ok true)
    (h' : verify sha3 preHash' rawSeal difficulty' = .ok true) :
    preHash = preHash' ∧ difficulty = difficulty' := by
  obtain ⟨nonce, rest, hraw, -⟩ := verify_eq_true.mp h
  obtain ⟨nonce', rest', hraw', -⟩ := verify_eq_true.mp h'
  have hdecode := (sealDecode_exact _ _ _).mpr hraw
  have hdecode' := (sealDecode_exact _ _ _).mpr hraw'
  have hseal : sealOf sha3 preHash difficulty nonce = sealOf sha3 preHash' difficulty' nonce' :=
    congrArg Prod.fst (Option.some.inj (hdecode.symm.trans hdecode'))
  obtain rfl : nonce = nonce' := congrArg Seal.nonce hseal
  have hwork := congrArg Seal.work hseal
  have hnonce : nonceOf rawSeal = some nonce := by
    rw [hraw, nonceOf_append]
    rfl
  rw [hashedBy, hashedBy, hnonce] at hc
  have heq := hc _ (List.mem_singleton_self _) _ (List.mem_singleton_self _) hwork
  have hcompute := compute_selfDelimiting.injective heq
  exact ⟨congrArg Compute.preHash hcompute, congrArg Compute.difficulty hcompute⟩

theorem demo_seal_binds : zeroHash = zeroHash ∧ (1 : U256) = 1 :=
  accepted_seal_binds demoSha3 demoRaw (by decide +kernel) (by decide +kernel)
    (by decide +kernel)

end Sha3Pow
