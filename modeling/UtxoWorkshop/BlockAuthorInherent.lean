import UtxoWorkshop.UtxoReward

/-! The way of a miner's key from the command line to the reward: it becomes an inherent of every
block that the node builds, and the block author pallet turns the inherent into the block's first
call. The hex decoder and the container of the inherent data are the libraries'. -/
namespace BlockAuthorInherent

open ScaleCodec MachineWords UtxoTransaction UtxoPallet UtxoChainSpec UtxoRuntime UtxoReward

abbrev InherentIdentifier := FixedHash 8

/-- The container of the inherent data. A value that is put is encoded, one that is got decoded. -/
structure InherentData (D : Type) where
  new : D
  putMoment : InherentIdentifier → U64 → D → Option D
  putData : InherentIdentifier → Bytes → D → Option D
  getData : InherentIdentifier → D → Option (Option Bytes)
  timestampIdentifier : InherentIdentifier

/-- `b"author__"`. -/
def inherentIdentifier : InherentIdentifier := ⟨[97, 117, 116, 104, 111, 114, 95, 95], rfl⟩

/-- An identifier takes one value, which is what it gives back. -/
structure Lawful {D : Type} (api : InherentData D) (has : InherentIdentifier → D → Prop) :
    Prop where
  new_empty : ∀ id, ¬has id api.new
  put_moment : ∀ id now d, ¬has id d → ∃ d', api.putMoment id now d = some d' ∧
    ∀ id', has id' d' → id' = id ∨ has id' d
  put_data : ∀ id v d, ¬has id d → ∃ d', api.putData id v d = some d' ∧
    api.getData id d' = some (some v)
  apart : api.timestampIdentifier ≠ inherentIdentifier

section node

variable {D : Type} (api : InherentData D) (hexDecode : String → Except String Bytes)

def parseSr25519PublicKey (i : String) : Except String Public := do
  let bytes ← hexDecode i
  if h : bytes.length = 32 then .ok ⟨bytes, h⟩
  else .error "invalid length for SR25519 public key"

def defaultSr25519PublicKey : Public := FixedHash.zero 32

/-- The key of a node that was started with or without `--sr25519-public-key`. -/
def minerKey (sr25519PublicKey : Option String) : Except String Public :=
  match sr25519PublicKey with
  | some i => parseSr25519PublicKey hexDecode i
  | none => .ok defaultSr25519PublicKey

def provideInherentData (self : Bytes) (inherentData : D) : Option D :=
  api.putData inherentIdentifier self inherentData

/-- What the providers that `build_inherent_data_providers` registers put together. -/
def buildInherentData (now : U64) (sr25519PublicKey : Public) : Option D := do
  let inherentData ← api.putMoment api.timestampIdentifier now api.new
  provideInherentData api sr25519PublicKey.bytes inherentData

/-- `none` outside is a panic of `expect`. -/
def createInherent (data : D) : Option (Option Call) :=
  match api.getData inherentIdentifier data with
  | none => none
  | some none => some none
  | some (some authorRaw) => do
    let author ← decodeFixed 32 authorRaw
    some (some (.setAuthor author.1))

/-- A block as a node builds it: its own inherent first, then calls of the pool. -/
structure MinedBlock (N : Type) where
  number : N
  now : U64
  sr25519PublicKey : Option String
  calls : List (Origin × Call)

/-- The actions of a block, if neither the key nor the inherent stops the node. -/
def MinedBlock.actions {N : Type} (b : MinedBlock N) : Option (List (Action N)) := do
  let key ← (minerKey hexDecode b.sr25519PublicKey).toOption
  let data ← buildInherentData api b.now key
  let inherent ← createInherent api data
  some (.onInitialize b.number :: (inherent.toList.map fun c => .call .none c) ++
    b.calls.map (fun call => .call call.1 call.2) ++ [.onFinalize])

end node

variable {D N : Type} {api : InherentData D} {has : InherentIdentifier → D → Prop}
  {hexDecode : String → Except String Bytes}

section Blocks

variable [BlockNumber N] {E : Env N} {p : Phase} {tr tr' : List (Transition N)} {s s' : State N}
  {rest : List (Action N)} {r : Phase × List (Transition N) × State N}

end Blocks

end BlockAuthorInherent
