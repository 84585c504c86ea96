import Mathlib.Data.List.Dedup
import UtxoWorkshop.KeyedStore
import UtxoWorkshop.UtxoTransaction

/-! The UTXO pallet and the block author pallet: their storage, their dispatchable calls and
their block hooks. A dispatchable runs in `Dispatch`, where an error keeps every write made
before it, as the framework does for a call without a transactional wrapper. -/
namespace UtxoPallet

open MachineWords ScaleCodec KeyedStore UtxoTransaction

/-- Block numbers: unsigned integers that `saturated_into::<u64>` does not truncate. -/
class BlockNumber (N : Type) extends LinearOrder N, Zero N where
  saturatedInto : N → U64
  saturatedInto_strictMono : StrictMono saturatedInto

instance : BlockNumber U32 where
  saturatedInto := cast 64
  saturatedInto_strictMono a b h := by
    rw [Fin.lt_def, cast_val_of_le a (by decide), cast_val_of_le b (by decide)]
    exact h

instance : BlockNumber U64 where
  saturatedInto := id
  saturatedInto_strictMono := strictMono_id

/-- What the pallet is generic over: the issuance schedule (`none` when computing it panics),
the host's hash and signature check, and whether the build checks integer overflow. -/
structure Env (N : Type) where
  issuance : N → Option Value
  blakeTwo256 : Bytes → H256
  sr25519Verify : H512 → Bytes → H256 → Bool
  overflowChecks : Bool

inductive Event where
  | transactionSuccess (transaction : Transaction)
  | rewardsIssued (value : Value) (hash : H256)
  | rewardsWasted
  deriving DecidableEq

structure State (N : Type) where
  utxoStore : Store H256 TransactionOutput
  rewardTotal : Value
  author : Option Public
  blockNumber : N
  events : List Event

inductive DispatchError where
  | other (message : String)
  | badOrigin
  | authorAlreadySet
  deriving DecidableEq, Repr

abbrev Dispatch (N : Type) := EStateM DispatchError (State N)

inductive Origin where
  | root
  | signed (who : FixedHash 32)
  | none
  deriving DecidableEq

/-- What the transaction pool learns of a valid transaction. -/
structure ValidTransaction where
  requires : List Bytes
  provides : List Bytes
  priority : U64
  longevity : U64
  propagate : Bool
  deriving DecidableEq

section Validation

variable {ε : Type} {m : Type → Type} [Monad m] [MonadExceptOf ε m]

def ensure (p : Prop) [Decidable p] (error : ε) : m Unit :=
  if p then pure () else throw error

def okOr {α : Type} (o : Option α) (error : ε) : m α :=
  match o with
  | some a => pure a
  | none => throw error

end Validation

variable {N : Type}

def outputHash (E : Env N) (transaction : Transaction) (index : U64) : H256 :=
  E.blakeTwo256 (outputPreimage transaction index)

def getMissingUtxos (s : State N) (transaction : Transaction) : List H256 :=
  transaction.outpoints.filter fun outpoint => (s.utxoStore.lookup outpoint).isNone

/-- The loop over the inputs, with its running total and the missing outpoints so far. -/
def checkInputs (E : Env N) (s : State N) (simpleTransaction : Bytes) :
    List TransactionInput → Value → List Bytes → Except String (Value × List Bytes)
  | [], totalInput, missingUtxos => pure (totalInput, missingUtxos)
  | input :: rest, totalInput, missingUtxos =>
    match s.utxoStore.lookup input.outpoint with
    | some inputUtxo => do
      ensure (E.sr25519Verify input.sigscript simpleTransaction inputUtxo.pubkey)
        "signature must be valid"
      let totalInput ← okOr (checkedAdd totalInput inputUtxo.value) "input value overflow"
      checkInputs E s simpleTransaction rest totalInput missingUtxos
    | none =>
      checkInputs E s simpleTransaction rest totalInput (missingUtxos ++ [input.outpoint.bytes])

/-- The loop over the outputs, with its index, its running total and the keys so far. -/
def checkOutputs (E : Env N) (s : State N) (transaction : Transaction) :
    List TransactionOutput → U64 → Value → List Bytes → Except String (Value × List Bytes)
  | [], _, totalOutput, newUtxos => pure (totalOutput, newUtxos)
  | output :: rest, outputIndex, totalOutput, newUtxos => do
    ensure (0 < output.value) "output value must be nonzero"
    let hash := outputHash E transaction outputIndex
    let outputIndex ← okOr (checkedAdd outputIndex 1) "output index overflow"
    ensure (hash ∉ s.utxoStore) "output already exists"
    let totalOutput ← okOr (checkedAdd totalOutput output.value) "output value overflow"
    checkOutputs E s transaction rest outputIndex totalOutput (newUtxos ++ [hash.bytes])

/-- The balance is compared only when no input is missing; otherwise the reward stays zero. -/
def checkBalance (missingUtxos : List Bytes) (totalInput totalOutput : Value) :
    Except String Value :=
  if missingUtxos = [] then do
    ensure (totalOutput ≤ totalInput) "output value must not exceed input value"
    okOr (checkedSub totalInput totalOutput) "reward underflow"
  else pure 0

def validateTransaction (E : Env N) (s : State N) (transaction : Transaction) :
    Except String ValidTransaction := do
  let inputs := transaction.inputs.toList
  let outputs := transaction.outputs.toList
  ensure (inputs ≠ []) "no inputs"
  ensure (outputs ≠ []) "no outputs"
  ensure (inputs.dedup.length = inputs.length) "each input must only be used once"
  ensure (outputs.dedup.length = outputs.length) "each output must be defined only once"
  let (totalInput, missingUtxos) ←
    checkInputs E s (getSimpleTransaction transaction) inputs 0 []
  let (totalOutput, newUtxos) ← checkOutputs E s transaction outputs 0 0 []
  let reward ← checkBalance missingUtxos totalInput totalOutput
  pure {
    requires := missingUtxos
    provides := newUtxos
    priority := cast 64 reward
    longevity := Fin.last _
    propagate := true }

def insertOutputs (E : Env N) (transaction : Transaction) :
    List TransactionOutput → U64 → Dispatch N Unit
  | [], _ => pure ()
  | output :: rest, index => do
    let hash := outputHash E transaction index
    let index ← okOr (checkedAdd index 1) (DispatchError.other "output index overflow")
    modify fun s => { s with utxoStore := s.utxoStore.insert hash output }
    insertOutputs E transaction rest index

def updateStorage (E : Env N) (transaction : Transaction) (reward : Value) :
    Dispatch N Unit := do
  let s ← get
  let newTotal ← okOr (checkedAdd s.rewardTotal reward) (DispatchError.other "Reward overflow")
  modify fun s => { s with rewardTotal := newTotal }
  modify fun s => { s with utxoStore := removeAll s.utxoStore transaction.outpoints }
  insertOutputs E transaction transaction.outputs.toList 0

def State.depositEvent (s : State N) (event : Event) : State N :=
  { s with events := s.events ++ [event] }

def spend (E : Env N) (_origin : Origin) (transaction : Transaction) : Dispatch N Unit := do
  let s ← get
  let transactionValidity ←
    match validateTransaction E s transaction with
    | .ok transactionValidity => pure transactionValidity
    | .error message => throw (.other message)
  ensure (transactionValidity.requires = []) (DispatchError.other "missing inputs")
  updateStorage E transaction (cast 128 transactionValidity.priority)
  modify fun s => s.depositEvent (.transactionSuccess transaction)

/-- The inherent of the block author pallet. -/
def setAuthor (origin : Origin) (author : Public) : Dispatch N Unit := do
  ensure (origin = .none) DispatchError.badOrigin
  let s ← get
  ensure (s.author = none) DispatchError.authorAlreadySet
  modify fun s => { s with author := some author }

/-- `RewardTotal::take() + issuance`, under the author's key; `none` is an overflow panic. -/
def rewardUtxo [BlockNumber N] (E : Env N) (s : State N) (author : Public) :
    Option TransactionOutput := do
  let issuance ← E.issuance s.blockNumber
  let reward ← plainAdd E.overflowChecks s.rewardTotal issuance
  pure { value := reward, pubkey := author }

def rewardHash [BlockNumber N] (E : Env N) (s : State N) (utxo : TransactionOutput) : H256 :=
  E.blakeTwo256 (rewardPreimage utxo (BlockNumber.saturatedInto s.blockNumber))

def disperseReward [BlockNumber N] (E : Env N) (author : Public) (s : State N) :
    Option (State N) := do
  let utxo ← rewardUtxo E s author
  let hash := rewardHash E s utxo
  let s := { s with rewardTotal := 0, utxoStore := s.utxoStore.insert hash utxo }
  pure (s.depositEvent (.rewardsIssued utxo.value hash))

def onFinalize [BlockNumber N] (E : Env N) (s : State N) : Option (State N) :=
  match s.author with
  | none => some (s.depositEvent .rewardsWasted)
  | some author => disperseReward E author s

/-- The framework stores the block number and drops the events of the last block, then the
block author pallet forgets its author. -/
def onInitialize (n : N) (s : State N) : State N :=
  { s with blockNumber := n, events := [], author := none }

def genesisEntries (E : Env N) (genesisUtxos : List TransactionOutput) :
    List (H256 × TransactionOutput) :=
  genesisUtxos.map fun u => (E.blakeTwo256 u.encode, u)

def genesisState [BlockNumber N] (E : Env N) (genesisUtxos : List TransactionOutput) :
    State N where
  utxoStore := insertAll ∅ (genesisEntries E genesisUtxos)
  rewardTotal := 0
  author := none
  blockNumber := 0
  events := []

end UtxoPallet
