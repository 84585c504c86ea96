import UtxoWorkshop.ScaleCodec

/-! Transactions of the UTXO pallet and the byte strings made from them: the encoding, the
message a signature covers, and the three preimages a store key is hashed from. -/
namespace UtxoTransaction

open MachineWords ScaleCodec

abbrev Value := U128
abbrev Public := FixedHash 32

structure TransactionInput where
  outpoint : H256
  sigscript : H512
  deriving DecidableEq

structure TransactionOutput where
  value : Value
  pubkey : H256
  deriving DecidableEq

structure Transaction where
  inputs : Vec TransactionInput
  outputs : Vec TransactionOutput
  deriving DecidableEq

def TransactionInput.encode (input : TransactionInput) : Bytes :=
  input.outpoint.bytes ++ input.sigscript.bytes

def TransactionOutput.encode (output : TransactionOutput) : Bytes :=
  encodeUint output.value ++ output.pubkey.bytes

def Transaction.encode (transaction : Transaction) : Bytes :=
  encodeVec TransactionInput.encode transaction.inputs ++
    encodeVec TransactionOutput.encode transaction.outputs

def Transaction.outpoints (transaction : Transaction) : List H256 :=
  transaction.inputs.toList.map TransactionInput.outpoint

/-- The signed message: the transaction with every sigscript zeroed. -/
def getSimpleTransaction (transaction : Transaction) : Bytes :=
  Transaction.encode
    { transaction with
      inputs := transaction.inputs.map fun input => { input with sigscript := .zero 64 } }

/-- `&(&transaction.encode(), index)`, hashed to the key of the output at `index`. -/
def outputPreimage (transaction : Transaction) (index : U64) : Bytes :=
  encodeBytes transaction.encode ++ encodeUint index

/-- `&(&utxo, block_number)`, hashed to the key of a block reward. -/
def rewardPreimage (utxo : TransactionOutput) (blockNumber : U64) : Bytes :=
  utxo.encode ++ encodeUint blockNumber

theorem input_selfDelimiting : SelfDelimiting TransactionInput.encode := by
  have h := (fixedHash_selfDelimiting 32).append (fixedHash_selfDelimiting 64)
  exact h.comap (f := fun input : TransactionInput => (input.outpoint, input.sigscript))
    (by rintro ⟨o, s⟩ ⟨o', s'⟩ h; simpa using h)

theorem output_selfDelimiting : SelfDelimiting TransactionOutput.encode := by
  have h := (encodeUint_selfDelimiting (w := 128) rfl).append (fixedHash_selfDelimiting 32)
  exact h.comap (f := fun output : TransactionOutput => (output.value, output.pubkey))
    (by rintro ⟨v, p⟩ ⟨v', p'⟩ h; simpa using h)

theorem transaction_selfDelimiting : SelfDelimiting Transaction.encode := by
  have h := input_selfDelimiting.vec.append output_selfDelimiting.vec
  exact h.comap (f := fun transaction : Transaction => (transaction.inputs, transaction.outputs))
    (by rintro ⟨i, o⟩ ⟨i', o'⟩ h; simpa using h)

theorem outputPreimage_injective {t t' : Transaction} {i j : U64}
    (h : outputPreimage t i = outputPreimage t' j) : t = t' ∧ i = j := by
  simp only [outputPreimage, encodeBytes, List.append_assoc] at h
  obtain ⟨ht, hi⟩ := transaction_selfDelimiting _ _ _ _ (compact_append h).2
  exact ⟨ht, encodeUint_injective rfl hi⟩

theorem rewardPreimage_injective {u u' : TransactionOutput} {m n : U64}
    (h : rewardPreimage u m = rewardPreimage u' n) : u = u' ∧ m = n := by
  obtain ⟨hu, hm⟩ := output_selfDelimiting _ _ _ _ h
  exact ⟨hu, encodeUint_injective rfl hm⟩

theorem output_encode_length (output : TransactionOutput) : output.encode.length = 48 := by
  simp [TransactionOutput.encode, output.pubkey.size]

theorem rewardPreimage_length (utxo : TransactionOutput) (n : U64) :
    (rewardPreimage utxo n).length = 56 := by
  simp [rewardPreimage, output_encode_length]

/-- A transaction with an input is already longer than the other two preimages. -/
theorem outputPreimage_length {t : Transaction} (h : t.inputs.toList ≠ []) (i : U64) :
    56 < (outputPreimage t i).length := by
  obtain ⟨input, rest, hl⟩ := List.exists_cons_of_ne_nil h
  simp only [outputPreimage, encodeBytes, Transaction.encode, encodeVec, hl, List.flatMap_cons,
    TransactionInput.encode, List.length_append, encodeUint_length, input.outpoint.size,
    input.sigscript.size]
  omega

theorem simple_inputs_eq {l l' : List TransactionInput} :
    (l.map fun input => { input with sigscript := FixedHash.zero 64 }) =
      (l'.map fun input => { input with sigscript := FixedHash.zero 64 }) ↔
      l.map TransactionInput.outpoint = l'.map TransactionInput.outpoint := by
  have hsplit (l : List TransactionInput) :
      (l.map fun input => { input with sigscript := FixedHash.zero 64 }) =
        (l.map TransactionInput.outpoint).map
          fun outpoint => { outpoint := outpoint, sigscript := FixedHash.zero 64 } := by
    rw [List.map_map]
    rfl
  have hinj : Function.Injective fun outpoint : H256 =>
      ({ outpoint := outpoint, sigscript := FixedHash.zero 64 } : TransactionInput) := by
    intro o o' h
    exact congrArg TransactionInput.outpoint h
  rw [hsplit, hsplit, hinj.list_map.eq_iff]

/-- The signed message covers everything but the signatures, and a key's preimage everything. -/
theorem encodings_determine (t t' : Transaction) (i j : U64) :
    (getSimpleTransaction t = getSimpleTransaction t' ↔
      t.outpoints = t'.outpoints ∧ t.outputs.toList = t'.outputs.toList) ∧
    (outputPreimage t i = outputPreimage t' j ↔ t = t' ∧ i = j) := by
  constructor
  · rw [getSimpleTransaction, getSimpleTransaction, transaction_selfDelimiting.injective.eq_iff]
    constructor
    · intro h
      obtain ⟨hin, hout⟩ := Transaction.mk.inj h
      have hlist := congrArg Vec.toList hin
      exact ⟨simple_inputs_eq.mp hlist, congrArg Vec.toList hout⟩
    · intro h
      rcases h with ⟨hin, hout⟩
      have hinputs : (t.inputs.map fun input => { input with sigscript := .zero 64 }) =
          t'.inputs.map fun input => { input with sigscript := .zero 64 } :=
        Vec.ext (simple_inputs_eq.mpr hin)
      rw [hinputs, Vec.ext hout]
  · constructor
    · intro h
      exact outputPreimage_injective h
    · intro h
      rcases h with ⟨rfl, rfl⟩
      rfl

end UtxoTransaction
