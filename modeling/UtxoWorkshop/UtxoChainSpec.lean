import Mathlib.Tactic.Common
import UtxoWorkshop.UtxoPallet

/-! The genesis outputs of the node's chain specification, and the demo it prints: Alice sends
50 of her 100 to Bob. `demo` is the host as far as the demo asks it: the digests of the strings
it hashes and the one signature it checks. -/
namespace UtxoChainSpec

open MachineWords ScaleCodec KeyedStore UtxoTransaction UtxoPallet

def testnetGenesis (endowedUtxos : List Public) : List TransactionOutput :=
  endowedUtxos.map fun x => { value := 100, pubkey := x }

def alice : Public :=
  fixedHash 32 0xd43593c715fdd31c61141abd04a99fd6822c8558854ccde39a5684e7a56da27d

def bob : Public :=
  fixedHash 32 0x8eaf04151687736326c9fea17e25fc5287613693c912909cb226aa4794f26a48

def aliceOutpoint : H256 :=
  fixedHash 32 0x76584168d10a20084082ed80ec71e2a783abbb8dd6eb9d4893b089228498e9ff

def aliceSigscript : H512 :=
  fixedHash 64 (0x6ceab99702c60b111c12c2867679c5555c00dcd4d6ab40efa01e3a65083bfb6c <<< 256 +
    0x6f5c1ed3356d7141ec61894153b8ba7fb413bf1e990ed99ff6dee5da1b24fd83)

def newUtxoHash : H256 :=
  fixedHash 32 0xdbc75ab8ee9b83dcbcea4695f9c42754d94e92c3c397d63b1bc627c2a2ef94e6

def demoTransaction : Transaction where
  inputs := ⟨[{ outpoint := aliceOutpoint, sigscript := aliceSigscript }], by decide⟩
  outputs := ⟨[{ value := 50, pubkey := bob }], by decide⟩

/-- The genesis outputs, the output to Bob, and Alice's reward as the author of block 1. -/
def digests : List (Bytes × H256) :=
  [(TransactionOutput.encode { value := 100, pubkey := alice }, aliceOutpoint),
    (TransactionOutput.encode { value := 100, pubkey := bob },
      fixedHash 32 0x9b21ba85ff6651f18763950a500d4cb591d13a3c8b9d798b54a29fb1192edd7a),
    (outputPreimage demoTransaction 0, newUtxoHash),
    (rewardPreimage { value := 100, pubkey := alice } 1,
      fixedHash 32 0xc5c32bed737c173dc86f677750508a20f814f62e1b84d2ce1ad27eb6d8edebde)]

def hashFrom (table : List (Bytes × H256)) (bs : Bytes) : H256 := (table.lookup bs).getD (.zero 32)

def demo : Env U32 where
  issuance _ := some 50
  blakeTwo256 := hashFrom digests
  sr25519Verify signature message key :=
    signature = aliceSigscript ∧ message = getSimpleTransaction demoTransaction ∧ key = alice
  overflowChecks := false

def demoGenesis : State U32 := genesisState demo (testnetGenesis [alice, bob])

example : aliceOutpoint ∈ demoGenesis.utxoStore := by decide +kernel

end UtxoChainSpec
