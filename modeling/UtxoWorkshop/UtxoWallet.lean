import UtxoWorkshop.UtxoConservation
import UtxoWorkshop.UtxoPool
import UtxoWorkshop.UtxoRejection

/-! The owner's side of a spend. A wallet lists outpoints and outputs, signs the encoding with
every sigscript still zero, and writes its signature into the inputs; validation strips the
signatures again and so checks the very bytes that were signed. In every reachable state this is
enough to pay anyone out of one's own outputs. -/
namespace UtxoWallet

open MachineWords ScaleCodec KeyedStore HistoryLedger UtxoTransaction UtxoPallet UtxoValidation
  UtxoChainSpec UtxoRuntime UtxoHistory UtxoConservation UtxoRejection

/-- A transaction before it is signed. -/
def unsigned (outpoints : Vec H256) (outputs : Vec TransactionOutput) : Transaction where
  inputs := outpoints.map fun outpoint => { outpoint := outpoint, sigscript := .zero 64 }
  outputs := outputs

/-- The signature goes into every input. -/
def signWith (signature : H512) (transaction : Transaction) : Transaction :=
  { transaction with
    inputs := transaction.inputs.map fun input => { input with sigscript := signature } }

/-- The amount to the recipient, and what is left of the inputs back to the owner. -/
def paymentOutputs (owner recipient : Public) (amount change : Value) : Vec TransactionOutput where
  toList := { value := amount, pubkey := recipient } ::
    if change = 0 then [] else [{ value := change, pubkey := owner }]
  size := by split <;> simp

def payment (coins : Vec H256) (owner recipient : Public) (amount change : Value) (signature : H512) :
    Transaction :=
  signWith signature (unsigned coins (paymentOutputs owner recipient amount change))

variable {N : Type} {E : Env N} {s s' : State N} {coins : Vec H256}
  {outputs : Vec TransactionOutput} {owner recipient : Public} {amount change : Value}
  {signature : H512} {o : Origin}

theorem signWith_inputs (signature : H512) (coins : Vec H256) (outputs : Vec TransactionOutput) :
    (signWith signature (unsigned coins outputs)).inputs.toList =
      coins.toList.map fun k => { outpoint := k, sigscript := signature } := by
  simp [signWith, unsigned, Vec.map, Function.comp_def]

theorem signWith_outpoints (signature : H512) (coins : Vec H256)
    (outputs : Vec TransactionOutput) :
    (signWith signature (unsigned coins outputs)).outpoints = coins.toList := by
  rw [Transaction.outpoints, signWith_inputs, List.map_map]
  exact List.map_id _

/-- The bytes that validation checks are the bytes that were signed. -/
theorem signed_message (signature : H512) (coins : Vec H256) (outputs : Vec TransactionOutput) :
    getSimpleTransaction (signWith signature (unsigned coins outputs)) =
      (unsigned coins outputs).encode := by
  have hinputs : (signWith signature (unsigned coins outputs)).inputs.map
      (fun input => { input with sigscript := .zero 64 }) = (unsigned coins outputs).inputs := by
    apply Vec.ext
    simp [signWith, unsigned, Vec.map, Function.comp_def]
  rw [getSimpleTransaction, hinputs]
  rfl

theorem signWith_nodup (signature : H512) (coins : Vec H256) (outputs : Vec TransactionOutput) :
    (signWith signature (unsigned coins outputs)).inputs.toList.Nodup ↔ coins.toList.Nodup := by
  rw [signWith_inputs]
  apply List.nodup_map_iff
  intro k l h
  exact congrArg TransactionInput.outpoint h

theorem signWith_inputTotal (s : State N) (signature : H512) (coins : Vec H256)
    (outputs : Vec TransactionOutput) :
    inputTotal s (signWith signature (unsigned coins outputs)) =
      (coins.toList.map (weightAt outputValue s.utxoStore)).sum := by
  rw [inputTotal, signWith_inputs, List.map_map]
  rfl

theorem paymentOutputs_total (owner recipient : Public) (amount change : Value) :
    ((paymentOutputs owner recipient amount change).toList.map outputValue).sum =
      amount.val + change.val := by
  by_cases h : change = 0
  · simp [paymentOutputs, h, outputValue]
  · simp [paymentOutputs, h, outputValue]

theorem paymentOutputs_own (owner recipient key : Public) (amount change : Value) :
    ((paymentOutputs owner recipient amount change).toList.map (ownValue key)).sum =
      (if key = recipient then amount.val else 0) + if key = owner then change.val else 0 := by
  by_cases h : change = 0
  · simp [paymentOutputs, h, ownValue, outputValue, eq_comm]
  · simp [paymentOutputs, h, ownValue, outputValue, eq_comm]

/-- Only a payment to oneself of exactly one half defines an output twice. -/
theorem paymentOutputs_nodup (ha : 0 < amount) :
    (paymentOutputs owner recipient amount change).toList.Nodup ↔ ¬ (recipient = owner ∧ amount = change) := by
  by_cases h : change = 0
  · simp [paymentOutputs, h, ha.ne']
  · simp [paymentOutputs, h]
    tauto

/-- The owner has the coins, they cover the payment and the change, and the owner has signed. -/
structure Covers (E : Env N) (s : State N) (coins : Vec H256) (owner recipient : Public)
    (amount change : Value) (signature : H512) : Prop where
  coins_nonempty : coins.toList ≠ []
  owned : ∀ k ∈ coins.toList, ∃ u, s.utxoStore.lookup k = some u ∧ u.pubkey = owner
  amount_positive : 0 < amount
  sum_eq : (coins.toList.map (weightAt outputValue s.utxoStore)).sum = amount.val + change.val
  sum_fits : amount.val + change.val < 2 ^ 128
  signed : E.sr25519Verify signature
    (unsigned coins (paymentOutputs owner recipient amount change)).encode owner

variable (hcov : Covers E s coins owner recipient amount change signature)

include hcov

theorem Covers.present : ∀ k ∈ (payment coins owner recipient amount change signature).outpoints,
    k ∈ s.utxoStore := by
  intro k hk
  rw [payment, signWith_outpoints] at hk
  obtain ⟨u, hu, -⟩ := hcov.owned k hk
  exact Finmap.mem_iff.mpr ⟨u, hu⟩

theorem Covers.inputs_nonempty :
    (payment coins owner recipient amount change signature).inputs.toList ≠ [] := by
  rw [payment, signWith_inputs]
  exact fun h => hcov.coins_nonempty (List.map_eq_nil_iff.mp h)

/-- A covered payment is spendable as soon as it names nothing twice. -/
theorem Covers.spendable_iff (hfree : ∀ e ∈ createdOutputs E
      (payment coins owner recipient amount change signature), e.1 ∉ s.utxoStore) :
    Spendable E s (payment coins owner recipient amount change signature) ↔
      coins.toList.Nodup ∧ ¬ (recipient = owner ∧ amount = change) := by
  have hin : inputTotal s (payment coins owner recipient amount change signature) =
      amount.val + change.val :=
    (signWith_inputTotal s signature coins _).trans hcov.sum_eq
  have hout : outputTotal (payment coins owner recipient amount change signature) =
      amount.val + change.val := paymentOutputs_total owner recipient amount change
  rw [← paymentOutputs_nodup hcov.amount_positive, ← signWith_nodup signature coins
    (paymentOutputs owner recipient amount change)]
  constructor
  · intro h
    exact ⟨h.inputs_distinct, h.outputs_distinct⟩
  · intro h
    rcases h with ⟨hdin, hdout⟩
    exact {
      inputs_nonempty := hcov.inputs_nonempty
      outputs_nonempty := List.cons_ne_nil _ _
      inputs_distinct := hdin
      outputs_distinct := hdout
      signatures := by
        intro input hmem utxo hu
        rw [payment, signWith_inputs] at hmem
        obtain ⟨k, hk, rfl⟩ := List.mem_map.mp hmem
        obtain ⟨u, hu', rfl⟩ := hcov.owned k hk
        cases hu.symm.trans hu'
        rw [payment, signed_message]
        exact hcov.signed
      outputs_positive := by
        have hpos := hcov.amount_positive
        by_cases h : change = 0
        · simpa [payment, signWith, unsigned, paymentOutputs, h] using hpos
        · simpa [payment, signWith, unsigned, paymentOutputs, h] using
            ⟨hpos, Fin.pos_of_ne_zero h⟩
      keys_fresh := hfree
      inputs_fit := hin ▸ hcov.sum_fits
      outputs_fit := hout ▸ hcov.sum_fits
      balanced := fun _ => (hout.trans hin.symm).le
      present := hcov.present }

theorem Covers.coins_own (key : Public) :
    (coins.toList.map (weightAt (ownValue key) s.utxoStore)).sum =
      if key = owner then amount.val + change.val else 0 := by
  have hmap : coins.toList.map (weightAt (ownValue key) s.utxoStore) =
      coins.toList.map fun k => if key = owner then weightAt outputValue s.utxoStore k else 0 := by
    apply List.map_congr_left
    intro k hk
    obtain ⟨u, hu, rfl⟩ := hcov.owned k hk
    simp [weightAt, hu, ownValue, eq_comm]
  rw [hmap]
  by_cases h : key = owner
  · simpa [h] using hcov.sum_eq
  · simp [h]

/-- A payment leaves no fee. -/
theorem Covers.spend_eq_ok (hs : Spendable E s
      (payment coins owner recipient amount change signature)) :
    (spend E o (payment coins owner recipient amount change signature)).run s = .ok () s' ↔
      s' = afterSpend E s (payment coins owner recipient amount change signature)
        s.rewardTotal := by
  have hin : inputTotal s (payment coins owner recipient amount change signature) =
      amount.val + change.val :=
    (signWith_inputTotal s signature coins _).trans hcov.sum_eq
  have hout : outputTotal (payment coins owner recipient amount change signature) =
      amount.val + change.val := paymentOutputs_total owner recipient amount change
  have hcredit : (credit s (payment coins owner recipient amount change signature)).val = 0 := by
    have hle := hs.credit_le
    omega
  rw [UtxoValidation.spend_eq_ok, and_iff_right hs, hcredit, Nat.add_zero]
  constructor
  · intro h
    rcases h with ⟨total', htotal, rfl⟩
    rw [Fin.ext htotal]
  · rintro rfl
    exact ⟨_, rfl, rfl⟩

/-- It moves the amount from the owner to the recipient, and nothing else. -/
theorem Covers.moves (hs : Spendable E s
      (payment coins owner recipient amount change signature))
    (hc : CollisionFree E ((outputWrites
      (payment coins owner recipient amount change signature)).map Prod.fst)) (key : Public) :
    holdings (afterSpend E s (payment coins owner recipient amount change signature)
        s.rewardTotal) key + (if key = owner then amount.val else 0) =
      holdings s key + if key = recipient then amount.val else 0 := by
  have hnodup : (payment coins owner recipient amount change signature).outpoints.Nodup := by
    rw [payment, signWith_outpoints]
    exact (signWith_nodup _ _ _).mp hs.inputs_distinct
  have hmoved := spend_total (ownValue key) s.rewardTotal hs hnodup hc
  have hout : ((payment coins owner recipient amount change signature).outputs.toList.map
      (ownValue key)).sum =
        (if key = recipient then amount.val else 0) + if key = owner then change.val else 0 :=
    paymentOutputs_own owner recipient key amount change
  have hin : (payment coins owner recipient amount change signature).outpoints = coins.toList :=
    signWith_outpoints _ _ _
  rw [hout, hin, hcov.coins_own key] at hmoved
  rw [holdings, holdings]
  split_ifs at hmoved ⊢ <;> omega

omit hcov

variable [BlockNumber N] {genesisUtxos : List TransactionOutput} {p : Phase}
  {tr : List (Transition N)}

/-- In every reachable state an owner who signs can pay out of any of its outputs: the payment goes
through unless it names a coin twice or pays the owner exactly half, and moves just the amount. -/
theorem payment_exact (hr : Run E genesisUtxos p tr s) (hb : BlocksIncrease tr)
    (hcov : Covers E s coins owner recipient amount change signature)
    (hc : CollisionFree E ((outputWrites
      (payment coins owner recipient amount change signature)).map Prod.fst ++
        keyPreimages E genesisUtxos tr)) (o : Origin) :
    ((∃ s', (spend E o (payment coins owner recipient amount change signature)).run s =
        .ok () s') ↔ coins.toList.Nodup ∧ ¬ (recipient = owner ∧ amount = change)) ∧
    ∀ s', (spend E o (payment coins owner recipient amount change signature)).run s = .ok () s' →
      s'.rewardTotal = s.rewardTotal ∧
      ∀ key, holdings s' key + (if key = owner then amount.val else 0) =
        holdings s key + if key = recipient then amount.val else 0 := by
  have hrep := (run_ledger hr hb (hc.mono fun b hmem => List.mem_append_right _ hmem)).2
  have hfree := keys_unused hrep hcov.inputs_nonempty hcov.present hc
  have hnew : CollisionFree E ((outputWrites
      (payment coins owner recipient amount change signature)).map Prod.fst) :=
    hc.mono fun b hmem => List.mem_append_left _ hmem
  rw [← hcov.spendable_iff hfree]
  constructor
  · constructor
    · intro h
      obtain ⟨s', h⟩ := h
      exact (UtxoValidation.spend_eq_ok.mp h).1
    · intro hs
      exact ⟨_, (hcov.spend_eq_ok hs).mpr rfl⟩
  · intro s' h
    have hs := (UtxoValidation.spend_eq_ok.mp h).1
    obtain rfl := (hcov.spend_eq_ok hs).mp h
    exact ⟨rfl, hcov.moves hs hnew⟩

def aliceCoins : Vec H256 := ⟨[aliceOutpoint], by decide⟩

def paySignature : H512 :=
  fixedHash 64 (0x9824abbb5cecdfe8cc19cbc9c07373e305f668ed1d38c14c62dd2fe7e848286d <<< 256 +
    0x017cc1a7f169df799e30570de207668d4b673622cfde450a8cc3b4e170d44686)

/-- Alice pays 30 of her 100 to Bob. -/
def alicePays : Transaction := payment aliceCoins alice bob 30 70 paySignature

def payHost : Env U32 where
  issuance _ := some 50
  blakeTwo256 := hashFrom ((outputPreimage alicePays 0,
      fixedHash 32 0x525106ca08a5748b2badcad171b0e37ad9afbb4dcd668d994e5983bb15259105) ::
    (outputPreimage alicePays 1,
      fixedHash 32 0x61066c54e09fc441ecae40a27f558dd4bcf0be8375dc075c8506752f7f6e4e98) :: digests)
  sr25519Verify signature message key :=
    signature = paySignature ∧ message = getSimpleTransaction alicePays ∧ key = alice
  overflowChecks := false

def payGenesis : State U32 := genesisState payHost (testnetGenesis [alice, bob])

theorem alice_stored : payGenesis.utxoStore.lookup aliceOutpoint =
    some { value := 100, pubkey := alice } := by
  decide +kernel

theorem alicePays_covered : Covers payHost payGenesis aliceCoins alice bob 30 70 paySignature where
  coins_nonempty := List.cons_ne_nil _ _
  owned := by
    intro k hk
    obtain rfl := List.mem_singleton.mp hk
    exact ⟨_, alice_stored, rfl⟩
  amount_positive := by decide
  sum_eq := by decide +kernel
  sum_fits := by decide +kernel
  signed := by decide +kernel

theorem alicePays_collisionFree : CollisionFree payHost ((outputWrites
    (payment aliceCoins alice bob 30 70 paySignature)).map Prod.fst ++
      keyPreimages payHost (testnetGenesis [alice, bob]) []) := by
  decide +kernel

theorem alice_pays_bob :
    ((∃ s', (spend payHost .none alicePays).run payGenesis = .ok () s') ↔
      aliceCoins.toList.Nodup ∧ ¬ (bob = alice ∧ (30 : Value) = 70)) ∧
    ∀ s', (spend payHost .none alicePays).run payGenesis = .ok () s' →
      s'.rewardTotal = payGenesis.rewardTotal ∧
      ∀ key, holdings s' key + (if key = alice then 30 else 0) =
        holdings payGenesis key + if key = bob then 30 else 0 :=
  payment_exact .genesis (by decide) alicePays_covered alicePays_collisionFree .none

/-- Nothing that a key holds is stuck: in every reachable state its outputs together pay any amount
up to its holdings to anyone else, as long as their values fit one sum and their number one list. -/
theorem holdings_payable (hr : Run E genesisUtxos p tr s) (hb : BlocksIncrease tr)
    (hcount : s.utxoStore.keys.card < 2 ^ 32) (hfit : holdings s owner < 2 ^ 128)
    (ha : 0 < amount) (hle : amount.val ≤ holdings s owner) (hother : recipient ≠ owner) :
    ∃ coins : Vec H256, ∃ change : Value, coins.toList.Nodup ∧
      (∀ k, k ∈ coins.toList ↔ ∃ u, s.utxoStore.lookup k = some u ∧ u.pubkey = owner) ∧
      amount.val + change.val = holdings s owner ∧
      ∀ signature o,
        E.sr25519Verify signature
          (unsigned coins (paymentOutputs owner recipient amount change)).encode owner →
        CollisionFree E ((outputWrites
          (payment coins owner recipient amount change signature)).map Prod.fst ++
            keyPreimages E genesisUtxos tr) →
        ∃ s', (spend E o (payment coins owner recipient amount change signature)).run s =
            .ok () s' ∧ s'.rewardTotal = s.rewardTotal ∧
          ∀ key, holdings s' key + (if key = owner then amount.val else 0) =
            holdings s key + if key = recipient then amount.val else 0 := by
  obtain ⟨ks, hnodup, hlen, hown, hsum⟩ :=
    exists_keys_total outputValue (fun u => u.pubkey = owner) s.utxoStore
  have hsum : (ks.map (weightAt outputValue s.utxoStore)).sum = holdings s owner := hsum
  let coins : Vec H256 := ⟨ks, hlen.trans_lt hcount⟩
  let change : Value := ⟨holdings s owner - amount.val, by omega⟩
  have hchange : amount.val + change.val = holdings s owner := Nat.add_sub_cancel' hle
  refine ⟨coins, change, hnodup, hown, hchange, ?_⟩
  intro signature o hsigned hc
  have hcov : Covers E s coins owner recipient amount change signature := {
    coins_nonempty := by
      intro hnil
      have hnil : ks = [] := hnil
      have hpos : 0 < amount.val := ha
      rw [hnil, List.map_nil, List.sum_nil] at hsum
      omega
    owned := fun k hk => (hown k).mp hk
    amount_positive := ha
    sum_eq := hsum.trans hchange.symm
    sum_fits := hchange ▸ hfit
    signed := hsigned }
  have hrep := (run_ledger hr hb (hc.mono fun b hmem => List.mem_append_right _ hmem)).2
  have hfree := keys_unused hrep hcov.inputs_nonempty hcov.present hc
  have hs := (hcov.spendable_iff hfree).mpr ⟨hnodup, fun h => hother h.1⟩
  refine ⟨_, (hcov.spend_eq_ok hs).mpr rfl, rfl, ?_⟩
  exact hcov.moves hs (hc.mono fun b hmem => List.mem_append_left _ hmem)

theorem alice_outputs (k : H256) :
    (∃ u, payGenesis.utxoStore.lookup k = some u ∧ u.pubkey = alice) ↔ k = aliceOutpoint := by
  constructor
  · rintro ⟨u, hu, hkey⟩
    rcases lookup_insertAll_some hu with hmem | ⟨-, hmem⟩
    · obtain ⟨o, ho, hentry⟩ := List.mem_map.mp hmem
      obtain ⟨rfl, rfl⟩ := Prod.mk.inj hentry
      rcases List.mem_pair.mp ho with rfl | rfl
      · decide +kernel
      · exact absurd hkey (by decide +kernel)
    · simp at hmem
  · rintro rfl
    exact ⟨_, alice_stored, rfl⟩

theorem alice_holds : holdings payGenesis alice = 100 := by decide +kernel

theorem alice_holdings_payable : ∃ s', (spend payHost .none alicePays).run payGenesis = .ok () s' ∧
    s'.rewardTotal = payGenesis.rewardTotal ∧
    ∀ key, holdings s' key + (if key = alice then 30 else 0) =
      holdings payGenesis key + if key = bob then 30 else 0 := by
  have hr : Run payHost (testnetGenesis [alice, bob]) .closed [] payGenesis := .genesis
  have hfit : holdings payGenesis alice < 2 ^ 128 := by
    rw [alice_holds]
    decide
  have hle : (30 : Value).val ≤ holdings payGenesis alice := by
    rw [alice_holds]
    decide
  obtain ⟨coins, change, hnodup, hcoins, hsum, hpays⟩ :=
    @holdings_payable U32 payHost payGenesis alice bob 30 _ _ _ _ hr (by decide)
      (by decide +kernel) hfit (by decide) hle (by decide +kernel)
  have hlist : coins.toList.Perm [aliceOutpoint] := by
    apply (List.perm_ext_iff_of_nodup hnodup (List.nodup_singleton _)).mpr
    intro k
    rw [hcoins, alice_outputs, List.mem_singleton]
  obtain rfl : coins = aliceCoins := Vec.ext (List.perm_singleton.mp hlist)
  obtain rfl : change = 70 := by
    rw [alice_holds] at hsum
    exact Fin.ext (Nat.add_left_cancel hsum)
  exact hpays paySignature .none alicePays_covered.signed alicePays_collisionFree

end UtxoWallet
