import UtxoWorkshop.UtxoRuntime

/-! How much value a run can hold. Validation adds up the inputs record by record, storage drops
them outpoint by outpoint; the two agree when no stored output is claimed by two different
records, and then a run never holds more than its genesis and its issuance. -/
namespace UtxoInflation

open MachineWords ScaleCodec KeyedStore UtxoTransaction UtxoPallet UtxoValidation UtxoChainSpec
  UtxoRuntime

variable {N : Type} {E : Env N} {s s' : State N} {t : Transaction}

def supply (s : State N) : ℕ := total outputValue s.utxoStore + s.rewardTotal.val

def endowment (genesisUtxos : List TransactionOutput) : ℕ := (genesisUtxos.map outputValue).sum

/-- What a finalization that finds an author issues. -/
def issuedBy (E : Env N) (x : Transition N) : ℕ :=
  match x.action, x.state.author with
  | .onFinalize, some _ => ((E.issuance x.state.blockNumber).map Fin.val).getD 0
  | _, _ => 0

def issued (E : Env N) (tr : List (Transition N)) : ℕ := (tr.map (issuedBy E)).sum

def Verifies (E : Env N) (s : State N) (t : Transaction) (input : TransactionInput) : Prop :=
  (s.utxoStore.lookup input.outpoint).any fun utxo =>
    E.sr25519Verify input.sigscript (getSimpleTransaction t) utxo.pubkey

instance (input : TransactionInput) : Decidable (Verifies E s t input) :=
  inferInstanceAs (Decidable (_ = true))

/-- No two different input records claim one stored output under valid signatures. -/
def CountsOnce (E : Env N) (s : State N) (t : Transaction) : Prop :=
  ∀ i ∈ t.inputs.toList, ∀ j ∈ t.inputs.toList, Verifies E s t i → Verifies E s t j →
    i.outpoint = j.outpoint → i = j

instance : Decidable (CountsOnce E s t) :=
  inferInstanceAs (Decidable (∀ i ∈ t.inputs.toList, ∀ j ∈ t.inputs.toList, _))

/-- A transition that calls `spend` on a transaction that validates calls it on one that counts
once. -/
def SpendsCountOnce (E : Env N) (x : Transition N) : Prop :=
  ∀ t ∈ x.action.transaction, (validateTransaction E x.state t).isOk → CountsOnce E x.state t

instance (x : Transition N) : Decidable (SpendsCountOnce E x) :=
  inferInstanceAs (Decidable (∀ t ∈ x.action.transaction, _ → _))

theorem SpendsCountOnce.of_spendable {x : Transition N} (h : SpendsCountOnce E x)
    (ht : x.action.transaction = some t) (hs : Spendable E x.state t) : CountsOnce E x.state t := by
  obtain ⟨v, hv, -⟩ := spendable_iff.mp hs
  apply h t ht
  rw [hv]
  rfl

theorem spendable_verifies (hs : Spendable E s t) {input : TransactionInput}
    (h : input ∈ t.inputs.toList) : Verifies E s t input := by
  obtain ⟨utxo, hu⟩ := Finmap.mem_iff.mp (hs.present _ (List.mem_map_of_mem h))
  have hsig := hs.signatures input h utxo hu
  simpa [Verifies, hu] using hsig

theorem outpoints_nodup (hs : Spendable E s t) (hc : CountsOnce E s t) :
    t.outpoints.Nodup := by
  apply hs.inputs_distinct.map_on
  intro i hi j hj hij
  exact hc i hi j hj (spendable_verifies hs hi) (spendable_verifies hs hj) hij

theorem createdOutputs_value : ((createdOutputs E t).map fun e => outputValue e.2).sum =
    outputTotal t := by
  have hmap : (createdOutputs E t).map (fun e => outputValue e.2) =
      (t.outputs.toList.zipIdx.map Prod.fst).map outputValue := by
    simp only [createdOutputs, outputEntries, List.map_map]
    rfl
  rw [hmap, List.zipIdx_map_fst, outputTotal]

theorem spend_supply {total' : Value} (hs : Spendable E s t) (hc : CountsOnce E s t)
    (ht : s.rewardTotal.val + (credit s t).val = total'.val) :
    supply (afterSpend E s t total') ≤ supply s := by
  have hstore := total_update_le outputValue (outpoints_nodup hs hc) s.utxoStore
    (createdOutputs E t)
  have hin : (t.outpoints.map (weightAt outputValue s.utxoStore)).sum = inputTotal s t := by
    rw [Transaction.outpoints, List.map_map]
    rfl
  have hfee := hs.credit_le
  rw [createdOutputs_value, hin] at hstore
  simp only [supply, afterSpend]
  omega

variable [BlockNumber N] {genesisUtxos : List TransactionOutput}

theorem rewardUtxo_value {author : Public} {utxo : TransactionOutput}
    (h : rewardUtxo E s author = some utxo) :
    ∃ issuance, E.issuance s.blockNumber = some issuance ∧
      outputValue utxo ≤ s.rewardTotal.val + issuance.val := by
  obtain ⟨issuance, hi, -, hval⟩ := rewardUtxo_val h
  exact ⟨issuance, hi, hval.trans_le (Nat.mod_le _ _)⟩

theorem genesis_supply : supply (genesisState E genesisUtxos) ≤ endowment genesisUtxos := by
  have h := total_insertAll_le outputValue ∅ (genesisEntries E genesisUtxos)
  simpa [supply, genesisState, genesisEntries, endowment, Function.comp_def] using h

/-- One transition adds at most what it issues. -/
theorem effect_supply {a : Action N} (h : Effect E s a s') (hc : SpendsCountOnce E ⟨s, a⟩) :
    supply s' ≤ supply s + issuedBy E ⟨s, a⟩ := by
  cases h with
  | initialized n => exact Nat.le_add_right _ _
  | spent o t total' hs ht => exact (spend_supply hs (hc.of_spendable rfl hs) ht).trans (Nat.le_add_right _ _)
  | rejected o t e he => exact Nat.le_add_right _ _
  | declared author hn => exact Nat.le_add_right _ _
  | refused o author h => exact Nat.le_add_right _ _
  | wasted hn => exact Nat.le_add_right _ _
  | rewarded author utxo ha hu =>
    obtain ⟨issuance, hi, hv⟩ := rewardUtxo_value hu
    have hstore := total_insert_le outputValue s.utxoStore (rewardHash E s utxo) utxo
    have hissued : issuedBy E ⟨s, .onFinalize⟩ = issuance.val := by simp [issuedBy, ha, hi]
    rw [hissued]
    simp only [supply, afterReward, Fin.val_zero]
    omega

/-- Whatever else the transactions are, a run that is not made to count an output twice holds no
more than its genesis and its issuance. -/
theorem supply_le_issued {p : Phase} {tr : List (Transition N)}
    (hr : Run E genesisUtxos p tr s) (hc : ∀ x ∈ tr, SpendsCountOnce E x) :
    supply s ≤ endowment genesisUtxos + issued E tr := by
  have hstep : ∀ {s s' : State N} {a : Action N}, Effect E s a s' → SpendsCountOnce E ⟨s, a⟩ →
      supply s' ≤ supply s + issuedBy E ⟨s, a⟩ := effect_supply
  exact hr.sum_le genesis_supply hstep hc

theorem demo_supply_le_issued : supply demoRun.2.2 ≤
    endowment (testnetGenesis [alice, bob]) + issued demo demoRun.2.1 :=
  supply_le_issued demoRun_run (by decide +kernel)

def firstSignature : H512 :=
  fixedHash 64 (0xe636784e990a43344f5872b685aeb91f9515491909fc43d0736d2bcb02aeee11 <<< 256 +
    0xd0a6af262e1b82256949e60dee93391c1560ee23063e6a97f77adabd1dff0987)

def secondSignature : H512 :=
  fixedHash 64 (0xc451291f0a1ea11990c3a6f31f352dd4735419b59fba1934464bf36db97e5b35 <<< 256 +
    0xe10c67a6afab402c249e1c09660dbf94687e0ed31e08ab12932e1faaf14ee580)

/-- Alice names her output twice, under two of her signatures of one message, and pays herself
twice its value. -/
def doubled : Transaction where
  inputs := ⟨[{ outpoint := aliceOutpoint, sigscript := firstSignature },
    { outpoint := aliceOutpoint, sigscript := secondSignature }], by decide⟩
  outputs := ⟨[{ value := 200, pubkey := alice }], by decide⟩

def doubledHost : Env U32 where
  issuance _ := some 50
  blakeTwo256 := hashFrom ((outputPreimage doubled 0,
    fixedHash 32 0x2c15d6459c87f4447e2f23deecf617df3140b4673aa63a0efc53cb7396cb2a59) :: digests)
  sr25519Verify signature message key :=
    (signature = firstSignature ∨ signature = secondSignature) ∧
      message = getSimpleTransaction doubled ∧ key = alice
  overflowChecks := false

def doubledBlock : List (Action U32) := [.onInitialize 1, .call (.signed alice) (.spend doubled)]

theorem doubledBlock_executes :
    (execute doubledHost doubledBlock (start doubledHost (testnetGenesis [alice, bob]))).isSome := by
  decide +kernel

theorem doubled_inflates : ∃ p tr s, Run doubledHost (testnetGenesis [alice, bob]) p tr s ∧
    tr.map Transition.action = doubledBlock.reverse ∧
    endowment (testnetGenesis [alice, bob]) + issued doubledHost tr < supply s := by
  refine ⟨_, _, _, run_of_execute_get doubledBlock_executes, ?_, ?_⟩
  · decide +kernel
  · decide +kernel

end UtxoInflation
