import UtxoWorkshop.UtxoHistory

/-! The genesis build. Its keys are the hashes of the outputs alone, without the position that the
outputs of a transaction carry or the block number of a reward: an endowment that is listed twice
is stored once. -/
namespace UtxoGenesis

open ScaleCodec KeyedStore UtxoTransaction UtxoPallet UtxoValidation UtxoChainSpec UtxoHistory

variable {N : Type} {E : Env N} {genesisUtxos : List TransactionOutput}

/-- The keys repeat exactly where the list does. -/
theorem genesisEntries_nodup_iff
    (hc : CollisionFree E (genesisUtxos.map TransactionOutput.encode)) :
    ((genesisEntries E genesisUtxos).map Prod.fst).Nodup ↔ genesisUtxos.Nodup := by
  have hkeys : (genesisEntries E genesisUtxos).map Prod.fst =
      genesisUtxos.map fun u => E.blakeTwo256 u.encode := by
    rw [genesisEntries, List.map_map]
    rfl
  have hinj : ∀ u ∈ genesisUtxos, ∀ v ∈ genesisUtxos,
      E.blakeTwo256 u.encode = E.blakeTwo256 v.encode → u = v := by
    intro u hu v hv h
    have hpre := hc _ (List.mem_map_of_mem hu) _ (List.mem_map_of_mem hv) h
    exact output_selfDelimiting.injective hpre
  rw [hkeys]
  constructor
  · exact List.Nodup.of_map _
  · intro hn
    exact hn.map_on hinj

variable [BlockNumber N]

/-- The genesis build keeps every endowment exactly when none is listed twice. -/
theorem genesis_loses_nothing_iff
    (hc : CollisionFree E (genesisUtxos.map TransactionOutput.encode)) :
    ((genesisState E genesisUtxos).utxoStore.keys.card = genesisUtxos.length ∧
      total outputValue (genesisState E genesisUtxos).utxoStore =
        (genesisUtxos.map outputValue).sum) ↔ genesisUtxos.Nodup := by
  have hlength : (genesisEntries E genesisUtxos).length = genesisUtxos.length := List.length_map _
  have hvalues : ((genesisEntries E genesisUtxos).map fun e => outputValue e.2) =
      genesisUtxos.map outputValue := by
    rw [genesisEntries, List.map_map]
    rfl
  rw [← genesisEntries_nodup_iff hc, ← hlength, ← hvalues]
  constructor
  · intro h
    rcases h with ⟨hcard, _⟩
    exact card_insertAll_empty_iff.mp hcard
  · intro hn
    refine ⟨card_insertAll_empty_iff.mpr hn, ?_⟩
    have htotal := total_insertAll outputValue hn (m := ∅) fun k _ => Finmap.notMem_empty
    rwa [total_empty, Nat.zero_add] at htotal

theorem testnet_loses_nothing :
    (demoGenesis.utxoStore.keys.card = 2 ∧ total outputValue demoGenesis.utxoStore = 200) ↔
      (testnetGenesis [alice, bob]).Nodup :=
  genesis_loses_nothing_iff (by decide +kernel)

/-- Alice is endowed twice and can spend half of it. -/
theorem repeated_endowment_lost :
    CollisionFree demo ((testnetGenesis [alice, alice]).map TransactionOutput.encode) ∧
    (genesisState demo (testnetGenesis [alice, alice])).utxoStore.keys.card = 1 ∧
    total outputValue (genesisState demo (testnetGenesis [alice, alice])).utxoStore = 100 ∧
    ((testnetGenesis [alice, alice]).map outputValue).sum = 200 := by
  decide +kernel

end UtxoGenesis
