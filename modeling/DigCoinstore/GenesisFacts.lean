import DigCoinstore.Opening

/-!
# Genesis

On a blank store `init_genesis` succeeds; the store then represents the genesis records, the last
one of an id that is listed twice (`initGenesis_spec`).
-/

namespace DigCoinstore

variable [Chia]

/-- The inline writes of `init_genesis` are those of a creation. -/
theorem stageGenesisCoin_eq (batch : WriteBatch) {rec : CoinRecord} (hconf : rec.confirmedHeight = 0)
    (hspent : rec.spentHeight = none) : stageGenesisCoin batch rec = stageCreation batch rec := by
  simp [stageGenesisCoin, stageCreation, appendCoinRecordToBatch, hconf, hspent]

theorem metadata_not_mem_stageCreation (rec : CoinRecord) :
    ColumnFamily.metadata ∉ (stageCreation .new rec).ops.map Tables.opCf := by
  cases h : rec.spentHeight <;> simp [stageCreation, appendCoinRecordToBatch, h, Tables.opCf]

namespace CoinStore

variable {S : Scope} {s : CoinStore} {m : Coinset}

/-- The coin set of the genesis coins. -/
def genesisCoins (coins : List (Coin × Bool)) (timestamp : UInt64) : Coinset :=
  Coinset.putAll .empty (coins.map (genesisRecord timestamp))

/-- The tables after the genesis batch: the rows of the coins, the mark and the tip. -/
def genesisTables (t : Tables) (coins : List (Coin × Bool)) (timestamp : UInt64) : Tables :=
  ((t.applyOps ((coins.map (genesisRecord timestamp)).foldl stageCreation .new).ops).put .metadata
    metaInitialized [1]).applyOps (stageTip .new 0 .zero timestamp).ops

section
variable {coins : List (Coin × Bool)} {timestamp : UInt64}

theorem genesisCoins_cases {id : CoinId} {rec : CoinRecord}
    (h : genesisCoins coins timestamp id = some rec) :
    ∃ c ∈ coins, rec = genesisRecord timestamp c ∧ rec.coinId = id := by
  rcases Coinset.putAll_cases _ h with hempty | ⟨hmem, hid⟩
  · cases hempty
  · obtain ⟨c, hc, rfl⟩ := List.mem_map.1 hmem
    exact ⟨c, hc, rfl, hid⟩

/-- Every genesis coin has a record under its id. -/
theorem genesisCoins_of_mem {c : Coin × Bool} (hc : c ∈ coins) :
    ∃ rec, genesisCoins coins timestamp (Chia.coinId c.1) = some rec ∧ rec.spentHeight = none := by
  have hid : Chia.coinId c.1 ∈ (coins.map (genesisRecord timestamp)).map CoinRecord.coinId :=
    List.mem_map.2 ⟨_, List.mem_map.2 ⟨c, hc, rfl⟩, rfl⟩
  obtain ⟨rec, hrec, _, hput⟩ := Coinset.putAll_of_mem _ .empty hid
  obtain ⟨c', _, rfl⟩ := List.mem_map.1 hrec
  exact ⟨_, hput, rfl⟩

theorem genesisCoins_lives : (genesisCoins coins timestamp).Lives 0 where
  confirmed_le hm := by
    obtain ⟨c, _, rfl, _⟩ := genesisCoins_cases hm
    exact le_rfl
  spent hm hs := by
    obtain ⟨c, _, rfl, _⟩ := genesisCoins_cases hm
    cases hs

theorem mem_genesisIds {id : CoinId} :
    id ∈ coins.foldl (fun ids c => insert (Chia.coinId c.1) ids) (∅ : Finset CoinId) ↔
      ∃ rec, genesisCoins coins timestamp id = some rec ∧ rec.spentHeight = none := by
  rw [mem_foldl_insert (fun c : Coin × Bool => Chia.coinId c.1)]
  constructor
  · rintro (hmem | ⟨c, hc, rfl⟩)
    · simp at hmem
    · exact genesisCoins_of_mem hc
  · rintro ⟨rec, hm, _⟩
    obtain ⟨c, hc, rfl, hid⟩ := genesisCoins_cases hm
    exact .inr ⟨c, hc, hid⟩

theorem foldl_stageGenesisCoin (coins : List (Coin × Bool)) (timestamp : UInt64) :
    (coins.map (genesisRecord timestamp)).foldl stageGenesisCoin .new =
      (coins.map (genesisRecord timestamp)).foldl stageCreation .new := by
  refine List.foldl_ext _ _ _ fun batch rec hrec => ?_
  obtain ⟨c, _, rfl⟩ := List.mem_map.1 hrec
  exact stageGenesisCoin_eq batch rfl rfl

/-- The rows that the genesis batch writes. -/
theorem Represents.genesisRows (h : s.Represents S .empty) (hcoins : ∀ c ∈ coins, c.1 ∈ S.coins) :
    Indexes S.cfs (genesisTables s.backend.tables coins timestamp) (genesisCoins coins timestamp) := by
  have hrows : Indexes S.cfs (s.backend.tables.applyOps
      ((coins.map (genesisRecord timestamp)).foldl stageCreation .new).ops)
      (genesisCoins coins timestamp) := by
    refine Indexes.createAll _ h.rows (fun rec hrec => ?_) (fun _ _ old hold => nomatch hold)
      (fun rec hrec rec' hrec' hid => ?_)
    · obtain ⟨c, hc, rfl⟩ := List.mem_map.1 hrec
      exact hcoins c hc
    · obtain ⟨c, hc, rfl⟩ := List.mem_map.1 hrec
      obtain ⟨c', _, rfl⟩ := List.mem_map.1 hrec'
      exact ⟨hcoins c hc, hid, rfl, rfl⟩
  refine hrows.congr fun cf hcf => ?_
  rw [genesisTables, stageTip_other _ (S.ne_metadata hcf)]
  exact Function.update_of_ne (S.ne_metadata hcf) _ _

theorem initGenesis_eq (hhealthy : s.backend.Healthy) (hinit : s.initialized = false)
    {tree : SparseMerkleTree} (hins : s.merkleTree.batchInsert
      ((coins.map (genesisRecord timestamp)).map merkleEntry) = .ok tree) :
    s.initGenesis coins timestamp = ({ s with
      backend := { s.backend with tables := genesisTables s.backend.tables coins timestamp }
      merkleTree := tree.root.2
      height := 0, tipHash := .zero, timestamp, initialized := true
      unspentIds := coins.foldl (fun ids c => insert (Chia.coinId c.1) ids) ∅ },
      .ok tree.root.1) := by
  have hguard := (SparseMerkleTree.insert_guard s.merkleTree "Merkle insert error: "
    ((coins.map (genesisRecord timestamp)).map merkleEntry)).trans (by rw [hins, orMerkle_ok])
  simp only [initGenesis, hinit, Bool.false_eq_true, if_false, hguard, foldl_stageGenesisCoin,
    Backend.batchWrite_of_healthy hhealthy]
  rw [ops_stageTip, Tables.applyOps_append, WriteBatch.ops_put, Tables.applyOps_append]
  rfl

end

/-- **Genesis on a blank store.** -/
theorem Represents.initGenesis_spec (h : s.Represents S m) (hinit : s.initialized = false)
    {coins : List (Coin × Bool)} (hcoins : ∀ c ∈ coins, c.1 ∈ S.coins) (timestamp : UInt64) :
    ∃ s' root, s.initGenesis coins timestamp = (s', .ok root) ∧
      s'.Represents S (genesisCoins coins timestamp) ∧
      s'.UnspentExact (genesisCoins coins timestamp) ∧ s'.initialized = true := by
  obtain ⟨rfl, _⟩ := h.blank hinit
  -- the tree is empty, so the entries are new
  have hnone : ∀ e ∈ (coins.map (genesisRecord timestamp)).map merkleEntry,
      s.merkleTree.leaves[e.1]? = none := fun e _ => h.leaves e.1
  obtain ⟨tree, hins⟩ : ∃ tree, s.merkleTree.batchInsert
      ((coins.map (genesisRecord timestamp)).map merkleEntry) = .ok tree :=
    ⟨_, SparseMerkleTree.batchInsert_eq_ok.2 ⟨hnone, rfl⟩⟩
  obtain ⟨_, hleaves, hcoh⟩ := SparseMerkleTree.batchInsert_spec h.coherent hins
  refine ⟨_, _, initGenesis_eq h.healthy hinit hins, ?_, fun id => mem_genesisIds, rfl⟩
  exact {
    healthy := h.healthy
    rows := h.genesisRows hcoins
    leaves := fun id => by
      rw [SparseMerkleTree.root_leaves, hleaves]
      exact leaves_putAll _ h.leaves id
    coherent := SparseMerkleTree.root_coherent hcoh
    tip := by
      refine tipStored_stageTip rfl ?_
      simp [Tables.put_get]
    ids := fun hm => by
      obtain ⟨c, _, rfl, hid⟩ := genesisCoins_cases hm
      exact hid
    coins := fun hm => by
      obtain ⟨c, hc, rfl, _⟩ := genesisCoins_cases hm
      exact hcoins c hc
    lives := genesisCoins_lives
    filled := fun h hpos hle => by
      simp at hle
      omega
    blank := fun hb => by cases hb }

end CoinStore

end DigCoinstore
