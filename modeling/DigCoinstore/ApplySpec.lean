import DigCoinstore.ApplyFacts

/-!
# Applying a block

`apply_block` ends in one of three ways (`applyBlock_outcome`): it rejects the block and changes
nothing, it rejects the root and rebuilds an equal tree, or it accepts, and the new store
represents the coin set after the block (`accept_represents`).
-/

namespace DigCoinstore

variable [Chia]

namespace CoinStore

/-- The store after an accepted block; `tree` is the tree whose root was checked. -/
def accept (s : CoinStore) (block : BlockData) (removed : List CoinRecord) (tree : SparseMerkleTree) :
    CoinStore :=
  { s with
    backend := { s.backend with
      tables := s.backend.tables.applyOps (stageTip
        (stageBlock block (createdRecords block) (removed.map (·.spend block.height)))
        block.height block.blockHash block.timestamp).ops }
    height := block.height
    tipHash := block.blockHash
    timestamp := block.timestamp
    merkleTree := tree.root.2
    unspentIds := unspentAfter s.unspentIds block }

/-- `tree` has the leaves of the coin set `m`. -/
def TreeOf (tree : SparseMerkleTree) (m : Coinset) : Prop :=
  tree.Coherent ∧ ∀ id : CoinId, tree.leaves[id]? = (m id).map leafHash

/-- **How a call of `apply_block` ends**, on a store of the coin set `m`. -/
inductive BlockOutcome (s : CoinStore) (m : Coinset) (block : BlockData) :
    CoinStore × Res ApplyBlockResult → Prop
  | rejected {e : Exit} : (∀ removed, ¬ s.Applicable m block removed) →
    BlockOutcome s m block (s, .error e)
  | mismatched {removed : List CoinRecord} {tree rebuilt : SparseMerkleTree} {r : Bytes32} :
    s.Applicable m block removed → TreeOf tree (m.applyBlock block removed) → TreeOf rebuilt m →
    block.expectedStateRoot = some r → r ≠ tree.fullRoot →
    BlockOutcome s m block
      ({ s with merkleTree := rebuilt }, err (.stateRootMismatch r tree.fullRoot))
  | accepted {removed : List CoinRecord} {tree : SparseMerkleTree} :
    s.Applicable m block removed → TreeOf tree (m.applyBlock block removed) →
    (∀ r, block.expectedStateRoot = some r → r = tree.fullRoot) →
    BlockOutcome s m block (s.accept block removed tree, .ok {
      stateRoot := tree.fullRoot
      coinsCreated := (createdRecords block).length
      coinsSpent := removed.length
      height := block.height })

theorem TreeOf.fullRoot_eq {tree tree' : SparseMerkleTree} {m : Coinset} (h : TreeOf tree m)
    (h' : TreeOf tree' m) : tree.fullRoot = tree'.fullRoot :=
  SparseMerkleTree.fullRoot_congr fun k => (h.2 k).trans (h'.2 k).symm

variable {S : Scope} {s : CoinStore} {m : Coinset} {block : BlockData} {removed : List CoinRecord}

theorem Represents.treeOf (h : s.Represents S m) : TreeOf s.merkleTree m := ⟨h.coherent, h.leaves⟩

/-- The updates come after the insertions and cannot fail. -/
theorem Represents.treeUpdates (h : s.Represents S m) (ha : s.Applicable m block removed) :
    ∃ inserted tree, s.merkleTree.batchInsert ((createdRecords block).map merkleEntry) = .ok inserted ∧
      inserted.batchUpdate ((removed.map (·.spend block.height)).map merkleEntry) = .ok tree ∧
      TreeOf tree (m.applyBlock block removed) := by
  obtain ⟨inserted, hins⟩ : ∃ t, s.merkleTree.batchInsert ((createdRecords block).map merkleEntry) =
      .ok t := by
    refine ⟨_, SparseMerkleTree.batchInsert_eq_ok.2 ⟨fun e he => ?_, rfl⟩⟩
    obtain ⟨rec, hrec, rfl⟩ := List.mem_map.1 he
    simp [merkleEntry, h.leaves, ha.fresh rec hrec]
  obtain ⟨_, hleaves, hcoh⟩ := SparseMerkleTree.batchInsert_spec h.coherent hins
  have hcreated : ∀ id : CoinId, inserted.leaves[id]? =
      (m.putAll (createdRecords block) id).map leafHash := fun id => by
    rw [hleaves]
    exact leaves_putAll _ h.leaves id
  obtain ⟨tree, hupd⟩ : ∃ t, inserted.batchUpdate
      ((removed.map (·.spend block.height)).map merkleEntry) = .ok t := by
    refine ⟨_, SparseMerkleTree.batchUpdate_eq_ok.2 ⟨fun e he => ?_, rfl⟩⟩
    obtain ⟨_, hrec, rfl⟩ := List.mem_map.1 he
    obtain ⟨old, hold, rfl⟩ := List.mem_map.1 hrec
    have hm : m (merkleEntry (old.spend block.height)).1 = some old := (ha.live old hold).1
    rw [hcreated, ha.created_get hm]
    simp
  obtain ⟨_, hleaves', hcoh'⟩ := SparseMerkleTree.batchUpdate_spec hcoh hupd
  refine ⟨inserted, tree, hins, hupd, hcoh', fun id => ?_⟩
  rw [hleaves']
  exact leaves_putAll _ hcreated id

/-- **Every call ends in one of the three ways.** -/
theorem Represents.applyBlock_outcome (h : s.Represents S m) (block : BlockData) :
    BlockOutcome s m block (s.applyBlock block) := by
  cases hval : s.validateBlock block with
  | error e =>
    have happ : s.applyBlock block = (s, .error e) := by simp only [applyBlock, hval]
    rw [happ]
    refine .rejected fun removed ha => ?_
    have hok := h.validateBlock_eq_ok.2 ⟨ha.initialized, ha.height_lt, ha.height, ha.parent,
      ha.rewards, ha.removals, ha.live, ha.nodup, ha.claimed⟩
    simp [hval] at hok
  | ok removed =>
    obtain ⟨hinit, hlt, hheight, hparent, hrew, hrem, hlive, hnd, hclaimed⟩ :=
      h.validateBlock_eq_ok.1 hval
    by_cases hfresh : ∀ rec ∈ createdRecords block, m rec.coinId = none
    · have ha : s.Applicable m block removed :=
        ⟨hinit, hlt, hheight, hparent, hrew, hrem, hlive, hnd, hclaimed, hfresh⟩
      obtain ⟨inserted, tree, hins, hupd, htree⟩ := h.treeUpdates ha
      have hinserted := (SparseMerkleTree.insert_guard s.merkleTree "Merkle insert: "
        ((createdRecords block).map merkleEntry)).trans (by rw [hins, orMerkle_ok])
      have hupdated := (SparseMerkleTree.update_guard inserted "Merkle update: "
        ((removed.map (·.spend block.height)).map merkleEntry)).trans (by rw [hupd, orMerkle_ok])
      obtain ⟨cached, hroot⟩ : ∃ cached, tree.root = (tree.fullRoot, cached) :=
        ⟨_, Prod.ext (SparseMerkleTree.root_fst htree.1) rfl⟩
      by_cases hexp : ∀ r, block.expectedStateRoot = some r → r = tree.fullRoot
      · have hverify : verifyStateRoot { s with merkleTree := cached } block.expectedStateRoot
            tree.fullRoot = ({ s with merkleTree := cached }, .ok ()) := by
          cases he : block.expectedStateRoot with
          | none => rfl
          | some r => simp [verifyStateRoot, hexp r he]
        have happ : s.applyBlock block = (s.accept block removed tree, .ok {
            stateRoot := tree.fullRoot
            coinsCreated := (createdRecords block).length
            coinsSpent := removed.length
            height := block.height }) := by
          simp only [applyBlock, hval, hinserted, hupdated, hroot, hverify, commitBlock, accept,
            Backend.batchWrite_of_healthy h.healthy, List.length_map]
        rw [happ]
        exact .accepted ha htree hexp
      · push Not at hexp
        obtain ⟨r, he, hne⟩ := hexp
        obtain ⟨rebuilt, hreb, hcoh, hleaves⟩ := h.coinRows.rebuildMerkleTree_spec
        have happ : s.applyBlock block = ({ s with merkleTree := rebuilt },
            err (.stateRootMismatch r tree.fullRoot)) := by
          simp only [applyBlock, hval, hinserted, hupdated, hroot, verifyStateRoot, he,
            if_pos hne.symm, hreb, err]
        rw [happ]
        exact .mismatched ha htree ⟨hcoh, hleaves⟩ he hne
    · -- an addition whose coin is known under its real id stops at the tree
      obtain ⟨e, hins⟩ : ∃ e, s.merkleTree.batchInsert ((createdRecords block).map merkleEntry) =
          .error e := by
        cases hins : s.merkleTree.batchInsert ((createdRecords block).map merkleEntry) with
        | error e => exact ⟨e, rfl⟩
        | ok tree =>
          refine absurd (fun rec hrec => ?_) hfresh
          have hnone := (SparseMerkleTree.batchInsert_eq_ok.1 hins).1 _ (List.mem_map_of_mem hrec)
          simpa [merkleEntry, h.leaves] using hnone
      have hinserted := (SparseMerkleTree.insert_guard s.merkleTree "Merkle insert: "
        ((createdRecords block).map merkleEntry)).trans (by rw [hins, orMerkle_error])
      have happ : s.applyBlock block =
          (s, .error (.error (.storageError ("Merkle insert: " ++ e.toString)))) := by
        simp only [applyBlock, hval, hinserted]
      rw [happ]
      exact .rejected fun _ ha => hfresh ha.fresh

/-! ## The store after an accepted block -/

omit [Chia] in
theorem ops_stageHint (batch : WriteBatch) (hint : CoinId × Bytes32) :
    (stageHint batch hint).ops = batch.ops ++ (stageHint .new hint).ops := by
  by_cases hz : hint.2 = .zero <;> simp [stageHint, hz]

theorem applyOps_stageBlock (t : Tables) (block : BlockData) (created spent : List CoinRecord) :
    t.applyOps (stageBlock block created spent).ops =
      ((t.applyOps (created.foldl stageCreation .new).ops).applyOps
        (spent.foldl (stageSpend block.height) .new).ops).applyOps
          (block.hints.foldl stageHint .new).ops := by
  rw [stageBlock, ops_stageAll ops_stageHint, ops_stageAll (ops_stageSpend block.height),
    Tables.applyOps_append, Tables.applyOps_append]

theorem stageBlock_metadata (t : Tables) (block : BlockData) (created spent : List CoinRecord) :
    t.applyOps (stageBlock block created spent).ops .metadata = t .metadata := by
  rw [applyOps_stageBlock, applyOps_stageAll_other ops_stageHint fun hint => ?_,
    applyOps_stageAll_other (ops_stageSpend block.height) fun rec => ?_,
    applyOps_stageAll_other ops_stageCreation metadata_not_mem_stageCreation]
  · simp [stageSpend, Tables.opCf]
  · by_cases hz : hint.2 = .zero <;> simp [stageHint, hz, Tables.opCf]

omit [Chia] in
theorem stageHints_other (t : Tables) (hints : List (CoinId × Bytes32)) {cf : ColumnFamily}
    (hcf : cf ∈ coinFamilies) : t.applyOps (hints.foldl stageHint .new).ops cf = t cf := by
  obtain ⟨hh, hv, _⟩ := ne_of_mem_coinFamilies hcf
  refine applyOps_stageAll_other ops_stageHint (fun hint => ?_) hints t
  by_cases hz : hint.2 = .zero <;> simp [stageHint, hz, Tables.opCf, hh, hv]

/-- **An accepted block** leads to a store of the coin set after the block. -/
theorem Represents.accept_represents (h : s.Represents S m) (hcoins : ∀ c ∈ block.coins, c ∈ S.coins)
    (ha : s.Applicable m block removed) {tree : SparseMerkleTree}
    (htree : TreeOf tree (m.applyBlock block removed)) :
    (s.accept block removed tree).Represents S (m.applyBlock block removed) := by
  have hheight := ha.height_toNat
  have hrows : Indexes S.cfs (s.backend.tables.applyOps (stageBlock block (createdRecords block)
      (removed.map (·.spend block.height))).ops) (m.applyBlock block removed) := by
    rw [applyOps_stageBlock]
    refine Indexes.congr (Indexes.spendAll m removed (Indexes.createAll _ h.rows ?_ ?_ ?_)
      ha.live ?_) fun cf hcf => stageHints_other _ _ (S.sub_coin cf hcf)
    · exact fun rec hrec => hcoins _ (createdRecords_cases hrec).1
    · intro rec hrec old hold
      simp [ha.fresh rec hrec] at hold
    · intro rec hrec rec' hrec' hid
      obtain ⟨hc, hconf, hspent⟩ := createdRecords_cases hrec
      obtain ⟨_, hconf', hspent'⟩ := createdRecords_cases hrec'
      exact ⟨hcoins _ hc, hid, hconf.trans hconf'.symm, hspent.trans hspent'.symm⟩
    · exact fun rec hrec => .inl (ha.created_get (ha.live rec hrec).1)
  exact {
    healthy := h.healthy
    rows := hrows.congr fun cf hcf => by
      simp only [accept]
      rw [ops_stageTip, Tables.applyOps_append, stageTip_other _ (S.ne_metadata hcf)]
    leaves := fun id => by
      simp only [accept, SparseMerkleTree.root_leaves]
      exact htree.2 id
    coherent := SparseMerkleTree.root_coherent htree.1
    tip := by
      refine tipStored_stageTip (t := s.backend.tables.applyOps (stageBlock block
        (createdRecords block) (removed.map (·.spend block.height))).ops) ?_ ?_
      · simp only [accept]
        rw [ops_stageTip, Tables.applyOps_append]
      · rw [stageBlock_metadata]
        exact h.tip.initialized
    ids := fun {id rec} hm' => by
      rcases ha.applied_cases hm' with ⟨hm, _⟩ | ⟨_, _, hid⟩ | ⟨old, _, hm, _, rfl⟩
      · exact h.ids hm
      · exact hid
      · have hid : old.coinId = id := h.ids hm
        exact hid
    coins := fun {id rec} hm' => by
      rcases ha.applied_cases hm' with ⟨hm, _⟩ | ⟨_, hrec, _⟩ | ⟨old, _, hm, _, rfl⟩
      · exact h.coins hm
      · exact hcoins _ (createdRecords_cases hrec).1
      · have hcoin : old.coin ∈ S.coins := h.coins hm
        exact hcoin
    lives := by
      constructor
      · intro id rec hm'
        rw [show (s.accept block removed tree).height = block.height from rfl]
        rcases ha.applied_cases hm' with ⟨hm, _⟩ | ⟨_, hrec, _⟩ | ⟨old, _, hm, _, rfl⟩
        · have := h.lives.confirmed_le hm
          omega
        · rw [(createdRecords_cases hrec).2.1]
        · have := h.lives.confirmed_le hm
          simp only [CoinRecord.spend]
          omega
      · intro id rec sh hm' hs
        rw [show (s.accept block removed tree).height = block.height from rfl]
        rcases ha.applied_cases hm' with ⟨hm, _⟩ | ⟨_, hrec, _⟩ | ⟨old, _, hm, _, rfl⟩
        · have := h.lives.spent hm hs
          omega
        · simp [(createdRecords_cases hrec).2.2] at hs
        · have := h.lives.confirmed_le hm
          obtain rfl : block.height = sh := Option.some.inj hs
          simp only [CoinRecord.spend]
          omega
    filled := fun g hpos hle => by
      rcases Nat.lt_or_ge g.toNat block.height.toNat with hlt | hge
      · obtain ⟨id, rec, hm, hconf⟩ := h.filled g hpos (by omega)
        rcases ha.applied_some hm with ⟨hm', _⟩ | ⟨_, _, hm'⟩
        · exact ⟨id, rec, hm', hconf⟩
        · exact ⟨id, _, hm', hconf⟩
      · -- the block's own height has its coinbase coins
        obtain ⟨c, hc⟩ := List.exists_mem_of_length_pos (Nat.lt_of_lt_of_le Nat.two_pos ha.rewards)
        obtain ⟨rec, hrec, _, hm'⟩ := ha.applied_created (List.mem_append_left _ hc)
        refine ⟨_, rec, hm', (createdRecords_cases hrec).2.1.trans ?_⟩
        exact UInt64.toNat_inj.1 (Nat.le_antisymm hge hle)
    blank := fun hb => by simp [accept, ha.initialized] at hb }

/-- **The unspent set after an accepted block**: the block's coinbase coins and the ids it claims
for its additions are new members, its removals are gone. -/
theorem mem_accept_unspentIds (ha : s.Applicable m block removed) (tree : SparseMerkleTree)
    {id : CoinId} : id ∈ (s.accept block removed tree).unspentIds ↔
      (id ∈ s.unspentIds ∧ id ∉ block.removals) ∨ id ∈ block.claimedIds := by
  have hclaimed : id ∈ block.claimedIds → id ∉ block.removals := fun hid hrem => by
    rw [ha.removals] at hrem
    obtain ⟨rec, hrec, rfl⟩ := List.mem_map.1 hrem
    have hnone := ha.claimed _ hid
    rw [(ha.live rec hrec).1] at hnone
    cases hnone
  rw [accept, unspentAfter, mem_foldl_erase, mem_foldl_insert (fun a : CoinAddition => a.coinId),
    mem_foldl_insert (fun c : Coin => Chia.coinId c), or_assoc,
    ← BlockData.mem_claimedIds]
  constructor
  · rintro ⟨hid | hid, hrem⟩
    · exact .inl ⟨hid, hrem⟩
    · exact .inr hid
  · rintro (⟨hid, hrem⟩ | hid)
    · exact ⟨.inl hid, hrem⟩
    · exact ⟨.inr hid, hclaimed hid⟩

/-- **The unspent records after an accepted block**: those of the coins it creates are new, those
it removes are gone. -/
theorem Applicable.applied_unspent (ha : s.Applicable m block removed) (id : CoinId) :
    (∃ rec, m.applyBlock block removed id = some rec ∧ rec.spentHeight = none) ↔
      ((∃ rec, m id = some rec ∧ rec.spentHeight = none) ∧ id ∉ block.removals) ∨
        ∃ c ∈ block.coins, Chia.coinId c = id := by
  constructor
  · rintro ⟨rec, hm', hlive⟩
    rcases ha.applied_cases hm' with ⟨hm, hrem⟩ | ⟨_, hrec, hid⟩ | ⟨old, _, _, _, rfl⟩
    · exact .inl ⟨⟨rec, hm, hlive⟩, hrem⟩
    · exact .inr ⟨rec.coin, (createdRecords_cases hrec).1, hid⟩
    · cases hlive
  · rintro (⟨⟨rec, hm, hlive⟩, hrem⟩ | ⟨c, hc, rfl⟩)
    · obtain ⟨hm', _⟩ := (ha.applied_some hm).resolve_right fun hspent => hrem hspent.2.1
      exact ⟨rec, hm', hlive⟩
    · obtain ⟨rec, hrec, _, hm'⟩ := ha.applied_created hc
      exact ⟨rec, hm', (createdRecords_cases hrec).2.2⟩

/-- When the block claims the ids of its coins, the unspent set follows the coin set. -/
theorem Represents.accept_unspent (h : s.UnspentExact m) (hclaims : block.ClaimsItsCoins)
    (ha : s.Applicable m block removed) (tree : SparseMerkleTree) :
    (s.accept block removed tree).UnspentExact (m.applyBlock block removed) := by
  intro id
  rw [mem_accept_unspentIds ha, ha.applied_unspent, h id, BlockData.mem_claimedIds,
    BlockData.exists_mem_coins, hclaims id]

end CoinStore

end DigCoinstore
