import DigCoinstore.LedgerFacts

/-!
# The store and its ledger

`s.Tracks l`: the tables, the tree and the in-memory fields of `s` are those of the ledger `l`. A
genesis, a block, a rollback and the hint calls keep this relation, and the store answers them as
the ledger does, with the same errors (`applyBlock_step`, `rollbackToBlock_step`).
-/

namespace DigCoinstore

variable [Chia]

namespace Ledger

variable {l : Ledger}

theorem get_putRecords : ∀ (recs : List CoinRecord) (coins : IdMap CoinRecord) (id : CoinId),
    (putRecords coins recs)[id]? = Coinset.putAll (fun id => coins[id]?) recs id
  | [], _, _ => rfl
  | rec :: recs, coins, id => by
    have hput : (fun id : CoinId => (coins.insert rec.coinId rec)[id]?) =
        Coinset.put (fun id => coins[id]?) rec := funext fun id => by
      rw [OrdMap.getElem?_insert, Coinset.put, Function.update_apply]
      exact if_congr eq_comm rfl rfl
    rw [Coinset.putAll_cons, ← hput]
    exact get_putRecords recs (coins.insert rec.coinId rec) id

/-- A tree of the coins has their root. -/
theorem fullRoot_eq_rootOf {tree : SparseMerkleTree} {m : Coinset} {coins : IdMap CoinRecord}
    (hcoins : ∀ id : CoinId, coins[id]? = m id) (h : CoinStore.TreeOf tree m) :
    tree.fullRoot = rootOf coins := by
  rw [rootOf, SparseMerkleTree.rootObserved_eq (SparseMerkleTree.coherent_of_none rfl)]
  refine SparseMerkleTree.fullRoot_congr fun k => ?_
  show tree.leaves[k]? = (coins.map fun _ rec => CoinStore.leafHash rec)[k]?
  rw [h.2 k, Std.ExtTreeMap.getElem?_map, hcoins]

theorem get_coinsAfter (block : BlockData) (removed : List CoinRecord) (id : CoinId) :
    (l.coinsAfter block removed)[id]? = l.coinset.applyBlock block removed id := by
  rw [coinsAfter, get_putRecords, Coinset.applyBlock, Coinset.putAll, Coinset.putAll,
    Coinset.putAll, List.foldl_append]
  rfl

end Ledger

/-! ## The relation -/

/-- The stored checkpoints are these. -/
structure CheckpointsHeld (t : Tables) (checkpoints : OrdMap.Map UInt64 CoinStoreSnapshot) : Prop where
  keys : CheckpointKeys t
  rows : ∀ height : UInt64, ((t .stateSnapshots)[snapshotKey height]?).map
    decodeCoinStoreSnapshotStorage = (checkpoints[height]?).map some

namespace CheckpointsHeld

variable {t t' : Tables} {checkpoints : OrdMap.Map UInt64 CoinStoreSnapshot}

omit [Chia] in
theorem congr (h : CheckpointsHeld t checkpoints) (heq : t' .stateSnapshots = t .stateSnapshots) :
    CheckpointsHeld t' checkpoints :=
  ⟨h.keys.congr heq, by rw [heq]; exact h.rows⟩

omit [Chia] in
/-- A batch of coins, hints and metadata. -/
theorem wrote {b : Backend} (h : CheckpointsHeld b.tables checkpoints) {batch : WriteBatch}
    (hops : ∀ op ∈ batch.ops, (Tables.opCf op).OfState) :
    CheckpointsHeld (b.wrote batch).tables checkpoints := by
  refine h.congr (Tables.applyOps_other _ _ fun hmem => ?_)
  obtain ⟨op, hop, hcf⟩ := List.mem_map.1 hmem
  have hstate := hops op hop
  simp [hcf, ColumnFamily.OfState, coinFamilies, CoinStore.hintFamilies] at hstate

end CheckpointsHeld

namespace CoinStore

/-- **The store is in the state of the ledger.** -/
structure Tracks (s : CoinStore) (l : Ledger) : Prop where
  represents : s.Represents .life l.coinset
  unspent : s.UnspentExact l.coinset
  initialized : s.initialized = l.initialized
  height : s.height = l.height
  tipHash : s.tipHash = l.tipHash
  timestamp : s.timestamp = l.timestamp
  hints : HintsHeld s.backend.tables l.hints
  checkpoints : CheckpointsHeld s.backend.tables l.checkpoints
  maxSnapshots : s.config.maxSnapshots = l.maxSnapshots

namespace Tracks

variable {s : CoinStore} {l : Ledger}

theorem healthy (h : s.Tracks l) : s.backend.Healthy := h.represents.healthy

theorem tracks_blank (config : CoinStoreConfig) : (blank config).Tracks (.blank config) where
  represents := by
    obtain ⟨h, -, -⟩ := withConfig_fresh (S := .life) (withConfig_fresh_eq config)
    rwa [show (Ledger.blank config).coinset = .empty from funext fun _ => Std.ExtTreeMap.getElem?_empty]
  unspent := by
    obtain ⟨-, h, -⟩ := withConfig_fresh (S := .life) (withConfig_fresh_eq config)
    rwa [show (Ledger.blank config).coinset = .empty from funext fun _ => Std.ExtTreeMap.getElem?_empty]
  initialized := rfl
  height := rfl
  tipHash := rfl
  timestamp := rfl
  hints := by
    rw [show ((Ledger.blank config).hints : Set HintPair) = ∅ from Finset.coe_empty]
    exact HintsHeld.empty
  checkpoints := ⟨fun k v hget => by simp [blank, Backend.fresh, Tables.empty] at hget,
    fun height => by simp [blank, Ledger.blank, Backend.fresh, Tables.empty]⟩
  maxSnapshots := rfl

/-! ## Questions -/

theorem getCoinRecord_eq (h : s.Tracks l) (id : CoinId) : s.getCoinRecord id = .ok l.coins[id]? :=
  h.represents.getCoinRecord_eq id

theorem rootObserved_eq (h : s.Tracks l) : s.merkleTree.rootObserved = Ledger.rootOf l.coins := by
  rw [SparseMerkleTree.rootObserved_eq h.represents.coherent]
  exact Ledger.fullRoot_eq_rootOf (fun _ => rfl) h.represents.treeOf

theorem isUnspent_eq (h : s.Tracks l) (id : CoinId) : s.isUnspent id = l.isUnspent id := by
  rw [isUnspent, Ledger.isUnspent, Bool.eq_iff_iff, decide_eq_true_eq, h.unspent id]
  show (∃ rec, l.coins[id]? = some rec ∧ rec.spentHeight = none) ↔ _
  cases l.coins[id]? with
  | none => simp
  | some rec => simp [CoinRecord.isSpent]

/-! ## Blocks -/

theorem removalRecord_eq (h : s.Tracks l) (id : CoinId) : s.removalRecord id = l.removal id := by
  have hget : l.coins[id]? = l.coinset id := rfl
  rw [removalRecord, Ledger.removal, Backend.get_of_healthy h.healthy, h.represents.record_get, hget]
  cases hm : l.coinset id with
  | none => rfl
  | some rec =>
    have hdec := decode_serialize (h.represents.lives.storable hm)
    simp only [Option.map_some, orStorage_ok, Res.ok_bind, hdec]
    rfl

theorem checkAddition_eq (h : s.Tracks l) (ids : Finset Bytes32) (id : CoinId) :
    s.checkAddition ids id = l.claim ids id := by
  have hget : ((s.backend.tables .coinRecords)[coinKey id]?).isSome = (l.coins[id]?).isSome := by
    rw [h.represents.record_get, Option.isSome_map]
    rfl
  rw [checkAddition, Ledger.claim, Backend.get_of_healthy h.healthy, orStorage_ok, Res.ok_bind, hget]
  by_cases hid : id ∈ ids <;> by_cases hm : (l.coins[id]?).isSome = true <;> simp [hid, hm]

/-- **The checks of a block** fail alike. -/
theorem validateBlock_eq (h : s.Tracks l) (block : BlockData) :
    s.validateBlock block = l.validate block := by
  have hrem : s.removalRecord = l.removal := funext h.removalRecord_eq
  have hclaim : s.checkAddition = l.claim := funext fun ids => funext (h.checkAddition_eq ids)
  have hall : block.claimedIds.foldlM l.claim ∅ = (do
      let ids ← block.additions.foldlM (fun ids a => l.claim ids a.coinId) ∅
      block.coinbaseCoins.foldlM (fun ids c => l.claim ids (Chia.coinId c)) ids) := by
    simp only [BlockData.claimedIds, List.foldlM_append, List.foldlM_map]
  rw [validateBlock, Ledger.validate, h.initialized, h.height, h.tipHash, hrem, hclaim, hall]
  simp only [Represents.checkHints, bind_assoc, Res.ok_bind]

/-- The tree whose root is the answer. -/
theorem root_eq {tree : SparseMerkleTree} {m : Coinset} {coins : IdMap CoinRecord}
    (hcoins : ∀ id : CoinId, coins[id]? = m id) (h : TreeOf tree.root.2 m) (hcoh : tree.Coherent) :
    tree.root.1 = Ledger.rootOf coins := by
  rw [SparseMerkleTree.root_fst hcoh]
  refine Ledger.fullRoot_eq_rootOf hcoins ⟨hcoh, fun id => ?_⟩
  rw [← h.2 id, SparseMerkleTree.root_leaves]

theorem initGenesis_step (h : s.Tracks l) (coins : List (Coin × Bool)) (timestamp : UInt64) :
    (s.initGenesis coins timestamp).2 = (l.initGenesis coins timestamp).2 ∧
      (s.initGenesis coins timestamp).1.Tracks (l.initGenesis coins timestamp).1 := by
  cases hinit : s.initialized with
  | true =>
    rw [initGenesis, if_pos hinit, Ledger.initGenesis, if_pos (h.initialized.symm.trans hinit)]
    exact ⟨rfl, h⟩
  | false =>
    have hl : l.initialized = false := h.initialized.symm.trans hinit
    obtain ⟨hempty, -⟩ := h.represents.blank hinit
    obtain ⟨tree, hins⟩ : ∃ tree, s.merkleTree.batchInsert
        ((coins.map (genesisRecord timestamp)).map merkleEntry) = .ok tree :=
      ⟨_, SparseMerkleTree.batchInsert_eq_ok.2 ⟨fun e _ => by
        rw [h.represents.leaves, hempty]
        rfl, rfl⟩⟩
    have hcoh := (SparseMerkleTree.batchInsert_spec h.represents.coherent hins).2.2
    have hrun := initGenesis_eq h.healthy hinit hins
    obtain ⟨s', root, heq, hs', hu', -⟩ :=
      h.represents.initGenesis_spec hinit (fun _ _ => Set.mem_univ _) timestamp
    have hwrites := initGenesis_writes h.healthy coins timestamp
    have hcoins : ∀ id : CoinId, (Ledger.putRecords ∅ (coins.map (genesisRecord timestamp)))[id]? =
        genesisCoins coins timestamp id := fun id => by
      rw [Ledger.get_putRecords, show (fun id : CoinId => (∅ : IdMap CoinRecord)[id]?) = Coinset.empty
        from funext fun _ => Std.ExtTreeMap.getElem?_empty]
      rfl
    rw [hrun] at heq hwrites ⊢
    obtain ⟨rfl, hroot⟩ := Prod.mk.inj heq
    have hbatch := hwrites.resolve_left fun hsame => by
      have := hsame.2
      simp [hinit] at this
    rw [Ledger.initGenesis, hl, if_neg Bool.false_ne_true]
    refine ⟨congrArg Except.ok (root_eq hcoins hs'.treeOf hcoh), ?_⟩
    have hset : (Ledger.coinset { l with
        coins := Ledger.putRecords ∅ (coins.map (genesisRecord timestamp)), height := 0
        tipHash := .zero, timestamp, initialized := true }) = genesisCoins coins timestamp :=
      funext hcoins
    exact {
      represents := by rw [hset]; exact hs'
      unspent := by rw [hset]; exact hu'
      initialized := rfl
      height := rfl
      tipHash := rfl
      timestamp := rfl
      hints := by
        rw [hbatch]
        exact h.hints.genesis _ timestamp
      checkpoints := by
        rw [hbatch]
        exact h.checkpoints.wrote (genesisBatch_ofState _ _)
      maxSnapshots := h.maxSnapshots }

/-- A block that passes the checks of the ledger can be applied. -/
theorem applicable (h : s.Tracks l) {block : BlockData} {removed : List CoinRecord}
    (hclaims : block.ClaimsItsCoins) (hval : s.validateBlock block = .ok removed) :
    s.Applicable l.coinset block removed := by
  obtain ⟨hinit, hlt, hheight, hparent, hrew, hrem, hlive, hnd, hclaimed⟩ :=
    h.represents.validateBlock_eq_ok.1 hval
  refine ⟨hinit, hlt, hheight, hparent, hrew, hrem, hlive, hnd, hclaimed, fun rec hrec => ?_⟩
  -- the id of a created coin is one of those claimed
  refine hclaimed _ (BlockData.mem_claimedIds.2 ?_)
  rcases BlockData.exists_mem_coins.1 ⟨rec.coin, (createdRecords_cases hrec).1, rfl⟩ with hcb | hadd
  · exact .inl hcb
  · exact .inr ((hclaims _).2 hadd)

theorem applyBlock_step (h : s.Tracks l) {block : BlockData} (hclaims : block.ClaimsItsCoins) :
    (s.applyBlock block).2 = (l.applyBlock block).2 ∧
      (s.applyBlock block).1.Tracks (l.applyBlock block).1 := by
  cases hval : l.validate block with
  | error e =>
    rw [applyBlock, Ledger.applyBlock, h.validateBlock_eq, hval]
    exact ⟨rfl, h⟩
  | ok removed =>
    have hsval : s.validateBlock block = .ok removed := (h.validateBlock_eq block).trans hval
    have ha := h.applicable hclaims hsval
    have hout := h.represents.applyBlock_outcome block
    have hwrites := (applyBlock_writes h.healthy block).2
    have hcoins := l.get_coinsAfter block removed
    have huniq : ∀ {removed'}, s.Applicable l.coinset block removed' → removed' = removed :=
      fun {removed'} ha' => by
        have hok := h.represents.validateBlock_eq_ok.2 ⟨ha'.initialized, ha'.height_lt, ha'.height,
          ha'.parent, ha'.rewards, ha'.removals, ha'.live, ha'.nodup, ha'.claimed⟩
        exact Except.ok.inj (hok.symm.trans hsval)
    rw [Ledger.applyBlock, hval]
    dsimp only
    generalize s.applyBlock block = out at hout hwrites ⊢
    cases hout with
    | rejected hnot => exact absurd ha (hnot removed)
    | @mismatched removed' tree rebuilt r ha' htree hrebuilt hexp hne =>
      obtain rfl := huniq ha'
      have hroot := Ledger.fullRoot_eq_rootOf hcoins htree
      have hfilter : block.expectedStateRoot.filter (· ≠ Ledger.rootOf (l.coinsAfter block removed')) =
          some r := by
        rw [hexp, ← hroot, Option.filter_some, if_pos (decide_eq_true hne)]
      rw [hfilter, hroot]
      exact ⟨rfl, h.represents.withTree hrebuilt, h.unspent, h.initialized, h.height, h.tipHash,
        h.timestamp, h.hints, h.checkpoints, h.maxSnapshots⟩
    | @accepted removed' tree ha' htree hexp =>
      obtain rfl := huniq ha'
      have hroot := Ledger.fullRoot_eq_rootOf hcoins htree
      have hfilter : block.expectedStateRoot.filter (· ≠ Ledger.rootOf (l.coinsAfter block removed')) =
          none := by
        refine Option.filter_eq_none_iff.2 fun r hr => ?_
        simpa [← hroot] using hexp r hr
      rw [hfilter, hroot]
      refine ⟨rfl, ?_⟩
      obtain ⟨-, e, he⟩ | ⟨removed'', -, hbackend, -⟩ := hwrites
      · cases he
      have hset : (Ledger.coinset { l with
          coins := l.coinsAfter block removed', hints := l.hints ∪ Ledger.hintsOf block
          height := block.height, tipHash := block.blockHash, timestamp := block.timestamp }) =
          l.coinset.applyBlock block removed' := funext hcoins
      have hpairs : ((l.hints ∪ Ledger.hintsOf block : Finset HintPair) : Set HintPair) = ↑l.hints ∪
          {p | ∃ hint ∈ block.hints, hint.2 ≠ .zero ∧ p = (hint.1, hint.2.bytes)} := by
        ext p
        simp only [Ledger.hintsOf, Finset.coe_union, Set.mem_union, Finset.mem_coe, List.mem_toFinset,
          List.mem_map, List.mem_filter, decide_eq_true_eq, Set.mem_ofPred_eq, and_assoc,
          eq_comm (a := p)]
      exact {
        represents := by
          rw [hset]
          exact h.represents.accept_represents (fun _ _ => Set.mem_univ _) ha htree
        unspent := by
          rw [hset]
          exact Represents.accept_unspent h.unspent hclaims ha tree
        initialized := h.initialized
        height := rfl
        tipHash := rfl
        timestamp := rfl
        hints := by
          rw [hbackend, hpairs]
          exact h.hints.block block _ _
        checkpoints := by
          rw [hbackend]
          exact h.checkpoints.wrote (stageTip_ofState (stageBlock_ofState _ _ _) _ _ _)
        maxSnapshots := h.maxSnapshots }

/-! ## Rollbacks -/

omit [Chia] in
theorem isRevived_iff {target : UInt64} {rec : CoinRecord} : Ledger.isRevived target rec = true ↔
    rec.confirmedHeight ≤ target ∧ ∃ sh, rec.spentHeight = some sh ∧ target < sh := by
  simp only [Ledger.isRevived, Bool.and_eq_true, decide_eq_true_eq, Option.any_eq_true]

omit [Chia] in
theorem isDeleted_iff {target : UInt64} {rec : CoinRecord} :
    Ledger.isDeleted target rec = true ↔ target < rec.confirmedHeight := decide_eq_true_iff

omit [Chia] in
/-- A list of the coins that pass a test has as many entries as there are. -/
theorem size_filter {coins : IdMap CoinRecord} {p : CoinRecord → Bool}
    {xs : List (CoinId × CoinRecord)} (hnodup : (xs.map (·.1)).Nodup)
    (hmem : ∀ id rec, (id, rec) ∈ xs ↔ coins[id]? = some rec ∧ p rec = true) :
    xs.length = (coins.filter fun _ => p).size := by
  rw [← Std.ExtTreeMap.length_toList]
  refine List.Perm.length_eq ((List.perm_ext_iff_of_nodup (hnodup.of_map _)
    (OrdMap.nodup_toList _)).2 fun x => ?_)
  rw [hmem x.1 x.2, OrdMap.mem_toList, Std.ExtTreeMap.getElem?_filter', Option.filter_eq_some_iff]

omit [Chia] in
/-- The records that a rollback reports. -/
theorem insertAll_modified {m : Coinset} {coins : IdMap CoinRecord}
    (hcoins : ∀ id : CoinId, coins[id]? = m id) {target : UInt64}
    {del rev : List (CoinId × CoinRecord)} (hD : Deleted m target del) (hR : Revived m target rev) :
    OrdMap.insertAll (OrdMap.insertAll ∅ del) rev =
      coins.filter fun _ rec => Ledger.isDeleted target rec || Ledger.isRevived target rec := by
  have hnodup : ((del ++ rev).map (·.1)).Nodup := by
    rw [List.map_append, List.nodup_append]
    refine ⟨hD.nodup, hR.nodup, ?_⟩
    rintro id hid id' hid' rfl
    obtain ⟨⟨id, rec⟩, hx, rfl⟩ := List.mem_map.1 hid
    obtain ⟨⟨id', rec'⟩, hx', heq⟩ := List.mem_map.1 hid'
    obtain ⟨hm, hlt⟩ := (hD.mem _ _).1 hx
    obtain ⟨hm', hle, -⟩ := (hR.mem _ _).1 hx'
    obtain rfl : id' = id := heq
    obtain rfl := Option.some.inj (hm.symm.trans hm')
    exact UInt64.not_lt.2 hle hlt
  refine Std.ExtTreeMap.ext_getElem? fun id => Option.ext fun rec => ?_
  rw [← OrdMap.insertAll_append, OrdMap.getElem?_insertAll hnodup, List.mem_append, hD.mem, hR.mem,
    Std.ExtTreeMap.getElem?_filter', Option.filter_eq_some_iff, hcoins, Bool.or_eq_true,
    isDeleted_iff, isRevived_iff, and_or_left]

theorem rollbackToBlock_config (s : CoinStore) (target : Int64) :
    (s.rollbackToBlock target).1.config = s.config := by
  unfold rollbackToBlock
  split
  · rfl
  · split
    · rfl
    · dsimp only
      split
      · rfl
      · split
        · rfl
        · split
          · rfl
          · split
            · rfl
            · unfold commitRollback
              split <;> rfl

/-- The hints of the deleted coins go with them. -/
theorem cutTo_hints (h : s.Tracks l) {targetHeight : Int64} {target : UInt64} {s' : CoinStore}
    {result : RollbackResult} (hrun : s.rollbackToBlock targetHeight = (s', .ok result))
    (hrb : RolledBack .life s l.coinset target s' result) :
    HintsHeld s'.backend.tables (l.cutTo target).1.hints := by
  obtain ⟨members, htables, hmem⟩ := h.hints
  obtain ⟨ids, hclean, hids⟩ := h.represents.rollback_hints htables targetHeight
  rw [hrun] at hclean
  have hgone : ∀ id, id ∈ ids ↔ ((l.coins[id]?).any (Ledger.isDeleted target)) = true := fun id => by
    rw [hids, Deletes, hrun, Option.any_eq_true]
    simp only [h.represents.getCoinRecord_eq, hrb.represents.getCoinRecord_eq, Except.ok.injEq,
      isDeleted_iff]
    exact Coinset.rollback_lost
  refine ⟨_, hclean, fun p => ?_⟩
  rw [Ledger.cutTo, Finset.coe_filter, Set.mem_ofPred_eq, ← Finset.mem_coe, ← hmem, withoutCoins,
    Bool.not_eq_true', ← Bool.not_eq_true, ← hgone]
  by_cases hp : p.1 ∈ ids <;> simp [hp]

theorem rollbackToBlock_step (h : s.Tracks l) (targetHeight : Int64) :
    (s.rollbackToBlock targetHeight).2 = (l.rollbackToBlock targetHeight).2 ∧
      (s.rollbackToBlock targetHeight).1.Tracks (l.rollbackToBlock targetHeight).1 := by
  by_cases hblank : s.initialized = false
  · rw [rollbackToBlock, if_pos (by simp [hblank]), Ledger.rollbackToBlock,
      if_pos (by simp [← h.initialized, hblank])]
    exact ⟨rfl, h⟩
  by_cases habove : s.height.toInt64 < targetHeight
  · rw [rollbackToBlock, if_neg (by simpa using hblank), if_pos habove, Ledger.rollbackToBlock,
      if_neg (by simpa [← h.initialized] using hblank), if_pos (h.height ▸ habove), h.height]
    exact ⟨rfl, h⟩
  have hout := h.represents.rollbackToBlock_outcome targetHeight
  have hwrites := (rollbackToBlock_writes h.healthy targetHeight).2
  have hconfig := rollbackToBlock_config s targetHeight
  obtain ⟨out, hrun⟩ : ∃ out, s.rollbackToBlock targetHeight = out := ⟨_, rfl⟩
  rw [hrun] at hout hwrites hconfig ⊢
  cases hout with
  | rejected hcond => exact (hcond.elim hblank habove).elim
  | kept hinit hnot hnneg hle =>
    rw [Ledger.rollbackToBlock, ← h.initialized, ← h.height, hinit, if_neg (by simp), if_neg hnot,
      if_pos ⟨hle, hnneg⟩]
    exact ⟨rfl, h⟩
  | @rolledBack s' result hinit hnot hkeep hrb =>
    rw [Ledger.rollbackToBlock, ← h.initialized, ← h.height, hinit, if_neg (by simp), if_neg hnot,
      if_neg hkeep]
    generalize effectiveTarget targetHeight = target at hrb ⊢
    obtain ⟨del, rev, hD, hR, hresult⟩ := hrb.result
    have hset : (l.cutTo target).1.coinset = l.coinset.rollback target := funext fun id => by
      show (l.coins.filterMap fun id _ => l.coinset.rollback target id)[id]? = _
      rw [Std.ExtTreeMap.getElem?_filterMap']
      cases hm : l.coins[id]? with
      | none => exact (Coinset.rollback_of_none hm).symm
      | some rec => rfl
    constructor
    · rw [Ledger.cutTo, hresult]
      refine congrArg Except.ok ?_
      have hmodified := insertAll_modified (fun id => (rfl : l.coins[id]? = l.coinset id)) hD hR
      rw [hmodified,
        size_filter (p := Ledger.isDeleted target) hD.nodup fun id rec => by
          rw [hD.mem, isDeleted_iff]; rfl,
        size_filter (p := Ledger.isRevived target) hR.nodup fun id rec => by
          rw [hR.mem, isRevived_iff]; rfl]
    · exact {
        represents := by rw [hset]; exact hrb.represents
        unspent := by rw [hset]; exact hrb.unspent h.unspent
        initialized := hrb.initialized.trans (hinit.symm.trans h.initialized)
        height := hrb.height
        tipHash := hrb.tipHash
        timestamp := hrb.timestamp.trans h.timestamp
        hints := h.cutTo_hints hrun hrb
        checkpoints := by
          rcases hwrites with heq | ⟨acc, hstage, heq⟩
          · rw [heq]
            exact h.checkpoints
          · rw [heq]
            exact h.checkpoints.wrote (stageTip_ofState (stageRollback_ofState h.healthy hstage) _ _ _)
        maxSnapshots := by
          rw [hconfig]
          exact h.maxSnapshots }

theorem rollbackNBlocks_step (h : s.Tracks l) (n : UInt64) :
    (s.rollbackNBlocks n).2 = (l.rollbackNBlocks n).2 ∧
      (s.rollbackNBlocks n).1.Tracks (l.rollbackNBlocks n).1 := by
  rw [rollbackNBlocks, Ledger.rollbackNBlocks, h.initialized, h.height]
  split
  · exact ⟨rfl, h⟩
  · cases checkedSub l.height.toInt64 n.toInt64 with
    | error e => exact ⟨rfl, h⟩
    | ok target => exact h.rollbackToBlock_step target

/-! ## Hints -/

/-- Writes to the hint tables alone. -/
theorem withHints (h : s.Tracks l) {b : Backend} {pairs : Finset HintPair}
    (honly : b.HintsOnly s.backend.tables) (hheld : HintsHeld b.tables pairs) :
    ({ s with backend := b } : CoinStore).Tracks { l with hints := pairs } where
  represents := h.represents.withHints honly
  unspent := h.unspent
  initialized := h.initialized
  height := h.height
  tipHash := h.tipHash
  timestamp := h.timestamp
  hints := hheld
  checkpoints := h.checkpoints.congr (honly.2 .stateSnapshots (by decide))
  maxSnapshots := h.maxSnapshots

omit [Chia] in
theorem addHintRows_ok {b : Backend} (hb : b.Healthy) (coinId : CoinId) (hint : Bytes) :
    (addHintRows b coinId hint).2 = .ok () := by
  unfold addHintRows
  rw [Backend.get_of_healthy hb, orStorage_ok]
  cases (b.tables .hints)[coinId.bytes ++ hint]? with
  | some v => rfl
  | none =>
    have hb' : ({ b with tables := b.tables.put .hints (coinId.bytes ++ hint) [] } : Backend).Healthy :=
      hb
    simp only [Backend.put_of_healthy hb, Backend.put_of_healthy hb', orStorage_ok]

theorem addHint_step (h : s.Tracks l) (coinId : CoinId) (hint : Bytes) :
    (s.addHint coinId hint).2 = (l.addHint coinId hint).2 ∧
      (s.addHint coinId hint).1.Tracks (l.addHint coinId hint).1 := by
  rcases validateHint_cases hint with ⟨-, hvalid⟩ | ⟨-, hvalid⟩ | ⟨hpos, hmax, hvalid⟩
  · rw [addHint, Ledger.addHint, hvalid]
    exact ⟨rfl, h⟩
  · rw [addHint, Ledger.addHint, hvalid]
    exact ⟨rfl, h⟩
  · obtain ⟨members, htables, hmem⟩ := h.hints
    obtain ⟨-, htables'⟩ := addHintRows_tables h.healthy htables coinId hpos hmax
    rw [addHint, Ledger.addHint, hvalid]
    refine ⟨addHintRows_ok h.healthy coinId hint, h.withHints
      (addHintRows_inv ⟨h.healthy, fun _ _ => rfl⟩ coinId hint) ?_⟩
    rw [Finset.coe_insert]
    exact .insert htables' hmem

theorem removeHintsForCoins_step (h : s.Tracks l) (coinIds : List CoinId) :
    (s.removeHintsForCoins coinIds).2 = (l.removeHintsForCoins coinIds).2 ∧
      (s.removeHintsForCoins coinIds).1.Tracks (l.removeHintsForCoins coinIds).1 := by
  obtain ⟨members, htables, hmem⟩ := h.hints
  obtain ⟨b', pairs, hrun, hnodup, hpairs, htables'⟩ :=
    removeHintsForCoins_run coinIds 0 h.healthy htables
  have honly : b'.HintsOnly s.backend.tables := by
    have hinv := forBackend_inv (I := fun b => b.HintsOnly s.backend.tables) coinIds s.backend 0
      (fun b n id _ hb => removeHintsForCoin_inv s.backend.tables b n id hb)
      ⟨h.healthy, fun _ _ => rfl⟩
    rwa [hrun] at hinv
  rw [removeHintsForCoins, hrun, Ledger.removeHintsForCoins]
  refine ⟨congrArg Except.ok ?_, h.withHints honly ⟨_, htables', fun p => ?_⟩⟩
  · rw [Nat.zero_add, ← List.toFinset_card_of_nodup hnodup]
    congr 1
    ext p
    rw [List.mem_toFinset, hpairs, hmem, Finset.mem_coe, Finset.mem_filter, and_comm]
  · rw [Finset.coe_filter, Set.mem_ofPred_eq, ← Finset.mem_coe, ← hmem, withoutCoins]
    by_cases hp : p.1 ∈ coinIds <;> simp [hp]

end Tracks

end CoinStore

end DigCoinstore
