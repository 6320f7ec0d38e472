import DigCoinstore.StoredRows

/-!
# Every row has a leaf

Also after the restore of a snapshot of any origin, where the heights of the records need not make
sense, each `coin_records` row has a leaf in the tree and there are rows only once the store is
initialized (`Operated.covered`). A rollback removes and updates leaves of rows, so one that passes
its checks succeeds (`Covered.rollback_ends`).
-/

namespace DigCoinstore

/-! ## Rows and batches -/

/-- A `coin_records` row of this id. -/
def Tables.HasRow (t : Tables) (id : CoinId) : Prop := (t .coinRecords)[coinKey id]? ≠ none

/-- The operations write rows of these ids only. -/
def PutsRowsOf (ids : List CoinId) (ops : List WriteOp) : Prop :=
  ∀ id v, WriteOp.put .coinRecords (coinKey id) v ∈ ops → id ∈ ids

theorem Tables.HasRow.congr {t t' : Tables} {id : CoinId} (h : t.HasRow id)
    (ht : t' .coinRecords = t .coinRecords) : t'.HasRow id := by
  rwa [Tables.HasRow, ht]

/-- A row after a batch was there before or is written by it. -/
theorem Tables.HasRow.of_applyOps {id : CoinId} : ∀ (ops : List WriteOp) {t : Tables},
    (t.applyOps ops).HasRow id → t.HasRow id ∨ ∃ v, WriteOp.put .coinRecords (coinKey id) v ∈ ops
  | [], _, h => .inl h
  | op :: ops, t, h => by
    rcases of_applyOps ops h with hrow | ⟨v, hv⟩
    · unfold Tables.HasRow at hrow
      cases op with
      | put cf key value =>
        rw [Tables.applyOp, Tables.put_get] at hrow
        split at hrow
        · next heq =>
          obtain ⟨rfl, rfl⟩ := heq
          exact .inr ⟨value, .head _⟩
        · exact .inl hrow
      | delete cf key =>
        rw [Tables.applyOp, Tables.delete_get] at hrow
        split at hrow
        · exact absurd rfl hrow
        · exact .inl hrow
    · exact .inr ⟨v, .tail _ hv⟩

namespace PutsRowsOf

variable {ids : List CoinId} {ops ops' : List WriteOp}

theorem nil : PutsRowsOf ids [] := fun _ _ h => nomatch h

theorem append (h : PutsRowsOf ids ops) (h' : PutsRowsOf ids ops') : PutsRowsOf ids (ops ++ ops') :=
  fun id v hop => (List.mem_append.1 hop).elim (h id v) (h' id v)

/-- Operations on other tables. -/
theorem of_other (h : ∀ op ∈ ops, Tables.opCf op ≠ .coinRecords) : PutsRowsOf ids ops :=
  fun _ _ hop => absurd rfl (h _ hop)

theorem tip (height : UInt64) (tipHash : Bytes32) (timestamp : UInt64) :
    PutsRowsOf ids (stageTip .new height tipHash timestamp).ops :=
  of_other (by simp [stageTip, Tables.opCf])

variable [Chia]

/-- A genesis writes the rows of its coins. -/
theorem genesisBatch (records : List CoinRecord) (timestamp : UInt64) :
    PutsRowsOf (records.map CoinRecord.coinId) (genesisBatch records timestamp).ops := by
  refine genesisBatch_inv nil append (fun rec hrec => ?_) (of_other (by simp [Tables.opCf])) (tip _ _ _)
  have hid : rec.coinId ∈ records.map CoinRecord.coinId := List.mem_map_of_mem hrec
  simpa [stageGenesisCoin, PutsRowsOf, coinKey_inj] using hid

/-- A block writes the rows of the coins it creates and spends. -/
theorem stageBlock (block : BlockData) (created spent : List CoinRecord) :
    PutsRowsOf ((created ++ spent).map CoinRecord.coinId) (stageBlock block created spent).ops := by
  refine stageBlock_inv nil append (fun rec hrec => ?_) (fun rec hrec => ?_)
    fun id hint => of_other (by simp [Tables.opCf])
  · have hid : rec.coinId ∈ (created ++ spent).map CoinRecord.coinId :=
      List.mem_map_of_mem (List.mem_append_left _ hrec)
    rintro id v hop
    cases hs : rec.spentHeight <;>
      simp [stageCreation, appendCoinRecordToBatch, hs, coinKey_inj] at hop <;>
      exact hop.1 ▸ hid
  · have hid : rec.coinId ∈ (created ++ spent).map CoinRecord.coinId :=
      List.mem_map_of_mem (List.mem_append_right _ hrec)
    rintro id v hop
    simp only [stageSpend, WriteBatch.ops_put, WriteBatch.ops_delete, WriteBatch.ops_new] at hop
    simp [coinKey_inj] at hop
    exact hop.1 ▸ hid

end PutsRowsOf

/-! ## Trees -/

variable [Chia]

theorem orMerkle_eq_ok {α : Type} {text : String} {r : Except MerkleError α} {a : α} :
    orMerkle text r = .ok a ↔ r = .ok a := by
  cases r <;> simp

namespace SparseMerkleTree

variable {tree tree' : SparseMerkleTree} {text : String} {records : List CoinRecord} {id : CoinId}

/-- The keys of some inserted records. -/
theorem keys_insertAll (leaves : IdMap Bytes32)
    (hid : leaves[id]? ≠ none ∨ id ∈ records.map CoinRecord.coinId) :
    (OrdMap.insertAll leaves (records.map merkleEntry))[id]? ≠ none := by
  refine OrdMap.getElem?_insertAll_ne_none _ _ (hid.imp_right fun hmem => ?_)
  rwa [List.map_map]

theorem keys_inserted (h : (if (records.map merkleEntry).isEmpty then .ok tree
      else orMerkle text (tree.batchInsert (records.map merkleEntry))) = .ok tree')
    (hid : tree.leaves[id]? ≠ none ∨ id ∈ records.map CoinRecord.coinId) :
    tree'.leaves[id]? ≠ none := by
  rw [insert_guard, orMerkle_eq_ok, batchInsert_eq_ok] at h
  obtain ⟨_, rfl⟩ := h
  exact keys_insertAll _ hid

theorem keys_updated (h : (if (records.map merkleEntry).isEmpty then .ok tree
      else orMerkle text (tree.batchUpdate (records.map merkleEntry))) = .ok tree')
    (hid : tree.leaves[id]? ≠ none ∨ id ∈ records.map CoinRecord.coinId) :
    tree'.leaves[id]? ≠ none := by
  rw [update_guard, orMerkle_eq_ok, batchUpdate_eq_ok] at h
  obtain ⟨_, rfl⟩ := h
  exact keys_insertAll _ hid

end SparseMerkleTree

/-- A rebuilt tree has a leaf for each row. -/
theorem Tables.Sound.rebuilt_leaf {b : Backend} (h : b.tables.Sound) (hb : b.Healthy)
    {tree : SparseMerkleTree} (htree : CoinStore.rebuildMerkleTree b = .ok tree) {id : CoinId}
    (hrow : b.tables.HasRow id) : tree.leaves[id]? ≠ none := by
  obtain ⟨m, hm⟩ := h.coinRows hb
  obtain ⟨tree', htree', _, hleaves⟩ := hm.rebuildMerkleTree_spec
  obtain rfl := Except.ok.inj (htree.symm.trans htree')
  rw [Tables.HasRow, hm.record_get, ne_eq, Option.map_eq_none_iff] at hrow
  rwa [hleaves, ne_eq, Option.map_eq_none_iff]

/-! ## Calls other than a rollback -/

namespace CoinStore

/-- **Each row has a leaf**, and there are none before the genesis. -/
structure Covered (s : CoinStore) : Prop where
  leaf : ∀ {id}, s.backend.tables.HasRow id → s.merkleTree.leaves[id]? ≠ none
  initialized : ∀ {id}, s.backend.tables.HasRow id → s.initialized = true

variable {s s' : CoinStore}

omit [Chia] in
/-- The rows stay, and no leaf is lost. -/
theorem Covered.same (h : s.Covered)
    (hrows : s'.backend.tables .coinRecords = s.backend.tables .coinRecords)
    (hinit : s'.initialized = s.initialized)
    (hleaves : ∀ {id}, s.backend.tables.HasRow id → s'.merkleTree.leaves[id]? ≠ none) : s'.Covered where
  leaf hrow := hleaves (hrow.congr hrows.symm)
  initialized hrow := hinit.trans (h.initialized (hrow.congr hrows.symm))

omit [Chia] in
/-- Rows are written, and their leaves are there. -/
theorem Covered.wrote (h : s.Covered) {ids : List CoinId} {batch : WriteBatch}
    (hputs : PutsRowsOf ids batch.ops) (hbackend : s'.backend = s.backend.wrote batch)
    (hinit : s'.initialized = true)
    (hleaves : ∀ {id}, s.merkleTree.leaves[id]? ≠ none ∨ id ∈ ids → s'.merkleTree.leaves[id]? ≠ none) :
    s'.Covered where
  leaf hrow := by
    rw [hbackend] at hrow
    refine hleaves ((Tables.HasRow.of_applyOps batch.ops hrow).imp h.leaf ?_)
    exact fun ⟨v, hv⟩ => hputs _ v hv
  initialized _ := hinit

theorem Covered.initGenesis (h : s.Covered) (hb : s.backend.Healthy) (coins : List (Coin × Bool))
    (timestamp : UInt64) : (s.initGenesis coins timestamp).1.Covered := by
  unfold CoinStore.initGenesis
  split
  · exact h
  · dsimp only
    split
    · exact h
    · next tree hins =>
      simp only [Backend.batchWrite_of_healthy hb]
      refine h.wrote (.genesisBatch (coins.map (genesisRecord timestamp)) timestamp) rfl rfl ?_
      intro id hid
      rw [SparseMerkleTree.root_leaves]
      exact SparseMerkleTree.keys_inserted hins hid

/-- The check of the state root keeps the tree, or rebuilds it. -/
theorem verifyStateRoot_cases (s : CoinStore) (expected : Option Bytes32) (root : Bytes32) :
    (verifyStateRoot s expected root).1 = s ∨ ∃ tree, rebuildMerkleTree s.backend = .ok tree ∧
      (verifyStateRoot s expected root).1 = { s with merkleTree := tree } := by
  unfold verifyStateRoot
  split
  · exact .inl rfl
  · split
    · split
      · exact .inl rfl
      · next tree htree => exact .inr ⟨tree, htree, rfl⟩
    · exact .inl rfl

/-- The tree that is checked is committed. -/
theorem verifyStateRoot_ok {expected : Option Bytes32} {root : Bytes32}
    (h : verifyStateRoot s expected root = (s', .ok ())) : s' = s := by
  unfold verifyStateRoot at h
  split at h
  · exact (Prod.mk.inj h).1.symm
  · split at h
    · split at h
      · cases (Prod.mk.inj h).2
      · cases (Prod.mk.inj h).2
    · exact (Prod.mk.inj h).1.symm

/-- A store that accepts blocks is initialized. -/
theorem validateBlock_initialized {block : BlockData} {removed : List CoinRecord}
    (h : s.validateBlock block = .ok removed) : s.initialized = true := by
  unfold validateBlock at h
  split at h
  · cases h
  · next hinit => simpa using hinit

theorem Covered.applyBlock (h : s.Covered) (hs : s.Sound) (block : BlockData) :
    (s.applyBlock block).1.Covered := by
  unfold CoinStore.applyBlock
  split
  · exact h
  · next removed hvalid =>
    have hinit := validateBlock_initialized hvalid
    dsimp only
    split
    · exact h
    · next inserted hins =>
      have hinserted : ∀ {id}, s.backend.tables.HasRow id → inserted.leaves[id]? ≠ none := fun hrow =>
        SparseMerkleTree.keys_inserted hins (.inl (h.leaf hrow))
      split
      · exact h.same rfl rfl hinserted
      · next tree hupd =>
        have htree : ∀ {id}, s.merkleTree.leaves[id]? ≠ none ∨
            id ∈ (createdRecords block ++ removed.map (·.spend block.height)).map CoinRecord.coinId →
            tree.root.2.leaves[id]? ≠ none := fun {id} hid => by
          rw [SparseMerkleTree.root_leaves]
          rw [List.map_append, List.mem_append, ← or_assoc] at hid
          exact SparseMerkleTree.keys_updated hupd (hid.imp_left (SparseMerkleTree.keys_inserted hins))
        have hcases := verifyStateRoot_cases { s with merkleTree := tree.root.2 }
          block.expectedStateRoot tree.root.1
        split
        · next s' e hcheck =>
          rw [hcheck] at hcases
          rcases hcases with rfl | ⟨rebuilt, hreb, rfl⟩
          · exact h.same rfl rfl fun hrow => htree (.inl (h.leaf hrow))
          · exact h.same rfl rfl fun hrow => hs.tables.rebuilt_leaf hs.healthy hreb hrow
        · next s' hcheck =>
          obtain rfl := verifyStateRoot_ok hcheck
          rw [commitBlock, Backend.batchWrite_of_healthy hs.healthy]
          exact h.wrote (stageTip_inv .append (.stageBlock block _ _) (.tip _ _ _)) rfl hinit htree

/-- An initialized store is opened with the tree of its rows. -/
theorem withConfig_tree {config : CoinStoreConfig} {b : Backend} (hb : b.Healthy)
    (h : withConfig config b = .ok s) (hinit : s.initialized = true) :
    rebuildMerkleTree b = .ok s.merkleTree := by
  unfold withConfig at h
  simp only [Backend.get_of_healthy hb, orStorage_ok, Res.ok_bind] at h
  obtain ⟨tipHash, _, h⟩ := Res.bind_eq_ok.1 h
  split at h
  · obtain ⟨tree, htree, h⟩ := Res.bind_eq_ok.1 h
    obtain ⟨ids, _, h⟩ := Res.bind_eq_ok.1 h
    obtain rfl := Except.ok.inj h
    exact htree
  · next hmarked =>
    obtain rfl := Except.ok.inj h
    exact absurd hinit hmarked

theorem Covered.reopen {b : Backend} {config : CoinStoreConfig} (hb : b.Healthy) (ht : b.tables.Sound)
    (hmarked : ∀ {id}, b.tables.HasRow id → b.tables.Marked) (hopen : withConfig config b = .ok s) :
    s.Covered := by
  obtain ⟨rfl, hinit⟩ := withConfig_reads hb hopen
  have hs : ∀ {id}, s.backend.tables.HasRow id → s.initialized = true := fun hrow =>
    hinit.trans (hmarked hrow)
  exact ⟨fun hrow => ht.rebuilt_leaf hb (withConfig_tree hb hopen (hs hrow)) hrow, hs⟩

theorem Covered.restore (h : s.Covered) (hb : s.backend.Healthy) (snap : CoinStoreSnapshot) :
    (s.restore snap).1.Covered := by
  cases hcheck : checkSnapshot snap with
  | error e =>
    rw [CoinStore.restore, hcheck]
    exact h
  | ok tree =>
    obtain ⟨_, _, hkeys, built, hbuilt, _, rfl⟩ := checkSnapshot_eq_ok.1 hcheck
    obtain ⟨built', hbuilt', _, hleaves⟩ := buildSnapshotTree_spec hkeys
    obtain rfl := Except.ok.inj (hbuilt.symm.trans hbuilt')
    obtain ⟨backend, heq, _, ht⟩ := restore_of_check hcheck hb
    rw [heq]
    refine ⟨fun {id} hrow => ?_, fun _ => rfl⟩
    -- the rows are those of the snapshot
    obtain ⟨v, hv⟩ := Option.ne_none_iff_exists'.1 hrow
    have hrows := indexes_snapshotTables .life hkeys (fun _ => Set.mem_univ _) .coinRecords (.head _)
    rw [restored, ht] at hv
    obtain ⟨id', rec, hm, hkey⟩ := (hrows _ v).1 hv
    obtain rfl := coinKey_inj.1 (Prod.mk.inj (Option.some.inj hkey)).1
    rw [restored, SparseMerkleTree.root_leaves, hleaves, hm]
    simp

omit [Chia] in
/-- Calls that only write hints. -/
theorem Covered.hintsOnly (h : s.Covered) (hbackend : s'.backend.HintsOnly s.backend.tables)
    (hinit : s'.initialized = s.initialized) (htree : s'.merkleTree = s.merkleTree) : s'.Covered :=
  h.same (hbackend.2 .coinRecords (by decide)) hinit fun hrow => htree ▸ h.leaf hrow

theorem OtherCall.covered (hcall : OtherCall s s') (h : s.Covered) (hs : s.Sound) : s'.Covered := by
  cases hcall with
  | initGenesis => exact h.initGenesis hs.healthy _ _
  | applyBlock => exact h.applyBlock hs _
  | reopen hopen =>
    exact .reopen hs.healthy hs.tables (fun hrow => hs.marked (h.initialized hrow)) hopen
  | stateRoot =>
    refine h.same rfl rfl fun hrow => ?_
    rw [CoinStore.stateRoot, SparseMerkleTree.root_leaves]
    exact h.leaf hrow
  | addHint =>
    unfold CoinStore.addHint
    split
    · exact h
    · exact h
    · exact h.hintsOnly (addHintRows_inv ⟨hs.healthy, fun _ _ => rfl⟩ _ _) rfl rfl
  | removeHintsForCoins =>
    refine h.hintsOnly (forBackend_inv _ s.backend 0 (fun b n id _ hb => ?_)
      ⟨hs.healthy, fun _ _ => rfl⟩) rfl rfl
    exact removeHintsForCoin_inv s.backend.tables b n id hb

/-! ## Rollbacks -/

/-- **What the passes accumulate** on the tables `t`: leaves are removed and updated for ids with a
row, never both, and what the batch leaves has its leaf. -/
structure Staged (t : Tables) (acc : RollbackAcc) : Prop where
  removals : ∀ id ∈ acc.merkleRemovals, t.HasRow id ∧ acc.modifiedCoins.contains id = true
  updates : ∀ e ∈ acc.merkleUpdates, t.HasRow e.1 ∧ e.1 ∉ acc.merkleRemovals
  rows : ∀ id, (t.applyOps acc.batch.ops).HasRow id → t.HasRow id ∧ id ∉ acc.merkleRemovals

omit [Chia] in
theorem Staged.start (t : Tables) : Staged t .start where
  removals _ h := nomatch h
  updates _ h := nomatch h
  rows _ h := ⟨h, List.not_mem_nil⟩

omit [Chia] in
/-- More operations that write no row. -/
theorem Staged.withOps {t : Tables} {acc : RollbackAcc} (h : Staged t acc) {ops : List WriteOp}
    (hops : PutsRowsOf [] ops) : Staged t { acc with batch := ⟨acc.batch.ops ++ ops⟩ } where
  removals := h.removals
  updates := h.updates
  rows id hrow := by
    rw [Tables.applyOps_append] at hrow
    rcases Tables.HasRow.of_applyOps ops hrow with hrow | ⟨v, hv⟩
    · exact h.rows id hrow
    · exact absurd (hops id v hv) List.not_mem_nil

omit [Chia] in
/-- A lookup on a healthy backend, and the row of what it finds. -/
theorem getCoinRecord_ok (hb : s.backend.Healthy) (id : CoinId) :
    ∃ o, s.getCoinRecord id = .ok o ∧ (o.isSome = true → s.backend.tables.HasRow id) := by
  rw [getCoinRecord, Backend.get_of_healthy hb, orStorage_ok, Res.ok_bind]
  cases hrow : (s.backend.tables .coinRecords)[coinKey id]? with
  | none => exact ⟨none, rfl, fun h => absurd h Bool.false_ne_true⟩
  | some v => exact ⟨_, rfl, fun _ => by simp [Tables.HasRow, hrow]⟩

omit [Chia] in
/-- The id in an index key that is long enough. -/
theorem coinIdFromKey_slice {key : Bytes} (h : ¬ key.length < 40) :
    ∃ id, coinIdFromKey (slice key 8 40) = .ok id := by
  have hlen : 32 ≤ (slice key 8 40).length := by
    simp only [slice, List.length_take, List.length_drop]
    omega
  exact ⟨_, dif_pos hlen⟩

omit [Chia] in
/-- **Pass one**, one entry. -/
theorem Staged.deleteConfirmed (hb : s.backend.Healthy) {acc : RollbackAcc}
    (h : Staged s.backend.tables acc ∧ acc.merkleUpdates = []) (entry : KvPair) :
    ∃ acc', s.deleteConfirmed acc entry = .ok acc' ∧ Staged s.backend.tables acc' ∧
      acc'.merkleUpdates = [] := by
  unfold CoinStore.deleteConfirmed
  by_cases hshort : entry.1.length < 40
  · exact ⟨acc, if_pos hshort, h⟩
  · obtain ⟨id, hid⟩ := coinIdFromKey_slice hshort
    obtain ⟨o, hget, hrow⟩ := getCoinRecord_ok hb id
    rw [if_neg hshort, hid, Res.ok_bind, hget, Res.ok_bind]
    cases o with
    | none => exact ⟨acc, rfl, h⟩
    | some rec =>
      refine ⟨_, rfl, ?_, h.2⟩
      exact {
        removals := fun id' hmem => by
          rw [Std.ExtTreeMap.contains_insert, Bool.or_eq_true]
          rcases List.mem_append.1 hmem with hold | hnew
          · exact ⟨(h.1.removals id' hold).1, .inr (h.1.removals id' hold).2⟩
          · obtain rfl := List.mem_singleton.1 hnew
            exact ⟨hrow rfl, .inl (by simp)⟩
        updates := fun e he => by
          rw [h.2] at he
          cases he
        rows := fun id' hleft => by
          rw [ops_stageDeletion, Tables.applyOps_append, Tables.HasRow, stageDeletion_get] at hleft
          split at hleft
          · exact absurd rfl hleft
          · next hkey =>
            obtain ⟨hold, hnot⟩ := h.1.rows id' hleft
            refine ⟨hold, fun hmem => ?_⟩
            rcases List.mem_append.1 hmem with hmem | hmem
            · exact hnot hmem
            · rw [List.mem_singleton.1 hmem] at hkey
              exact hkey (by simp [deletedKeys]) }

/-- **Pass two**, one entry. -/
theorem Staged.unspendEntry (hb : s.backend.Healthy) {acc : RollbackAcc}
    (h : Staged s.backend.tables acc) (entry : KvPair) :
    ∃ acc', s.unspendEntry acc entry = .ok acc' ∧ Staged s.backend.tables acc' := by
  unfold CoinStore.unspendEntry
  by_cases hshort : entry.1.length < 40
  · exact ⟨acc, if_pos hshort, h⟩
  · obtain ⟨id, hid⟩ := coinIdFromKey_slice hshort
    rw [if_neg hshort, hid, Res.ok_bind]
    by_cases hknown : acc.modifiedCoins.contains id = true
    · rw [if_pos hknown]
      exact ⟨_, rfl, h.withOps (.of_other (by simp [Tables.opCf]))⟩
    · obtain ⟨o, hget, hrow⟩ := getCoinRecord_ok hb id
      rw [if_neg hknown, hget, Res.ok_bind]
      cases o with
      | none => exact ⟨acc, rfl, h⟩
      | some rec =>
        obtain ⟨parent, hparent, _⟩ := getCoinRecord_ok hb rec.coin.parentCoinInfo
        -- a coin deleted in pass one is in the map
        have hnew : id ∉ acc.merkleRemovals := fun hmem => hknown (h.removals id hmem).2
        simp only [hparent, Res.ok_bind]
        refine ⟨_, rfl, ?_⟩
        exact {
          removals := fun id' hmem => by
            rw [Std.ExtTreeMap.contains_insert, (h.removals id' hmem).2, Bool.or_true]
            exact ⟨(h.removals id' hmem).1, rfl⟩
          updates := fun e he => by
            rcases List.mem_append.1 he with hold | hmem
            · exact h.updates e hold
            · obtain rfl := List.mem_singleton.1 hmem
              exact ⟨hrow rfl, hnew⟩
          rows := fun id' hleft => by
            rw [ops_stageUnspend, Tables.applyOps_append] at hleft
            rcases Tables.HasRow.of_applyOps _ hleft with hold | ⟨v, hv⟩
            · exact h.rows id' hold
            · have heq : id' = id := by
                simp only [stageUnspend, WriteBatch.ops_put, WriteBatch.ops_delete, WriteBatch.ops_new,
                  List.nil_append, List.cons_append, List.mem_cons, WriteOp.put.injEq, coinKey_inj,
                  List.not_mem_nil, or_false, reduceCtorEq] at hv
                rcases hv with ⟨_, heq, _⟩ | ⟨hcf, _⟩
                · exact heq
                · cases hcf
              rw [heq]
              exact ⟨hrow rfl, hnew⟩ }

omit [Chia] in
/-- A scan whose body succeeds and keeps an invariant. -/
theorem scanAbove_spec {I : RollbackAcc → Prop} (hb : s.backend.Healthy)
    {body : RollbackAcc → KvPair → Res RollbackAcc}
    (hbody : ∀ acc entry, I acc → ∃ acc', body acc entry = .ok acc' ∧ I acc') (cf : ColumnFamily)
    (target : UInt64) {acc : RollbackAcc} (hacc : I acc) :
    ∃ acc', s.scanAbove cf target body acc = .ok acc' ∧ I acc' := by
  refine Res.foldlM_spec (I := I) (fun acc height hacc => ?_) _ hacc
  rw [Backend.prefixScan_of_healthy hb, orStorage_ok, Res.ok_bind]
  exact Res.foldlM_spec hbody _ hacc

/-- **The passes cannot fail.** -/
theorem stageRollback_staged (hb : s.backend.Healthy) (target : UInt64) :
    ∃ acc, s.stageRollback target = .ok acc ∧ Staged s.backend.tables acc := by
  have hstart : Staged s.backend.tables .start ∧ RollbackAcc.start.merkleUpdates = [] := ⟨.start _, rfl⟩
  obtain ⟨acc₁, hdel, h₁, _⟩ := scanAbove_spec hb
    (fun acc entry hacc => Staged.deleteConfirmed hb hacc entry) .coinByConfirmedHeight target hstart
  obtain ⟨ops, hclean, hcf⟩ := foldlM_deleteHints hb (deletedIds target acc₁) acc₁
  have h₂ : Staged s.backend.tables { acc₁ with batch := ⟨acc₁.batch.ops ++ ops⟩ } :=
    h₁.withOps (.of_other fun op hop heq => by simpa [heq, hintFamilies] using hcf op hop)
  obtain ⟨acc, hrev, h⟩ := scanAbove_spec hb (fun acc entry hacc => Staged.unspendEntry hb hacc entry)
    .coinBySpentHeight target h₂
  refine ⟨acc, ?_, h⟩
  rw [stageRollback, hdel, Res.ok_bind, hclean, Res.ok_bind]
  exact hrev

omit [Chia] in
/-- **The tree operations cannot fail**, and each row that is left keeps its leaf. -/
theorem Staged.tree {acc : RollbackAcc} (h : Staged s.backend.tables acc) (hs : s.Covered) :
    ∃ removed tree, s.merkleTree.batchRemove acc.merkleRemovals = .ok removed ∧
      removed.batchUpdate acc.merkleUpdates = .ok tree ∧
      ∀ id, (s.backend.tables.applyOps acc.batch.ops).HasRow id → tree.leaves[id]? ≠ none := by
  obtain ⟨removed, hrem⟩ : ∃ tree, s.merkleTree.batchRemove acc.merkleRemovals = .ok tree :=
    ⟨_, SparseMerkleTree.batchRemove_eq_ok.2 ⟨fun id hid => hs.leaf (h.removals id hid).1, rfl⟩⟩
  obtain ⟨-, rfl⟩ := SparseMerkleTree.batchRemove_eq_ok.1 hrem
  -- a leaf that is not removed is still there
  have hkept : ∀ {id}, s.backend.tables.HasRow id → id ∉ acc.merkleRemovals →
      (OrdMap.eraseAll s.merkleTree.leaves acc.merkleRemovals)[id]? ≠ none := fun hrow hnot => by
    rw [OrdMap.getElem?_eraseAll, if_neg hnot]
    exact hs.leaf hrow
  refine ⟨_, _, hrem, SparseMerkleTree.batchUpdate_eq_ok.2 ⟨fun e he => ?_, rfl⟩, fun id hrow => ?_⟩
  · exact hkept (h.updates e he).1 (h.updates e he).2
  · obtain ⟨hold, hnot⟩ := h.rows id hrow
    exact OrdMap.getElem?_insertAll_ne_none _ _ (.inl (hkept hold hnot))

/-- The commit of a rollback whose tree has the leaves of the rows that are left. -/
theorem commitRollback_covered (hb : s.backend.Healthy) (hinit : s.initialized = true)
    (target : UInt64) {acc : RollbackAcc} (hleaves : ∀ id,
      (s.backend.tables.applyOps acc.batch.ops).HasRow id → s.merkleTree.leaves[id]? ≠ none) :
    ∃ s' result, commitRollback s target acc = (s', .ok result) ∧ s'.height = target ∧ s'.Covered := by
  rw [commitRollback, Backend.batchWrite_of_healthy hb]
  have htables : s.backend.tables.applyOps (stageTip acc.batch target .zero s.timestamp).ops
      .coinRecords = s.backend.tables.applyOps acc.batch.ops .coinRecords := by
    rw [ops_stageTip, Tables.applyOps_append]
    exact stageTip_other _ (by decide)
  refine ⟨_, _, rfl, rfl, fun {id} hrow => ?_, fun _ => hinit⟩
  rw [SparseMerkleTree.root_leaves]
  exact hleaves id (hrow.congr htables.symm)

/-- **How a rollback ends** on any store of a run. -/
inductive RollbackEnds (s : CoinStore) (t : Int64) : CoinStore × Res RollbackResult → Prop
  | rejected {e : CoinStoreError} : s.initialized = false ∨ s.height.toInt64 < t →
    RollbackEnds s t (s, err e)
  | kept {result : RollbackResult} : 0 ≤ t → s.height ≤ effectiveTarget t →
    ¬ s.height.toInt64 < t → RollbackEnds s t (s, .ok result)
  | rolledBack {s' : CoinStore} {result : RollbackResult} : s'.height = effectiveTarget t →
    ¬ (s.height ≤ effectiveTarget t ∧ 0 ≤ t) → ¬ s.height.toInt64 < t → s'.Covered →
    RollbackEnds s t (s', .ok result)

theorem Covered.rollback_ends (h : s.Covered) (hb : s.backend.Healthy) (t : Int64) :
    RollbackEnds s t (s.rollbackToBlock t) := by
  unfold CoinStore.rollbackToBlock
  by_cases hinit : s.initialized = false
  · rw [if_pos (by simp [hinit])]
    exact .rejected (.inl hinit)
  · rw [if_neg (by simpa using hinit)]
    by_cases habove : s.height.toInt64 < t
    · rw [if_pos habove]
      exact .rejected (.inr habove)
    · rw [if_neg habove]
      by_cases hkeep : s.height ≤ effectiveTarget t ∧ 0 ≤ t
      · rw [if_pos hkeep]
        exact .kept hkeep.2 hkeep.1 habove
      · rw [if_neg hkeep]
        obtain ⟨acc, hstage, hstaged⟩ := stageRollback_staged hb (effectiveTarget t)
        obtain ⟨removed, tree, hrem, hupd, hleaves⟩ := hstaged.tree h
        have hremoved := (SparseMerkleTree.remove_guard s.merkleTree "Merkle remove during rollback: "
          acc.merkleRemovals).trans (by rw [hrem, orMerkle_ok])
        have hupdated := (SparseMerkleTree.update_guard removed "Merkle update during rollback: "
          acc.merkleUpdates).trans (by rw [hupd, orMerkle_ok])
        simp only [hstage, hremoved, hupdated]
        obtain ⟨s', result, hcommit, hheight, hcovered⟩ := commitRollback_covered
          (s := { s with merkleTree := tree }) hb (by simpa using hinit) (effectiveTarget t) hleaves
        rw [hcommit]
        exact .rolledBack hheight hkeep habove hcovered

theorem Covered.rollbackToBlock (h : s.Covered) (hb : s.backend.Healthy) (t : Int64) :
    (s.rollbackToBlock t).1.Covered := by
  have hends := h.rollback_ends hb t
  generalize s.rollbackToBlock t = out at hends
  cases hends with
  | rejected => exact h
  | kept => exact h
  | rolledBack _ _ _ h' => exact h'

end CoinStore

/-- **Every row has its leaf in every run.** -/
theorem Operated.covered {s : CoinStore} (h : Operated s) : s.Covered := by
  induction h with
  | new hopen =>
    refine .reopen Backend.healthy_fresh Tables.Sound.empty (fun hrow => ?_) hopen
    exact absurd Std.ExtTreeMap.getElem?_empty hrow
  | call hrun hcall ih => exact hcall.covered ih hrun.sound
  | rollbackToBlock hrun ih => exact ih.rollbackToBlock hrun.sound.healthy _
  | @rollbackNBlocks s n hrun ih =>
    rcases CoinStore.rollbackNBlocks_cases s n with heq | ⟨target, heq⟩
    · rwa [heq]
    · rw [heq]
      exact ih.rollbackToBlock hrun.sound.healthy target
  | restore hrun ih => exact ih.restore hrun.sound.healthy _

end DigCoinstore
