import DigCoinstore.RollbackSpec

/-!
# Snapshot and restore

On a backend without failures `restore` writes the tables of the snapshot, whatever was stored
before and however the rewrite is cut into batches (`rewriteBackend_eq`). A snapshot of a store of
the coin set `m` passes the checks, and a store restored from it represents `m` (`restore_spec`).
-/

namespace DigCoinstore

/-! ## Loops over a backend -/

/-- **A loop of calls that succeed** follows a fold: `I` relates the backend and the local to the
state of the fold. -/
theorem forBackend_run {α β σ : Type} {body : Backend → β → α → Backend × Res β}
    {I : Backend → β → σ → Prop} {step : σ → α → σ}
    (hbody : ∀ b acc g x, I b acc g → ∃ b' acc', body b acc x = (b', .ok acc') ∧ I b' acc' (step g x)) :
    ∀ (xs : List α) {b : Backend} {acc : β} {g : σ}, I b acc g →
    ∃ b' acc', forBackend body xs b acc = (b', .ok acc') ∧ I b' acc' (xs.foldl step g)
  | [], b, acc, _, h => ⟨b, acc, rfl, h⟩
  | x :: xs, b, acc, g, h => by
    obtain ⟨b₁, acc₁, hb, h₁⟩ := hbody b acc g x h
    obtain ⟨b', acc', hrun, h'⟩ := forBackend_run hbody xs h₁
    exact ⟨b', acc', by rw [forBackend, hb]; exact hrun, h'⟩

/-- **A property of the backend** that every call keeps holds after the loop, error or not. -/
theorem forBackend_inv {α β : Type} {body : Backend → β → α → Backend × Res β} {I : Backend → Prop} :
    ∀ (xs : List α) (b : Backend) (acc : β),
    (∀ b acc, ∀ x ∈ xs, I b → I (body b acc x).1) → I b → I (forBackend body xs b acc).1
  | [], _, _, _, h => h
  | x :: xs, b, acc, hbody, h => by
    have hx := hbody b acc x (.head _) h
    rw [forBackend]
    rcases hb : body b acc x with ⟨b', e | acc'⟩
    · rwa [hb] at hx
    · rw [hb] at hx
      exact forBackend_inv xs b' acc' (fun b acc y hy => hbody b acc y (.tail _ hy)) hx

/-- The backend fails no call and holds the tables `t`. -/
def Backend.Holds (b : Backend) (_ : Unit) (t : Tables) : Prop := b.Healthy ∧ b.tables = t

/-- The backend fails no call and will hold the tables `t` once the batch is written. -/
def Backend.Pends (b : Backend) (batch : WriteBatch) (t : Tables) : Prop :=
  b.Healthy ∧ b.tables.applyOps batch.ops = t

/-! ## Clearing -/

theorem foldl_delete_get (cf : ColumnFamily) : ∀ (keys : List Bytes) (t : Tables) (cf' : ColumnFamily)
    (k : Bytes), (keys.foldl (fun t k => t.delete cf k) t cf')[k]? =
      if cf = cf' ∧ k ∈ keys then none else (t cf')[k]?
  | [], t, cf', k => by simp
  | key :: keys, t, cf', k => by
    rw [List.foldl_cons, foldl_delete_get cf keys, Tables.delete_get]
    by_cases hcf : cf = cf' <;> by_cases hk : key = k <;> simp [hcf, hk, eq_comm (a := k)]

theorem foldl_delete_keys (t : Tables) (cf : ColumnFamily) :
    ((t cf).toList.map (·.1)).foldl (fun t k => t.delete cf k) t = Function.update t cf ∅ := by
  funext cf'
  refine Std.ExtTreeMap.ext_getElem? fun k => ?_
  rw [foldl_delete_get]
  by_cases hcf : cf = cf'
  · subst hcf
    rw [Function.update_self, Std.ExtTreeMap.getElem?_empty]
    by_cases hk : k ∈ (t cf).toList.map (·.1)
    · rw [if_pos ⟨rfl, hk⟩]
    · rw [if_neg fun h => hk h.2]
      refine Option.eq_none_iff_forall_ne_some.2 fun v hv => hk ?_
      exact List.mem_map.2 ⟨(k, v), OrdMap.mem_toList.2 hv, rfl⟩
  · rw [if_neg fun h => hcf h.1, Function.update_of_ne (Ne.symm hcf)]

theorem deleteKeys_run {b : Backend} (hb : b.Healthy) (cf : ColumnFamily) (keys : List Bytes) :
    ∃ b', forBackend (deleteKey cf) keys b () = (b', .ok ()) ∧
      b'.Holds () (keys.foldl (fun t k => t.delete cf k) b.tables) := by
  have hstep : ∀ b u t key, Backend.Holds b u t → ∃ b' u', deleteKey cf b u key = (b', .ok u') ∧
      b'.Holds u' (t.delete cf key) := by
    rintro b u t key ⟨hb, rfl⟩
    refine ⟨{ b with tables := b.tables.delete cf key }, (), ?_, hb, rfl⟩
    simp [deleteKey, Backend.delete_of_healthy hb]
  have hstart : b.Holds () b.tables := ⟨hb, rfl⟩
  obtain ⟨b', _, hrun, h'⟩ := forBackend_run hstep keys hstart
  exact ⟨b', hrun, h'⟩

theorem clearColumnFamily_run (b : Backend) (u : Unit) (t : Tables) (cf : ColumnFamily)
    (h : b.Holds u t) : ∃ b' u', clearColumnFamily b u cf = (b', .ok u') ∧
      b'.Holds u' (Function.update t cf ∅) := by
  obtain ⟨hb, rfl⟩ := h
  obtain ⟨b', hrun, h'⟩ := deleteKeys_run hb cf ((b.tables cf).toList.map (·.1))
  rw [foldl_delete_keys] at h'
  refine ⟨b', (), ?_, h'⟩
  rw [clearColumnFamily, Backend.prefixScan_all hb, orStorageWith_ok]
  exact hrun

theorem clearAll_run {b : Backend} (h : b.Healthy) : ∃ b',
    forBackend clearColumnFamily allColumnFamilies b () = (b', .ok ()) ∧ b'.Holds () Tables.empty := by
  have hclear : ∀ (cfs : List ColumnFamily) (t : Tables) (cf : ColumnFamily),
      cfs.foldl (fun t cf => Function.update t cf ∅) t cf = if cf ∈ cfs then ∅ else t cf := by
    intro cfs
    induction cfs with
    | nil => simp
    | cons c cfs ih =>
      intro t cf
      rw [List.foldl_cons, ih]
      by_cases hmem : cf ∈ cfs
      · simp [hmem]
      · by_cases hc : cf = c <;> simp [hmem, hc]
  obtain ⟨b', u', hrun, hb', ht⟩ := forBackend_run clearColumnFamily_run allColumnFamilies
    (show b.Holds () b.tables from ⟨h, rfl⟩)
  refine ⟨b', hrun, hb', ht.trans (funext fun cf => ?_)⟩
  rw [hclear, if_pos (mem_allColumnFamilies cf)]
  rfl

/-! ## Writing in batches -/

theorem flushWhenFull_run {b : Backend} {batch : WriteBatch} {t : Tables} (h : b.Pends batch t) :
    ∃ b' batch', flushWhenFull b batch = (b', .ok batch') ∧ b'.Pends batch' t := by
  obtain ⟨hb, rfl⟩ := h
  unfold flushWhenFull
  split
  · rw [Backend.batchWrite_of_healthy hb]
    exact ⟨_, _, rfl, hb, rfl⟩
  · exact ⟨_, _, rfl, hb, rfl⟩

theorem stage_run {α : Type} {stage : WriteBatch → α → WriteBatch}
    (hstage : ∀ batch a, (stage batch a).ops = batch.ops ++ (stage .new a).ops) (b : Backend)
    (batch : WriteBatch) (t : Tables) (a : α) (h : b.Pends batch t) :
    ∃ b' batch', flushWhenFull b (stage batch a) = (b', .ok batch') ∧
      b'.Pends batch' (t.applyOps (stage .new a).ops) := by
  obtain ⟨hb, rfl⟩ := h
  refine flushWhenFull_run ⟨hb, ?_⟩
  rw [hstage, Tables.applyOps_append]

/-- A fold of groups of operations is the application of the staged batch. -/
theorem foldl_applyOps_stage {α : Type} {stage : WriteBatch → α → WriteBatch}
    (hstage : ∀ batch a, (stage batch a).ops = batch.ops ++ (stage .new a).ops) :
    ∀ (l : List α) (t : Tables),
    l.foldl (fun t a => t.applyOps (stage .new a).ops) t = t.applyOps (l.foldl stage .new).ops
  | [], _ => rfl
  | a :: l, t => by
    rw [applyOps_stageAll hstage, List.foldl_cons, foldl_applyOps_stage hstage l]

variable [Chia]

/-! ## The rewrite -/

namespace CoinStoreSnapshot

variable (snapshot : CoinStoreSnapshot)

/-- The records of a snapshot, in key order. -/
def records : List CoinRecord := snapshot.coins.toList.map (·.2)

/-- The coin set of a snapshot. -/
def coinset : Coinset := fun id => snapshot.coins[id]?

/-- Every record stands under its own id. -/
def KeysMatch : Prop := ∀ id rec, snapshot.coinset id = some rec → rec.coinId = id

end CoinStoreSnapshot

/-- The rows `restore` writes for one hint. -/
def stageSnapshotHint (batch : WriteBatch) (hint : CoinId × Bytes32) : WriteBatch :=
  (batch.put .hints (coinHintKey hint.1 hint.2) []).put .hintsByValue (hintCoinKey hint.2 hint.1) []

/-- **The tables of a snapshot.** -/
def snapshotTables (snapshot : CoinStoreSnapshot) : Tables :=
  (((Tables.empty.applyOps (snapshot.records.foldl stageCreation .new).ops).applyOps
    (snapshot.hints.foldl stageSnapshotHint .new).ops).put .metadata metaInitialized [1]).applyOps
      (stageTip .new snapshot.height snapshot.blockHash snapshot.timestamp).ops

omit [Chia] in
theorem ops_stageSnapshotHint (batch : WriteBatch) (hint : CoinId × Bytes32) :
    (stageSnapshotHint batch hint).ops = batch.ops ++ (stageSnapshotHint .new hint).ops := by
  simp [stageSnapshotHint]

theorem ops_restoreRow (batch : WriteBatch) (row : CoinRecord × Bytes) :
    (appendCoinRecordToBatch batch row.1 row.2).ops =
      batch.ops ++ (appendCoinRecordToBatch .new row.1 row.2).ops := by
  cases h : row.1.spentHeight <;> simp [appendCoinRecordToBatch, h]

theorem restoreRow_run (b : Backend) (batch : WriteBatch) (t : Tables) (row : CoinRecord × Bytes)
    (h : b.Pends batch t) : ∃ b' batch', restoreRow b batch row = (b', .ok batch') ∧
      b'.Pends batch' (t.applyOps (appendCoinRecordToBatch .new row.1 row.2).ops) :=
  stage_run ops_restoreRow b batch t row h

omit [Chia] in
theorem restoreHint_run (b : Backend) (batch : WriteBatch) (t : Tables) (hint : CoinId × Bytes32)
    (h : b.Pends batch t) : ∃ b' batch', restoreHint b batch hint = (b', .ok batch') ∧
      b'.Pends batch' (t.applyOps (stageSnapshotHint .new hint).ops) :=
  stage_run ops_stageSnapshotHint b batch t hint h

namespace CoinStore

/-- **The rewrite** ends with the tables of the snapshot. -/
theorem rewriteBackend_eq {b : Backend} (h : b.Healthy) (snapshot : CoinStoreSnapshot) :
    ∃ b', rewriteBackend b snapshot = (b', .ok ()) ∧ b'.Healthy ∧ b'.tables = snapshotTables snapshot := by
  obtain ⟨b₁, hclear, hb₁, ht₁⟩ := clearAll_run h
  obtain ⟨b₂, batch₂, hrows, hp₂⟩ := forBackend_run restoreRow_run
    (snapshot.coins.toList.map fun kv => (kv.2, serializeCoinRecordStorageBytes kv.2))
    (show b₁.Pends .new Tables.empty from ⟨hb₁, ht₁⟩)
  obtain ⟨b₃, batch₃, hhints, hb₃, ht₃⟩ := forBackend_run restoreHint_run snapshot.hints hp₂
  have hrecords : (snapshot.coins.toList.map fun kv => (kv.2, serializeCoinRecordStorageBytes kv.2)).foldl
      (fun t row => t.applyOps (appendCoinRecordToBatch .new row.1 row.2).ops) Tables.empty =
        Tables.empty.applyOps (snapshot.records.foldl stageCreation .new).ops := by
    rw [CoinStoreSnapshot.records, ← foldl_applyOps_stage ops_stageCreation, List.foldl_map,
      List.foldl_map]
    rfl
  rw [hrecords, foldl_applyOps_stage ops_stageSnapshotHint] at ht₃
  have hne : (stageTip (batch₃.put .metadata metaInitialized [1]) snapshot.height snapshot.blockHash
      snapshot.timestamp).isEmpty = false := by
    simp [WriteBatch.isEmpty, stageTip]
  refine ⟨{ b₃ with tables := snapshotTables snapshot }, ?_, hb₃, rfl⟩
  simp only [rewriteBackend, hclear, hrows, hhints, hne, Bool.false_eq_true, if_false,
    Backend.batchWrite_of_healthy hb₃, orStorage_ok]
  rw [snapshotTables, ← ht₃, ops_stageTip, WriteBatch.ops_put, Tables.applyOps_append,
    Tables.applyOps_append]
  rfl

/-! ## The checks -/

/-- A snapshot without a key mismatch has a tree. -/
theorem buildSnapshotTree_spec {snapshot : CoinStoreSnapshot} (hkeys : snapshot.KeysMatch) :
    ∃ tree, buildSnapshotTree snapshot.coins = .ok tree ∧ TreeOf tree snapshot.coinset := by
  have hentries : (snapshot.coins.toList.map fun kv => merkleEntry kv.2) =
      snapshot.coins.toList.map fun kv => (kv.1, leafHash kv.2) := by
    refine List.map_congr_left fun kv hkv => ?_
    rw [merkleEntry, hkeys kv.1 kv.2 (OrdMap.mem_toList.1 hkv), leafHash]
  have hnew : ∀ e ∈ snapshot.coins.toList.map fun kv => (kv.1, leafHash kv.2),
      SparseMerkleTree.new.leaves[e.1]? = none := fun _ _ => Std.ExtTreeMap.getElem?_empty
  have hins := SparseMerkleTree.batchInsert_eq_ok.2 ⟨hnew, rfl⟩
  obtain ⟨_, hleaves, hcoh⟩ := SparseMerkleTree.batchInsert_spec SparseMerkleTree.coherent_new hins
  refine ⟨_, ?_, hcoh, fun id => ?_⟩
  · rw [buildSnapshotTree, hentries, SparseMerkleTree.insert_guard, hins, orMerkle_ok]
  · rw [hleaves]
    exact OrdMap.getElem?_insertAll_graph (OrdMap.nodup_keys _) (fun _ _ => OrdMap.mem_toList) leafHash
      id

/-- **The checks** of `restore`. -/
theorem checkSnapshot_eq_ok {snapshot : CoinStoreSnapshot} {tree : SparseMerkleTree} :
    checkSnapshot snapshot = .ok tree ↔ snapshot.totalCoins = UInt64.ofNat snapshot.coins.size ∧
      unspentValue snapshot.coins = .ok snapshot.totalValue ∧ snapshot.KeysMatch ∧
      ∃ built, buildSnapshotTree snapshot.coins = .ok built ∧ built.root.1 = snapshot.stateRoot ∧
        built.root.2 = tree := by
  have hfind : (snapshot.coins.toList.find? fun kv => kv.1 != kv.2.coinId) = none ↔
      snapshot.KeysMatch := by
    rw [List.find?_eq_none]
    constructor
    · intro h id rec hm
      have heq : id = rec.coinId := by simpa using h (id, rec) (OrdMap.mem_toList.2 hm)
      exact heq.symm
    · intro h kv hkv
      have heq : kv.2.coinId = kv.1 := h _ _ (OrdMap.mem_toList.1 hkv)
      simp [heq]
  unfold checkSnapshot
  simp only [Res.check_eq_ok, not_ne_iff, Res.bind_eq_ok]
  refine and_congr_right fun _ => ?_
  constructor
  · rintro ⟨value, hvalue, rfl, hrest⟩
    split at hrest
    · cases hrest
    · next hnone =>
      obtain ⟨built, hbuilt, hcheck⟩ := Res.bind_eq_ok.1 hrest
      obtain ⟨hroot, htree⟩ := Res.check_eq_ok.1 hcheck
      exact ⟨hvalue, hfind.1 hnone, built, hbuilt, not_ne_iff.1 hroot, Except.ok.inj htree⟩
  · rintro ⟨hvalue, hkeys, built, hbuilt, hroot, rfl⟩
    refine ⟨_, hvalue, rfl, ?_⟩
    rw [hfind.2 hkeys]
    simp only [hbuilt, Res.ok_bind]
    exact Res.check_eq_ok.2 ⟨not_ne_iff.2 hroot, rfl⟩

/-! ## Snapshot, then restore -/

end CoinStore

/-- The scan of a snapshot collects the coin set. -/
theorem Backend.CoinRows.scanCoins_get {b : Backend} {m : Coinset} (h : b.CoinRows m) (id : CoinId) :
    (CoinStore.scanCoins (b.tables .coinRecords).toList)[id]? = m id := by
  obtain ⟨l, hscan, hnodup, hl⟩ := h.records
  have hlist : (b.tables .coinRecords).toList =
      l.map fun x => (coinKey x.1, serializeCoinRecordStorageBytes x.2) := by
    rw [Backend.prefixScan_all h.healthy] at hscan
    exact Except.ok.inj hscan
  have hrows : CoinStore.scanCoins (l.map fun x => (coinKey x.1, serializeCoinRecordStorageBytes x.2)) =
      l.foldl (fun (coins : IdMap CoinRecord) x => coins.insert x.2.coinId x.2) ∅ :=
    h.foldl_rows (fun (coins : IdMap CoinRecord) rec => coins.insert rec.coinId rec) l ∅
      fun x hx => (hl _ _).1 hx
  have hids : l.foldl (fun (coins : IdMap CoinRecord) x => coins.insert x.2.coinId x.2) ∅ =
      OrdMap.insertAll ∅ (l.map fun x => (x.1, x.2)) := by
    rw [List.map_id'']
    · exact List.foldl_ext _ _ _ fun coins x hx => by rw [h.ids ((hl x.1 x.2).1 hx)]
    · exact fun _ => rfl
  rw [hlist, hrows, hids, OrdMap.getElem?_insertAll_graph hnodup hl (fun rec => rec) id,
    Option.map_id']

namespace CoinStore

variable {S : Scope} {s source : CoinStore} {m : Coinset} {snap : CoinStoreSnapshot}

/-- **What a snapshot holds.** -/
theorem Represents.snapshot_eq_ok (h : s.Represents S m) (hsnap : s.snapshot = .ok snap) :
    s.initialized = true ∧ snap.coinset = m ∧ snap.height = s.height ∧ snap.blockHash = s.tipHash ∧
      snap.timestamp = s.timestamp ∧ snap.stateRoot = s.merkleTree.fullRoot ∧ snap.hints = [] ∧
      snap.totalCoins = UInt64.ofNat snap.coins.size ∧
      unspentValue snap.coins = .ok snap.totalValue := by
  have hscan : s.backend.prefixScan .coinRecords [] = .ok (s.backend.tables .coinRecords).toList :=
    Backend.prefixScan_all h.healthy _
  obtain ⟨hinit, hrest⟩ := Res.check_eq_ok.1 hsnap
  rw [hscan, orStorageWith_ok, Res.ok_bind] at hrest
  obtain ⟨value, hvalue, heq⟩ := Res.bind_eq_ok.1 hrest
  obtain rfl := Except.ok.inj heq
  exact ⟨by simpa using hinit, funext h.coinRows.scanCoins_get, rfl, rfl, rfl,
    SparseMerkleTree.rootObserved_eq h.coherent, rfl, rfl, hvalue⟩

theorem mem_records (hkeys : snap.KeysMatch) {rec : CoinRecord} :
    rec ∈ snap.records ↔ snap.coinset rec.coinId = some rec := by
  rw [CoinStoreSnapshot.records, List.mem_map]
  constructor
  · rintro ⟨⟨id, rec⟩, hmem, rfl⟩
    have hm : snap.coinset id = some rec := OrdMap.mem_toList.1 hmem
    simp only [hkeys id rec hm, hm]
  · exact fun hm => ⟨(rec.coinId, rec), OrdMap.mem_toList.2 hm, rfl⟩

theorem putAll_records (hkeys : snap.KeysMatch) :
    Coinset.putAll .empty snap.records = snap.coinset := by
  funext id
  by_cases hid : id ∈ snap.records.map CoinRecord.coinId
  · obtain ⟨rec, hrec, rfl, hput⟩ := Coinset.putAll_of_mem _ .empty hid
    rw [hput, (mem_records hkeys).1 hrec]
  · rw [Coinset.putAll_of_not_mem _ _ hid]
    refine (Option.eq_none_iff_forall_ne_some.2 fun rec hm => hid ?_).symm
    have hcoin := hkeys id rec hm
    exact List.mem_map.2 ⟨rec, (mem_records hkeys).2 (hcoin ▸ hm), hcoin⟩

theorem indexes_snapshotTables (S : Scope) (hkeys : snap.KeysMatch)
    (hcoins : ∀ {id rec}, snap.coinset id = some rec → rec.coin ∈ S.coins) :
    Indexes S.cfs (snapshotTables snap) snap.coinset := by
  have hmem : ∀ rec ∈ snap.records, rec.coin ∈ S.coins := fun rec hrec =>
    hcoins ((mem_records hkeys).1 hrec)
  have hrows := Indexes.createAll (S := S) snap.records
    (.blank fun _ _ _ => Std.ExtTreeMap.getElem?_empty : Indexes S.cfs Tables.empty .empty) hmem
    (fun _ _ _ hold => nomatch hold) fun rec hrec rec' hrec' hid => by
      have hm := (mem_records hkeys).1 hrec
      rw [hid, (mem_records hkeys).1 hrec'] at hm
      obtain rfl := Option.some.inj hm
      exact ⟨hmem _ hrec, rfl, rfl, rfl⟩
  rw [putAll_records hkeys] at hrows
  refine hrows.congr fun cf hcf => ?_
  have hne := S.ne_metadata hcf
  obtain ⟨hh, hv, _⟩ := ne_of_mem_coinFamilies (S.sub_coin cf hcf)
  rw [snapshotTables, stageTip_other _ hne, Tables.put, Function.update_of_ne hne]
  refine applyOps_stageAll_other ops_stageSnapshotHint (fun hint => ?_) _ _
  simp [stageSnapshotHint, Tables.opCf, hh, hv]

/-! ## The restored store -/

/-- The store after a restore that passed the checks with `tree`. -/
def restored (s : CoinStore) (snap : CoinStoreSnapshot) (tree : SparseMerkleTree)
    (backend : Backend) : CoinStore where
  config := s.config
  backend := backend
  merkleTree := tree
  height := snap.height
  tipHash := snap.blockHash
  timestamp := snap.timestamp
  initialized := true
  unspentIds :=
    ((snap.coins.toList.filter fun kv => kv.2.spentHeight.isNone).map (·.2.coinId)).toFinset

/-- A snapshot that passes the checks is restored, whatever was in the backend before. -/
theorem restore_of_check {tree : SparseMerkleTree} (hcheck : checkSnapshot snap = .ok tree)
    (hs : s.backend.Healthy) : ∃ backend, s.restore snap = (s.restored snap tree backend, .ok ()) ∧
      backend.Healthy ∧ backend.tables = snapshotTables snap := by
  obtain ⟨backend, hrewrite, hbackend, htables⟩ := rewriteBackend_eq hs snap
  refine ⟨backend, ?_, hbackend, htables⟩
  simp only [restore, hcheck, hrewrite, restored]

/-- A restore that succeeds passed the checks. -/
theorem check_of_restore (h : (s.restore snap).2 = .ok ()) : ∃ tree, checkSnapshot snap = .ok tree := by
  unfold restore at h
  cases hcheck : checkSnapshot snap with
  | ok tree => exact ⟨tree, rfl⟩
  | error e =>
    rw [hcheck] at h
    cases h

theorem restored_unspentIds {tree : SparseMerkleTree} {backend : Backend} (hkeys : snap.KeysMatch)
    (id : CoinId) : id ∈ (s.restored snap tree backend).unspentIds ↔
      ∃ rec, snap.coinset id = some rec ∧ rec.spentHeight = none := by
  rw [restored, List.mem_toFinset, List.mem_map]
  constructor
  · rintro ⟨⟨id', rec⟩, hmem, rfl⟩
    obtain ⟨hmem, hlive⟩ := List.mem_filter.1 hmem
    have hm : snap.coinset id' = some rec := OrdMap.mem_toList.1 hmem
    exact ⟨rec, by rw [hkeys id' rec hm, hm], by simpa using hlive⟩
  · rintro ⟨rec, hm, hlive⟩
    exact ⟨(id, rec), List.mem_filter.2 ⟨OrdMap.mem_toList.2 hm, by simp [hlive]⟩, hkeys id rec hm⟩

theorem restored_tipStored {tree : SparseMerkleTree} {backend : Backend}
    (htables : backend.tables = snapshotTables snap) : (s.restored snap tree backend).TipStored := by
  refine tipStored_stageTip (t := ((Tables.empty.applyOps
    (snap.records.foldl stageCreation .new).ops).applyOps
      (snap.hints.foldl stageSnapshotHint .new).ops).put .metadata metaInitialized [1]) htables ?_
  simp [Tables.put_get, restored]

/-- **Restoring a snapshot of a store** gives a store of its coin set, with its tip, whatever was
in the backend before. -/
theorem Represents.restore_spec (h : source.Represents S m) (hsnap : source.snapshot = .ok snap)
    (hs : s.backend.Healthy) : ∃ s', s.restore snap = (s', .ok ()) ∧ s'.Represents S m ∧
      s'.UnspentExact m ∧ source.SameTip s' := by
  obtain ⟨hinit, rfl, hheight, hhash, htime, hroot, _, htotal, hvalue⟩ := h.snapshot_eq_ok hsnap
  have hkeys : snap.KeysMatch := fun _ _ hm => h.ids hm
  obtain ⟨built, hbuilt, htree⟩ := buildSnapshotTree_spec hkeys
  have hcheck : checkSnapshot snap = .ok built.root.2 :=
    checkSnapshot_eq_ok.2 ⟨htotal, hvalue, hkeys, built, hbuilt, by
      rw [SparseMerkleTree.root_fst htree.1, hroot]
      exact htree.fullRoot_eq h.treeOf, rfl⟩
  obtain ⟨backend, hrestore, hbackend, htables⟩ := restore_of_check hcheck hs
  refine ⟨_, hrestore, ?_, restored_unspentIds hkeys, hinit.symm, hheight, hhash, htime⟩
  exact {
    healthy := hbackend
    rows := by
      rw [restored, htables]
      exact indexes_snapshotTables S hkeys h.coins
    leaves := fun id => by
      simp only [restored, SparseMerkleTree.root_leaves]
      exact htree.2 id
    coherent := SparseMerkleTree.root_coherent htree.1
    tip := restored_tipStored htables
    ids := h.ids
    coins := h.coins
    lives := by
      rw [restored, hheight]
      exact h.lives
    filled := by
      rw [restored, hheight]
      exact h.filled
    blank := fun hb => by cases hb }

theorem snapshot_hints {s : CoinStore} {snap : CoinStoreSnapshot} (hsnap : s.snapshot = .ok snap) :
    snap.hints = [] := by
  obtain ⟨_, hrest⟩ := Res.check_eq_ok.1 hsnap
  obtain ⟨_, _, hrest⟩ := Res.bind_eq_ok.1 hrest
  obtain ⟨_, _, hrest⟩ := Res.bind_eq_ok.1 hrest
  rw [← Except.ok.inj hrest]

end CoinStore

end DigCoinstore
