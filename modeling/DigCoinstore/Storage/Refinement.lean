import DigCoinstore.Storage.Engines

/-!
# Both engines refine the twelve tables

`Holds b t` says that an engine's rows are those of the tables `t`: for RocksDB each family has its
own map, for LMDB each is held in its database under its tag. Every write keeps it and every read
answers from the tables, so no read tells the engines apart, and either of them is the `Backend`
that the store runs on (`LmdbBackend.Holds.backend`, `RocksDbBackend.Holds.backend`). A family that
is none of the twelve is unknown to LMDB, but RocksDB also takes the names it opens of its own accord
(`engines_agree_iff`).
-/

namespace DigCoinstore

namespace ColumnFamily

theorem ofName_name (cf : ColumnFamily) : ofName cf.name = some cf := by
  cases cf <;> decide

theorem name_inj {cf cf' : ColumnFamily} (h : cf.name = cf'.name) : cf = cf' := by
  have hsome := ofName_name cf
  rw [h, ofName_name] at hsome
  exact (Option.some.inj hsome).symm

theorem ofName_eq_none {name : String} (h : ∀ cf : ColumnFamily, cf.name ≠ name) :
    ofName name = none := List.find?_eq_none.2 fun cf _ => by simpa using h cf

/-- Families that share a database have different tags. -/
theorem route_inj : ∀ cf ∈ allColumnFamilies, ∀ cf' ∈ allColumnFamilies,
    cf.route.1 = cf'.route.1 → cf ≠ cf' →
      cf.route.2.isSome ∧ cf'.route.2.isSome ∧ cf.route.2 ≠ cf'.route.2 := by
  decide

/-- No key of one of them is a key of the other. -/
theorem apart {cf cf' : ColumnFamily} (hdb : cf.route.1 = cf'.route.1) (hne : cf ≠ cf') :
    PrefixScan.Apart cf.route.2.toList cf'.route.2.toList := by
  obtain ⟨htag, htag', hdiff⟩ :=
    route_inj cf (mem_allColumnFamilies cf) cf' (mem_allColumnFamilies cf') hdb hne
  obtain ⟨t, ht⟩ := Option.isSome_iff_exists.1 htag
  obtain ⟨t', ht'⟩ := Option.isSome_iff_exists.1 htag'
  rw [ht, ht'] at hdiff ⊢
  intro k k' heq
  exact hdiff (congrArg some (List.cons.inj heq).1)

end ColumnFamily

theorem logicalCfRoute_name (cf : ColumnFamily) : logicalCfRoute cf.name = .ok cf.route := by
  rw [logicalCfRoute, ColumnFamily.ofName_name]

theorem encodeStorageKey_eq (tag : Option UInt8) (key : Bytes) :
    encodeStorageKey tag key = tag.toList ++ key := by
  cases tag <;> rfl

/-! ## RocksDB -/

namespace RocksDbBackend

/-- **The rows are those of the tables.** -/
def Holds (b : RocksDbBackend) (t : Tables) : Prop :=
  ∀ cf : ColumnFamily, cf.name ∈ b.cfs ∧ b.rows cf.name = t cf

theorem holds_open (implicit : List String) : («open» implicit).Holds Tables.empty := fun cf =>
  ⟨List.mem_append_left _ (List.mem_map_of_mem (mem_allColumnFamilies cf)), rfl⟩

variable {b : RocksDbBackend} {t : Tables}

theorem Holds.cfHandle (h : b.Holds t) (cf : ColumnFamily) : b.cfHandle cf.name = .ok cf.name :=
  if_pos (h cf).1

/-- One operation on a handle. -/
theorem Holds.apply (h : b.Holds t) (op : WriteOp) : (b.apply op.named).Holds (t.applyOp op) := by
  intro cf
  refine ⟨(h cf).1, ?_⟩
  have hrows : ∀ (cf' : ColumnFamily) (db : Table),
      Function.update b.rows cf'.name db cf.name = Function.update t cf' db cf := fun cf' db => by
    by_cases heq : cf = cf'
    · subst heq
      rw [Function.update_self, Function.update_self]
    · rw [Function.update_of_ne fun hname => heq (ColumnFamily.name_inj hname),
        Function.update_of_ne heq, (h cf).2]
  cases op with
  | put cf' key value =>
    refine (hrows cf' _).trans ?_
    show Function.update t cf' ((b.rows cf'.name).insert key value) cf = _
    rw [(h cf').2]
    rfl
  | delete cf' key =>
    refine (hrows cf' _).trans ?_
    show Function.update t cf' ((b.rows cf'.name).erase key) cf = _
    rw [(h cf').2]
    rfl

theorem Holds.applyAll : ∀ {ops : List WriteOp} {b : RocksDbBackend} {t : Tables}, b.Holds t →
    ((ops.map WriteOp.named).foldl RocksDbBackend.apply b).Holds (t.applyOps ops)
  | [], _, _, h => h
  | op :: _, _, _, h => (h.apply op).applyAll

theorem nativeOp_of_mem {op : NamedOp} (h : op.cf ∈ b.cfs) : b.nativeOp op = .ok op := by
  cases op with
  | put cf key value => rw [nativeOp, show b.cfHandle cf = .ok cf from if_pos h]; rfl
  | delete cf key => rw [nativeOp, show b.cfHandle cf = .ok cf from if_pos h]; rfl

/-- A batch on families that are open. -/
theorem nativeOps_of_mem : ∀ {ops : List NamedOp}, (∀ op ∈ ops, op.cf ∈ b.cfs) →
    ops.mapM b.nativeOp = .ok ops
  | [], _ => rfl
  | op :: ops, h => by
    rw [List.mapM_cons, nativeOp_of_mem (h op (.head _)),
      nativeOps_of_mem fun op' hop => h op' (.tail _ hop)]
    rfl

theorem Holds.nativeOps (h : b.Holds t) (ops : List WriteOp) :
    (ops.map WriteOp.named).mapM b.nativeOp = .ok (ops.map WriteOp.named) := by
  refine nativeOps_of_mem fun op hop => ?_
  obtain ⟨op', _, rfl⟩ := List.mem_map.1 hop
  cases op' with
  | put cf key value => exact (h cf).1
  | delete cf key => exact (h cf).1

theorem Holds.get (h : b.Holds t) (cf : ColumnFamily) (key : Bytes) :
    b.get cf.name key = .ok (t cf)[key]? := by
  rw [RocksDbBackend.get, h.cfHandle cf, ← (h cf).2]
  rfl

theorem Holds.prefixScan (h : b.Holds t) (cf : ColumnFamily) (pre : Bytes) :
    b.prefixScan cf.name pre = .ok (PrefixScan.scan (t cf) pre) := by
  rw [RocksDbBackend.prefixScan, h.cfHandle cf, ← (h cf).2]
  rfl

/-- **A batch that names a family RocksDB does not have** changes nothing. -/
theorem batchWrite_unknown (b : RocksDbBackend) {batch : List NamedOp} {op : NamedOp}
    (hop : op ∈ batch) (hcf : op.cf ∉ b.cfs) : (b.batchWrite batch).1 = b := by
  have hnative : ∀ {ops : List NamedOp}, op ∈ ops → ∃ e, ops.mapM b.nativeOp = .error e := by
    intro ops hmem
    induction ops with
    | nil => cases hmem
    | cons op' ops ih =>
      rw [List.mapM_cons]
      rcases List.mem_cons.1 hmem with rfl | hrest
      · have hhandle : b.cfHandle op.cf = .error (.unknownColumnFamily op.cf) := if_neg hcf
        cases op with
        | put cf key value =>
          exact ⟨_, by rw [RocksDbBackend.nativeOp, show b.cfHandle cf = _ from hhandle]; rfl⟩
        | delete cf key =>
          exact ⟨_, by rw [RocksDbBackend.nativeOp, show b.cfHandle cf = _ from hhandle]; rfl⟩
      · obtain ⟨e, he⟩ := ih hrest
        cases hop' : b.nativeOp op' with
        | error e' => exact ⟨e', rfl⟩
        | ok native => exact ⟨e, by rw [he]; rfl⟩
  obtain ⟨e, he⟩ := hnative hop
  have hne : batch.isEmpty = false := List.isEmpty_eq_false_iff.2 (List.ne_nil_of_mem hop)
  rw [batchWrite, hne, he]
  rfl

end RocksDbBackend

/-! ## LMDB -/

namespace LmdbBackend

/-- **The rows are those of the tables**, each in its database under its tag. -/
def Holds (b : LmdbBackend) (t : Tables) : Prop :=
  ∀ cf : ColumnFamily, ∃ db, b.dbs[cf.route.1]? = some db ∧
    PrefixScan.Holds cf.route.2.toList db (t cf)

theorem holds_open : «open».Holds Tables.empty := fun cf => by
  refine ⟨∅, ?_, PrefixScan.Holds.empty _⟩
  cases cf <;> rfl

variable {b : LmdbBackend} {t : Tables}

/-- A database is written through the keys of one family. -/
theorem Holds.set (h : b.Holds t) {cf : ColumnFamily} {db db' : Table} {table : Table}
    (hdb : b.dbs[cf.route.1]? = some db) (hself : PrefixScan.Holds cf.route.2.toList db' table)
    (hother : ∀ {tag m}, PrefixScan.Apart cf.route.2.toList tag → PrefixScan.Holds tag db m →
      PrefixScan.Holds tag db' m) :
    LmdbBackend.Holds { dbs := b.dbs.set cf.route.1 db' } (Function.update t cf table) := by
  intro cf'
  obtain ⟨hlt, _⟩ := List.getElem?_eq_some_iff.1 hdb
  by_cases heq : cf' = cf
  · subst heq
    refine ⟨db', List.getElem?_set_self hlt, ?_⟩
    rwa [Function.update_self]
  · rw [Function.update_of_ne heq]
    obtain ⟨db₀, hdb₀, hheld⟩ := h cf'
    by_cases hroute : cf.route.1 = cf'.route.1
    · rw [← hroute, hdb, Option.some.injEq] at hdb₀
      subst hdb₀
      refine ⟨db', ?_, hother (ColumnFamily.apart hroute (Ne.symm heq)) hheld⟩
      rw [← hroute, List.getElem?_set_self hlt]
    · exact ⟨db₀, by rw [List.getElem?_set_ne hroute, hdb₀], hheld⟩

/-- The database and the tag of a family. -/
theorem routed {cf : ColumnFamily} {db : Table} (hdb : b.dbs[cf.route.1]? = some db) {β : Type}
    (f : Nat → Option UInt8 → Table → Except StorageError β) :
    (do
      let (dbi, tag) ← logicalCfRoute cf.name
      let db ← b.db dbi
      f dbi tag db) = f cf.route.1 cf.route.2 db := by
  have hok : b.db cf.route.1 = .ok db := by rw [LmdbBackend.db, hdb]
  rw [logicalCfRoute_name]
  show (b.db cf.route.1 >>= fun db => f cf.route.1 cf.route.2 db) = _
  rw [hok]
  rfl

/-- One operation inside a transaction. -/
theorem Holds.txnOp (h : b.Holds t) (op : WriteOp) :
    ∃ b', b.txnOp op.named = .ok b' ∧ b'.Holds (t.applyOp op) := by
  cases op with
  | put cf key value =>
    obtain ⟨db, hdb, hheld⟩ := h cf
    refine ⟨{ dbs := b.dbs.set cf.route.1 (db.insert (cf.route.2.toList ++ key) value) }, ?_,
      h.set hdb (hheld.insert key value) fun hapart hm => hm.insert_apart hapart key value⟩
    rw [← encodeStorageKey_eq]
    exact routed (β := LmdbBackend) hdb fun dbi tag db =>
      .ok { dbs := b.dbs.set dbi (db.insert (encodeStorageKey tag key) value) }
  | delete cf key =>
    obtain ⟨db, hdb, hheld⟩ := h cf
    refine ⟨{ dbs := b.dbs.set cf.route.1 (db.erase (cf.route.2.toList ++ key)) }, ?_,
      h.set hdb (hheld.erase key) fun hapart hm => hm.erase_apart hapart key⟩
    rw [← encodeStorageKey_eq]
    exact routed (β := LmdbBackend) hdb fun dbi tag db =>
      .ok { dbs := b.dbs.set dbi (db.erase (encodeStorageKey tag key)) }

theorem Holds.txnOps : ∀ (ops : List WriteOp) {b : LmdbBackend} {t : Tables}, b.Holds t →
    ∃ b', (ops.map WriteOp.named).foldlM LmdbBackend.txnOp b = .ok b' ∧ b'.Holds (t.applyOps ops)
  | [], b, _, h => ⟨b, rfl, h⟩
  | op :: ops, b, t, h => by
    obtain ⟨b₁, hop, h₁⟩ := h.txnOp op
    obtain ⟨b', hops, h'⟩ := Holds.txnOps ops h₁
    refine ⟨b', ?_, h'⟩
    rw [List.map_cons, List.foldlM_cons, hop]
    exact hops

theorem Holds.get (h : b.Holds t) (cf : ColumnFamily) (key : Bytes) :
    b.get cf.name key = .ok (t cf)[key]? := by
  obtain ⟨db, hdb, hheld⟩ := h cf
  rw [← hheld key, ← encodeStorageKey_eq]
  exact routed hdb fun _ tag db => .ok db[encodeStorageKey tag key]?

/-- A scan of the database under the tag is a scan of the table. -/
theorem scanDb_eq {tag : Option UInt8} {db table : Table} (h : PrefixScan.Holds tag.toList db table)
    (pre : Bytes) : scanDb db tag pre = PrefixScan.scan table pre := by
  rw [← h.scan_eq pre]
  cases tag with
  | some t => rfl
  | none =>
    have huntagged : (PrefixScan.scan db pre).map (fun kv => (kv.1.drop 0, kv.2)) =
        PrefixScan.scan db pre := List.map_id' _
    refine Eq.trans ?_ huntagged.symm
    cases pre with
    | nil =>
      show db.toList = PrefixScan.scan db []
      rw [PrefixScan.scan_eq_filter]
      exact (List.filter_eq_self.2 fun kv _ => rfl).symm
    | cons byte pre => rfl

theorem Holds.prefixScan (h : b.Holds t) (cf : ColumnFamily) (pre : Bytes) :
    b.prefixScan cf.name pre = .ok (PrefixScan.scan (t cf) pre) := by
  obtain ⟨db, hdb, hheld⟩ := h cf
  rw [← scanDb_eq hheld pre]
  exact routed hdb fun _ tag db => .ok (scanDb db tag pre)

/-- **A batch that names a family LMDB does not route** changes nothing. -/
theorem batchWrite_unknown (b : LmdbBackend) {batch : List NamedOp} {op : NamedOp} (hop : op ∈ batch)
    (hcf : ∀ cf : ColumnFamily, cf.name ≠ op.cf) : (b.batchWrite batch).1 = b := by
  have htxn : ∀ {ops : List NamedOp} {b : LmdbBackend}, op ∈ ops →
      ∃ e, ops.foldlM LmdbBackend.txnOp b = .error e := by
    intro ops b hmem
    induction ops generalizing b with
    | nil => cases hmem
    | cons op' ops ih =>
      rw [List.foldlM_cons]
      rcases List.mem_cons.1 hmem with rfl | hrest
      · have hroute : logicalCfRoute op.cf = .error (.unknownColumnFamily op.cf) := by
          rw [logicalCfRoute, ColumnFamily.ofName_eq_none hcf]
        cases op with
        | put cf key value =>
          exact ⟨_, by rw [LmdbBackend.txnOp, show logicalCfRoute cf = _ from hroute]; rfl⟩
        | delete cf key =>
          exact ⟨_, by rw [LmdbBackend.txnOp, show logicalCfRoute cf = _ from hroute]; rfl⟩
      · cases hop' : b.txnOp op' with
        | error e' => exact ⟨e', rfl⟩
        | ok b' =>
          obtain ⟨e, he⟩ := ih (b := b') hrest
          exact ⟨e, he⟩
  obtain ⟨e, he⟩ := htxn (b := b) hop
  have hne : batch.isEmpty = false := List.isEmpty_eq_false_iff.2 (List.ne_nil_of_mem hop)
  rw [batchWrite, hne, he]
  rfl

end LmdbBackend

/-! ## Runs of writes -/

/-- A write on the twelve column families. -/
inductive KvCall where
  | put (cf : ColumnFamily) (key value : Bytes)
  | delete (cf : ColumnFamily) (key : Bytes)
  | batchWrite (batch : WriteBatch)

/-- What a write does to the tables. -/
def Tables.call (t : Tables) : KvCall → Tables
  | .put cf key value => t.put cf key value
  | .delete cf key => t.delete cf key
  | .batchWrite batch => t.applyOps batch.ops

def RocksDbBackend.call (b : RocksDbBackend) : KvCall → RocksDbBackend × Except StorageError Unit
  | .put cf key value => b.put cf.name key value
  | .delete cf key => b.delete cf.name key
  | .batchWrite batch => b.batchWrite (batch.ops.map WriteOp.named)

def LmdbBackend.call (b : LmdbBackend) : KvCall → LmdbBackend × Except StorageError Unit
  | .put cf key value => b.put cf.name key value
  | .delete cf key => b.delete cf.name key
  | .batchWrite batch => b.batchWrite (batch.ops.map WriteOp.named)

/-- **A write keeps the rows of RocksDB** those of the tables. -/
theorem RocksDbBackend.Holds.call {b : RocksDbBackend} {t : Tables} (h : b.Holds t) (c : KvCall) :
    (b.call c).2 = .ok () ∧ (b.call c).1.Holds (t.call c) := by
  cases c with
  | put cf key value =>
    rw [RocksDbBackend.call, RocksDbBackend.put, h.cfHandle cf]
    exact ⟨rfl, h.apply (.put cf key value)⟩
  | delete cf key =>
    rw [RocksDbBackend.call, RocksDbBackend.delete, h.cfHandle cf]
    exact ⟨rfl, h.apply (.delete cf key)⟩
  | batchWrite batch =>
    rw [RocksDbBackend.call, RocksDbBackend.batchWrite, h.nativeOps batch.ops]
    by_cases hempty : (batch.ops.map WriteOp.named).isEmpty = true
    · have hnil : batch.ops = [] := by simpa using hempty
      rw [if_pos hempty, Tables.call, hnil]
      exact ⟨rfl, h⟩
    · rw [if_neg hempty]
      exact ⟨rfl, h.applyAll⟩

/-- **A write keeps the rows of LMDB** those of the tables. -/
theorem LmdbBackend.Holds.call {b : LmdbBackend} {t : Tables} (h : b.Holds t) (c : KvCall) :
    (b.call c).2 = .ok () ∧ (b.call c).1.Holds (t.call c) := by
  cases c with
  | put cf key value =>
    obtain ⟨b', hop, h'⟩ := h.txnOp (.put cf key value)
    rw [LmdbBackend.call, LmdbBackend.put, show b.txnOp (.put cf.name key value) = .ok b' from hop]
    exact ⟨rfl, h'⟩
  | delete cf key =>
    obtain ⟨b', hop, h'⟩ := h.txnOp (.delete cf key)
    rw [LmdbBackend.call, LmdbBackend.delete, show b.txnOp (.delete cf.name key) = .ok b' from hop]
    exact ⟨rfl, h'⟩
  | batchWrite batch =>
    obtain ⟨b', hops, h'⟩ := LmdbBackend.Holds.txnOps batch.ops h
    rw [LmdbBackend.call, LmdbBackend.batchWrite, hops]
    by_cases hempty : (batch.ops.map WriteOp.named).isEmpty = true
    · have hnil : batch.ops = [] := by simpa using hempty
      rw [if_pos hempty, Tables.call, hnil]
      exact ⟨rfl, h⟩
    · rw [if_neg hempty]
      exact ⟨rfl, h'⟩

/-! ## The engines as backends -/

/-- A read of LMDB is a read of the backend with the same tables. -/
theorem LmdbBackend.Holds.backend {e : LmdbBackend} {b : Backend} (h : e.Holds b.tables)
    (hb : b.Healthy) (cf : ColumnFamily) : (∀ key, e.get cf.name key = b.get cf key) ∧
      ∀ pre, e.prefixScan cf.name pre = b.prefixScan cf pre := by
  refine ⟨fun key => ?_, fun pre => ?_⟩
  · rw [h.get, Backend.get_of_healthy hb]
  · rw [h.prefixScan, PrefixScan.scan_eq_filter, Backend.prefixScan_of_healthy hb]
    rfl

/-- A read of RocksDB is a read of the backend with the same tables. -/
theorem RocksDbBackend.Holds.backend {e : RocksDbBackend} {b : Backend} (h : e.Holds b.tables)
    (hb : b.Healthy) (cf : ColumnFamily) : (∀ key, e.get cf.name key = b.get cf key) ∧
      ∀ pre, e.prefixScan cf.name pre = b.prefixScan cf pre := by
  refine ⟨fun key => ?_, fun pre => ?_⟩
  · rw [h.get, Backend.get_of_healthy hb]
  · rw [h.prefixScan, PrefixScan.scan_eq_filter, Backend.prefixScan_of_healthy hb]
    rfl

/-! ## Runs -/

/-- The engine after the writes. -/
def RocksDbBackend.run (b : RocksDbBackend) (calls : List KvCall) : RocksDbBackend :=
  calls.foldl (fun b c => (b.call c).1) b

/-- The engine after the writes. -/
def LmdbBackend.run (b : LmdbBackend) (calls : List KvCall) : LmdbBackend :=
  calls.foldl (fun b c => (b.call c).1) b

theorem RocksDbBackend.Holds.run : ∀ (calls : List KvCall) {b : RocksDbBackend} {t : Tables},
    b.Holds t → (b.run calls).Holds (calls.foldl Tables.call t)
  | [], _, _, h => h
  | c :: calls, _, _, h => Holds.run calls (h.call c).2

theorem LmdbBackend.Holds.run : ∀ (calls : List KvCall) {b : LmdbBackend} {t : Tables},
    b.Holds t → (b.run calls).Holds (calls.foldl Tables.call t)
  | [], _, _, h => h
  | c :: calls, _, _, h => Holds.run calls (h.call c).2

namespace RocksDbBackend

theorem applyAll_cfs : ∀ (ops : List NamedOp) (b : RocksDbBackend), (ops.foldl apply b).cfs = b.cfs
  | [], _ => rfl
  | op :: ops, b => applyAll_cfs ops (b.apply op)

/-- No write opens or drops a family. -/
theorem call_cfs (b : RocksDbBackend) (c : KvCall) : (b.call c).1.cfs = b.cfs := by
  cases c with
  | put cf key value =>
    rw [call, put]
    cases b.cfHandle cf.name <;> rfl
  | delete cf key =>
    rw [call, delete]
    cases b.cfHandle cf.name <;> rfl
  | batchWrite batch =>
    rw [call, batchWrite]
    split
    · rfl
    · cases (batch.ops.map WriteOp.named).mapM b.nativeOp with
      | error e => rfl
      | ok rocksBatch => exact applyAll_cfs rocksBatch b

theorem run_cfs : ∀ (calls : List KvCall) (b : RocksDbBackend), (b.run calls).cfs = b.cfs
  | [], _ => rfl
  | c :: calls, b => (run_cfs calls (b.call c).1).trans (b.call_cfs c)

end RocksDbBackend

/-! ## Batches that name other families -/

namespace RocksDbBackend

variable {b : RocksDbBackend}

theorem apply_row (b : RocksDbBackend) (op : NamedOp) (cf : String) (key : Bytes) :
    ((b.apply op).rows cf)[key]? = if op.cf = cf ∧ op.key = key then op.row else (b.rows cf)[key]? := by
  by_cases hcf : op.cf = cf
  · subst hcf
    rw [apply]
    show (Function.update b.rows op.cf (op.onTable (b.rows op.cf)) op.cf)[key]? = _
    rw [Function.update_self]
    simp only [true_and]
    cases op with
    | put cf key' value => exact OrdMap.getElem?_insert ..
    | delete cf key' => exact OrdMap.getElem?_erase ..
  · rw [if_neg fun h => hcf h.1]
    exact congrArg (·[key]?) (Function.update_of_ne (Ne.symm hcf) ..)

/-- The last operation on a key decides its row. -/
theorem applyAll_row (cf : String) (key : Bytes) : ∀ (ops : List NamedOp) (b : RocksDbBackend),
    ((ops.foldl apply b).rows cf)[key]? = (lastRow ops cf key).getD (b.rows cf)[key]?
  | [], _ => rfl
  | op :: ops, b => by
    rw [List.foldl_cons, applyAll_row cf key ops, apply_row]
    by_cases h : op.cf = cf ∧ op.key = key
    · rw [if_pos h, lastRow, lastRow, List.filter_cons_of_pos (by simpa using h), List.getLast?_cons]
      cases (ops.filter fun op => op.cf = cf ∧ op.key = key).getLast? <;> rfl
    · rw [if_neg h, lastRow, lastRow, List.filter_cons_of_neg (by simpa using h)]

/-- **The batch has nothing to do**: every row it leaves is there already. -/
def Settled (b : RocksDbBackend) (batch : List NamedOp) : Prop :=
  ∀ cf key row, lastRow batch cf key = some row → (b.rows cf)[key]? = row

theorem applyAll_eq_iff (batch : List NamedOp) : batch.foldl apply b = b ↔ b.Settled batch := by
  constructor
  · intro heq cf key row hrow
    have hget := applyAll_row cf key batch b
    rwa [heq, hrow, Option.getD_some] at hget
  · intro hsettled
    have hcfs : (batch.foldl apply b).cfs = b.cfs := applyAll_cfs batch b
    have hrows : (batch.foldl apply b).rows = b.rows := funext fun cf => by
      refine Std.ExtTreeMap.ext_getElem? fun {key} => ?_
      rw [applyAll_row]
      cases hrow : lastRow batch cf key with
      | none => rfl
      | some row => exact (hsettled cf key row hrow).symm
    calc batch.foldl apply b = ⟨(batch.foldl apply b).cfs, (batch.foldl apply b).rows⟩ := rfl
      _ = b := by rw [hcfs, hrows]

/-- **When a batch changes nothing**: a family it names is not open, or it has nothing to do. -/
theorem batchWrite_eq_iff (b : RocksDbBackend) (batch : List NamedOp) :
    (b.batchWrite batch).1 = b ↔ (∃ op ∈ batch, op.cf ∉ b.cfs) ∨ b.Settled batch := by
  by_cases hunknown : ∃ op ∈ batch, op.cf ∉ b.cfs
  · obtain ⟨op, hop, hcf⟩ := hunknown
    exact iff_of_true (b.batchWrite_unknown hop hcf) (.inl ⟨op, hop, hcf⟩)
  · rw [or_iff_right hunknown, ← applyAll_eq_iff]
    have hknown : ∀ op ∈ batch, op.cf ∈ b.cfs := fun op hop =>
      not_not.1 fun hcf => hunknown ⟨op, hop, hcf⟩
    rw [batchWrite, nativeOps_of_mem hknown]
    by_cases hempty : batch.isEmpty = true
    · rw [if_pos hempty, List.isEmpty_iff.1 hempty]
      exact iff_of_true rfl rfl
    · rw [if_neg hempty]

end RocksDbBackend

/-- **When the engines agree**: after any writes on the twelve families every lookup and every scan
gives one result on both. A batch that names another family changes nothing in LMDB; in RocksDB it
changes nothing exactly if one of its names is not open there, or it has nothing to do. `implicit`
are the families RocksDB opens of its own accord. -/
theorem engines_agree_iff (implicit : List String) (calls : List KvCall) (batch : List NamedOp)
    (hbatch : ∃ op ∈ batch, ∀ cf : ColumnFamily, cf.name ≠ op.cf) :
    ((∀ (cf : ColumnFamily) (key : Bytes), (LmdbBackend.open.run calls).get cf.name key =
        ((RocksDbBackend.open implicit).run calls).get cf.name key) ∧
      (∀ (cf : ColumnFamily) (pre : Bytes), (LmdbBackend.open.run calls).prefixScan cf.name pre =
        ((RocksDbBackend.open implicit).run calls).prefixScan cf.name pre) ∧
      ((LmdbBackend.open.run calls).batchWrite batch).1 = LmdbBackend.open.run calls ∧
      (((RocksDbBackend.open implicit).run calls).batchWrite batch).1 =
        (RocksDbBackend.open implicit).run calls) ↔
      (∃ op ∈ batch, op.cf ∉ implicit ∧ ∀ cf : ColumnFamily, cf.name ≠ op.cf) ∨
        ((RocksDbBackend.open implicit).run calls).Settled batch := by
  have hlmdb := LmdbBackend.Holds.run calls LmdbBackend.holds_open
  have hrocks := RocksDbBackend.Holds.run calls (RocksDbBackend.holds_open implicit)
  have hget : ∀ (cf : ColumnFamily) (key : Bytes), (LmdbBackend.open.run calls).get cf.name key =
      ((RocksDbBackend.open implicit).run calls).get cf.name key := fun cf key => by
    rw [hlmdb.get, hrocks.get]
  have hscan : ∀ (cf : ColumnFamily) (pre : Bytes),
      (LmdbBackend.open.run calls).prefixScan cf.name pre =
        ((RocksDbBackend.open implicit).run calls).prefixScan cf.name pre := fun cf pre => by
    rw [hlmdb.prefixScan, hrocks.prefixScan]
  have hopen : ∀ name, name ∉ ((RocksDbBackend.open implicit).run calls).cfs ↔
      name ∉ implicit ∧ ∀ cf : ColumnFamily, cf.name ≠ name := fun name => by
    rw [RocksDbBackend.run_cfs, RocksDbBackend.open, List.mem_append, not_or, and_comm]
    simp [mem_allColumnFamilies]
  obtain ⟨op, hop, hcf⟩ := hbatch
  rw [and_iff_right hget, and_iff_right hscan,
    and_iff_right (LmdbBackend.batchWrite_unknown _ hop hcf), RocksDbBackend.batchWrite_eq_iff]
  simp only [hopen]

/-- A batch with one name that nobody knows is dropped by both. -/
theorem engines_agree_iff_unknown :
    ((∀ (cf : ColumnFamily) (key : Bytes),
        (LmdbBackend.open.run [.put .hints [1] [2]]).get cf.name key =
          ((RocksDbBackend.open ["default"]).run [.put .hints [1] [2]]).get cf.name key) ∧
      (∀ (cf : ColumnFamily) (pre : Bytes),
        (LmdbBackend.open.run [.put .hints [1] [2]]).prefixScan cf.name pre =
          ((RocksDbBackend.open ["default"]).run [.put .hints [1] [2]]).prefixScan cf.name pre) ∧
      ((LmdbBackend.open.run [.put .hints [1] [2]]).batchWrite
        [.delete "hints" [1], .put "default" [1] [2], .put "orders" [1] [2]]).1 =
          LmdbBackend.open.run [.put .hints [1] [2]] ∧
      (((RocksDbBackend.open ["default"]).run [.put .hints [1] [2]]).batchWrite
        [.delete "hints" [1], .put "default" [1] [2], .put "orders" [1] [2]]).1 =
          (RocksDbBackend.open ["default"]).run [.put .hints [1] [2]]) ↔
      (∃ op ∈ [NamedOp.delete "hints" [1], .put "default" [1] [2], .put "orders" [1] [2]],
        op.cf ∉ ["default"] ∧ ∀ cf : ColumnFamily, cf.name ≠ op.cf) ∨
      ((RocksDbBackend.open ["default"]).run [.put .hints [1] [2]]).Settled
        [.delete "hints" [1], .put "default" [1] [2], .put "orders" [1] [2]] := by
  refine engines_agree_iff ["default"] [.put .hints [1] [2]] _ ⟨.put "orders" [1] [2], by simp, ?_⟩
  intro cf
  cases cf <;> decide

/-- A row for the family `default`: LMDB rejects the batch, RocksDB writes it. -/
theorem engines_differ_on_default : (∀ cf : ColumnFamily, cf.name ≠ "default") ∧
    LmdbBackend.open.batchWrite [.put "default" [1] [2]] =
      (LmdbBackend.open, .error (.unknownColumnFamily "default")) ∧
    ((RocksDbBackend.open ["default"]).batchWrite [.put "default" [1] [2]]).2 = .ok () ∧
    ((RocksDbBackend.open ["default"]).batchWrite [.put "default" [1] [2]]).1 ≠
      RocksDbBackend.open ["default"] := by
  refine ⟨fun cf => by cases cf <;> decide, rfl, rfl, fun heq => ?_⟩
  have hget := congrArg (fun b : RocksDbBackend => b.get "default" [1]) heq
  have hne : ((RocksDbBackend.open ["default"]).batchWrite [.put "default" [1] [2]]).1.get "default" [1] =
      .ok (some [2]) := by decide
  rw [hne] at hget
  cases hget

/-- A 32-byte key of one family that begins with the tag of another stays where it is. -/
example : (LmdbBackend.open.run [.put .coinRecords [tagCoinByParent, 7] [1],
    .put .coinByParent [7] [2]]).prefixScan "coin_by_parent" [] = .ok [([7], [2])] := by
  decide

end DigCoinstore
