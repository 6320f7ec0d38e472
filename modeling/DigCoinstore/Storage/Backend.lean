import DigCoinstore.Lib.OrdMap
import DigCoinstore.Storage.Schema

/-!
# The storage backend (`storage/mod.rs`)

A backend holds one ordered table for each column family. `faults` says which calls the engine
fails, and with which error; a failed call changes nothing. `Backend.Healthy` backends fail no
call, and there every operation is the plain table operation (`Backend.get_of_healthy`,
`prefixScan_of_healthy`, `batchWrite_of_healthy`).
-/

namespace DigCoinstore

/-- The rows of a column family, in key order. -/
abbrev Table := OrdMap.Map Bytes Bytes

/-- The rows of all column families. -/
abbrev Tables := ColumnFamily → Table

/-- A key and its value. -/
abbrev KvPair := Bytes × Bytes

/-- One write of a batch. -/
inductive WriteOp where
  | put (cf : ColumnFamily) (key value : Bytes)
  | delete (cf : ColumnFamily) (key : Bytes)
deriving DecidableEq

/-- Writes that are done together, in their order. -/
structure WriteBatch where
  ops : List WriteOp
deriving DecidableEq

namespace WriteBatch

def new : WriteBatch := ⟨[]⟩

def put (batch : WriteBatch) (cf : ColumnFamily) (key value : Bytes) : WriteBatch :=
  ⟨batch.ops ++ [.put cf key value]⟩

def delete (batch : WriteBatch) (cf : ColumnFamily) (key : Bytes) : WriteBatch :=
  ⟨batch.ops ++ [.delete cf key]⟩

def len (batch : WriteBatch) : Nat := batch.ops.length

def isEmpty (batch : WriteBatch) : Bool := batch.ops.isEmpty

@[simp] theorem ops_new : new.ops = [] := rfl
@[simp] theorem ops_put (batch : WriteBatch) (cf : ColumnFamily) (key value : Bytes) :
    (batch.put cf key value).ops = batch.ops ++ [.put cf key value] := rfl
@[simp] theorem ops_delete (batch : WriteBatch) (cf : ColumnFamily) (key : Bytes) :
    (batch.delete cf key).ops = batch.ops ++ [.delete cf key] := rfl

end WriteBatch

namespace Tables

def put (t : Tables) (cf : ColumnFamily) (key value : Bytes) : Tables :=
  Function.update t cf ((t cf).insert key value)

def delete (t : Tables) (cf : ColumnFamily) (key : Bytes) : Tables :=
  Function.update t cf ((t cf).erase key)

def applyOp (t : Tables) : WriteOp → Tables
  | .put cf key value => t.put cf key value
  | .delete cf key => t.delete cf key

def applyOps (t : Tables) (ops : List WriteOp) : Tables := ops.foldl applyOp t

def empty : Tables := fun _ => ∅

@[simp] theorem applyOps_nil (t : Tables) : t.applyOps [] = t := rfl

@[simp] theorem applyOps_cons (t : Tables) (op : WriteOp) (ops : List WriteOp) :
    t.applyOps (op :: ops) = (t.applyOp op).applyOps ops := rfl

theorem applyOps_append (t : Tables) (ops ops' : List WriteOp) :
    t.applyOps (ops ++ ops') = (t.applyOps ops).applyOps ops' := List.foldl_append ..

theorem put_get (t : Tables) (cf cf' : ColumnFamily) (key value k : Bytes) :
    (t.put cf key value cf')[k]? = if cf = cf' ∧ key = k then some value else (t cf')[k]? := by
  by_cases hcf : cf = cf'
  · subst hcf
    simp [put, OrdMap.getElem?_insert]
  · simp [put, hcf, Ne.symm hcf]

theorem delete_get (t : Tables) (cf cf' : ColumnFamily) (key k : Bytes) :
    (t.delete cf key cf')[k]? = if cf = cf' ∧ key = k then none else (t cf')[k]? := by
  by_cases hcf : cf = cf'
  · subst hcf
    simp [delete, OrdMap.getElem?_erase]
  · simp [delete, hcf, Ne.symm hcf]

/-- The column family an operation writes. -/
def opCf : WriteOp → ColumnFamily
  | .put cf _ _ => cf
  | .delete cf _ => cf

theorem applyOp_other (t : Tables) {op : WriteOp} {cf : ColumnFamily} (h : opCf op ≠ cf) :
    t.applyOp op cf = t cf := by
  cases op <;> exact Function.update_of_ne (Ne.symm h) _ _

/-- A batch leaves the column families it does not write as they are. -/
theorem applyOps_other : ∀ (ops : List WriteOp) (t : Tables) {cf : ColumnFamily},
    cf ∉ ops.map opCf → t.applyOps ops cf = t cf
  | [], _, _, _ => rfl
  | op :: ops, t, cf, h => by
    simp only [List.map_cons, List.mem_cons, not_or] at h
    rw [applyOps_cons, applyOps_other ops _ h.2, applyOp_other t (Ne.symm h.1)]

end Tables

/-! ## Calls on a backend -/

/-- A call on a backend. -/
inductive BackendOp where
  | get (cf : ColumnFamily) (key : Bytes)
  | put (cf : ColumnFamily) (key value : Bytes)
  | delete (cf : ColumnFamily) (key : Bytes)
  | batchWrite (batch : WriteBatch)
  | prefixScan (cf : ColumnFamily) (pre : Bytes)

structure Backend where
  tables : Tables
  /-- The error a call ends with, if the engine fails it. -/
  faults : BackendOp → Option StorageError

namespace Backend

/-- An empty backend that fails no call. -/
def fresh : Backend := { tables := Tables.empty, faults := fun _ => none }

def get (b : Backend) (cf : ColumnFamily) (key : Bytes) : Except StorageError (Option Bytes) :=
  match b.faults (.get cf key) with
  | some e => .error e
  | none => .ok (b.tables cf)[key]?

def put (b : Backend) (cf : ColumnFamily) (key value : Bytes) : Backend × Except StorageError Unit :=
  match b.faults (.put cf key value) with
  | some e => (b, .error e)
  | none => ({ b with tables := b.tables.put cf key value }, .ok ())

def delete (b : Backend) (cf : ColumnFamily) (key : Bytes) : Backend × Except StorageError Unit :=
  match b.faults (.delete cf key) with
  | some e => (b, .error e)
  | none => ({ b with tables := b.tables.delete cf key }, .ok ())

/-- All operations of the batch, in order, or none. -/
def batchWrite (b : Backend) (batch : WriteBatch) : Backend × Except StorageError Unit :=
  match b.faults (.batchWrite batch) with
  | some e => (b, .error e)
  | none => ({ b with tables := b.tables.applyOps batch.ops }, .ok ())

/-- The entries whose key starts with `pre`, in key order. -/
def prefixScan (b : Backend) (cf : ColumnFamily) (pre : Bytes) : Except StorageError (List KvPair) :=
  match b.faults (.prefixScan cf pre) with
  | some e => .error e
  | none => .ok ((b.tables cf).toList.filter fun kv => pre.isPrefixOf kv.1)

/-- The engine fails no call. -/
def Healthy (b : Backend) : Prop := b.faults = fun _ => none

theorem healthy_fresh : fresh.Healthy := rfl

section
variable {b : Backend} (h : b.Healthy)
include h

theorem get_of_healthy (cf : ColumnFamily) (key : Bytes) :
    b.get cf key = .ok (b.tables cf)[key]? := by
  simp only [get, show b.faults = _ from h]

theorem put_of_healthy (cf : ColumnFamily) (key value : Bytes) :
    b.put cf key value = ({ b with tables := b.tables.put cf key value }, .ok ()) := by
  simp only [put, show b.faults = _ from h]

theorem delete_of_healthy (cf : ColumnFamily) (key : Bytes) :
    b.delete cf key = ({ b with tables := b.tables.delete cf key }, .ok ()) := by
  simp only [delete, show b.faults = _ from h]

theorem batchWrite_of_healthy (batch : WriteBatch) :
    b.batchWrite batch = ({ b with tables := b.tables.applyOps batch.ops }, .ok ()) := by
  simp only [batchWrite, show b.faults = _ from h]

theorem prefixScan_of_healthy (cf : ColumnFamily) (pre : Bytes) :
    b.prefixScan cf pre = .ok ((b.tables cf).toList.filter fun kv => pre.isPrefixOf kv.1) := by
  simp only [prefixScan, show b.faults = _ from h]

/-- A scan of the whole family. -/
theorem prefixScan_all (cf : ColumnFamily) : b.prefixScan cf [] = .ok (b.tables cf).toList := by
  rw [prefixScan_of_healthy h]
  simp

end

end Backend

end DigCoinstore
