import DigCoinstore.Lib.PrefixScan
import DigCoinstore.Storage.Backend

/-!
# The two engines (`storage/rocksdb.rs`, `storage/lmdb.rs`)

A RocksDB column family and an LMDB database are ordered maps of byte strings, and the engines fail
no read or write of theirs. RocksDB keeps each column family in a map of its own; LMDB keeps eight
of them in two shared databases, each under a one-byte tag, and the other four untagged.
-/

namespace DigCoinstore

/-! ## Operations by name -/

/-- A `WriteOp` as the engines receive it, with the name of its family. -/
inductive NamedOp where
  | put (cf : String) (key value : Bytes)
  | delete (cf : String) (key : Bytes)

namespace NamedOp

def cf : NamedOp → String
  | .put cf _ _ => cf
  | .delete cf _ => cf

def key : NamedOp → Bytes
  | .put _ key _ => key
  | .delete _ key => key

/-- What the operation leaves under its key. -/
def row : NamedOp → Option Bytes
  | .put _ _ value => some value
  | .delete _ _ => none

/-- The operation on one table. -/
def onTable (t : Table) : NamedOp → Table
  | .put _ key value => t.insert key value
  | .delete _ key => t.erase key

end NamedOp

/-- What the last operation of a batch on the key of a family leaves there. -/
def lastRow (batch : List NamedOp) (cf : String) (key : Bytes) : Option (Option Bytes) :=
  ((batch.filter fun op => op.cf = cf ∧ op.key = key).getLast?).map NamedOp.row

/-- An operation on one of the twelve families, with its name. -/
def WriteOp.named : WriteOp → NamedOp
  | .put cf key value => .put cf.name key value
  | .delete cf key => .delete cf.name key

/-! ## RocksDB -/

/-- `DB`: the names of the open column families, and the rows of each. -/
structure RocksDbBackend where
  cfs : List String
  rows : String → Table

namespace RocksDbBackend

/-- A new database: all column families, and those that RocksDB opens of its own accord, as it
does the one called `default`. -/
def «open» (implicit : List String) : RocksDbBackend where
  cfs := allColumnFamilies.map ColumnFamily.name ++ implicit
  rows := fun _ => ∅

variable (b : RocksDbBackend)

/-- The handle of a column family is its name here. -/
def cfHandle (cf : String) : Except StorageError String :=
  if cf ∈ b.cfs then .ok cf else .error (.unknownColumnFamily cf)

/-- One operation, on a handle. -/
def apply (op : NamedOp) : RocksDbBackend :=
  { b with rows := Function.update b.rows op.cf (op.onTable (b.rows op.cf)) }

def get (cf : String) (key : Bytes) : Except StorageError (Option Bytes) := do
  let handle ← b.cfHandle cf
  return (b.rows handle)[key]?

def put (cf : String) (key value : Bytes) : RocksDbBackend × Except StorageError Unit :=
  match b.cfHandle cf with
  | .error e => (b, .error e)
  | .ok handle => (b.apply (.put handle key value), .ok ())

def delete (cf : String) (key : Bytes) : RocksDbBackend × Except StorageError Unit :=
  match b.cfHandle cf with
  | .error e => (b, .error e)
  | .ok handle => (b.apply (.delete handle key), .ok ())

/-- The operation on the handle, for the native batch. -/
def nativeOp : NamedOp → Except StorageError NamedOp
  | .put cf key value => do
    let handle ← b.cfHandle cf
    return .put handle key value
  | .delete cf key => do
    let handle ← b.cfHandle cf
    return .delete handle key

/-- The native batch is built first and written at once. -/
def batchWrite (batch : List NamedOp) : RocksDbBackend × Except StorageError Unit :=
  if batch.isEmpty then (b, .ok ())
  else
    match batch.mapM b.nativeOp with
    | .error e => (b, .error e)
    | .ok rocksBatch => (rocksBatch.foldl apply b, .ok ())

/-- An iterator from `pre` forward, until a key does not start with `pre`. -/
def prefixScan (cf : String) (pre : Bytes) : Except StorageError (List KvPair) := do
  let handle ← b.cfHandle cf
  return PrefixScan.scan (b.rows handle) pre

end RocksDbBackend

/-! ## LMDB -/

def tagCoinRecords : UInt8 := 0x01
def tagCoinByParent : UInt8 := 0x02
def tagCoinByConfirmedHeight : UInt8 := 0x03
def tagCoinBySpentHeight : UInt8 := 0x04
def tagArchiveCoinRecords : UInt8 := 0x05
def tagMerkleNodes : UInt8 := 0x06

def tagCoinByPuzzleHash : UInt8 := 0x01
def tagUnspentByPuzzleHash : UInt8 := 0x02

/-- The database and the tag of a column family. -/
def ColumnFamily.route : ColumnFamily → Nat × Option UInt8
  | .coinRecords => (0, some tagCoinRecords)
  | .coinByParent => (0, some tagCoinByParent)
  | .coinByConfirmedHeight => (0, some tagCoinByConfirmedHeight)
  | .coinBySpentHeight => (0, some tagCoinBySpentHeight)
  | .archiveCoinRecords => (0, some tagArchiveCoinRecords)
  | .merkleNodes => (0, some tagMerkleNodes)
  | .coinByPuzzleHash => (1, some tagCoinByPuzzleHash)
  | .unspentByPuzzleHash => (1, some tagUnspentByPuzzleHash)
  | .hints => (2, none)
  | .hintsByValue => (3, none)
  | .stateSnapshots => (4, none)
  | .metadata => (5, none)

/-- The column family of a name. -/
def ColumnFamily.ofName (cf : String) : Option ColumnFamily :=
  allColumnFamilies.find? fun family => family.name = cf

/-- The database and the tag of a name; a name that is none of the twelve is an error. -/
def logicalCfRoute (cf : String) : Except StorageError (Nat × Option UInt8) :=
  match ColumnFamily.ofName cf with
  | some family => .ok family.route
  | none => .error (.unknownColumnFamily cf)

/-- The tag comes before the key. -/
def encodeStorageKey (tag : Option UInt8) (userKey : Bytes) : Bytes :=
  match tag with
  | some t => t :: userKey
  | none => userKey

/-- The key without its tag. -/
def decodeUserKey (tag : Option UInt8) (stored : Bytes) : Bytes :=
  match tag with
  | some _ => stored.drop 1
  | none => stored

/-- The databases of the environment, in order of creation. -/
structure LmdbBackend where
  dbs : List Table

namespace LmdbBackend

/-- `LMDB_NAMED_DATABASES`, in order of creation. -/
def lmdbNamedDatabases : List String :=
  ["coins", "coins_by_ph", "hints", "hints_by_value", "snapshots", "metadata"]

/-- A new environment. -/
def «open» : LmdbBackend where
  dbs := lmdbNamedDatabases.map fun _ => ∅

variable (b : LmdbBackend)

def db (index : Nat) : Except StorageError Table :=
  match b.dbs[index]? with
  | some db => .ok db
  | none => .error (.backendError "LMDB internal db index")

def get (cf : String) (key : Bytes) : Except StorageError (Option Bytes) := do
  let (dbi, tag) ← logicalCfRoute cf
  let db ← b.db dbi
  return db[encodeStorageKey tag key]?

/-- One operation inside a write transaction. -/
def txnOp (b : LmdbBackend) : NamedOp → Except StorageError LmdbBackend
  | .put cf key value => do
    let (dbi, tag) ← logicalCfRoute cf
    let db ← b.db dbi
    return { b with dbs := b.dbs.set dbi (db.insert (encodeStorageKey tag key) value) }
  | .delete cf key => do
    let (dbi, tag) ← logicalCfRoute cf
    let db ← b.db dbi
    return { b with dbs := b.dbs.set dbi (db.erase (encodeStorageKey tag key)) }

/-- A write transaction: an error drops it, otherwise it is committed. -/
def writeTxn (txn : Except StorageError LmdbBackend) : LmdbBackend × Except StorageError Unit :=
  match txn with
  | .error e => (b, .error e)
  | .ok committed => (committed, .ok ())

def put (cf : String) (key value : Bytes) : LmdbBackend × Except StorageError Unit :=
  b.writeTxn (b.txnOp (.put cf key value))

def delete (cf : String) (key : Bytes) : LmdbBackend × Except StorageError Unit :=
  b.writeTxn (b.txnOp (.delete cf key))

def batchWrite (batch : List NamedOp) : LmdbBackend × Except StorageError Unit :=
  if batch.isEmpty then (b, .ok ()) else b.writeTxn (batch.foldlM txnOp b)

/-- `Database::prefix_iter` positions a cursor at the prefix; `Database::iter` reads it all. -/
def scanDb (db : Table) (tag : Option UInt8) (pre : Bytes) : List KvPair :=
  match tag with
  | some t => (PrefixScan.scan db (t :: pre)).map fun kv => (decodeUserKey (some t) kv.1, kv.2)
  | none => if pre.isEmpty then db.toList else PrefixScan.scan db pre

def prefixScan (cf : String) (pre : Bytes) : Except StorageError (List KvPair) := do
  let (dbi, tag) ← logicalCfRoute cf
  let db ← b.db dbi
  return scanDb db tag pre

end LmdbBackend

end DigCoinstore
