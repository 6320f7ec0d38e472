import DigCoinstore.CoinStore.Rollback

/-!
# Snapshot and restore (`CoinStore::snapshot`, `restore`)

`restore` checks the snapshot, clears every column family and rewrites the rows in batches; a
failed backend call leaves what was written so far.
-/

namespace DigCoinstore

variable [Chia]

/-- `SNAPSHOT_RESTORE_BATCH_OPS` -/
def snapshotRestoreBatchOps : Nat := 50000

/-- The sum of the unspent amounts; `Sum for u64` panics on overflow. -/
def unspentValue (coins : IdMap CoinRecord) : Res UInt64 :=
  let amounts := (coins.toList.filter fun kv => kv.2.spentHeight.isNone).map (·.2.coin.amount)
  amounts.foldlM checkedAdd 0

/-- `for x in xs { body }` over the backend and one local, left at the first error. -/
def forBackend {α β : Type} (body : Backend → β → α → Backend × Res β) :
    List α → Backend → β → Backend × Res β
  | [], backend, acc => (backend, .ok acc)
  | x :: xs, backend, acc =>
    match body backend acc x with
    | (backend, .error e) => (backend, .error e)
    | (backend, .ok acc) => forBackend body xs backend acc

def deleteKey (cf : ColumnFamily) (backend : Backend) (_ : Unit) (key : Bytes) :
    Backend × Res Unit :=
  let (backend, r) := backend.delete cf key
  (backend, orStorage r)

def clearColumnFamily (backend : Backend) (_ : Unit) (cf : ColumnFamily) : Backend × Res Unit :=
  match orStorageWith ("clear_column_family(" ++ cf.name ++ "): ") (backend.prefixScan cf []) with
  | .error e => (backend, .error e)
  | .ok pairs => forBackend (deleteKey cf) (pairs.map (·.1)) backend ()

/-- Write the batch once it is full. -/
def flushWhenFull (backend : Backend) (batch : WriteBatch) : Backend × Res WriteBatch :=
  if snapshotRestoreBatchOps ≤ batch.len then
    match backend.batchWrite batch with
    | (backend, .error e) => (backend, orStorage (.error e))
    | (backend, .ok ()) => (backend, .ok .new)
  else (backend, .ok batch)

def restoreRow (backend : Backend) (batch : WriteBatch) (row : CoinRecord × Bytes) :
    Backend × Res WriteBatch :=
  flushWhenFull backend (appendCoinRecordToBatch batch row.1 row.2)

def restoreHint (backend : Backend) (batch : WriteBatch) (hint : CoinId × Bytes32) :
    Backend × Res WriteBatch :=
  flushWhenFull backend
    ((batch.put .hints (coinHintKey hint.1 hint.2) []).put .hintsByValue
      (hintCoinKey hint.2 hint.1) [])

namespace CoinStore

/-- The records of all decodable rows, keyed by their coin ids. -/
def scanCoins (entries : List KvPair) : IdMap CoinRecord :=
  entries.foldl (fun coins (_, value) =>
    match decodeCoinRecordBytes value with
    | some rec => coins.insert rec.coinId rec
    | none => coins) ∅

/-- **Capture the coin state.** -/
def snapshot (s : CoinStore) : Res CoinStoreSnapshot :=
  if !s.initialized then err .notInitialized
  else do
    let entries ← orStorageWith "snapshot: coin_records scan: " (s.backend.prefixScan .coinRecords [])
    let coins := scanCoins entries
    let totalCoins := UInt64.ofNat coins.size
    let totalValue ← unspentValue coins
    return {
      height := s.height
      blockHash := s.tipHash
      stateRoot := s.merkleTree.rootObserved
      timestamp := s.timestamp
      coins
      hints := []
      totalCoins
      totalValue }

/-- The tree of the records of a snapshot. -/
def buildSnapshotTree (coins : IdMap CoinRecord) : Res SparseMerkleTree :=
  let merkleEntries := coins.toList.map fun kv => merkleEntry kv.2
  if merkleEntries.isEmpty then .ok .new
  else orMerkle "restore: merkle batch_insert: " (SparseMerkleTree.new.batchInsert merkleEntries)

/-- The checks of `restore` on the snapshot alone; the result is the rebuilt tree. -/
def checkSnapshot (snapshot : CoinStoreSnapshot) : Res SparseMerkleTree :=
  if snapshot.totalCoins ≠ UInt64.ofNat snapshot.coins.size then
    err (.storageError ("restore: total_coins " ++ snapshot.totalCoins.toNat.repr ++
      " != coins.len() " ++ snapshot.coins.size.repr))
  else do
    let recomputedValue ← unspentValue snapshot.coins
    if recomputedValue ≠ snapshot.totalValue then
      err (.storageError ("restore: total_value " ++ snapshot.totalValue.toNat.repr ++
        " != recomputed unspent sum " ++ recomputedValue.toNat.repr))
    else
      match snapshot.coins.toList.find? fun kv => kv.1 != kv.2.coinId with
      | some (mapId, rec) =>
        err (.storageError ("restore: map key " ++ Chia.debug mapId ++ " != record coin_id " ++
          Chia.debug rec.coinId))
      | none => do
        let tree ← buildSnapshotTree snapshot.coins
        let (computedRoot, tree) := tree.root
        if computedRoot ≠ snapshot.stateRoot then
          err (.stateRootMismatch snapshot.stateRoot computedRoot)
        else return tree

/-- The destructive part of `restore`. -/
def rewriteBackend (backend : Backend) (snapshot : CoinStoreSnapshot) : Backend × Res Unit :=
  match forBackend clearColumnFamily allColumnFamilies backend () with
  | (backend, .error e) => (backend, .error e)
  | (backend, .ok ()) =>
    let rows := snapshot.coins.toList.map fun kv => (kv.2, serializeCoinRecordStorageBytes kv.2)
    match forBackend restoreRow rows backend .new with
    | (backend, .error e) => (backend, .error e)
    | (backend, .ok batch) =>
      match forBackend restoreHint snapshot.hints backend batch with
      | (backend, .error e) => (backend, .error e)
      | (backend, .ok batch) =>
        let batch := stageTip (batch.put .metadata metaInitialized [1]) snapshot.height
          snapshot.blockHash snapshot.timestamp
        if batch.isEmpty then (backend, .ok ())
        else
          let (backend, r) := backend.batchWrite batch
          (backend, orStorage r)

/-- **Replace the whole state** by a snapshot. -/
def restore (s : CoinStore) (snapshot : CoinStoreSnapshot) : CoinStore × Res Unit :=
  match checkSnapshot snapshot with
  | .error e => (s, .error e)
  | .ok tree =>
    match rewriteBackend s.backend snapshot with
    | (backend, .error e) => ({ s with backend }, .error e)
    | (backend, .ok ()) =>
      ({ s with
          backend
          merkleTree := tree
          height := snapshot.height
          tipHash := snapshot.blockHash
          timestamp := snapshot.timestamp
          initialized := true
          unspentIds := ((snapshot.coins.toList.filter fun kv => kv.2.spentHeight.isNone).map
            (·.2.coinId)).toFinset },
        .ok ())

end CoinStore

end DigCoinstore
