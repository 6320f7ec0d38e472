import DigCoinstore.Merkle.Tree
import DigCoinstore.Storage.KvBincode

/-!
# The coin store and its rows (`coin_store.rs`)

The store's fields, the two row formats of `coin_records` with the reader that accepts both, the
writes for one new row, and the opening of a store on a backend.
-/

namespace DigCoinstore

variable [Chia]

/-- **The store**: its backend, and the tip, the tree and the unspent ids held in memory. -/
structure CoinStore where
  config : CoinStoreConfig
  backend : Backend
  merkleTree : SparseMerkleTree
  height : UInt64
  tipHash : Bytes32
  timestamp : UInt64
  initialized : Bool
  unspentIds : Finset CoinId

/-! ## Rows -/

/-- The legacy row, 97 bytes: `spent_height_raw` is 0 for an unspent coin. -/
def serializeLegacyCoinRecord (rec : CoinRecord) : Bytes :=
  rec.coin.parentCoinInfo.bytes ++ rec.coin.puzzleHash.bytes ++
    FixedInt.toLeBytes rec.coin.amount ++ FixedInt.toLeBytes rec.confirmedHeight ++
    FixedInt.toLeBytes (rec.spentHeight.getD 0) ++ [if rec.coinbase then 1 else 0] ++
    FixedInt.toLeBytes rec.timestamp

/-- `&bytes[start..stop]` of a string that is long enough. -/
def slice (bytes : Bytes) (start stop : Nat) : Bytes := (bytes.drop start).take (stop - start)

/-- The reader of the legacy row; a `spent_height_raw` of 0 is no spend. -/
def decodeLegacyGenesisCoinRecord (bytes : Bytes) : Option CoinRecord :=
  if h : bytes.length = 97 then
    let parent : Bytes32 := ⟨slice bytes 0 32, by simp [slice, h]⟩
    let puzzle : Bytes32 := ⟨slice bytes 32 64, by simp [slice, h]⟩
    let amount := FixedInt.fromLeBytes (slice bytes 64 72)
    let confirmedHeight := FixedInt.fromLeBytes (slice bytes 72 80)
    let spentRaw := FixedInt.fromLeBytes (slice bytes 80 88)
    let coinbase := bytes.getD 88 0 != 0
    let timestamp := FixedInt.fromLeBytes (slice bytes 89 97)
    let coin : Coin := { parentCoinInfo := parent, puzzleHash := puzzle, amount }
    let rec' := CoinRecord.new coin confirmedHeight timestamp coinbase
    some (if spentRaw = 0 then rec' else rec'.spend spentRaw)
  else none

/-- The stored form, else default bincode, else the legacy row. -/
def decodeCoinRecordBytes (bytes : Bytes) : Option CoinRecord :=
  (decodeCoinRecordStorage bytes).or (decodeLegacyGenesisCoinRecord bytes)

/-- Bincode for fast-forward coins, the legacy row for all others; neither encoder can fail. -/
def serializeCoinRecordStorageBytes (rec : CoinRecord) : Bytes :=
  if rec.ffEligible then encodeCoinRecord rec else serializeLegacyCoinRecord rec

/-- The primary row and the secondary index rows of one coin. -/
def appendCoinRecordToBatch (batch : WriteBatch) (rec : CoinRecord) (recordBytes : Bytes) :
    WriteBatch :=
  let coinId := rec.coinId
  let batch := batch.put .coinRecords (coinKey coinId) recordBytes
  let phKey := puzzleHashCoinKey rec.coin.puzzleHash coinId
  let batch := batch.put .coinByPuzzleHash phKey coinId.bytes
  let batch := if rec.spentHeight.isNone then batch.put .unspentByPuzzleHash phKey [] else batch
  let batch := batch.put .coinByParent (parentCoinKey rec.coin.parentCoinInfo coinId) coinId.bytes
  let batch :=
    batch.put .coinByConfirmedHeight (heightCoinKey rec.confirmedHeight coinId) coinId.bytes
  match rec.spentHeight with
  | some spentH => batch.put .coinBySpentHeight (heightCoinKey spentH coinId) coinId.bytes
  | none => batch

/-! ## Opening -/

namespace CoinStore

/-- The Merkle tree of the stored rows. -/
def rebuildMerkleTree (backend : Backend) : Res SparseMerkleTree := do
  let entries ← orStorage (backend.prefixScan .coinRecords [])
  let merkleEntries ← entries.mapM fun (key, value) => do
    let coinId ← coinIdFromKey key
    return (coinId, merkleLeafHash value)
  if merkleEntries.isEmpty then return .new
  else orMerkle "Merkle rebuild error: " (SparseMerkleTree.new.batchInsert merkleEntries)

/-- The ids of the unspent stored records. -/
def rebuildUnspentIdsFromBackend (backend : Backend) : Res (Finset CoinId) := do
  let entries ← orStorageWith "rebuild_unspent_ids_from_backend: " (backend.prefixScan .coinRecords [])
  return entries.foldl (fun set (_, value) =>
    match decodeCoinRecordBytes value with
    | some rec => if rec.spentHeight.isNone then insert rec.coinId set else set
    | none => set) ∅

/-- A stored `u64`: a value that is not eight bytes long reads as 0, a missing one too. -/
def metaU64 (value : Option Bytes) : UInt64 :=
  match value with
  | some v => if v.length = 8 then FixedInt.fromLeBytes v else 0
  | none => 0

/-- A stored hash: a value shorter than 32 bytes panics in `copy_from_slice`. -/
def metaHash (value : Option Bytes) : Res Bytes32 :=
  match value with
  | some v =>
    if h : 32 ≤ v.length then .ok (.ofTake v h)
    else .error (.panic "copy_from_slice: source slice length does not match destination slice length")
  | none => .ok .zero

/-- **Open a store** on a backend that the engine has opened. -/
def withConfig (config : CoinStoreConfig) (backend : Backend) : Res CoinStore := do
  let initialized := (← orStorage (backend.get .metadata metaInitialized)).isSome
  let height := metaU64 (← orStorage (backend.get .metadata metaHeight))
  let tipHash ← metaHash (← orStorage (backend.get .metadata metaTipHash))
  let timestamp := metaU64 (← orStorage (backend.get .metadata metaTimestamp))
  let merkleTree ← if initialized then rebuildMerkleTree backend else pure .new
  let unspentIds ← if initialized then rebuildUnspentIdsFromBackend backend else pure ∅
  return { config, backend, merkleTree, height, tipHash, timestamp, initialized, unspentIds }

/-! ## Accessors -/

variable (s : CoinStore)

/-- The root is cached in the tree. -/
def stateRoot : Bytes32 × CoinStore :=
  let (root, tree) := s.merkleTree.root
  (root, { s with merkleTree := tree })

/-- The id is in the unspent set in memory. -/
def isUnspent (coinId : CoinId) : Bool := coinId ∈ s.unspentIds

/-- The record of an id; a row that does not decode reads as no record. -/
def getCoinRecord (coinId : CoinId) : Res (Option CoinRecord) := do
  match ← orStorage (s.backend.get .coinRecords (coinKey coinId)) with
  | none => return none
  | some bytes => return decodeCoinRecordBytes bytes

end CoinStore

end DigCoinstore
