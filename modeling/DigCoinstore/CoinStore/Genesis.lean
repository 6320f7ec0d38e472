import DigCoinstore.CoinStore.State

/-!
# Genesis (`CoinStore::init_genesis`)
-/

namespace DigCoinstore

variable [Chia]

/-- The leaf of a record: its id and the hash of its stored bytes. -/
def merkleEntry (rec : CoinRecord) : Bytes32 × Bytes32 :=
  (rec.coinId, merkleLeafHash (serializeCoinRecordStorageBytes rec))

def genesisRecord (timestamp : UInt64) (entry : Coin × Bool) : CoinRecord :=
  CoinRecord.new entry.1 0 timestamp entry.2

/-- The rows `init_genesis` writes inline for one coin. -/
def stageGenesisCoin (batch : WriteBatch) (rec : CoinRecord) : WriteBatch :=
  let coinId := rec.coinId
  let phKey := puzzleHashCoinKey rec.coin.puzzleHash coinId
  batch
    |>.put .coinRecords (coinKey coinId) (serializeCoinRecordStorageBytes rec)
    |>.put .coinByPuzzleHash phKey coinId.bytes
    |>.put .unspentByPuzzleHash phKey []
    |>.put .coinByParent (parentCoinKey rec.coin.parentCoinInfo coinId) coinId.bytes
    |>.put .coinByConfirmedHeight (heightCoinKey 0 coinId) coinId.bytes

/-- The chain tip rows of the metadata column family. -/
def stageTip (batch : WriteBatch) (height : UInt64) (tipHash : Bytes32) (timestamp : UInt64) :
    WriteBatch :=
  batch
    |>.put .metadata metaHeight (FixedInt.toLeBytes height)
    |>.put .metadata metaTipHash tipHash.bytes
    |>.put .metadata metaTimestamp (FixedInt.toLeBytes timestamp)

namespace CoinStore

/-- **Insert the genesis coins** at height 0 and mark the store initialized. -/
def initGenesis (s : CoinStore) (initialCoins : List (Coin × Bool)) (timestamp : UInt64) :
    CoinStore × Res Bytes32 :=
  if s.initialized then (s, err .genesisAlreadyInitialized)
  else
    let records := initialCoins.map (genesisRecord timestamp)
    let batch := records.foldl stageGenesisCoin .new
    let merkleEntries := records.map merkleEntry
    let inserted := if merkleEntries.isEmpty then .ok s.merkleTree
      else orMerkle "Merkle insert error: " (s.merkleTree.batchInsert merkleEntries)
    match inserted with
    | .error e => (s, .error e)
    | .ok tree =>
      let (stateRoot, tree) := tree.root
      let s := { s with merkleTree := tree }
      let batch := stageTip (batch.put .metadata metaInitialized [1]) 0 .zero timestamp
      match s.backend.batchWrite batch with
      | (backend, .error e) => ({ s with backend }, orStorage (.error e))
      | (backend, .ok ()) =>
        ({ s with
            backend
            height := 0
            tipHash := .zero
            timestamp
            initialized := true
            unspentIds := initialCoins.foldl (fun ids (coin, _) => insert (Chia.coinId coin) ids) ∅ },
          .ok stateRoot)

end CoinStore

end DigCoinstore
