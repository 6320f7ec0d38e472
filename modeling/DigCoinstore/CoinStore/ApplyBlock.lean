import DigCoinstore.CoinStore.Genesis

/-!
# Block application (`CoinStore::apply_block`)

`validateBlock` is the read-only first phase; `applyBlock` stages the writes of the accepted
block, updates the tree, checks the expected root and commits.
-/

namespace DigCoinstore

variable [Chia]

/-- `MIN_REWARD_COINS_PER_BLOCK` -/
def minRewards : Nat := 2

namespace CoinStore

/-- BLK-005: the stored record of a removal, which must be unspent. -/
def removalRecord (s : CoinStore) (removalId : CoinId) : Res CoinRecord := do
  match ← orStorage (s.backend.get .coinRecords (coinKey removalId)) with
  | none => err (.coinNotFound removalId)
  | some bytes =>
    match decodeCoinRecordBytes bytes with
    | none =>
      err (.storageError ("apply_block: corrupt coin record for " ++ Chia.debug removalId))
    | some rec => if rec.isSpent then err (.doubleSpend removalId) else return rec

/-- BLK-006: an added id is new to the block and to the store. -/
def checkAddition (s : CoinStore) (allAdditionIds : Finset Bytes32) (coinId : CoinId) :
    Res (Finset Bytes32) :=
  if coinId ∈ allAdditionIds then err (.coinAlreadyExists coinId)
  else do
    if (← orStorage (s.backend.get .coinRecords (coinKey coinId))).isSome then
      err (.coinAlreadyExists coinId)
    else return insert coinId allAdditionIds

/-- BLK-011 -/
def checkHint (hint : CoinId × Bytes32) : Res Unit :=
  if 32 < hint.2.bytes.length then err (.hintTooLong hint.2.bytes.length 32) else .ok ()

/-- Phase 1: the checks, in the order of the source; the result is the removals' records. -/
def validateBlock (s : CoinStore) (block : BlockData) : Res (List CoinRecord) :=
  if !s.initialized then err .notInitialized
  else do
    let next ← checkedAdd s.height 1
    if block.height ≠ next then err (.heightMismatch next block.height)
    else if block.parentHash ≠ s.tipHash then err (.parentHashMismatch s.tipHash block.parentHash)
    else if block.coinbaseCoins.length < minRewards then
      err (.invalidRewardCoinCount (">= " ++ minRewards.repr) block.coinbaseCoins.length)
    else do
      let removalRecords ← block.removals.mapM s.removalRecord
      let ids ← block.additions.foldlM (fun ids a => s.checkAddition ids a.coinId) ∅
      let _ ← block.coinbaseCoins.foldlM (fun ids c => s.checkAddition ids (Chia.coinId c)) ids
      block.hints.forM checkHint
      return removalRecords

end CoinStore

/-! ## Staging -/

def coinbaseRecord (block : BlockData) (coin : Coin) : CoinRecord :=
  CoinRecord.new coin block.height block.timestamp true

def additionRecord (block : BlockData) (addition : CoinAddition) : CoinRecord :=
  let rec' := CoinRecord.new addition.coin block.height block.timestamp false
  if addition.sameAsParent then { rec' with ffEligible := true } else rec'

/-- BLK-007: the records a block creates, coinbase coins first. -/
def createdRecords (block : BlockData) : List CoinRecord :=
  block.coinbaseCoins.map (coinbaseRecord block) ++ block.additions.map (additionRecord block)

def stageCreation (batch : WriteBatch) (rec : CoinRecord) : WriteBatch :=
  appendCoinRecordToBatch batch rec (serializeCoinRecordStorageBytes rec)

/-- BLK-008: the writes for a record just marked spent at `height`. -/
def stageSpend (height : UInt64) (batch : WriteBatch) (rec : CoinRecord) : WriteBatch :=
  let coinId := rec.coinId
  batch
    |>.put .coinRecords (coinKey coinId) (serializeCoinRecordStorageBytes rec)
    |>.delete .unspentByPuzzleHash (puzzleHashCoinKey rec.coin.puzzleHash coinId)
    |>.put .coinBySpentHeight (heightCoinKey height coinId) coinId.bytes

/-- BLK-012: an all-zero hint is skipped. -/
def stageHint (batch : WriteBatch) (hint : CoinId × Bytes32) : WriteBatch :=
  if hint.2 = .zero then batch
  else
    batch
      |>.put .hints (hint.1.bytes ++ hint.2.bytes) []
      |>.put .hintsByValue (hint.2.bytes ++ hint.1.bytes) []

def stageBlock (block : BlockData) (created spent : List CoinRecord) : WriteBatch :=
  block.hints.foldl stageHint (spent.foldl (stageSpend block.height) (created.foldl stageCreation .new))

namespace CoinStore

/-- PRF-001: the unspent set after the block. -/
def unspentAfter (ids : Finset CoinId) (block : BlockData) : Finset CoinId :=
  let ids := block.coinbaseCoins.foldl (fun ids c => insert (Chia.coinId c) ids) ids
  let ids := block.additions.foldl (fun ids a => insert a.coinId ids) ids
  block.removals.foldl (fun ids id => ids.erase id) ids

/-- BLK-014: the atomic commit and the in-memory fields. -/
def commitBlock (s : CoinStore) (block : BlockData) (batch : WriteBatch) (result : ApplyBlockResult) :
    CoinStore × Res ApplyBlockResult :=
  match s.backend.batchWrite (stageTip batch block.height block.blockHash block.timestamp) with
  | (backend, .error e) => ({ s with backend }, orStorage (.error e))
  | (backend, .ok ()) =>
    ({ s with
        backend
        height := block.height
        tipHash := block.blockHash
        timestamp := block.timestamp
        unspentIds := unspentAfter s.unspentIds block },
      .ok result)

/-- BLK-009: on a mismatch the tree is rebuilt from storage. -/
def verifyStateRoot (s : CoinStore) (expectedStateRoot : Option Bytes32) (stateRoot : Bytes32) :
    CoinStore × Res Unit :=
  match expectedStateRoot with
  | none => (s, .ok ())
  | some expected =>
    if stateRoot ≠ expected then
      match rebuildMerkleTree s.backend with
      | .error e => (s, .error e)
      | .ok tree => ({ s with merkleTree := tree }, err (.stateRootMismatch expected stateRoot))
    else (s, .ok ())

/-- **Apply a block.** -/
def applyBlock (s : CoinStore) (block : BlockData) : CoinStore × Res ApplyBlockResult :=
  match s.validateBlock block with
  | .error e => (s, .error e)
  | .ok removalRecords =>
    let created := createdRecords block
    let spent := removalRecords.map (·.spend block.height)
    let batch := stageBlock block created spent
    let merkleInserts := created.map merkleEntry
    let merkleUpdates := spent.map merkleEntry
    let inserted := if merkleInserts.isEmpty then .ok s.merkleTree
      else orMerkle "Merkle insert: " (s.merkleTree.batchInsert merkleInserts)
    match inserted with
    | .error e => (s, .error e)
    | .ok tree =>
      let updated := if merkleUpdates.isEmpty then .ok tree
        else orMerkle "Merkle update: " (tree.batchUpdate merkleUpdates)
      match updated with
      | .error e => ({ s with merkleTree := tree }, .error e)
      | .ok tree =>
        let (stateRoot, tree) := tree.root
        match verifyStateRoot { s with merkleTree := tree } block.expectedStateRoot stateRoot with
        | (s, .error e) => (s, .error e)
        | (s, .ok ()) =>
          s.commitBlock block batch
            { stateRoot
              coinsCreated := created.length
              coinsSpent := spent.length
              height := block.height }

end CoinStore

end DigCoinstore
