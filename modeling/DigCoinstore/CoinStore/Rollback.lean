import DigCoinstore.CoinStore.ApplyBlock

/-!
# Rollback (`CoinStore::rollback_to_block`, `rollback_n_blocks`)

Two passes over the height indices stage the writes: `deleteConfirmed` for the coins created above
the target and `unspendEntry` for the coins spent above it.
-/

namespace DigCoinstore

variable [Chia]

/-- The locals the two passes accumulate. -/
structure RollbackAcc where
  modifiedCoins : IdMap CoinRecord
  coinsDeleted : Nat
  coinsUnspent : Nat
  batch : WriteBatch
  merkleRemovals : List Bytes32
  merkleUpdates : List (Bytes32 × Bytes32)

def RollbackAcc.start : RollbackAcc :=
  { modifiedCoins := ∅, coinsDeleted := 0, coinsUnspent := 0, batch := .new,
    merkleRemovals := [], merkleUpdates := [] }

/-- `(target + 1)..=tip` -/
def scanHeights (target tip : UInt64) : List UInt64 :=
  (List.range' (target.toNat + 1) (tip.toNat - target.toNat)).map UInt64.ofNat

/-- RBK-002: the deletes of one coin in all tables. -/
def stageDeletion (batch : WriteBatch) (coinId : CoinId) (rec : CoinRecord) : WriteBatch :=
  let phKey := puzzleHashCoinKey rec.coin.puzzleHash coinId
  let batch := batch
    |>.delete .coinRecords (coinKey coinId)
    |>.delete .coinByPuzzleHash phKey
    |>.delete .unspentByPuzzleHash phKey
    |>.delete .coinByParent (parentCoinKey rec.coin.parentCoinInfo coinId)
    |>.delete .coinByConfirmedHeight (heightCoinKey rec.confirmedHeight coinId)
  match rec.spentHeight with
  | some sh => batch.delete .coinBySpentHeight (heightCoinKey sh coinId)
  | none => batch

/-- RBK-003: the writes for one record just un-spent; `spentKey` is its spent-height key. -/
def stageUnspend (batch : WriteBatch) (coinId : CoinId) (rec : CoinRecord) (spentKey : Bytes) :
    WriteBatch :=
  batch
    |>.put .coinRecords (coinKey coinId) (serializeCoinRecordStorageBytes rec)
    |>.put .unspentByPuzzleHash (puzzleHashCoinKey rec.coin.puzzleHash coinId) []
    |>.delete .coinBySpentHeight spentKey

/-- HNT-005: the deletes of one forward hint row and its reverse row. -/
def stageHintDeletion (coinId : CoinId) (batch : WriteBatch) (fwdKey : Bytes) : WriteBatch :=
  let batch := if 32 < fwdKey.length then batch.delete .hintsByValue (fwdKey.drop 32 ++ coinId.bytes)
    else batch
  batch.delete .hints fwdKey

namespace CoinStore

variable (s : CoinStore)

/-- RBK-002: one entry of the confirmed-height index. -/
def deleteConfirmed (acc : RollbackAcc) (entry : KvPair) : Res RollbackAcc :=
  if entry.1.length < 40 then .ok acc
  else do
    let coinId ← coinIdFromKey (slice entry.1 8 40)
    match ← s.getCoinRecord coinId with
    | none => return acc
    | some rec =>
      return { acc with
        modifiedCoins := acc.modifiedCoins.insert coinId rec
        batch := stageDeletion acc.batch coinId rec
        merkleRemovals := acc.merkleRemovals ++ [coinId]
        coinsDeleted := acc.coinsDeleted + 1 }

/-- HNT-005: all hints of one deleted coin. -/
def deleteHints (acc : RollbackAcc) (coinId : CoinId) : Res RollbackAcc := do
  let hintEntries ← orStorage (s.backend.prefixScan .hints coinId.bytes)
  return { acc with
    batch := (hintEntries.map (·.1)).foldl (stageHintDeletion coinId) acc.batch }

/-- RBK-003, RBK-004: one entry of the spent-height index. -/
def unspendEntry (acc : RollbackAcc) (entry : KvPair) : Res RollbackAcc :=
  if entry.1.length < 40 then .ok acc
  else do
    let coinId ← coinIdFromKey (slice entry.1 8 40)
    if acc.modifiedCoins.contains coinId then
      return { acc with batch := acc.batch.delete .coinBySpentHeight entry.1 }
    else
      match ← s.getCoinRecord coinId with
      | none => return acc
      | some rec =>
        let parent ← s.getCoinRecord rec.coin.parentCoinInfo
        let unspent := { rec with spentHeight := none, ffEligible := parent.isSome }
        let leafHash := merkleLeafHash (serializeCoinRecordStorageBytes unspent)
        return { acc with
          modifiedCoins := acc.modifiedCoins.insert coinId rec
          batch := stageUnspend acc.batch coinId unspent entry.1
          merkleUpdates := acc.merkleUpdates ++ [(coinId, leafHash)]
          coinsUnspent := acc.coinsUnspent + 1 }

/-- One pass: the entries of `cf` at every height above the target, in order. -/
def scanAbove (cf : ColumnFamily) (target : UInt64)
    (body : RollbackAcc → KvPair → Res RollbackAcc) (acc : RollbackAcc) : Res RollbackAcc :=
  (scanHeights target s.height).foldlM (fun acc scanHeight => do
    let entries ← orStorage (s.backend.prefixScan cf (FixedInt.toBeBytes scanHeight))
    entries.foldlM body acc) acc

/-- The ids of pass one, in the order of the map. -/
def deletedIds (target : UInt64) (acc : RollbackAcc) : List CoinId :=
  (acc.modifiedCoins.toList.filter fun kv => target < kv.2.confirmedHeight).map (·.1)

/-- Both passes and the hint clean-up between them. -/
def stageRollback (target : UInt64) : Res RollbackAcc := do
  let acc ← s.scanAbove .coinByConfirmedHeight target s.deleteConfirmed .start
  let acc ← (deletedIds target acc).foldlM s.deleteHints acc
  s.scanAbove .coinBySpentHeight target s.unspendEntry acc

/-- RBK-007: the atomic commit and the in-memory fields. The block header at the target is not
stored, so the tip hash becomes zero and the timestamp stays. -/
def commitRollback (target : UInt64) (acc : RollbackAcc) : CoinStore × Res RollbackResult :=
  match s.backend.batchWrite (stageTip acc.batch target .zero s.timestamp) with
  | (backend, .error e) => ({ s with backend }, orStorage (.error e))
  | (backend, .ok ()) =>
    let removed := acc.merkleRemovals.foldl (fun ids id => ids.erase id) s.unspentIds
    ({ s with
        backend
        height := target
        tipHash := .zero
        merkleTree := s.merkleTree.root.2
        unspentIds := acc.merkleUpdates.foldl (fun ids (id, _) => insert id ids) removed },
      .ok {
        modifiedCoins := acc.modifiedCoins
        coinsDeleted := acc.coinsDeleted
        coinsUnspent := acc.coinsUnspent
        newHeight := target })

/-- Negative targets are clamped to 0. -/
def effectiveTarget (targetHeight : Int64) : UInt64 :=
  if targetHeight < 0 then 0 else targetHeight.toUInt64

/-- **Roll back** to `targetHeight`. -/
def rollbackToBlock (targetHeight : Int64) : CoinStore × Res RollbackResult :=
  if !s.initialized then (s, err .notInitialized)
  else if s.height.toInt64 < targetHeight then (s, err (.rollbackAboveTip targetHeight s.height))
  else
    let target := effectiveTarget targetHeight
    if s.height ≤ target ∧ 0 ≤ targetHeight then
      (s, .ok { modifiedCoins := ∅, coinsDeleted := 0, coinsUnspent := 0, newHeight := s.height })
    else
      match s.stageRollback target with
      | .error e => (s, .error e)
      | .ok acc =>
        let removed := if acc.merkleRemovals.isEmpty then .ok s.merkleTree
          else orMerkle "Merkle remove during rollback: " (s.merkleTree.batchRemove acc.merkleRemovals)
        match removed with
        | .error e => (s, .error e)
        | .ok tree =>
          let updated := if acc.merkleUpdates.isEmpty then .ok tree
            else orMerkle "Merkle update during rollback: " (tree.batchUpdate acc.merkleUpdates)
          match updated with
          | .error e => ({ s with merkleTree := tree }, .error e)
          | .ok tree => commitRollback { s with merkleTree := tree } target acc

/-- Roll back `n` blocks from the tip. -/
def rollbackNBlocks (n : UInt64) : CoinStore × Res RollbackResult :=
  if !s.initialized then (s, err .notInitialized)
  else
    match checkedSub s.height.toInt64 n.toInt64 with
    | .error e => (s, .error e)
    | .ok target => s.rollbackToBlock target

end CoinStore

end DigCoinstore
