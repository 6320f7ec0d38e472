import Mathlib.Data.Finset.Card
import DigCoinstore.Lib.Machine
import DigCoinstore.Aggregates
import DigCoinstore.Checkpoints
import DigCoinstore.HintExact
import DigCoinstore.RecordQueries

/-!
# The ledger

What the store is for, without its tables: a map of coins, a set of hints, the checkpoints by
height and the chain tip. A block puts records into the map, a rollback cuts the map back to a
height, a restore replaces all of it, and every question is answered from the four parts. The calls
of the store are the calls of this machine (`Ledger.machine`).
-/

namespace DigCoinstore

variable [Chia]

/-- **The abstract state of a store.** -/
structure Ledger where
  coins : IdMap CoinRecord
  hints : Finset HintPair
  checkpoints : OrdMap.Map UInt64 CoinStoreSnapshot
  maxSnapshots : Nat
  height : UInt64
  tipHash : Bytes32
  timestamp : UInt64
  initialized : Bool

/-! ## Calls -/

/-- The calls of the store. -/
inductive Call where
  | initGenesis (coins : List (Coin × Bool)) (timestamp : UInt64)
  | applyBlock (block : BlockData)
  | rollbackToBlock (target : Int64)
  | rollbackNBlocks (n : UInt64)
  | addHint (coinId : CoinId) (hint : Bytes)
  | removeHintsForCoins (coinIds : List CoinId)
  | saveSnapshot (entries : List (CoinId × CoinRecord))
  | reopen (config : CoinStoreConfig)
  | restore (snapshot : CoinStoreSnapshot)
  | snapshot
  | stateRoot
  | stats
  | isUnspent (coinId : CoinId)
  | getCoinRecord (coinId : CoinId)
  | getCoinRecords (coinIds : List CoinId)
  | getCoinsAddedAtHeight (height : UInt64)
  | getCoinsRemovedAtHeight (height : UInt64)
  | loadSnapshot (height : UInt64)
  | availableSnapshotHeights
  | loadLatestSnapshot

/-- The calls that only ask. -/
def Call.asks : Call → Bool
  | .initGenesis _ _ | .applyBlock _ | .rollbackToBlock _ | .rollbackNBlocks _ | .addHint _ _
  | .removeHintsForCoins _ | .saveSnapshot _ | .reopen _ | .restore _ => false
  | _ => true

/-- The calls whose answers do not depend on hints or checkpoints. -/
def Call.seesCoins : Call → Bool
  | .removeHintsForCoins _ | .stats | .loadSnapshot _ | .availableSnapshotHeights
  | .loadLatestSnapshot => false
  | _ => true

/-- What a call answers. -/
inductive Answer where
  | root (r : Res Bytes32)
  | block (r : Res ApplyBlockResult)
  | rollback (r : Res RollbackResult)
  | unit (r : Res Unit)
  | count (r : Res Nat)
  | snapshot (r : Res CoinStoreSnapshot)
  | stats (stats : CoinStoreStats)
  | flag (unspent : Bool)
  | record (r : Res (Option CoinRecord))
  | records (r : Res (List CoinRecord))
  | checkpoint (r : Res (Option CoinStoreSnapshot))
  | heights (r : Res (List UInt64))

/-- The call ended without a value. -/
def Answer.failed : Answer → Bool
  | .root r => !r.isOk
  | .block r => !r.isOk
  | .rollback r => !r.isOk
  | .unit r => !r.isOk
  | .count r => !r.isOk
  | .snapshot r => !r.isOk
  | .stats _ => false
  | .flag _ => false
  | .record r => !r.isOk
  | .records r => !r.isOk
  | .checkpoint r => !r.isOk
  | .heights r => !r.isOk

namespace Ledger

/-- The ledger of a new store. -/
def blank (config : CoinStoreConfig) : Ledger where
  coins := ∅
  hints := ∅
  checkpoints := ∅
  maxSnapshots := config.maxSnapshots
  height := 0
  tipHash := .zero
  timestamp := 0
  initialized := false

variable (l : Ledger)

/-- The records by id. -/
def coinset : Coinset := fun id => l.coins[id]?

/-- Store each record under its id. -/
def putRecords (coins : IdMap CoinRecord) (recs : List CoinRecord) : IdMap CoinRecord :=
  OrdMap.insertAll coins (recs.map fun rec => (rec.coinId, rec))

/-- The root of the tree that has the hash of each record at the record's id. -/
def rootOf (coins : IdMap CoinRecord) : Bytes32 :=
  SparseMerkleTree.rootObserved
    { leaves := coins.map fun _ rec => CoinStore.leafHash rec, rootHash := none,
      dirtyMerkleNodes := ∅ }

/-! ## Genesis and blocks -/

/-- The first coins, once. -/
def initGenesis (initialCoins : List (Coin × Bool)) (timestamp : UInt64) : Ledger × Res Bytes32 :=
  if l.initialized then (l, err .genesisAlreadyInitialized)
  else
    let coins := putRecords ∅ (initialCoins.map (genesisRecord timestamp))
    ({ l with coins, height := 0, tipHash := .zero, timestamp, initialized := true },
      .ok (rootOf coins))

/-- A removal is a known coin that is not spent. -/
def removal (coinId : CoinId) : Res CoinRecord :=
  match l.coins[coinId]? with
  | none => err (.coinNotFound coinId)
  | some rec => if rec.isSpent then err (.doubleSpend coinId) else .ok rec

/-- A new id is neither known nor claimed before. -/
def claim (claimed : Finset Bytes32) (coinId : CoinId) : Res (Finset Bytes32) :=
  if coinId ∈ claimed ∨ (l.coins[coinId]?).isSome then err (.coinAlreadyExists coinId)
  else .ok (insert coinId claimed)

/-- The checks of a block, the first that fails is the answer; the result is what it spends. -/
def validate (block : BlockData) : Res (List CoinRecord) :=
  if !l.initialized then err .notInitialized
  else do
    let next ← checkedAdd l.height 1
    if block.height ≠ next then err (.heightMismatch next block.height)
    else if block.parentHash ≠ l.tipHash then err (.parentHashMismatch l.tipHash block.parentHash)
    else if block.coinbaseCoins.length < minRewards then
      err (.invalidRewardCoinCount (">= " ++ minRewards.repr) block.coinbaseCoins.length)
    else do
      let removed ← block.removals.mapM l.removal
      let _ ← block.claimedIds.foldlM l.claim ∅
      return removed

/-- The coins after a block: its own, and the spent ones. -/
def coinsAfter (block : BlockData) (removed : List CoinRecord) : IdMap CoinRecord :=
  putRecords l.coins (createdRecords block ++ removed.map (·.spend block.height))

/-- The pairs of a block's hints, but for the all-zero ones. -/
def hintsOf (block : BlockData) : Finset HintPair :=
  ((block.hints.filter (·.2 ≠ .zero)).map fun hint => (hint.1, hint.2.bytes)).toFinset

/-- The block is taken as a whole, or not at all. -/
def applyBlock (block : BlockData) : Ledger × Res ApplyBlockResult :=
  match l.validate block with
  | .error e => (l, .error e)
  | .ok removed =>
    let coins := l.coinsAfter block removed
    match block.expectedStateRoot.filter (· ≠ rootOf coins) with
    | some expected => (l, err (.stateRootMismatch expected (rootOf coins)))
    | none =>
      ({ l with
          coins
          hints := l.hints ∪ hintsOf block
          height := block.height
          tipHash := block.blockHash
          timestamp := block.timestamp },
        .ok {
          stateRoot := rootOf coins
          coinsCreated := (createdRecords block).length
          coinsSpent := removed.length
          height := block.height })

/-! ## Rollbacks -/

/-- Confirmed above the target. -/
def isDeleted (target : UInt64) (rec : CoinRecord) : Bool := target < rec.confirmedHeight

/-- Confirmed by the target and spent above it. -/
def isRevived (target : UInt64) (rec : CoinRecord) : Bool :=
  rec.confirmedHeight ≤ target && rec.spentHeight.any (target < ·)

/-- Cut the ledger back to a height below its own. -/
def cutTo (target : UInt64) : Ledger × Res RollbackResult :=
  ({ l with
      coins := l.coins.filterMap fun id _ => l.coinset.rollback target id
      hints := l.hints.filter fun p => !(l.coins[p.1]?).any (isDeleted target)
      height := target
      tipHash := .zero },
    .ok {
      modifiedCoins := l.coins.filter fun _ rec => isDeleted target rec || isRevived target rec
      coinsDeleted := (l.coins.filter fun _ => isDeleted target).size
      coinsUnspent := (l.coins.filter fun _ => isRevived target).size
      newHeight := target })

/-- The guards of `rollback_to_block`, then the cut. -/
def rollbackToBlock (targetHeight : Int64) : Ledger × Res RollbackResult :=
  if !l.initialized then (l, err .notInitialized)
  else if l.height.toInt64 < targetHeight then (l, err (.rollbackAboveTip targetHeight l.height))
  else if l.height ≤ CoinStore.effectiveTarget targetHeight ∧ 0 ≤ targetHeight then
    (l, .ok { modifiedCoins := ∅, coinsDeleted := 0, coinsUnspent := 0, newHeight := l.height })
  else l.cutTo (CoinStore.effectiveTarget targetHeight)

/-- The target is the height less `n`, with `i64` arithmetic. -/
def rollbackNBlocks (n : UInt64) : Ledger × Res RollbackResult :=
  if !l.initialized then (l, err .notInitialized)
  else
    match checkedSub l.height.toInt64 n.toInt64 with
    | .error e => (l, .error e)
    | .ok target => l.rollbackToBlock target

/-! ## Snapshots and checkpoints -/

/-- All coins, with their count and the value of the unspent ones. -/
def snapshot : Res CoinStoreSnapshot :=
  if !l.initialized then err .notInitialized
  else do
    let totalValue ← unspentValue l.coins
    return {
      height := l.height
      blockHash := l.tipHash
      stateRoot := rootOf l.coins
      timestamp := l.timestamp
      coins := l.coins
      hints := []
      totalCoins := UInt64.ofNat l.coins.size
      totalValue }

/-- The coins and the tip of the snapshot, its hints, and no checkpoint. -/
def restore (snapshot : CoinStoreSnapshot) : Ledger where
  coins := snapshot.coins
  hints := (snapshot.hints.map fun hint => (hint.1, hint.2.bytes)).toFinset
  checkpoints := ∅
  maxSnapshots := l.maxSnapshots
  height := snapshot.height
  tipHash := snapshot.blockHash
  timestamp := snapshot.timestamp
  initialized := true

/-- The checkpoints of the greatest heights; no limit if `maxSnapshots` is 0. -/
def keepGreatest (checkpoints : OrdMap.Map UInt64 CoinStoreSnapshot) (maxSnapshots : Nat) :
    OrdMap.Map UInt64 CoinStoreSnapshot :=
  if maxSnapshots = 0 then checkpoints
  else checkpoints.filter fun height _ => (heightsAbove checkpoints.keys height).length < maxSnapshots

/-- The snapshot becomes the checkpoint of its height. -/
def saveSnapshot : Ledger × Res Unit :=
  match l.snapshot with
  | .error e => (l, .error e)
  | .ok snap =>
    ({ l with checkpoints := keepGreatest (l.checkpoints.insert l.height snap) l.maxSnapshots }, .ok ())

/-! ## Hints -/

/-- A valid hint is one pair more, unless it is empty. -/
def addHint (coinId : CoinId) (hint : Bytes) : Ledger × Res Unit :=
  match validateHint hint with
  | .error e => (l, .error e)
  | .ok .skip => (l, .ok ())
  | .ok .store => ({ l with hints := insert (coinId, hint) l.hints }, .ok ())

/-- The pairs of these coins are dropped and counted. -/
def removeHintsForCoins (coinIds : List CoinId) : Ledger × Res Nat :=
  ({ l with hints := l.hints.filter (·.1 ∉ coinIds) },
    .ok (l.hints.filter (·.1 ∈ coinIds)).card)

/-! ## Questions -/

/-- The counts and the value of the coins. -/
def tally : Tally := l.coins.toList.foldl (fun t kv => t.add kv.2) ⟨0, 0, 0⟩

/-- The figures of `CoinStoreStats`. -/
def stats : CoinStoreStats where
  height := l.height
  timestamp := l.timestamp
  unspentCount := l.tally.unspentCount
  spentCount := l.tally.spentCount
  totalUnspentValue := l.tally.totalUnspentValue
  stateRoot := rootOf l.coins
  tipHash := l.tipHash
  hintCount := UInt64.ofNat l.hints.card
  snapshotCount := l.checkpoints.size

/-- The coin is known and not spent. -/
def isUnspent (coinId : CoinId) : Bool := (l.coins[coinId]?).any fun rec => !rec.isSpent

/-- The records that pass a test, in the order of their ids. -/
def recordsWhere (p : CoinRecord → Bool) : List CoinRecord :=
  (l.coins.toList.filter fun kv => p kv.2).map (·.2)

/-- The coins spent at a height; nothing is spent at height 0. -/
def getCoinsRemovedAtHeight (height : UInt64) : List CoinRecord :=
  if height = 0 then [] else l.recordsWhere (·.spentHeight = some height)

/-! ## The machine -/

/-- One call of the ledger. -/
def step : Call → Ledger × Answer
  | .initGenesis coins timestamp => (l.initGenesis coins timestamp).map id .root
  | .applyBlock block => (l.applyBlock block).map id .block
  | .rollbackToBlock target => (l.rollbackToBlock target).map id .rollback
  | .rollbackNBlocks n => (l.rollbackNBlocks n).map id .rollback
  | .addHint coinId hint => (l.addHint coinId hint).map id .unit
  | .removeHintsForCoins coinIds => (l.removeHintsForCoins coinIds).map id .count
  | .saveSnapshot _ => l.saveSnapshot.map id .unit
  | .reopen config => ({ l with maxSnapshots := config.maxSnapshots }, .unit (.ok ()))
  | .restore snapshot => (l.restore snapshot, .unit (.ok ()))
  | .snapshot => (l, .snapshot l.snapshot)
  | .stateRoot => (l, .root (.ok (rootOf l.coins)))
  | .stats => (l, .stats l.stats)
  | .isUnspent coinId => (l, .flag (l.isUnspent coinId))
  | .getCoinRecord coinId => (l, .record (.ok l.coins[coinId]?))
  | .getCoinRecords coinIds => (l, .records (.ok (coinIds.filterMap (l.coins[·]?))))
  | .getCoinsAddedAtHeight height =>
    (l, .records (.ok (l.recordsWhere (·.confirmedHeight = height))))
  | .getCoinsRemovedAtHeight height => (l, .records (.ok (l.getCoinsRemovedAtHeight height)))
  | .loadSnapshot height => (l, .checkpoint (.ok l.checkpoints[height]?))
  | .availableSnapshotHeights => (l, .heights (.ok l.checkpoints.keys))
  | .loadLatestSnapshot => (l, .checkpoint (.ok (l.checkpoints.toList.getLast?.map (·.2))))

/-- **The ledger as a machine.** -/
def machine : Machine Ledger Call Answer where
  step := step

/-- What a caller promises: a block claims the ids of its coins, and the serializer iterates over
the map that it writes. -/
def Promises : Call → Prop
  | .applyBlock block => block.ClaimsItsCoins
  | .saveSnapshot entries => ∀ snap, l.snapshot = .ok snap → snap.Iterates entries
  | .restore _ => False
  | _ => True

/-- The states of a run; a restore takes a snapshot of such a state. -/
inductive Reached : Ledger → Prop
  | blank (config : CoinStoreConfig) : Reached (.blank config)
  | step {l : Ledger} {call : Call} : Reached l → l.Promises call → Reached (l.step call).1
  | restore {l source : Ledger} {snapshot : CoinStoreSnapshot} : Reached l → Reached source →
    source.snapshot = .ok snapshot → Reached (l.restore snapshot)

/-- **The calls allowed**: those with their promise, and the restore of a snapshot that was taken in
some run. -/
def Allows (call : Call) : Prop :=
  l.Promises call ∨ ∃ (source : Ledger) (snapshot : CoinStoreSnapshot),
    call = .restore snapshot ∧ source.Reached ∧ source.snapshot = .ok snapshot

end Ledger

/-! ## The store as a machine -/

namespace CoinStore

variable (s : CoinStore)

/-- One call of the store. -/
def step : Call → CoinStore × Answer
  | .initGenesis coins timestamp => (s.initGenesis coins timestamp).map id .root
  | .applyBlock block => (s.applyBlock block).map id .block
  | .rollbackToBlock target => (s.rollbackToBlock target).map id .rollback
  | .rollbackNBlocks n => (s.rollbackNBlocks n).map id .rollback
  | .addHint coinId hint => (s.addHint coinId hint).map id .unit
  | .removeHintsForCoins coinIds => (s.removeHintsForCoins coinIds).map id .count
  | .saveSnapshot entries => (s.saveSnapshot entries).map id .unit
  | .reopen config =>
    match withConfig config s.backend with
    | .ok s' => (s', .unit (.ok ()))
    | .error e => (s, .unit (.error e))
  | .restore snapshot => (s.restore snapshot).map id .unit
  | .snapshot => (s, .snapshot s.snapshot)
  | .stateRoot => (s.stateRoot.2, .root (.ok s.stateRoot.1))
  | .stats => (s, .stats s.stats)
  | .isUnspent coinId => (s, .flag (s.isUnspent coinId))
  | .getCoinRecord coinId => (s, .record (s.getCoinRecord coinId))
  | .getCoinRecords coinIds => (s, .records (s.getCoinRecords coinIds))
  | .getCoinsAddedAtHeight height => (s, .records (s.getCoinsAddedAtHeight height))
  | .getCoinsRemovedAtHeight height => (s, .records (s.getCoinsRemovedAtHeight height))
  | .loadSnapshot height => (s, .checkpoint (s.loadSnapshot height))
  | .availableSnapshotHeights => (s, .heights s.availableSnapshotHeights)
  | .loadLatestSnapshot => (s, .checkpoint s.loadLatestSnapshot)

/-- **The store as a machine.** -/
def machine : Machine CoinStore Call Answer where
  step := step

end CoinStore

end DigCoinstore
