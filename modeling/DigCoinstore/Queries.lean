import DigCoinstore.CoinStore.State

/-!
# Paginated queries (`queries.rs`, `batch_coin_states_by_puzzle_hashes`)
-/

namespace DigCoinstore

variable [Chia]

/-- `MAX_PUZZLE_HASH_BATCH_SIZE` -/
def maxPuzzleHashBatchSize : Nat := 990

/-- `max(confirmed_height, spent_height)`, the height of a coin's last change. -/
def lastHeight (rec : CoinRecord) : UInt64 := max rec.confirmedHeight (rec.spentHeight.getD 0)

/-- The `retain` filters. -/
def CoinStateFilters.keeps (filters : CoinStateFilters) (minHeight : UInt64) (rec : CoinRecord) :
    Bool :=
  if rec.isSpent && !filters.includeSpent then false
  else if !rec.isSpent && !filters.includeUnspent then false
  else if rec.confirmedHeight < minHeight then false
  else if rec.coin.amount < filters.minAmount then false
  else true

/-- The comparison of the sort: by last height, then by coin id. -/
def pageOrder (a b : CoinRecord) : Ordering :=
  (compare (lastHeight a) (lastHeight b)).then (compare a.coinId b.coinId)

/-- Step back from `stop` over the records at the overflow height. -/
def blockBoundary (candidates : List CoinRecord) (overflowHeight : UInt64) : Nat → Nat
  | 0 => 0
  | stop + 1 =>
    match candidates[stop]? with
    | some rec => if lastHeight rec < overflowHeight then stop + 1
      else blockBoundary candidates overflowHeight stop
    | none => stop + 1

namespace CoinStore

variable (s : CoinStore)

/-- One index entry: the coin of the key's last 32 bytes, if it is met for the first time. -/
def collectEntry (acc : Finset CoinId × List CoinRecord) (entry : KvPair) :
    Res (Finset CoinId × List CoinRecord) :=
  if entry.1.length < 64 then .ok acc
  else do
    let coinId ← coinIdFromKey (slice entry.1 32 64)
    if coinId ∈ acc.1 then return acc
    else
      match ← s.getCoinRecord coinId with
      | some rec => return (insert coinId acc.1, acc.2 ++ [rec])
      | none => return (insert coinId acc.1, acc.2)

/-- The coins of an index under each hash. -/
def collect (cf : ColumnFamily) (puzzleHashes : List Bytes32)
    (acc : Finset CoinId × List CoinRecord) : Res (Finset CoinId × List CoinRecord) :=
  puzzleHashes.foldlM (fun acc ph => do
    let entries ← orStorage (s.backend.prefixScan cf ph.bytes)
    entries.foldlM s.collectEntry acc) acc

/-- Cut a sorted list into a page and the height to resume from. -/
def page (candidates : List CoinRecord) (maxItems : Nat) : List CoinState × Option UInt64 :=
  match candidates[maxItems]? with
  | none => (candidates.map CoinRecord.toCoinState, none)
  | some overflowRec =>
    let overflowHeight := lastHeight overflowRec
    let stop := blockBoundary candidates overflowHeight maxItems
    ((candidates.take stop).map CoinRecord.toCoinState, some overflowHeight)

/-- The matching records, each once, in page order. -/
def candidates (puzzleHashes : List Bytes32) (minHeight : UInt64) (filters : CoinStateFilters) :
    Res (List CoinRecord) := do
  let acc ← s.collect .coinByPuzzleHash puzzleHashes (∅, [])
  let acc ← if filters.includeHinted then s.collect .hintsByValue puzzleHashes acc else pure acc
  return (acc.2.filter (filters.keeps minHeight)).mergeSort fun a b => (pageOrder a b).isLE

/-- **One page** of the coins of the puzzle hashes from `minHeight` on. -/
def batchCoinStatesByPuzzleHashes (puzzleHashes : List Bytes32) (minHeight : UInt64)
    (filters : CoinStateFilters) (maxItems : Nat) : Res (List CoinState × Option UInt64) :=
  if maxPuzzleHashBatchSize < puzzleHashes.length then
    err (.puzzleHashBatchTooLarge puzzleHashes.length maxPuzzleHashBatchSize)
  else do
    let candidates ← s.candidates puzzleHashes minHeight filters
    return page candidates maxItems

end CoinStore

end DigCoinstore
