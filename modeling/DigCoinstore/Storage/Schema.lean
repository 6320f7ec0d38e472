import DigCoinstore.Error

/-!
# Column families and keys (`storage/schema.rs`)

Composite keys are fixed-width parts one after the other, heights most significant byte first.
-/

namespace DigCoinstore

inductive ColumnFamily where
  | coinRecords
  | coinByPuzzleHash
  | unspentByPuzzleHash
  | coinByParent
  | coinByConfirmedHeight
  | coinBySpentHeight
  | hints
  | hintsByValue
  | merkleNodes
  | archiveCoinRecords
  | stateSnapshots
  | metadata
deriving DecidableEq

def ColumnFamily.name : ColumnFamily → String
  | .coinRecords => "coin_records"
  | .coinByPuzzleHash => "coin_by_puzzle_hash"
  | .unspentByPuzzleHash => "unspent_by_puzzle_hash"
  | .coinByParent => "coin_by_parent"
  | .coinByConfirmedHeight => "coin_by_confirmed_height"
  | .coinBySpentHeight => "coin_by_spent_height"
  | .hints => "hints"
  | .hintsByValue => "hints_by_value"
  | .merkleNodes => "merkle_nodes"
  | .archiveCoinRecords => "archive_coin_records"
  | .stateSnapshots => "state_snapshots"
  | .metadata => "metadata"

def allColumnFamilies : List ColumnFamily :=
  [.coinRecords, .coinByPuzzleHash, .unspentByPuzzleHash, .coinByParent, .coinByConfirmedHeight,
    .coinBySpentHeight, .hints, .hintsByValue, .merkleNodes, .archiveCoinRecords, .stateSnapshots,
    .metadata]

theorem mem_allColumnFamilies (cf : ColumnFamily) : cf ∈ allColumnFamilies := by
  cases cf <;> decide

/-! ## Keys -/

def coinKey (coinId : Bytes32) : Bytes := coinId.bytes

/-- `&key[..32]` panics on a shorter key. -/
def coinIdFromKey (key : Bytes) : Res Bytes32 :=
  if h : 32 ≤ key.length then .ok (.ofTake key h)
  else .error (.panic "range end index 32 out of range for slice")

def puzzleHashCoinKey (puzzleHash coinId : Bytes32) : Bytes := puzzleHash.bytes ++ coinId.bytes

def parentCoinKey (parentId coinId : Bytes32) : Bytes := parentId.bytes ++ coinId.bytes

def heightCoinKey (height : UInt64) (coinId : Bytes32) : Bytes :=
  FixedInt.toBeBytes height ++ coinId.bytes

def coinHintKey (coinId hint : Bytes32) : Bytes := coinId.bytes ++ hint.bytes

def hintCoinKey (hint coinId : Bytes32) : Bytes := hint.bytes ++ coinId.bytes

/-- `level || path`. -/
def merkleNodeKey (level : UInt8) (path : Bytes32) : Bytes := level :: path.bytes

/-- `b"chain_height"` -/
def metaHeight : Bytes := [99, 104, 97, 105, 110, 95, 104, 101, 105, 103, 104, 116]

/-- `b"chain_tip_hash"` -/
def metaTipHash : Bytes := [99, 104, 97, 105, 110, 95, 116, 105, 112, 95, 104, 97, 115, 104]

/-- `b"chain_timestamp"` -/
def metaTimestamp : Bytes := [99, 104, 97, 105, 110, 95, 116, 105, 109, 101, 115, 116, 97, 109, 112]

/-- `b"initialized"` -/
def metaInitialized : Bytes := [105, 110, 105, 116, 105, 97, 108, 105, 122, 101, 100]

/-! ## Keys read back -/

theorem Bytes32.bytes_inj {a b : Bytes32} : a.bytes = b.bytes ↔ a = b := Bytes32.ext_iff.symm

@[simp] theorem Bytes32.ofTake_append (a : Bytes32) (rest : Bytes) (h) :
    Bytes32.ofTake (a.bytes ++ rest) h = a :=
  Bytes32.ext (List.take_left' a.length_bytes)

@[simp] theorem Bytes32.ofTake_bytes (a : Bytes32) (h) : Bytes32.ofTake a.bytes h = a :=
  Bytes32.ext (List.take_of_length_le (by simp))

@[simp] theorem coinIdFromKey_coinKey (id : Bytes32) : coinIdFromKey (coinKey id) = .ok id := by
  simp [coinIdFromKey, coinKey]

@[simp] theorem coinIdFromKey_bytes (id : Bytes32) : coinIdFromKey id.bytes = .ok id :=
  coinIdFromKey_coinKey id

theorem coinKey_inj {id id' : Bytes32} : coinKey id = coinKey id' ↔ id = id' := Bytes32.bytes_inj

theorem append_bytes_inj {a a' b b' : Bytes32} :
    a.bytes ++ b.bytes = a'.bytes ++ b'.bytes ↔ a = a' ∧ b = b' := by
  refine ⟨fun h => ?_, fun ⟨ha, hb⟩ => ha ▸ hb ▸ rfl⟩
  obtain ⟨ha, hb⟩ := List.append_inj h (by simp)
  exact ⟨Bytes32.ext ha, Bytes32.ext hb⟩

end DigCoinstore
