import DigCoinstore.CoinStore.Snapshot
import DigCoinstore.Storage.SnapshotBincode

/-!
# Checkpoints (`CoinStore::save_snapshot`, `load_snapshot`)

`save_snapshot` writes the snapshot of the current state under its height and then deletes the rows
of the smallest heights until at most `max_snapshots` are left.
-/

namespace DigCoinstore

/-! ## Keys -/

def snapshotKey (height : UInt64) : Bytes := FixedInt.toBeBytes height

/-- `&key[..8]` panics on a shorter key. -/
def heightFromSnapshotKey (key : Bytes) : Res UInt64 :=
  if 8 ≤ key.length then .ok (FixedInt.fromBeBytes (key.take 8))
  else .error (.panic "range end index 8 out of range for slice")

theorem snapshotKey_injective : Function.Injective snapshotKey := fun _ _ h =>
  FixedInt.toBeBytes_inj.1 h

@[simp] theorem heightFromSnapshotKey_snapshotKey (height : UInt64) :
    heightFromSnapshotKey (snapshotKey height) = .ok height := by
  have htake : (snapshotKey height).take 8 = snapshotKey height :=
    List.take_of_length_le (by simp [snapshotKey])
  rw [heightFromSnapshotKey, htake, if_pos (by simp [snapshotKey]), snapshotKey,
    FixedInt.fromBeBytes_toBeBytes]

variable [Chia]

/-! ## Calls -/

/-- The heights of the stored checkpoints, as `sort_unstable` leaves them. -/
def sortedHeights (entries : List KvPair) : Res (List UInt64) := do
  let heights ← entries.mapM fun kv => heightFromSnapshotKey kv.1
  return heights.mergeSort

/-- Delete the smallest heights until `maxSnapshots` rows are left; 0 means no limit. -/
def pruneSnapshotsToLimit (backend : Backend) (maxSnapshots : Nat) : Backend × Res Unit :=
  if maxSnapshots = 0 then (backend, .ok ())
  else
    match orStorage (backend.prefixScan .stateSnapshots []) with
    | .error e => (backend, .error e)
    | .ok entries =>
      if entries.length ≤ maxSnapshots then (backend, .ok ())
      else
        match sortedHeights entries with
        | .error e => (backend, .error e)
        | .ok heights =>
          let excess := entries.length - maxSnapshots
          forBackend (deleteKey .stateSnapshots) ((heights.take excess).map snapshotKey) backend ()

namespace CoinStore

variable (s : CoinStore)

/-- **Store a checkpoint** of the current state; `entries` is the order in which the serializer
iterates over the map of coins. -/
def saveSnapshot (entries : List (CoinId × CoinRecord)) : CoinStore × Res Unit :=
  if !s.initialized then (s, err .notInitialized)
  else
    match s.snapshot with
    | .error e => (s, .error e)
    | .ok snap =>
      let payload := encodeCoinStoreSnapshot snap entries
      match s.backend.put .stateSnapshots (snapshotKey s.height) payload with
      | (backend, .error e) => ({ s with backend }, orStorage (.error e))
      | (backend, .ok ()) =>
        let (backend, r) := pruneSnapshotsToLimit backend s.config.maxSnapshots
        ({ s with backend }, r)

/-- The checkpoint of a height, if it is stored; the text of a decoding error is that of bincode. -/
def loadSnapshot (height : UInt64) : Res (Option CoinStoreSnapshot) := do
  match ← orStorage (s.backend.get .stateSnapshots (snapshotKey height)) with
  | none => return none
  | some bytes =>
    match decodeCoinStoreSnapshotStorage bytes with
    | some snap => return some snap
    | none => err (.deserializationError "")

/-- A failed scan reads as no checkpoints. -/
def availableSnapshotHeights : Res (List UInt64) :=
  match s.backend.prefixScan .stateSnapshots [] with
  | .ok entries => sortedHeights entries
  | .error _ => .ok []

/-- The checkpoint of the greatest height. -/
def loadLatestSnapshot : Res (Option CoinStoreSnapshot) := do
  let heights ← s.availableSnapshotHeights
  match heights.getLast? with
  | none => return none
  | some height => s.loadSnapshot height

end CoinStore

end DigCoinstore
