import DigCoinstore.CoinStore.Snapshot

/-!
# Hints (`hints.rs`)

The calls that write the two hint tables directly, one backend call at a time, and the lookups.
-/

namespace DigCoinstore

variable [Chia]

/-- `MAX_HINT_LENGTH` -/
def maxHintLength : Nat := 32

/-- What to do with a hint that is not too long. -/
inductive HintAction where
  | skip
  | store
deriving DecidableEq

/-- An empty hint is skipped, one above the limit is an error. -/
def validateHint (hint : Bytes) : Res HintAction :=
  if hint.isEmpty then .ok .skip
  else if maxHintLength < hint.length then err (.hintTooLong hint.length maxHintLength)
  else .ok .store

/-- Delete one forward hint row and its reverse row; a malformed key is skipped. -/
def removeHintRow (coinId : CoinId) (backend : Backend) (removed : Nat) (fwdKey : Bytes) :
    Backend × Res Nat :=
  if fwdKey.length ≤ 32 then (backend, .ok removed)
  else
    match backend.delete .hintsByValue (fwdKey.drop 32 ++ coinId.bytes) with
    | (backend, .error e) => (backend, orStorage (.error e))
    | (backend, .ok ()) =>
      match backend.delete .hints fwdKey with
      | (backend, .error e) => (backend, orStorage (.error e))
      | (backend, .ok ()) => (backend, .ok (removed + 1))

def removeHintsForCoin (backend : Backend) (removed : Nat) (coinId : CoinId) : Backend × Res Nat :=
  match orStorage (backend.prefixScan .hints coinId.bytes) with
  | .error e => (backend, .error e)
  | .ok entries => forBackend (removeHintRow coinId) (entries.map (·.1)) backend removed

/-- The backend calls of `add_hint`. -/
def addHintRows (backend : Backend) (coinId : CoinId) (hint : Bytes) : Backend × Res Unit :=
  match orStorage (backend.get .hints (coinId.bytes ++ hint)) with
  | .error e => (backend, .error e)
  | .ok (some _) => (backend, .ok ())
  | .ok none =>
    match backend.put .hints (coinId.bytes ++ hint) [] with
    | (backend, .error e) => (backend, orStorage (.error e))
    | (backend, .ok ()) =>
      let (backend, r) := backend.put .hintsByValue (hint ++ coinId.bytes) []
      (backend, orStorage r)

/-- `&key[32..64]` of a key that is long enough. -/
def keyTail (key : Bytes) : Option Bytes32 :=
  if h : 64 ≤ key.length then some ⟨slice key 32 64, by simp [slice]; omega⟩ else none

/-- `&key[hint.len()..hint.len() + 32]` of a key of exactly that length. -/
def exactTail (hintLen : Nat) (key : Bytes) : Option Bytes32 :=
  if h : key.length = hintLen + 32 then
    some ⟨slice key hintLen (hintLen + 32), by simp [slice, h]⟩
  else none

/-- The loop of the lookups by hint, left once `result` is full; `tail` reads the coin id at the end of
a key. -/
def collectTails (tail : Bytes → Option Bytes32) (maxItems : Nat) :
    List KvPair → List CoinId → List CoinId
  | [], result => result
  | (key, _) :: entries, result =>
    if maxItems ≤ result.length then result
    else collectTails tail maxItems entries (result ++ (tail key).toList)

namespace CoinStore

def addHint (s : CoinStore) (coinId : CoinId) (hint : Bytes) : CoinStore × Res Unit :=
  match validateHint hint with
  | .error e => (s, .error e)
  | .ok .skip => (s, .ok ())
  | .ok .store =>
    let (backend, r) := addHintRows s.backend coinId hint
    ({ s with backend }, r)

/-- The count is a `u64` in the source; a table has fewer rows than that. -/
def removeHintsForCoins (s : CoinStore) (coinIds : List CoinId) : CoinStore × Res Nat :=
  let (backend, r) := forBackend removeHintsForCoin coinIds s.backend 0
  ({ s with backend }, r)

/-! ## Lookups -/

/-- The coins with a 32-byte hint, at most `maxItems`. -/
def getCoinIdsByHint (s : CoinStore) (hint : Bytes32) (maxItems : Nat) : Res (List CoinId) := do
  let entries ← orStorage (s.backend.prefixScan .hintsByValue hint.bytes)
  return collectTails keyTail maxItems entries []

/-- The coins with a hint of any length, at most `maxItems`. -/
def getCoinIdsByHintBytes (s : CoinStore) (hint : Bytes) (maxItems : Nat) : Res (List CoinId) := do
  let entries ← orStorage (s.backend.prefixScan .hintsByValue hint)
  return collectTails (exactTail hint.length) maxItems entries []

/-- The 32-byte hints of each coin; a coin without hints is left out. -/
def getHintsForCoinIds (s : CoinStore) (coinIds : List CoinId) : Res (IdMap (List Bytes32)) :=
  coinIds.foldlM (fun result coinId => do
    let entries ← orStorage (s.backend.prefixScan .hints coinId.bytes)
    let hintsForCoin := entries.filterMap fun (key, _) => keyTail key
    if hintsForCoin.isEmpty then return result
    else return result.insert coinId hintsForCoin) ∅

def countHints (s : CoinStore) : Res UInt64 := do
  let entries ← orStorage (s.backend.prefixScan .hints [])
  return UInt64.ofNat entries.length

end CoinStore

end DigCoinstore
