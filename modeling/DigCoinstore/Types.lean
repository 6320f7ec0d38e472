import Mathlib.Data.Finset.Basic
import Mathlib.Tactic.Common
import DigCoinstore.Lib.FixedInt

/-!
# Domain types (`types.rs`)

`Bytes32` carries its length, so a key or a hash of another length cannot be built. The functions
of the crates `chia-sha2` and `chia-protocol` that the store calls are the class `Chia`. A
`HashMap` keyed by `Bytes32` is an `IdMap`, listed in the order of its keys: the order in which a
`HashMap` is iterated is unspecified, and no result below depends on it.
-/

namespace DigCoinstore

/-- A 32-byte string: hashes, coin ids, puzzle hashes. -/
@[ext] structure Bytes32 where
  bytes : Bytes
  length_bytes : bytes.length = 32
deriving DecidableEq

attribute [simp] Bytes32.length_bytes

namespace Bytes32

/-- `Bytes32::from([0u8; 32])`, also `Bytes32::default()`. -/
def zero : Bytes32 := ⟨List.replicate 32 0, rfl⟩

/-- The first 32 bytes of a string that has them. -/
def ofTake (bs : Bytes) (h : 32 ≤ bs.length) : Bytes32 := ⟨bs.take 32, by simp [h]⟩

instance : Ord Bytes32 := ⟨fun a b => compare a.bytes b.bytes⟩

instance : Std.TransOrd Bytes32 where
  eq_swap := Std.OrientedOrd.eq_swap (α := Bytes)
  isLE_trans := Std.TransOrd.isLE_trans (α := Bytes)

instance : Std.LawfulEqOrd Bytes32 where
  eq_of_compare h := Bytes32.ext (Std.LawfulEqOrd.eq_of_compare (α := Bytes) h)

end Bytes32

/-- The id of a coin. -/
abbrev CoinId := Bytes32

/-- `HashMap<Bytes32, V>`. -/
abbrev IdMap (V : Type) := Std.ExtTreeMap Bytes32 V compare

/-- `chia_protocol::Coin`. -/
@[ext] structure Coin where
  parentCoinInfo : Bytes32
  puzzleHash : Bytes32
  amount : UInt64
deriving DecidableEq

/-- The functions of `chia-sha2` and `chia-protocol` that the store calls. -/
class Chia where
  /-- SHA-256 of a byte string. -/
  sha256 : Bytes → Bytes32
  /-- `Coin::coin_id`. -/
  coinId : Coin → CoinId
  /-- `Display` of a `Bytes32`. -/
  display : Bytes32 → String
  /-- `Debug` of a `Bytes32`. -/
  debug : Bytes32 → String

/-- The stored row of a coin. -/
@[ext] structure CoinRecord where
  coin : Coin
  confirmedHeight : UInt64
  spentHeight : Option UInt64
  coinbase : Bool
  timestamp : UInt64
  ffEligible : Bool
deriving DecidableEq

/-- `chia_protocol::CoinState`. -/
structure CoinState where
  coin : Coin
  spentHeight : Option UInt32
  createdHeight : Option UInt32
deriving DecidableEq

namespace CoinRecord

/-- A coin that is not spent and not flagged for fast-forward. -/
def new (coin : Coin) (confirmedHeight timestamp : UInt64) (coinbase : Bool) : CoinRecord :=
  { coin, confirmedHeight, spentHeight := none, coinbase, timestamp, ffEligible := false }

/-- The coin has a height of its spend. -/
def isSpent (rec : CoinRecord) : Bool := rec.spentHeight.isSome

/-- The record once the coin is spent at `height`. -/
def spend (rec : CoinRecord) (height : UInt64) : CoinRecord := { rec with spentHeight := some height }

/-- The id of the coin of a record. -/
def coinId [Chia] (rec : CoinRecord) : CoinId := Chia.coinId rec.coin

/-- `as u32` keeps the low 32 bits. Debug assertions are off in the modelled build: a height that does
not fit is cut and not refused. -/
def toCoinState (rec : CoinRecord) : CoinState :=
  { coin := rec.coin
    spentHeight := rec.spentHeight.map UInt64.toUInt32
    createdHeight := some rec.confirmedHeight.toUInt32 }

end CoinRecord

/-- A transaction addition; `coinId` is the id the caller claims for `coin`. -/
structure CoinAddition where
  coinId : CoinId
  coin : Coin
  sameAsParent : Bool
deriving DecidableEq

/-- A block as `apply_block` takes it. -/
structure BlockData where
  height : UInt64
  timestamp : UInt64
  blockHash : Bytes32
  parentHash : Bytes32
  additions : List CoinAddition
  removals : List CoinId
  coinbaseCoins : List Coin
  hints : List (CoinId × Bytes32)
  expectedStateRoot : Option Bytes32
deriving DecidableEq

/-- What an accepted block did. -/
structure ApplyBlockResult where
  stateRoot : Bytes32
  coinsCreated : Nat
  coinsSpent : Nat
  height : UInt64
deriving DecidableEq

/-- What a rollback did; `modifiedCoins` are the records before it. -/
structure RollbackResult where
  modifiedCoins : IdMap CoinRecord
  coinsDeleted : Nat
  coinsUnspent : Nat
  newHeight : UInt64

/-- All coins at a height, with the tip they belong to. -/
structure CoinStoreSnapshot where
  height : UInt64
  blockHash : Bytes32
  stateRoot : Bytes32
  timestamp : UInt64
  coins : IdMap CoinRecord
  hints : List (CoinId × Bytes32)
  totalCoins : UInt64
  totalValue : UInt64

/-- `chia_protocol::CoinStateFilters`. -/
structure CoinStateFilters where
  includeSpent : Bool
  includeUnspent : Bool
  includeHinted : Bool
  minAmount : UInt64

/-- An unspent coin with its parent and the parent of that. -/
structure UnspentLineageInfo where
  coinId : CoinId
  parentId : CoinId
  parentParentId : CoinId
deriving DecidableEq

/-- `CoinStoreConfig`, without the fields that only the engine reads. -/
structure CoinStoreConfig where
  maxSnapshots : Nat

end DigCoinstore
