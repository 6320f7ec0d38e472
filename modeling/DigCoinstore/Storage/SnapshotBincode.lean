import DigCoinstore.Lib.OrdMap
import DigCoinstore.Storage.KvBincode

/-!
# Bincode snapshots (`storage/kv_bincode.rs`)

A map is written as its length and its entries in the order of its iteration, which is any order;
the reader inserts what it reads into an empty map. Whatever the order, both forms are read back
(`decodeStorage_encode`, `decodeStorage_serialize`): a little-endian length of a `Bytes32` is not
32 when it is read big-endian.
-/

namespace DigCoinstore

/-! ## The layout -/

/-- The fields of a snapshot as they are written, the map as the list of its entries. -/
@[ext] structure SnapshotRow where
  height : UInt64
  blockHash : Bytes32
  stateRoot : Bytes32
  timestamp : UInt64
  coins : Codec.Counted (CoinId × CoinRecord)
  hints : Codec.Counted (CoinId × Bytes32)
  totalCoins : UInt64
  totalValue : UInt64

def coinEntryCodec (int : Codec UInt64) : Codec (CoinId × CoinRecord) :=
  (bytes32Codec int).pair (coinRecordCodec int)

def hintCodec (int : Codec UInt64) : Codec (CoinId × Bytes32) :=
  (bytes32Codec int).pair (bytes32Codec int)

def snapshotCodec (int : Codec UInt64) : Codec SnapshotRow :=
  (int.pair ((bytes32Codec int).pair ((bytes32Codec int).pair (int.pair
    ((Codec.list int (coinEntryCodec int)).pair
      ((Codec.list int (hintCodec int)).pair (int.pair int))))))).iso
    (fun (height, blockHash, stateRoot, timestamp, coins, hints, totalCoins, totalValue) =>
      { height, blockHash, stateRoot, timestamp, coins, hints, totalCoins, totalValue })
    (fun row => (row.height, row.blockHash, row.stateRoot, row.timestamp, row.coins, row.hints,
      row.totalCoins, row.totalValue))
    (fun _ => rfl) (fun _ => rfl)

/-- What the reader builds from the fields. -/
def SnapshotRow.toSnapshot (row : SnapshotRow) : CoinStoreSnapshot where
  height := row.height
  blockHash := row.blockHash
  stateRoot := row.stateRoot
  timestamp := row.timestamp
  coins := OrdMap.insertAll ∅ row.coins.1
  hints := row.hints.1
  totalCoins := row.totalCoins
  totalValue := row.totalValue

/-! ## Writing and reading -/

/-- The fields of `snap`, its map iterated in the order of `entries`. -/
def serializeSnapshot (int : Codec UInt64) (snap : CoinStoreSnapshot)
    (entries : List (CoinId × CoinRecord)) : Bytes :=
  int.encode snap.height ++ (bytes32Codec int).encode snap.blockHash ++
    (bytes32Codec int).encode snap.stateRoot ++ int.encode snap.timestamp ++
    int.encode (UInt64.ofNat entries.length) ++ entries.flatMap (coinEntryCodec int).encode ++
    int.encode (UInt64.ofNat snap.hints.length) ++ snap.hints.flatMap (hintCodec int).encode ++
    int.encode snap.totalCoins ++ int.encode snap.totalValue

/-- The snapshot in the stored form. -/
def encodeCoinStoreSnapshot (snap : CoinStoreSnapshot) (entries : List (CoinId × CoinRecord)) :
    Bytes :=
  serializeSnapshot .u64Be snap entries

/-- Read the stored form only. -/
def decodeCoinStoreSnapshot (bytes : Bytes) : Option CoinStoreSnapshot :=
  ((snapshotCodec .u64Be).decodeStrict bytes).map SnapshotRow.toSnapshot

/-- Read the stored form, else default bincode. -/
def decodeCoinStoreSnapshotStorage (bytes : Bytes) : Option CoinStoreSnapshot :=
  (decodeCoinStoreSnapshot bytes).or
    (((snapshotCodec .u64Le).decodeLax bytes).map SnapshotRow.toSnapshot)

/-- `entries` is the map of `snap` in some order of iteration; the lengths are those of Rust. -/
structure CoinStoreSnapshot.Iterates (snap : CoinStoreSnapshot)
    (entries : List (CoinId × CoinRecord)) : Prop where
  perm : entries.Perm snap.coins.toList
  coins_lt : entries.length < 2 ^ 64
  hints_lt : snap.hints.length < 2 ^ 64

theorem insertAll_perm {m : IdMap CoinRecord} {entries : List (CoinId × CoinRecord)}
    (h : entries.Perm m.toList) : OrdMap.insertAll ∅ entries = m := by
  have hnodup : (entries.map (·.1)).Nodup := (h.map _).nodup_iff.2 (OrdMap.nodup_keys m)
  refine Std.ExtTreeMap.ext_getElem? fun k => Option.ext fun v => ?_
  rw [OrdMap.getElem?_insertAll hnodup, h.mem_iff, OrdMap.mem_toList]

/-- The bytes are those of a row that gives the snapshot back. -/
theorem CoinStoreSnapshot.Iterates.row {snap : CoinStoreSnapshot}
    {entries : List (CoinId × CoinRecord)} (h : snap.Iterates entries) : ∃ row : SnapshotRow,
      row.toSnapshot = snap ∧ ∀ int, serializeSnapshot int snap entries = (snapshotCodec int).encode row := by
  refine ⟨{
    height := snap.height
    blockHash := snap.blockHash
    stateRoot := snap.stateRoot
    timestamp := snap.timestamp
    coins := ⟨entries, h.coins_lt⟩
    hints := ⟨snap.hints, h.hints_lt⟩
    totalCoins := snap.totalCoins
    totalValue := snap.totalValue }, ?_, fun int => ?_⟩
  · simp only [SnapshotRow.toSnapshot, insertAll_perm h.perm]
  · simp [serializeSnapshot, snapshotCodec, Codec.iso, Codec.pair, Codec.list]

/-! ## One form is not the other -/

/-- The little-endian length of a `Bytes32` is not 32 when it is read big-endian. -/
theorem decode_bytes32_be (b : Bytes32) (rest : Bytes) :
    (bytes32Codec .u64Be).decode ((bytes32Codec .u64Le).encode b ++ rest) = none := by
  have hlen : Codec.u64Le.encode 32 = Codec.u64Be.encode 2305843009213693952 := by decide
  simp [bytes32Codec, Codec.lenPrefixed, hlen, Codec.u64Be.decode_encode]

/-- A record in default bincode, `bincode::serialize`. -/
def serializeCoinRecord (rec : CoinRecord) : Bytes := (coinRecordCodec .u64Le).encode rec

theorem decodeCoinRecord_serialize (rec : CoinRecord) :
    decodeCoinRecord (serializeCoinRecord rec) = none := by
  have hparent := decode_bytes32_be rec.coin.parentCoinInfo
  simp [decodeCoinRecord, serializeCoinRecord, Codec.decodeStrict, coinRecordCodec, coinCodec,
    Codec.iso, Codec.pair, hparent]

theorem decodeCoinRecordStorage_serialize (rec : CoinRecord) :
    decodeCoinRecordStorage (serializeCoinRecord rec) = some rec := by
  rw [decodeCoinRecordStorage, decodeCoinRecord_serialize, Option.none_or]
  exact Codec.decodeLax_eq_some.2 ⟨[], (List.append_nil _).symm⟩

theorem decodeStrict_snapshot_be (row : SnapshotRow) :
    (snapshotCodec .u64Be).decodeStrict ((snapshotCodec .u64Le).encode row) = none := by
  have hhash := decode_bytes32_be row.blockHash
  obtain ⟨height, hheight⟩ : ∃ height, Codec.u64Le.encode row.height = Codec.u64Be.encode height :=
    ⟨_, (FixedInt.toBeBytes_fromBeBytes (Codec.length_u64Le row.height)).symm⟩
  have hread : ∀ rest, Codec.u64Be.decode (Codec.u64Le.encode row.height ++ rest) =
      some (height, rest) := fun rest => by
    rw [hheight, Codec.u64Be.decode_encode]
  simp [Codec.decodeStrict, snapshotCodec, Codec.iso, Codec.pair, hread, hhash]

variable {snap : CoinStoreSnapshot} {entries : List (CoinId × CoinRecord)}

/-- **The stored form is read back.** -/
theorem decodeStorage_encode (h : snap.Iterates entries) :
    decodeCoinStoreSnapshotStorage (encodeCoinStoreSnapshot snap entries) = some snap := by
  obtain ⟨row, rfl, hbytes⟩ := h.row
  simp [decodeCoinStoreSnapshotStorage, decodeCoinStoreSnapshot, encodeCoinStoreSnapshot, hbytes]

/-- **Default bincode is read back.** -/
theorem decodeStorage_serialize (h : snap.Iterates entries) :
    decodeCoinStoreSnapshotStorage (serializeSnapshot .u64Le snap entries) = some snap := by
  obtain ⟨row, rfl, hbytes⟩ := h.row
  have hlax : (snapshotCodec .u64Le).decodeLax ((snapshotCodec .u64Le).encode row) = some row :=
    Codec.decodeLax_eq_some.2 ⟨[], (List.append_nil _).symm⟩
  rw [decodeCoinStoreSnapshotStorage, decodeCoinStoreSnapshot, hbytes, decodeStrict_snapshot_be, hlax]
  rfl

end DigCoinstore
