import DigCoinstore.Lib.Codec
import DigCoinstore.Error

/-!
# Bincode rows (`storage/kv_bincode.rs`)

Fixed-width integers, a length-prefixed `Bytes32`, a tag byte for an option, the fields of a
struct one after the other. The stored form (`encodeCoinRecord`) is big-endian and its reader
rejects trailing bytes; the default form that older rows used is little-endian and its reader
tolerates them. A bincode row has 107 or 115 bytes (`length_coinRecordCodec`).
-/

namespace DigCoinstore

/-- The 32 bytes of a `Bytes32`. -/
def rawBytes32 : Codec Bytes32 :=
  .fixed 32 Bytes32.bytes Bytes32.mk Bytes32.length_bytes (fun _ _ => rfl) (fun _ _ => rfl)

/-- `Bytes32`: its length, then its bytes. -/
def bytes32Codec (int : Codec UInt64) : Codec Bytes32 := .lenPrefixed int 32 rawBytes32

def coinCodec (int : Codec UInt64) : Codec Coin :=
  ((bytes32Codec int).pair ((bytes32Codec int).pair int)).iso
    (fun (p, ph, a) => { parentCoinInfo := p, puzzleHash := ph, amount := a })
    (fun c => (c.parentCoinInfo, c.puzzleHash, c.amount)) (fun _ => rfl) (fun _ => rfl)

def coinRecordCodec (int : Codec UInt64) : Codec CoinRecord :=
  ((coinCodec int).pair (int.pair (int.option.pair (Codec.bool.pair (int.pair Codec.bool))))).iso
    (fun (coin, confirmedHeight, spentHeight, coinbase, timestamp, ffEligible) =>
      { coin, confirmedHeight, spentHeight, coinbase, timestamp, ffEligible })
    (fun r => (r.coin, r.confirmedHeight, r.spentHeight, r.coinbase, r.timestamp, r.ffEligible))
    (fun _ => rfl) (fun _ => rfl)

/-- The row in the stored form. -/
def encodeCoinRecord (rec : CoinRecord) : Bytes := (coinRecordCodec .u64Be).encode rec

/-- Read the stored form only. -/
def decodeCoinRecord (bytes : Bytes) : Option CoinRecord :=
  (coinRecordCodec .u64Be).decodeStrict bytes

/-- Read the stored form, else default bincode. -/
def decodeCoinRecordStorage (bytes : Bytes) : Option CoinRecord :=
  (decodeCoinRecord bytes).or ((coinRecordCodec .u64Le).decodeLax bytes)

@[simp] theorem decodeCoinRecord_encode (rec : CoinRecord) :
    decodeCoinRecord (encodeCoinRecord rec) = some rec :=
  Codec.decodeStrict_encode ..

@[simp] theorem decodeCoinRecordStorage_encode (rec : CoinRecord) :
    decodeCoinRecordStorage (encodeCoinRecord rec) = some rec := by
  simp [decodeCoinRecordStorage]

/-- A bincode row has 107 bytes, and eight more when the coin is spent. -/
theorem length_coinRecordCodec {int : Codec UInt64} (hint : ∀ x, (int.encode x).length = 8)
    (rec : CoinRecord) :
    ((coinRecordCodec int).encode rec).length = if rec.spentHeight.isSome then 115 else 107 := by
  have hraw : ∀ b : Bytes32, (rawBytes32.encode b).length = 32 := Bytes32.length_bytes
  have hopt : (int.option.encode rec.spentHeight).length = if rec.spentHeight.isSome then 9 else 1 := by
    cases rec.spentHeight <;> simp [Codec.option, hint]
  simp only [coinRecordCodec, coinCodec, bytes32Codec, Codec.iso, Codec.length_pair,
    Codec.length_lenPrefixed, Codec.length_bool, hint, hraw, hopt]
  split <;> rfl

theorem length_encodeCoinRecord (rec : CoinRecord) :
    (encodeCoinRecord rec).length = if rec.spentHeight.isSome then 115 else 107 :=
  length_coinRecordCodec Codec.length_u64Be rec

/-- A string shorter than every bincode row is no bincode row, in either form. -/
theorem decodeCoinRecordStorage_short {bytes : Bytes} (h : bytes.length < 107) :
    decodeCoinRecordStorage bytes = none := by
  have hlong : ∀ {int : Codec UInt64} (rec : CoinRecord), (∀ x, (int.encode x).length = 8) →
      107 ≤ ((coinRecordCodec int).encode rec).length := fun rec hint => by
    rw [length_coinRecordCodec hint]
    split <;> omega
  rw [decodeCoinRecordStorage, Option.or_eq_none_iff]
  constructor
  · refine Option.eq_none_iff_forall_ne_some.2 fun rec hrec => ?_
    have hle := hlong rec Codec.length_u64Be
    rw [← Codec.decodeStrict_eq_some.1 hrec] at hle
    omega
  · refine Option.eq_none_iff_forall_ne_some.2 fun rec hrec => ?_
    obtain ⟨rest, hbs⟩ := Codec.decodeLax_eq_some.1 hrec
    have hle := hlong rec Codec.length_u64Le
    rw [hbs, List.length_append] at h
    omega

end DigCoinstore
