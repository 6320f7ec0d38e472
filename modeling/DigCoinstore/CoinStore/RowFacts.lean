import DigCoinstore.CoinStore.State
import DigCoinstore.Storage.SnapshotBincode

/-!
# Rows read back

`decode_serialize`: the reader gives back every record that the writer can tell apart, that is
every record but a legacy one spent at height 0 (`Storable`); so the row determines the record
(`serialize_inj`). A legacy row has 97 bytes, too few for a bincode row. Rows and snapshots of all
eras are read back as they were written (`eras_unambiguous`).
-/

namespace DigCoinstore

/-- A record whose row tells it apart: a legacy row writes 0 for an unspent coin. -/
def Storable (rec : CoinRecord) : Prop := rec.ffEligible = true ∨ rec.spentHeight ≠ some 0

theorem length_serializeLegacy (rec : CoinRecord) : (serializeLegacyCoinRecord rec).length = 97 := by
  simp [serializeLegacyCoinRecord]

/-- The legacy reader on a legacy row: a spent height of 0 reads as unspent. -/
theorem decodeLegacy_serialize (rec : CoinRecord) :
    decodeLegacyGenesisCoinRecord (serializeLegacyCoinRecord rec) =
      some { rec with
        spentHeight := if rec.spentHeight.getD 0 = 0 then none else rec.spentHeight
        ffEligible := false } := by
  have hlen := length_serializeLegacy rec
  have hparent : slice (serializeLegacyCoinRecord rec) 0 32 = rec.coin.parentCoinInfo.bytes := by
    simp [slice, serializeLegacyCoinRecord]
  have hpuzzle : slice (serializeLegacyCoinRecord rec) 32 64 = rec.coin.puzzleHash.bytes := by
    simp [slice, serializeLegacyCoinRecord]
  have hamount : slice (serializeLegacyCoinRecord rec) 64 72 =
      FixedInt.toLeBytes rec.coin.amount := by
    simp [slice, serializeLegacyCoinRecord, List.drop_append, List.drop_of_length_le]
  have hconfirmed : slice (serializeLegacyCoinRecord rec) 72 80 =
      FixedInt.toLeBytes rec.confirmedHeight := by
    simp [slice, serializeLegacyCoinRecord, List.drop_append, List.drop_of_length_le]
  have hspent : slice (serializeLegacyCoinRecord rec) 80 88 =
      FixedInt.toLeBytes (rec.spentHeight.getD 0) := by
    simp [slice, serializeLegacyCoinRecord, List.drop_append, List.drop_of_length_le]
  have hcoinbase : ((serializeLegacyCoinRecord rec).getD 88 0 != 0) = rec.coinbase := by
    cases hc : rec.coinbase <;> simp [serializeLegacyCoinRecord, hc]
  have htime : slice (serializeLegacyCoinRecord rec) 89 97 = FixedInt.toLeBytes rec.timestamp := by
    simp [slice, serializeLegacyCoinRecord, List.drop_append, List.drop_of_length_le]
  rw [decodeLegacyGenesisCoinRecord, dif_pos hlen]
  simp only [hparent, hpuzzle, hamount, hconfirmed, hspent, hcoinbase, htime,
    FixedInt.fromLeBytes_toLeBytes]
  rcases rec with ⟨⟨p, ph, a⟩, c, sh, cb, ts, ff⟩
  cases sh with
  | none => rfl
  | some h => by_cases hz : h = 0 <;> simp [hz, CoinRecord.new, CoinRecord.spend]

/-- **The reader gives back what the writer stored.** -/
theorem decode_serialize {rec : CoinRecord} (h : Storable rec) :
    decodeCoinRecordBytes (serializeCoinRecordStorageBytes rec) = some rec := by
  rw [serializeCoinRecordStorageBytes]
  cases hff : rec.ffEligible with
  | true => simp [decodeCoinRecordBytes]
  | false =>
    have hlen : (serializeLegacyCoinRecord rec).length < 107 := by
      rw [length_serializeLegacy]
      omega
    have hshort := decodeCoinRecordStorage_short hlen
    have hne : rec.spentHeight ≠ some 0 := h.resolve_left (by simp [hff])
    simp only [Bool.false_eq_true, if_false, decodeCoinRecordBytes, hshort, Option.none_or,
      decodeLegacy_serialize, Option.some.injEq]
    apply CoinRecord.ext <;> try rfl
    · cases hs : rec.spentHeight with
      | none => rfl
      | some sh => simp_all
    · exact hff.symm

/-- The row determines the record. -/
theorem serialize_inj {rec rec' : CoinRecord} (h : Storable rec) (h' : Storable rec')
    (heq : serializeCoinRecordStorageBytes rec = serializeCoinRecordStorageBytes rec') : rec = rec' := by
  have := decode_serialize h
  rw [heq, decode_serialize h'] at this
  exact (Option.some.inj this).symm

/-- A row is longer than the payload of the empty leaf. -/
theorem length_serialize (rec : CoinRecord) : 97 ≤ (serializeCoinRecordStorageBytes rec).length := by
  rw [serializeCoinRecordStorageBytes]
  split
  · rw [length_encodeCoinRecord]
    split <;> omega
  · rw [length_serializeLegacy]

/-- **No era is mistaken for another**: the row of every storable record, both bincode forms of
every record and both bincode forms of every snapshot are read back. -/
theorem eras_unambiguous :
    (∀ rec : CoinRecord, rec.ffEligible = true ∨ rec.spentHeight ≠ some 0 →
      decodeCoinRecordBytes (serializeCoinRecordStorageBytes rec) = some rec) ∧
    (∀ rec : CoinRecord, decodeCoinRecordBytes (encodeCoinRecord rec) = some rec ∧
      decodeCoinRecordBytes (serializeCoinRecord rec) = some rec) ∧
    ∀ (snap : CoinStoreSnapshot) (entries : List (CoinId × CoinRecord)), snap.Iterates entries →
      decodeCoinStoreSnapshotStorage (encodeCoinStoreSnapshot snap entries) = some snap ∧
      decodeCoinStoreSnapshotStorage (serializeSnapshot .u64Le snap entries) = some snap := by
  refine ⟨fun rec h => decode_serialize h, fun rec => ⟨?_, ?_⟩, fun snap entries h => ⟨?_, ?_⟩⟩
  · simp [decodeCoinRecordBytes]
  · rw [decodeCoinRecordBytes, decodeCoinRecordStorage_serialize, Option.some_or]
  · exact decodeStorage_encode h
  · exact decodeStorage_serialize h

end DigCoinstore
