import DigCoinstore.History
import DigCoinstore.Sample

/-!
# The secondary indices

Each of the five index families is a function of the records in `coin_records`: it has one row for
every record that the family is about and no other row (`Reachable.indexes_exact`).
-/

namespace DigCoinstore

variable [Chia]

namespace CoinStore

/-- The rows of a column family. -/
def rows (s : CoinStore) (cf : ColumnFamily) : Set KvPair :=
  {kv | (s.backend.tables cf)[kv.1]? = some kv.2}

/-- The records that the rows of `coin_records` decode to. -/
def storedRecords (s : CoinStore) : Set CoinRecord :=
  {rec | ∃ kv ∈ s.rows .coinRecords, decodeCoinRecordBytes kv.2 = some rec}

namespace Represents

variable {S : Scope} {s : CoinStore} {m : Coinset}

/-- A row of `coin_records` is that of a record under its own id. -/
theorem mem_rows_coinRecords (h : s.Represents S m) {kv : KvPair} : kv ∈ s.rows .coinRecords ↔
    ∃ rec, m rec.coinId = some rec ∧ kv = (coinKey rec.coinId, serializeCoinRecordStorageBytes rec) := by
  refine (h.rows .coinRecords (S.life_sub _ (.head _)) kv.1 kv.2).trans ?_
  constructor
  · rintro ⟨id, rec, hm, hrow⟩
    obtain rfl := h.ids hm
    exact ⟨rec, hm, (Option.some.inj hrow).symm⟩
  · rintro ⟨rec, hm, rfl⟩
    exact ⟨rec.coinId, rec, hm, rfl⟩

theorem mem_storedRecords (h : s.Represents S m) {rec : CoinRecord} :
    rec ∈ s.storedRecords ↔ m rec.coinId = some rec := by
  constructor
  · rintro ⟨kv, hkv, hdec⟩
    obtain ⟨rec', hm, rfl⟩ := h.mem_rows_coinRecords.1 hkv
    rw [decode_serialize (h.lives.storable hm)] at hdec
    rwa [← Option.some.inj hdec]
  · intro hm
    exact ⟨_, h.mem_rows_coinRecords.2 ⟨rec, hm, rfl⟩, decode_serialize (h.lives.storable hm)⟩

/-- A family holds the rows of the stored records. -/
theorem mem_rows (h : s.Represents S m) {cf : ColumnFamily} (hcf : cf ∈ S.cfs) {kv : KvPair} :
    kv ∈ s.rows cf ↔ ∃ rec ∈ s.storedRecords, coinRow cf rec.coinId rec = some kv := by
  refine (h.rows cf hcf kv.1 kv.2).trans ?_
  constructor
  · rintro ⟨id, rec, hm, hrow⟩
    obtain rfl := h.ids hm
    exact ⟨rec, h.mem_storedRecords.2 hm, hrow⟩
  · rintro ⟨rec, hrec, hrow⟩
    exact ⟨rec.coinId, rec, h.mem_storedRecords.1 hrec, hrow⟩

end Represents

end CoinStore

/-- **The secondary indices are exact**, whatever the blocks: every key of `coin_records` is the id
of its record, and the five families hold one row for each record they index and no other. -/
theorem Reachable.indexes_exact {U : Set Coin} {P : BlockData → Prop} {s : CoinStore}
    (h : Reachable U P s) (hU : Set.InjOn Chia.coinId U) :
    (∀ kv ∈ s.rows .coinRecords, ∃ rec,
      decodeCoinRecordBytes kv.2 = some rec ∧ kv.1 = coinKey rec.coinId) ∧
    s.rows .coinByPuzzleHash = {kv | ∃ rec ∈ s.storedRecords,
      kv = (puzzleHashCoinKey rec.coin.puzzleHash rec.coinId, rec.coinId.bytes)} ∧
    s.rows .unspentByPuzzleHash = {kv | ∃ rec ∈ s.storedRecords,
      rec.spentHeight = none ∧ kv = (puzzleHashCoinKey rec.coin.puzzleHash rec.coinId, [])} ∧
    s.rows .coinByParent = {kv | ∃ rec ∈ s.storedRecords,
      kv = (parentCoinKey rec.coin.parentCoinInfo rec.coinId, rec.coinId.bytes)} ∧
    s.rows .coinByConfirmedHeight = {kv | ∃ rec ∈ s.storedRecords,
      kv = (heightCoinKey rec.confirmedHeight rec.coinId, rec.coinId.bytes)} ∧
    s.rows .coinBySpentHeight = {kv | ∃ rec ∈ s.storedRecords, ∃ spentH,
      rec.spentHeight = some spentH ∧ kv = (heightCoinKey spentH rec.coinId, rec.coinId.bytes)} := by
  obtain ⟨m, hm, _⟩ : s.Follows (.all U hU) _ := h.represents
  have hrows : ∀ cf ∈ coinFamilies, ∀ kv, kv ∈ s.rows cf ↔
      ∃ rec ∈ s.storedRecords, coinRow cf rec.coinId rec = some kv := fun _ hcf _ => hm.mem_rows hcf
  refine ⟨fun kv hkv => ?_, ?_, ?_, ?_, ?_, ?_⟩
  · obtain ⟨rec, hrec, rfl⟩ := hm.mem_rows_coinRecords.1 hkv
    exact ⟨rec, decode_serialize (hm.lives.storable hrec), rfl⟩
  · ext kv
    rw [hrows _ (by decide)]
    simp [coinRow, eq_comm (a := kv)]
  · ext kv
    rw [hrows _ (by decide)]
    refine exists_congr fun rec => and_congr_right fun _ => ?_
    cases hs : rec.spentHeight <;> simp [coinRow, hs, eq_comm (a := kv)]
  · ext kv
    rw [hrows _ (by decide)]
    simp [coinRow, eq_comm (a := kv)]
  · ext kv
    rw [hrows _ (by decide)]
    simp [coinRow, eq_comm (a := kv)]
  · ext kv
    rw [hrows _ (by decide)]
    simp [coinRow, eq_comm (a := kv)]

end DigCoinstore

namespace DigCoinstore

open Sample in
/-- After a spend. -/
theorem indexes_exact_afterOne :
    afterOne.rows .unspentByPuzzleHash = {kv | ∃ rec ∈ afterOne.storedRecords,
      rec.spentHeight = none ∧ kv = (puzzleHashCoinKey rec.coin.puzzleHash rec.coinId, [])} :=
  (reachable_afterOne.indexes_exact coinId_injOn).2.2.1

end DigCoinstore
