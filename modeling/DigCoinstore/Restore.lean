import DigCoinstore.SnapshotFacts
import DigCoinstore.Sample

/-!
# What a restored store holds

A legacy row writes 0 for an unspent coin, so a record spent at height 0 that is not kept for
fast-forward reads back as unspent (`CoinRecord.asStored`). `restore` accepts such a record: the
tables and the tree are built from the rows, the unspent set from the records. The restored store
shows the snapshot exactly when it has no such record (`restore_faithful_iff`).
-/

namespace DigCoinstore

/-! ## Rows that read back as another record -/

/-- **The record that a row gives back.** -/
def CoinRecord.asStored (rec : CoinRecord) : CoinRecord :=
  if rec.ffEligible = false ∧ rec.spentHeight = some 0 then { rec with spentHeight := none } else rec

theorem CoinRecord.asStored_cases (rec : CoinRecord) :
    (Storable rec ∧ rec.asStored = rec) ∨
      (¬ Storable rec ∧ rec.asStored = { rec with spentHeight := none }) := by
  unfold asStored
  by_cases h : rec.ffEligible = false ∧ rec.spentHeight = some 0
  · rw [if_pos h]
    exact .inr ⟨by simp [Storable, h], rfl⟩
  · rw [if_neg h]
    refine .inl ⟨?_, rfl⟩
    cases hff : rec.ffEligible with
    | true => exact .inl hff
    | false => exact .inr fun hs => h ⟨hff, hs⟩

theorem CoinRecord.asStored_storable (rec : CoinRecord) : Storable rec.asStored := by
  rcases rec.asStored_cases with ⟨hs, heq⟩ | ⟨_, heq⟩
  · rwa [heq]
  · rw [heq]
    exact .inr nofun

/-- A record that the row does not tell was spent, and reads back as unspent. -/
theorem CoinRecord.asStored_of_not (rec : CoinRecord) (h : ¬ Storable rec) :
    rec.spentHeight = some 0 ∧ rec.asStored.spentHeight = none := by
  rcases rec.asStored_cases with ⟨hs, _⟩ | ⟨_, heq⟩
  · exact absurd hs h
  · rw [heq]
    refine ⟨?_, rfl⟩
    by_contra hs
    exact h (.inr hs)

/-- Both records have the same row. -/
theorem serialize_asStored (rec : CoinRecord) :
    serializeCoinRecordStorageBytes rec.asStored = serializeCoinRecordStorageBytes rec := by
  unfold CoinRecord.asStored
  split
  · next h => simp [serializeCoinRecordStorageBytes, serializeLegacyCoinRecord, h]
  · rfl

variable [Chia]

@[simp] theorem CoinRecord.asStored_coinId (rec : CoinRecord) : rec.asStored.coinId = rec.coinId := by
  unfold asStored
  split <;> rfl

/-- The coin set that the rows of a snapshot give back. -/
def CoinStoreSnapshot.stored (snap : CoinStoreSnapshot) : Coinset :=
  fun id => (snap.coinset id).map CoinRecord.asStored

namespace CoinStore

variable {s : CoinStore} {snap : CoinStoreSnapshot}

/-- The rows of a restored backend. -/
theorem coinRows_of_snapshot {backend : Backend} (hb : backend.Healthy)
    (ht : backend.tables = snapshotTables snap) (hkeys : snap.KeysMatch) :
    backend.CoinRows snap.stored := by
  have hrows := indexes_snapshotTables Scope.life hkeys (fun _ => Set.mem_univ _) .coinRecords
    (Scope.life.life_sub _ (.head _))
  refine { healthy := hb, rows := fun k v => ?_, ids := ?_, storable := ?_ }
  · rw [ht, hrows k v]
    constructor
    · rintro ⟨id, rec, hm, hrow⟩
      refine ⟨id, rec.asStored, by rw [CoinStoreSnapshot.stored, hm]; rfl, ?_⟩
      rw [← hrow, coinRow, coinRow, serialize_asStored]
    · rintro ⟨id, rec', hm, hrow⟩
      obtain ⟨rec, hrec, rfl⟩ := Option.map_eq_some_iff.1 hm
      refine ⟨id, rec, hrec, ?_⟩
      rw [← hrow, coinRow, coinRow, serialize_asStored]
  · intro id rec' hm
    obtain ⟨rec, hrec, rfl⟩ := Option.map_eq_some_iff.1 hm
    rw [CoinRecord.asStored_coinId, hkeys id rec hrec]
  · intro id rec' hm
    obtain ⟨rec, _, rfl⟩ := Option.map_eq_some_iff.1 hm
    exact rec.asStored_storable

/-- The store answers for `id` as the optional record `o` says. -/
def Shows (s : CoinStore) (id : CoinId) (o : Option CoinRecord) : Prop :=
  s.getCoinRecord id = .ok o ∧ (s.isUnspent id = true ↔ ∃ rec, o = some rec ∧ rec.spentHeight = none)

/-- **What a restored store answers**: the lookups read the rows, the unspent set is that of the
records, and a store opened again takes both from the rows. -/
theorem restore_answers (hs : s.backend.Healthy) (hrestore : (s.restore snap).2 = .ok ()) :
    (∀ id : CoinId, (s.restore snap).1.getCoinRecord id = .ok (snap.stored id) ∧
      ((s.restore snap).1.isUnspent id = true ↔
        ∃ rec, snap.coinset id = some rec ∧ rec.spentHeight = none)) ∧
    ∀ config, ∃ s', withConfig config (s.restore snap).1.backend = .ok s' ∧
      ∀ id, s'.Shows id (snap.stored id) := by
  obtain ⟨tree, hcheck⟩ := check_of_restore hrestore
  have hkeys : snap.KeysMatch := (checkSnapshot_eq_ok.1 hcheck).2.2.1
  obtain ⟨backend, heq, hb, ht⟩ := restore_of_check hcheck hs
  have hrows := coinRows_of_snapshot hb ht hkeys
  rw [heq]
  refine ⟨fun id => ⟨hrows.getCoinRecord_eq id, ?_⟩, fun config => ?_⟩
  · exact decide_eq_true_iff.trans (restored_unspentIds hkeys id)
  · have htip : (s.restored snap tree backend).TipStored := restored_tipStored ht
    obtain ⟨tree', ids, hopen, _, _, hids⟩ := hrows.withConfig_eq htip.tipHash config
    have hinit : ((backend.tables .metadata)[metaInitialized]?).isSome = true := htip.initialized
    rw [hinit] at hopen
    exact ⟨_, hopen, fun id => ⟨hrows.getCoinRecord_eq id, decide_eq_true_iff.trans (hids id)⟩⟩

/-- **A restored store shows the snapshot**, before and after it is closed and opened again,
exactly when no legacy record of the snapshot is spent at height 0. -/
theorem restore_faithful_iff (hs : s.backend.Healthy) (hrestore : (s.restore snap).2 = .ok ()) :
    (∀ id : CoinId, (s.restore snap).1.Shows id snap.coins[id]? ∧
      ∀ config, ∃ s', withConfig config (s.restore snap).1.backend = .ok s' ∧
        s'.Shows id snap.coins[id]?) ↔
    ∀ (id : CoinId) rec, snap.coins[id]? = some rec →
      rec.ffEligible = true ∨ rec.spentHeight ≠ some 0 := by
  obtain ⟨hanswers, hreopen⟩ := restore_answers hs hrestore
  constructor
  · intro hshows id rec hrec
    by_contra hnot
    have hget := (hshows id).1.1
    have hm : snap.coinset id = some rec := hrec
    rw [(hanswers id).1, hrec] at hget
    have hstored : rec.asStored = rec := by simpa [CoinStoreSnapshot.stored, hm] using hget
    -- the row of the record reads back as unspent
    obtain ⟨hspent, hlive⟩ := rec.asStored_of_not hnot
    rw [hstored, hspent] at hlive
    cases hlive
  · intro hstorable id
    have hsame : snap.stored = snap.coinset := by
      funext id
      cases hm : snap.coinset id with
      | none => rw [CoinStoreSnapshot.stored, hm, Option.map_none]
      | some rec =>
        rcases rec.asStored_cases with ⟨_, hrec⟩ | ⟨hnot, _⟩
        · rw [CoinStoreSnapshot.stored, hm, Option.map_some, hrec]
        · exact absurd (hstorable id rec hm) hnot
    rw [hsame] at hanswers hreopen
    refine ⟨hanswers id, fun config => ?_⟩
    obtain ⟨s', hopen, hshows⟩ := hreopen config
    exact ⟨s', hopen, hshows id⟩

end CoinStore

end DigCoinstore

namespace DigCoinstore.CoinStore

open Sample

/-- The snapshot of one record, with the root of its tree. -/
def oneRecord (rec : CoinRecord) (totalValue : UInt64) : CoinStoreSnapshot where
  height := 0
  blockHash := .zero
  stateRoot := ((buildSnapshotTree ((∅ : IdMap CoinRecord).insert rec.coinId rec)).toOption.getD
    .new).root.1
  timestamp := 10
  coins := (∅ : IdMap CoinRecord).insert rec.coinId rec
  hints := []
  totalCoins := 1
  totalValue := totalValue

theorem oneRecord_get (rec : CoinRecord) (totalValue : UInt64) (id : CoinId) :
    (oneRecord rec totalValue).coins[id]? = if rec.coinId = id then some rec else none := by
  rw [oneRecord, OrdMap.getElem?_insert, Std.ExtTreeMap.getElem?_empty]

theorem restore_oneRecord {s : CoinStore} {rec : CoinRecord} {totalValue : UInt64}
    (hs : s.backend.Healthy)
    (hvalue : unspentValue (oneRecord rec totalValue).coins = .ok totalValue) :
    (s.restore (oneRecord rec totalValue)).2 = .ok () := by
  have hkeys : (oneRecord rec totalValue).KeysMatch := fun id rec' hm => by
    rw [CoinStoreSnapshot.coinset, oneRecord_get] at hm
    split at hm
    · next hid => rw [← Option.some.inj hm, hid]
    · cases hm
  obtain ⟨built, hbuilt, _⟩ := buildSnapshotTree_spec hkeys
  have hroot : built.root.1 = (oneRecord rec totalValue).stateRoot := by
    change built.root.1 = ((buildSnapshotTree (oneRecord rec totalValue).coins).toOption.getD
      .new).root.1
    rw [hbuilt]
    rfl
  have hsize : (oneRecord rec totalValue).coins.size = 1 := by
    change ((∅ : IdMap CoinRecord).insert rec.coinId rec).size = 1
    rw [Std.ExtTreeMap.size_insert, if_neg (by simp)]
    rfl
  have hcheck := checkSnapshot_eq_ok.2 ⟨by rw [hsize]; rfl, hvalue, hkeys, built, hbuilt, hroot, rfl⟩
  obtain ⟨backend, heq, _⟩ := restore_of_check hcheck hs
  rw [heq]

/-- Coin 1, spent at height 0. -/
def spentAtZero : CoinRecord := (CoinRecord.new (coin 1) 0 10 false).spend 0

theorem restore_spentAtZero : (opened.restore (oneRecord spentAtZero 0)).2 = .ok () :=
  restore_oneRecord Backend.healthy_fresh (Res.eq_ok_of_toOption (by decide))

theorem restore_faithful_iff_opened :
    (opened.restore (oneRecord (CoinRecord.new (coin 1) 0 10 false) 1)).2 = .ok () ∧
      ((∀ id : CoinId,
          (opened.restore (oneRecord (CoinRecord.new (coin 1) 0 10 false) 1)).1.Shows id
            (oneRecord (CoinRecord.new (coin 1) 0 10 false) 1).coins[id]? ∧
          ∀ config, ∃ s', withConfig config
              (opened.restore (oneRecord (CoinRecord.new (coin 1) 0 10 false) 1)).1.backend = .ok s' ∧
            s'.Shows id (oneRecord (CoinRecord.new (coin 1) 0 10 false) 1).coins[id]?) ↔
        ∀ (id : CoinId) rec,
          (oneRecord (CoinRecord.new (coin 1) 0 10 false) 1).coins[id]? = some rec →
          rec.ffEligible = true ∨ rec.spentHeight ≠ some 0) := by
  have hrestore : (opened.restore (oneRecord (CoinRecord.new (coin 1) 0 10 false) 1)).2 = .ok () :=
    restore_oneRecord Backend.healthy_fresh (Res.eq_ok_of_toOption (by decide))
  exact ⟨hrestore, restore_faithful_iff Backend.healthy_fresh hrestore⟩

/-- A snapshot with a legacy record spent at height 0 is accepted; the restored store returns the
record as unspent, and lists the coin as unspent once it is opened again. -/
theorem spent_at_zero_revives : (opened.restore (oneRecord spentAtZero 0)).2 = .ok () ∧
    (oneRecord spentAtZero 0).coins[ofNum 1]? = some spentAtZero ∧
    (opened.restore (oneRecord spentAtZero 0)).1.getCoinRecord (ofNum 1) =
      .ok (some { spentAtZero with spentHeight := none }) ∧
    (opened.restore (oneRecord spentAtZero 0)).1.isUnspent (ofNum 1) = false ∧
    ∃ s', withConfig opened.config (opened.restore (oneRecord spentAtZero 0)).1.backend = .ok s' ∧
      s'.isUnspent (ofNum 1) = true := by
  obtain ⟨hanswers, hreopen⟩ := restore_answers Backend.healthy_fresh restore_spentAtZero
  obtain ⟨s', hopen, hshows⟩ := hreopen opened.config
  have hget : (oneRecord spentAtZero 0).coins[ofNum 1]? = some spentAtZero := by
    rw [oneRecord_get]
    exact if_pos (by decide)
  have hstored : (oneRecord spentAtZero 0).stored (ofNum 1) =
      some { spentAtZero with spentHeight := none } :=
    congrArg (Option.map CoinRecord.asStored) hget
  refine ⟨restore_spentAtZero, hget, ?_, ?_, s', hopen, ?_⟩
  · rw [(hanswers (ofNum 1)).1, hstored]
  · rw [Bool.eq_false_iff, ne_eq, (hanswers (ofNum 1)).2]
    rintro ⟨rec, hm, hlive⟩
    obtain rfl := Option.some.inj (hget.symm.trans hm)
    cases hlive
  · exact ((hshows (ofNum 1)).2).2 ⟨_, hstored, rfl⟩

end DigCoinstore.CoinStore
