import DigCoinstore.Lib.Lifecycle
import DigCoinstore.CoinStore.Rollback

/-!
# The coin set

What a coin store stands for: each coin id has a record or none, a block adds records and marks
records spent, and a rollback cuts the set back to a height. This is the abstract state that the
stored rows, the tree and the in-memory fields are shown to represent.
-/

namespace DigCoinstore

variable [Chia]

abbrev Coinset := CoinId → Option CoinRecord

/-- A record is born when confirmed and dies when spent. -/
def coinLife : Lifecycle.Life CoinRecord Nat where
  birth rec := rec.confirmedHeight.toNat
  death rec := rec.spentHeight.map UInt64.toNat
  alive rec := { rec with spentHeight := none }
  birth_alive _ := rfl

namespace Coinset

def empty : Coinset := fun _ => none

variable (m : Coinset)

/-- Store a record under its coin id. -/
def put (rec : CoinRecord) : Coinset := Function.update m rec.coinId (some rec)

def putAll (recs : List CoinRecord) : Coinset := recs.foldl put m

/-- The record after an un-spend in `m`: the parent is looked up in `m`. -/
def revive (rec : CoinRecord) : CoinRecord :=
  { rec with spentHeight := none, ffEligible := (m rec.coin.parentCoinInfo).isSome }

/-- **Roll the set back** to a height. -/
def rollback (target : UInt64) : Coinset := Lifecycle.cut coinLife m.revive target.toNat m

/-- The records a block creates, and the records it spends. -/
def applyBlock (block : BlockData) (removed : List CoinRecord) : Coinset :=
  (m.putAll (createdRecords block)).putAll (removed.map (·.spend block.height))

@[simp] theorem putAll_nil : m.putAll [] = m := rfl

@[simp] theorem putAll_cons (rec : CoinRecord) (recs : List CoinRecord) :
    m.putAll (rec :: recs) = (m.put rec).putAll recs := rfl

theorem put_self (rec : CoinRecord) : m.put rec rec.coinId = some rec := Function.update_self ..

theorem put_of_ne {rec : CoinRecord} {id : CoinId} (h : id ≠ rec.coinId) : m.put rec id = m id :=
  Function.update_of_ne h ..

theorem putAll_of_not_mem : ∀ (recs : List CoinRecord) (m : Coinset) {id : CoinId},
    id ∉ recs.map CoinRecord.coinId → m.putAll recs id = m id
  | [], _, _, _ => rfl
  | rec :: recs, m, id, h => by
    simp only [List.map_cons, List.mem_cons, not_or] at h
    rw [putAll_cons, putAll_of_not_mem recs _ h.2, put_of_ne _ h.1]

/-- An id that is put is found, with one of its records. -/
theorem putAll_of_mem : ∀ (recs : List CoinRecord) (m : Coinset) {id : CoinId},
    id ∈ recs.map CoinRecord.coinId → ∃ rec ∈ recs, rec.coinId = id ∧ m.putAll recs id = some rec
  | [], _, _, h => by simp at h
  | rec :: recs, m, id, h => by
    by_cases htail : id ∈ recs.map CoinRecord.coinId
    · obtain ⟨rec', hm, hid, hput⟩ := putAll_of_mem recs (m.put rec) htail
      exact ⟨rec', .tail _ hm, hid, hput⟩
    · have hid : rec.coinId = id := by simpa [htail, eq_comm] using h
      refine ⟨rec, .head _, hid, ?_⟩
      rw [putAll_cons, putAll_of_not_mem _ _ htail, ← hid, put_self]

/-- A record of the set after the puts is an old one or one that was put. -/
theorem putAll_cases {recs : List CoinRecord} {id : CoinId} {rec : CoinRecord}
    (h : m.putAll recs id = some rec) : m id = some rec ∨ (rec ∈ recs ∧ rec.coinId = id) := by
  by_cases hmem : id ∈ recs.map CoinRecord.coinId
  · obtain ⟨rec', hm, hid, hput⟩ := putAll_of_mem recs m hmem
    obtain rfl : rec' = rec := by simpa [hput] using h
    exact .inr ⟨hm, hid⟩
  · rw [putAll_of_not_mem _ _ hmem] at h
    exact .inl h

/-! ## Rollback, record by record -/

section
omit [Chia]
variable {m} {target : UInt64} {id : CoinId} {rec : CoinRecord}

/-- The records confirmed by a height. -/
def confirmedBy (m : Coinset) (target : UInt64) : Coinset :=
  fun id => (m id).filter fun rec => rec.confirmedHeight ≤ target

theorem confirmedBy_of_none (hm : m id = none) : m.confirmedBy target id = none := by
  simp [confirmedBy, hm]

theorem confirmedBy_of_lt (hm : m id = some rec) (hconf : target < rec.confirmedHeight) :
    m.confirmedBy target id = none := by
  simp [confirmedBy, hm, hconf]

theorem confirmedBy_of_le (hm : m id = some rec) (hconf : rec.confirmedHeight ≤ target) :
    m.confirmedBy target id = some rec := by
  simp [confirmedBy, hm, hconf]

theorem rollback_of_none (hm : m id = none) : m.rollback target id = none := by
  simp [rollback, Lifecycle.cut, hm]

theorem rollback_of_deleted (hm : m id = some rec) (hconf : target < rec.confirmedHeight) :
    m.rollback target id = none := by
  have hlt : target.toNat < coinLife.birth rec := UInt64.lt_iff_toNat_lt.1 hconf
  simp [rollback, Lifecycle.cut, hm, hlt]

theorem rollback_of_revived (hm : m id = some rec) (hconf : rec.confirmedHeight ≤ target)
    {sh : UInt64} (hs : rec.spentHeight = some sh) (hlt : target < sh) :
    m.rollback target id = some (m.revive rec) := by
  have hle : ¬ target.toNat < coinLife.birth rec := Nat.not_lt.2 (UInt64.le_iff_toNat_le.1 hconf)
  have hdeath : coinLife.death rec = some sh.toNat := by simp [coinLife, hs]
  simp only [rollback, Lifecycle.cut, hm, if_neg hle, hdeath, if_pos (UInt64.lt_iff_toNat_lt.1 hlt)]

theorem rollback_of_kept (hm : m id = some rec) (hconf : rec.confirmedHeight ≤ target)
    (hs : ∀ sh, rec.spentHeight = some sh → sh ≤ target) : m.rollback target id = some rec := by
  have hle : ¬ target.toNat < coinLife.birth rec := Nat.not_lt.2 (UInt64.le_iff_toNat_le.1 hconf)
  simp only [rollback, Lifecycle.cut, hm, if_neg hle]
  cases hsp : rec.spentHeight with
  | none => simp [coinLife, hsp]
  | some sh =>
    have hdeath : coinLife.death rec = some sh.toNat := by simp [coinLife, hsp]
    simp only [hdeath, if_neg (Nat.not_lt.2 (UInt64.le_iff_toNat_le.1 (hs sh hsp)))]

/-- **A record after a rollback** was confirmed by the target, and is as before or revived. -/
theorem rollback_cases {rec' : CoinRecord} (h : m.rollback target id = some rec') :
    ∃ rec, m id = some rec ∧ rec.confirmedHeight ≤ target ∧
      ((rec' = rec ∧ ∀ sh, rec.spentHeight = some sh → sh ≤ target) ∨
        rec' = m.revive rec ∧ ∃ sh, rec.spentHeight = some sh ∧ target < sh) := by
  cases hm : m id with
  | none => simp [rollback_of_none hm] at h
  | some rec =>
    rcases UInt64.lt_or_le target rec.confirmedHeight with hlt | hconf
    · simp [rollback_of_deleted hm hlt] at h
    · refine ⟨rec, rfl, hconf, ?_⟩
      by_cases hs : ∃ sh, rec.spentHeight = some sh ∧ target < sh
      · obtain ⟨sh, hs, hlt⟩ := hs
        rw [rollback_of_revived hm hconf hs hlt] at h
        exact .inr ⟨(Option.some.inj h).symm, sh, hs, hlt⟩
      · have hle : ∀ sh, rec.spentHeight = some sh → sh ≤ target := fun sh hsp =>
          UInt64.not_lt.1 fun hlt => hs ⟨sh, hsp, hlt⟩
        rw [rollback_of_kept hm hconf hle] at h
        exact .inl ⟨(Option.some.inj h).symm, hle⟩

/-- The records that are lost. -/
theorem rollback_lost : (∃ rec, m id = some rec) ∧ m.rollback target id = none ↔
    ∃ rec, m id = some rec ∧ target < rec.confirmedHeight := by
  constructor
  · rintro ⟨⟨rec, hm⟩, hnone⟩
    refine ⟨rec, hm, UInt64.not_le.1 fun hconf => ?_⟩
    by_cases hs : ∃ sh, rec.spentHeight = some sh ∧ target < sh
    · obtain ⟨sh, hsh, hlt⟩ := hs
      simp [rollback_of_revived hm hconf hsh hlt] at hnone
    · have hkept := rollback_of_kept hm hconf fun sh hsp =>
        UInt64.not_lt.1 fun hlt => hs ⟨sh, hsp, hlt⟩
      simp [hkept] at hnone
  · rintro ⟨rec, hm, hlt⟩
    exact ⟨⟨rec, hm⟩, rollback_of_deleted hm hlt⟩

end

end Coinset

end DigCoinstore
