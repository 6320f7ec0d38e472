import DigCoinstore.Reorg

/-!
# Rows for other Chia software (`types.rs`, API-002)

Heights are 64 bits wide in the store and 32 bits wide in the rows and states that other Chia
software reads. Every record of a store can be exported and read back, but for its fast-forward
flag, exactly as long as the tip fits in 32 bits (`Reachable.export_iff`).
-/

namespace DigCoinstore

variable [Chia]

/-- `ChiaCoinRecord`; `spentBlockIndex` is 0 for an unspent coin. -/
structure ChiaCoinRecord where
  coin : Coin
  confirmedBlockIndex : UInt32
  spentBlockIndex : UInt32
  coinbase : Bool
  timestamp : UInt64
deriving DecidableEq

/-- `u64::from(u32::MAX)` -/
def maxIndex : UInt64 := UInt64.ofNat (2 ^ 32 - 1)

namespace CoinRecord

def fromChiaCoinRecord (record : ChiaCoinRecord) : CoinRecord where
  coin := record.coin
  confirmedHeight := record.confirmedBlockIndex.toUInt64
  spentHeight := if record.spentBlockIndex = 0 then none else some record.spentBlockIndex.toUInt64
  coinbase := record.coinbase
  timestamp := record.timestamp
  ffEligible := false

/-- The index of a spend, 0 if there is none. -/
def spentIndex : Option UInt64 → Res UInt32
  | none => .ok 0
  | some h =>
    if h ≤ maxIndex then .ok h.toUInt32
    else .error (.panic "assertion failed: h <= u64::from(u32::MAX)")

def toChiaCoinRecord (rec : CoinRecord) : Res ChiaCoinRecord :=
  if rec.confirmedHeight ≤ maxIndex then do
    let spentBlockIndex ← spentIndex rec.spentHeight
    return {
      coin := rec.coin
      confirmedBlockIndex := rec.confirmedHeight.toUInt32
      spentBlockIndex
      coinbase := rec.coinbase
      timestamp := rec.timestamp }
  else .error (.panic "assertion failed: self.confirmed_height <= u64::from(u32::MAX)")

end CoinRecord

/-- The heights of a state, as wide as those of a record. -/
def CoinState.heights (state : CoinState) : Option UInt64 × Option UInt64 :=
  (state.createdHeight.map UInt32.toUInt64, state.spentHeight.map UInt32.toUInt64)

/-! ## 32 bits -/

omit [Chia] in
theorem le_maxIndex_iff {h : UInt64} : h ≤ maxIndex ↔ h.toNat < 2 ^ 32 := by
  have hmax : maxIndex.toNat = 2 ^ 32 - 1 := by decide
  rw [UInt64.le_iff_toNat_le, hmax]
  omega

omit [Chia] in
/-- A height fits in 32 bits exactly if it is read back. -/
theorem toUInt64_toUInt32_iff {h : UInt64} : h.toUInt32.toUInt64 = h ↔ h.toNat < 2 ^ 32 := by
  rw [← UInt64.toNat_inj, UInt32.toNat_toUInt64, UInt64.toNat_toUInt32]
  constructor
  · intro heq
    rw [← heq]
    exact Nat.mod_lt _ (by decide)
  · exact Nat.mod_eq_of_lt

namespace CoinRecord

variable {rec : CoinRecord} {w : ChiaCoinRecord}

omit [Chia] in
theorem spentIndex_eq_ok {o : Option UInt64} {i : UInt32} : spentIndex o = .ok i ↔
    (∀ h, o = some h → h.toNat < 2 ^ 32) ∧ i = (o.map UInt64.toUInt32).getD 0 := by
  cases o with
  | none => simp [spentIndex, eq_comm]
  | some h =>
    rw [spentIndex]
    split
    · next hle =>
      have hlt := le_maxIndex_iff.1 hle
      rw [Except.ok.injEq, Option.map_some, Option.getD_some, eq_comm]
      exact (and_iff_right fun h' heq => Option.some.inj heq ▸ hlt).symm
    · next hgt =>
      rw [le_maxIndex_iff] at hgt
      refine iff_of_false (fun hok => nomatch hok) fun hand => hgt (hand.1 h rfl)

omit [Chia] in
/-- A record that can be exported, with what is exported. -/
theorem toChiaCoinRecord_eq_ok : rec.toChiaCoinRecord = .ok w ↔
    rec.confirmedHeight.toNat < 2 ^ 32 ∧ (∀ h, rec.spentHeight = some h → h.toNat < 2 ^ 32) ∧
      w = ⟨rec.coin, rec.confirmedHeight.toUInt32, (rec.spentHeight.map UInt64.toUInt32).getD 0,
        rec.coinbase, rec.timestamp⟩ := by
  rw [toChiaCoinRecord]
  split
  · next hle =>
    rw [Res.bind_eq_ok, and_iff_right (le_maxIndex_iff.1 hle)]
    simp only [spentIndex_eq_ok, Res.pure_eq, Except.ok.injEq]
    constructor
    · rintro ⟨_, ⟨hspent, rfl⟩, rfl⟩
      exact ⟨hspent, rfl⟩
    · rintro ⟨hspent, rfl⟩
      exact ⟨_, ⟨hspent, rfl⟩, rfl⟩
  · next hgt =>
    rw [le_maxIndex_iff] at hgt
    exact iff_of_false (fun hok => nomatch hok) fun hand => hgt hand.1

omit [Chia] in
/-- What is exported is read back, but for the fast-forward flag. -/
theorem fromChiaCoinRecord_of_ok (hzero : rec.spentHeight ≠ some 0)
    (hok : rec.toChiaCoinRecord = .ok w) : fromChiaCoinRecord w = rec.life := by
  obtain ⟨hconf, hspent, rfl⟩ := toChiaCoinRecord_eq_ok.1 hok
  rw [fromChiaCoinRecord, life]
  congr 1
  · exact toUInt64_toUInt32_iff.2 hconf
  · cases hs : rec.spentHeight with
    | none => rfl
    | some h =>
      have hback := toUInt64_toUInt32_iff.2 (hspent h hs)
      have hne : h.toUInt32 ≠ 0 := by
        rintro hindex
        rw [hindex] at hback
        exact hzero (hs.trans (congrArg some hback.symm))
      rw [Option.map_some, Option.getD_some, if_neg hne, hback]

omit [Chia] in
/-- Every row can be read, and is exported as it was. -/
theorem toChiaCoinRecord_from (w : ChiaCoinRecord) :
    (fromChiaCoinRecord w).toChiaCoinRecord = .ok w := by
  have hlt : ∀ i : UInt32, i.toUInt64.toNat < 2 ^ 32 := fun i => by
    rw [UInt32.toNat_toUInt64]
    exact i.toNat_lt
  rw [toChiaCoinRecord_eq_ok]
  refine ⟨hlt _, fun h hs => ?_, ?_⟩
  · rw [fromChiaCoinRecord] at hs
    dsimp only at hs
    split at hs
    · cases hs
    · obtain rfl := Option.some.inj hs
      exact hlt _
  · obtain ⟨coin, confirmed, spent, coinbase, timestamp⟩ := w
    simp only [fromChiaCoinRecord, UInt32.toUInt32_toUInt64, ChiaCoinRecord.mk.injEq, true_and,
      and_true]
    split
    · next hzero => exact hzero
    · simp

end CoinRecord

/-! ## Every record of a store -/

namespace CoinStore

/-- Every stored record can be exported and read back, but for its fast-forward flag. -/
def Exports (s : CoinStore) : Prop :=
  ∀ rec ∈ s.storedRecords, ∃ w, rec.toChiaCoinRecord = .ok w ∧
    CoinRecord.fromChiaCoinRecord w = rec.life

/-- The state of every stored record carries its heights. -/
def StatesExact (s : CoinStore) : Prop :=
  ∀ rec ∈ s.storedRecords, rec.toCoinState.heights = (some rec.confirmedHeight, rec.spentHeight)

end CoinStore

/-- **When a store can be exported**: every record goes through a Chia row, and its state carries
its heights, exactly as long as the tip fits in 32 bits. -/
theorem Reachable.export_iff {U : Set Coin} {P : BlockData → Prop} {s : CoinStore}
    (h : Reachable U P s) :
    (s.Exports ↔ s.height.toNat < 2 ^ 32) ∧ (s.StatesExact ↔ s.height.toNat < 2 ^ 32) := by
  obtain ⟨m, hm, -⟩ := h.life
  have hfits : s.height.toNat < 2 ^ 32 → ∀ rec ∈ s.storedRecords,
      rec.confirmedHeight.toNat < 2 ^ 32 ∧
        ∀ sh, rec.spentHeight = some sh → sh.toNat < 2 ^ 32 := fun htip rec hrec => by
    have hid := hm.mem_storedRecords.1 hrec
    exact ⟨(hm.lives.confirmed_le hid).trans_lt htip,
      fun sh hs => (hm.lives.spent hid hs).2.trans_lt htip⟩
  -- some coin was confirmed at the tip, unless the tip is 0
  have htop : (∀ rec ∈ s.storedRecords, rec.confirmedHeight.toNat < 2 ^ 32) →
      s.height.toNat < 2 ^ 32 := fun hall => by
    by_cases hpos : 0 < s.height.toNat
    · obtain ⟨id, rec, hid, hconf⟩ := hm.filled s.height hpos (Nat.le_refl _)
      have hrec : rec ∈ s.storedRecords := hm.mem_storedRecords.2 (by rwa [hm.ids hid])
      rw [← hconf]
      exact hall rec hrec
    · omega
  constructor
  · constructor
    · intro hexp
      refine htop fun rec hrec => ?_
      obtain ⟨w, hok, -⟩ := hexp rec hrec
      exact (CoinRecord.toChiaCoinRecord_eq_ok.1 hok).1
    · intro htip rec hrec
      obtain ⟨hconf, hspent⟩ := hfits htip rec hrec
      have hok := CoinRecord.toChiaCoinRecord_eq_ok.2 ⟨hconf, hspent, rfl⟩
      refine ⟨_, hok, CoinRecord.fromChiaCoinRecord_of_ok (fun hzero => ?_) hok⟩
      have hlt := (hm.lives.spent (hm.mem_storedRecords.1 hrec) hzero).1
      simp at hlt
  · constructor
    · intro hstates
      refine htop fun rec hrec => toUInt64_toUInt32_iff.1 ?_
      exact Option.some.inj (congrArg Prod.fst (hstates rec hrec))
    · intro htip rec hrec
      obtain ⟨hconf, hspent⟩ := hfits htip rec hrec
      refine Prod.ext (congrArg some (toUInt64_toUInt32_iff.2 hconf)) ?_
      show (rec.spentHeight.map UInt64.toUInt32).map UInt32.toUInt64 = rec.spentHeight
      cases hs : rec.spentHeight with
      | none => rfl
      | some sh => exact congrArg some (toUInt64_toUInt32_iff.2 (hspent sh hs))

end DigCoinstore

namespace DigCoinstore

open Sample

theorem export_iff_afterOne : (afterOne.Exports ↔ afterOne.height.toNat < 2 ^ 32) ∧
    (afterOne.StatesExact ↔ afterOne.height.toNat < 2 ^ 32) :=
  reachable_afterOne.export_iff

end DigCoinstore
