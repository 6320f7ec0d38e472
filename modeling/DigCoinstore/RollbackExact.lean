import Mathlib.Data.Finset.Card
import DigCoinstore.Durability
import DigCoinstore.Sample

/-!
# What a rollback reports

Below the tip `rollback_to_block` reports every record it deletes and every record it un-spends, as
it was before, and counts both kinds (`CoinStore.RollbackReported`). The target is compared with the
tip as an `i64`, so a tip from `2^63` on refuses every target that is not negative
(`Reachable.rollback_result_iff`).
-/

namespace DigCoinstore

variable [Chia]

namespace CoinStore

variable (s : CoinStore) (t : Int64)

/-- The coin of `id` was confirmed above the target. -/
def ConfirmedAbove (id : CoinId) (rec : CoinRecord) : Prop :=
  s.getCoinRecord id = .ok (some rec) ∧ t.toInt < rec.confirmedHeight.toNat

/-- The coin of `id` was confirmed by the target and spent above it. -/
def SpentAbove (id : CoinId) (rec : CoinRecord) : Prop :=
  s.getCoinRecord id = .ok (some rec) ∧ (rec.confirmedHeight.toNat : Int) ≤ t.toInt ∧
    ∃ sh, rec.spentHeight = some sh ∧ t.toInt < sh.toNat

/-- **The report of a rollback** of `s` to the target. -/
structure RollbackReported (result : RollbackResult) : Prop where
  modified : ∀ id rec, result.modifiedCoins[id]? = some rec ↔
    s.ConfirmedAbove t id rec ∨ s.SpentAbove t id rec
  deleted : ∃ ids : Finset CoinId, (∀ id, id ∈ ids ↔ ∃ rec, s.ConfirmedAbove t id rec) ∧
    ids.card = result.coinsDeleted
  unspent : ∃ ids : Finset CoinId, (∀ id, id ∈ ids ↔ ∃ rec, s.SpentAbove t id rec) ∧
    ids.card = result.coinsUnspent
  total : result.coinsDeleted + result.coinsUnspent = result.modifiedCoins.size
  newHeight : (result.newHeight.toNat : Int) = t.toInt

end CoinStore

/-! ## The lists of a rollback -/

omit [Chia] in
/-- The keys of a list of entries, counted. -/
theorem exists_card_keys {l : List (CoinId × CoinRecord)} (hnd : (l.map (·.1)).Nodup)
    {P : CoinId → CoinRecord → Prop} (hl : ∀ id rec, (id, rec) ∈ l ↔ P id rec) :
    ∃ ids : Finset CoinId, (∀ id, id ∈ ids ↔ ∃ rec, P id rec) ∧ ids.card = l.length := by
  refine ⟨(l.map (·.1)).toFinset, fun id => ?_, ?_⟩
  · rw [List.mem_toFinset]
    simp [hl]
  · rw [List.toFinset_card_of_nodup hnd, List.length_map]

omit [Chia] in
/-- No id is both deleted and un-spent. -/
theorem nodup_deleted_revived {m : Coinset} {target : UInt64} {del rev : List (CoinId × CoinRecord)}
    (hD : Deleted m target del) (hR : Revived m target rev) : ((del ++ rev).map (·.1)).Nodup := by
  rw [List.map_append]
  refine hD.nodup.append hR.nodup fun id hdel hrev => ?_
  obtain ⟨x, hx, rfl⟩ := List.mem_map.1 hdel
  obtain ⟨y, hy, hid⟩ := List.mem_map.1 hrev
  obtain ⟨hm, hlt⟩ := (hD.mem x.1 x.2).1 hx
  obtain ⟨hm', hle, _⟩ := (hR.mem y.1 y.2).1 hy
  rw [hid, hm] at hm'
  rw [Option.some.inj hm'] at hlt
  exact UInt64.not_lt.2 hle hlt

namespace CoinStore

variable {S : Scope} {s s' : CoinStore} {m : Coinset} {t : Int64} {result : RollbackResult}

/-- The map of a rollback has the records of both passes. -/
theorem RolledBack.modified_iff {target : UInt64} (hrb : RolledBack S s m target s' result)
    (id : CoinId) (rec : CoinRecord) : result.modifiedCoins[id]? = some rec ↔
      (m id = some rec ∧ target < rec.confirmedHeight) ∨ (m id = some rec ∧
        rec.confirmedHeight ≤ target ∧ ∃ sh, rec.spentHeight = some sh ∧ target < sh) := by
  obtain ⟨del, rev, hD, hR, rfl⟩ := hrb.result
  rw [← OrdMap.insertAll_append, OrdMap.getElem?_insertAll (nodup_deleted_revived hD hR),
    List.mem_append, hD.mem, hR.mem]

/-- **A rollback below the tip reports what it undoes.** -/
theorem Represents.rollbackReported (h : s.Represents S m) (hnneg : 0 ≤ t.toInt)
    (hrb : RolledBack S s m (effectiveTarget t) s' result) : s.RollbackReported t result := by
  have hmodified := hrb.modified_iff
  obtain ⟨del, rev, hD, hR, rfl⟩ := hrb.result
  have htarget : ((effectiveTarget t).toNat : Int) = t.toInt := by
    obtain ⟨n, hn⟩ := Int.eq_ofNat_of_zero_le hnneg
    rw [toNat_effectiveTarget hn, hn]
  have hlt : ∀ h : UInt64, effectiveTarget t < h ↔ t.toInt < h.toNat := fun h => by
    rw [UInt64.lt_iff_toNat_lt, ← htarget, Int.ofNat_lt]
  have hle : ∀ h : UInt64, h ≤ effectiveTarget t ↔ (h.toNat : Int) ≤ t.toInt := fun h => by
    rw [UInt64.le_iff_toNat_le, ← htarget, Int.ofNat_le]
  have hdel : ∀ id rec, (id, rec) ∈ del ↔ s.ConfirmedAbove t id rec := fun id rec => by
    rw [hD.mem, ConfirmedAbove, h.getCoinRecord_eq, Except.ok.injEq, hlt]
  have hrev : ∀ id rec, (id, rec) ∈ rev ↔ s.SpentAbove t id rec := fun id rec => by
    simp only [hR.mem, SpentAbove, h.getCoinRecord_eq, Except.ok.injEq, hlt, hle]
  have hnd := nodup_deleted_revived hD hR
  exact {
    modified := fun id rec => by
      rw [hmodified, ← hD.mem, ← hR.mem, hdel, hrev]
    deleted := exists_card_keys hD.nodup hdel
    unspent := exists_card_keys hR.nodup hrev
    total := by
      rw [← OrdMap.insertAll_append, OrdMap.size_insertAll hnd, List.length_append]
    newHeight := htarget }

end CoinStore

/-- **When a rollback below the tip reports what it undoes**: as long as the tip fits an `i64`. -/
theorem Reachable.rollback_result_iff {U : Set Coin} {P : BlockData → Prop} {s : CoinStore}
    (h : Reachable U P s) {t : Int64} (hnneg : 0 ≤ t.toInt) (hlt : t.toInt < s.height.toNat) :
    (∃ s' result, s.rollbackToBlock t = (s', .ok result) ∧ s.RollbackReported t result) ↔
      s.height.toNat < 2 ^ 63 := by
  obtain ⟨m, hm, _⟩ := h.life
  have hout := hm.rollbackToBlock_outcome t
  generalize s.rollbackToBlock t = out at hout
  constructor
  · rintro ⟨s', result, rfl, _⟩
    by_contra hbig
    have hneg := FixedInt.toInt_toInt64_of_ge (Nat.not_lt.1 hbig)
    have hmax := s.height.toNat_lt
    have habove : s.height.toInt64 < t := by
      rw [Int64.lt_iff_toInt_lt, hneg]
      omega
    cases hout with
    | kept _ hnot => exact hnot habove
    | rolledBack _ hnot => exact hnot habove
  · intro hfits
    cases hout with
    | rejected hrej =>
      rcases hrej with hinit | habove
      · have hzero := (hm.blank hinit).2.1
        rw [hzero, UInt64.toNat_zero] at hlt
        omega
      · rw [Int64.lt_iff_toInt_lt, FixedInt.toInt_toInt64 hfits] at habove
        omega
    | kept _ _ _ hle =>
      obtain ⟨n, hn⟩ := Int.eq_ofNat_of_zero_le hnneg
      have hle' := UInt64.le_iff_toNat_le.1 hle
      rw [CoinStore.toNat_effectiveTarget hn] at hle'
      omega
    | rolledBack _ _ _ hrb => exact ⟨_, _, rfl, hm.rollbackReported hnneg hrb⟩

end DigCoinstore

namespace DigCoinstore

open Sample

/-- The report of a rollback of block one. -/
theorem rollback_result_afterOne :
    (∃ s' result, afterOne.rollbackToBlock 0 = (s', .ok result) ∧
      afterOne.RollbackReported 0 result) ↔ afterOne.height.toNat < 2 ^ 63 :=
  reachable_afterOne.rollback_result_iff (by decide) (by decide +kernel)

/-! ## A chain of any height -/

/-- A block over `n` others, with two coins of its own. -/
def plainBlock (n : Nat) : BlockData where
  height := UInt64.ofNat n + 1
  timestamp := 20
  blockHash := .zero
  parentHash := .zero
  additions := []
  removals := []
  coinbaseCoins := [coin (UInt64.ofNat (2 * n)), coin (UInt64.ofNat (2 * n + 1))]
  hints := []
  expectedStateRoot := none

/-- The first `n` plain blocks. -/
def plainBlocks (n : Nat) : List BlockData := (List.range n).map plainBlock

/-- The state after `n` plain blocks; the coins have the amounts below `2 * n`. -/
structure Tall (n : Nat) (s : CoinStore) (m : Coinset) : Prop where
  accepted : Accepted emptyGenesis (plainBlocks n) s
  represents : s.Represents .life m
  initialized : s.initialized = true
  height : s.height = UInt64.ofNat n
  tipHash : s.tipHash = .zero
  amounts : ∀ {id rec}, m id = some rec → ∃ k < 2 * n, id = ofNum k

theorem ofNat_toNat {k : Nat} (h : k < 2 ^ 64) : (UInt64.ofNat k).toNat = k := by
  rw [UInt64.toNat_ofNat', Nat.mod_eq_of_lt h]

theorem plainBlock_coins {n : Nat} {c : Coin} (hn : n < 2 ^ 63) (hc : c ∈ (plainBlock n).coins) :
    ∃ k, 2 * n ≤ k ∧ k < 2 * (n + 1) ∧ c ∈ coins ∧ Chia.coinId c = ofNum k := by
  simp only [BlockData.coins, plainBlock, List.map_nil, List.append_nil, List.mem_cons,
    List.not_mem_nil, or_false] at hc
  rcases hc with rfl | rfl
  · refine ⟨2 * n, le_rfl, by omega, coin_mem _, congrArg ofNum ?_⟩
    exact ofNat_toNat (by omega)
  · refine ⟨2 * n + 1, by omega, by omega, coin_mem _, congrArg ofNum ?_⟩
    exact ofNat_toNat (by omega)

theorem plainBlocks_fit {n : Nat} (hn : n ≤ 2 ^ 63) :
    ∀ b ∈ plainBlocks n, b.Honest ∧ ∀ c ∈ b.coins, c ∈ coins := by
  intro b hb
  obtain ⟨k, hk, rfl⟩ := List.mem_map.1 hb
  refine ⟨fun _ ha => absurd ha List.not_mem_nil, fun c hc => ?_⟩
  obtain ⟨_, _, _, hmem, _⟩ := plainBlock_coins ((List.mem_range.1 hk).trans_le hn) hc
  exact hmem

/-- The coins of the next block are new. -/
theorem Tall.fresh {n : Nat} {s : CoinStore} {m : Coinset} (h : Tall n s m) {k : Nat}
    (hk : 2 * n ≤ k) (hlt : k < 2 ^ 256) : m (ofNum k) = none := by
  cases hm : m (ofNum k) with
  | none => rfl
  | some rec =>
    obtain ⟨k', hk', heq⟩ := h.amounts hm
    have hmod := ofNum_inj heq
    rw [Nat.mod_eq_of_lt hlt, Nat.mod_eq_of_lt (by omega)] at hmod
    omega

theorem Tall.applicable {n : Nat} {s : CoinStore} {m : Coinset} (h : Tall n s m) (hn : n < 2 ^ 63) :
    s.Applicable m (plainBlock n) [] := by
  have hnone : ∀ c ∈ (plainBlock n).coins, m (Chia.coinId c) = none := fun c hc => by
    obtain ⟨k, hk, hlt, _, hid⟩ := plainBlock_coins hn hc
    rw [hid]
    exact h.fresh hk (by omega)
  exact {
    initialized := h.initialized
    height_lt := by
      rw [h.height, ofNat_toNat (by omega)]
      omega
    height := by rw [h.height]; rfl
    parent := h.tipHash.symm
    rewards := le_rfl
    removals := rfl
    live := fun _ hrec => nomatch hrec
    nodup := by
      have hne : Chia.coinId (coin (UInt64.ofNat (2 * n))) ≠
          Chia.coinId (coin (UInt64.ofNat (2 * n + 1))) := fun heq => by
        have hsame := congrArg Coin.amount (coinId_injOn (coin_mem _) (coin_mem _) heq)
        have hnum := congrArg UInt64.toNat hsame
        rw [coin, coin, ofNat_toNat (by omega),
          ofNat_toNat (by omega)] at hnum
        omega
      simpa [BlockData.claimedIds, plainBlock] using hne
    claimed := fun id hid => by
      rw [BlockData.mem_claimedIds] at hid
      rcases hid with ⟨c, hc, rfl⟩ | ⟨a, ha, _⟩
      · exact hnone c (List.mem_append_left _ hc)
      · cases ha
    fresh := fun rec hrec => hnone _ (createdRecords_cases hrec).1 }

theorem tall_zero : ∃ s m, Tall 0 s m := by
  obtain ⟨m, hm, _⟩ := reachable_emptyGenesis.life
  obtain ⟨hinit, hheight, htip, hrows⟩ : emptyGenesis.initialized = true ∧ emptyGenesis.height = 0 ∧
      emptyGenesis.tipHash = .zero ∧ (emptyGenesis.backend.tables .coinRecords).toList = [] := by
    decide
  refine ⟨emptyGenesis, m, .nil, hm, hinit, hheight, htip, fun {id rec} hrec => ?_⟩
  have hget := hm.record_get id
  rw [OrdMap.getElem?_of_toList_nil hrows, hrec] at hget
  cases hget

theorem tall_succ {n : Nat} {s : CoinStore} {m : Coinset} (h : Tall n s m) (hn : n < 2 ^ 63) :
    ∃ s' m', Tall (n + 1) s' m' := by
  have ha := h.applicable hn
  obtain ⟨tree, htree, happ⟩ := h.represents.applyBlock_of_applicable ha rfl
  have hacc : Accepted emptyGenesis (plainBlocks (n + 1)) (s.accept (plainBlock n) [] tree) := by
    rw [plainBlocks, List.range_succ, List.map_append]
    exact h.accepted.append (.cons happ .nil)
  refine ⟨_, _, hacc, h.represents.accept_represents (fun _ _ => Set.mem_univ _) ha htree,
    h.initialized, ?_, rfl, fun {id rec} hrec => ?_⟩
  · exact (UInt64.ofNat_add n 1).symm
  · rcases ha.applied_cases hrec with ⟨hold, _⟩ | ⟨_, hcreated, rfl⟩ | ⟨_, hold, _⟩
    · obtain ⟨k, hk, hid⟩ := h.amounts hold
      exact ⟨k, by omega, hid⟩
    · obtain ⟨k, _, hlt, _, hid⟩ := plainBlock_coins hn (createdRecords_cases hcreated).1
      exact ⟨k, hlt, hid⟩
    · cases hold

theorem tall : ∀ n ≤ 2 ^ 63, ∃ s m, Tall n s m
  | 0, _ => tall_zero
  | n + 1, hn => by
    obtain ⟨s, m, h⟩ := tall n (by omega)
    exact tall_succ h (by omega)

/-- From height `2^63` a rollback to height 0 is refused. -/
theorem Tall.refused {s : CoinStore} {m : Coinset} (h : Tall (2 ^ 63) s m) :
    s.rollbackToBlock 0 = (s, err (.rollbackAboveTip 0 s.height)) := by
  have habove : s.height.toInt64 < 0 := by
    rw [h.height]
    decide
  rw [CoinStore.rollbackToBlock, if_neg (by simp [h.initialized]), if_pos habove]

/-- A run of `2^63` blocks, after which a rollback to height 0 is refused. -/
theorem rollback_result_fails : ∃ s, Reachable coins BlockData.Honest s ∧ s.height.toNat = 2 ^ 63 ∧
    s.rollbackToBlock 0 = (s, err (.rollbackAboveTip 0 s.height)) ∧
    ¬ ∃ s' result, s.rollbackToBlock 0 = (s', .ok result) ∧ s.RollbackReported 0 result := by
  obtain ⟨s, m, h⟩ := tall (2 ^ 63) le_rfl
  have hheight : s.height.toNat = 2 ^ 63 := by
    rw [h.height, ofNat_toNat (by decide)]
  refine ⟨s, h.accepted.reachable reachable_emptyGenesis (plainBlocks_fit le_rfl), hheight, h.refused,
    ?_⟩
  rintro ⟨s', result, hok, _⟩
  rw [h.refused] at hok
  cases (Prod.mk.inj hok).2

end DigCoinstore
