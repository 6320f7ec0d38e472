import Mathlib.Data.Finset.Lattice.Lemmas
import DigCoinstore.GenesisFacts

/-!
# When a block fits

`Applicable s m block removed` says when a block passes every check but the one of the expected
root, over the coin set `m` of the store; phase one checks the part that `validateBlock_eq_ok`
states. What such a block does to the coin set is `Applicable.applied_cases`.
-/

namespace DigCoinstore

variable [Chia]

/-- The ids that validation takes for those of the new coins. -/
def BlockData.claimedIds (block : BlockData) : List CoinId :=
  block.additions.map (·.coinId) ++ block.coinbaseCoins.map Chia.coinId

namespace BlockData

variable {block : BlockData} {id : CoinId}

theorem mem_claimedIds : id ∈ block.claimedIds ↔
    (∃ c ∈ block.coinbaseCoins, Chia.coinId c = id) ∨ ∃ a ∈ block.additions, a.coinId = id := by
  rw [claimedIds, List.mem_append, List.mem_map, List.mem_map, or_comm]

theorem exists_mem_coins : (∃ c ∈ block.coins, Chia.coinId c = id) ↔
    (∃ c ∈ block.coinbaseCoins, Chia.coinId c = id) ∨
      ∃ a ∈ block.additions, Chia.coinId a.coin = id := by
  simp only [coins, List.mem_append, or_and_right, exists_or, List.mem_map, exists_exists_and_eq_and]

end BlockData

namespace CoinStore

/-- **A block that fits the store**, spending the records `removed`. -/
structure Applicable (s : CoinStore) (m : Coinset) (block : BlockData) (removed : List CoinRecord) :
    Prop where
  initialized : s.initialized = true
  height_lt : s.height.toNat + 1 < 2 ^ 64
  height : block.height = s.height + 1
  parent : block.parentHash = s.tipHash
  rewards : minRewards ≤ block.coinbaseCoins.length
  removals : block.removals = removed.map CoinRecord.coinId
  live : ∀ rec ∈ removed, m rec.coinId = some rec ∧ rec.spentHeight = none
  nodup : block.claimedIds.Nodup
  claimed : ∀ id ∈ block.claimedIds, m id = none
  fresh : ∀ rec ∈ createdRecords block, m rec.coinId = none

/-! ## Validation -/

namespace Represents

variable {S : Scope} {s : CoinStore} {m : Coinset}

theorem removalRecord_eq_ok (h : s.Represents S m) {id : CoinId} {rec : CoinRecord} :
    s.removalRecord id = .ok rec ↔ m id = some rec ∧ rec.spentHeight = none := by
  rw [removalRecord, Backend.get_of_healthy h.healthy, h.record_get]
  cases hm : m id with
  | none => simp [err]
  | some rec' =>
    have hdec := decode_serialize (h.lives.storable hm)
    have hspent : (rec'.isSpent = true) ↔ rec'.spentHeight ≠ none := Option.isSome_iff_ne_none
    simp only [Option.map_some, orStorage_ok, Res.ok_bind, hdec]
    rw [Res.check_eq_ok, hspent, not_not, Res.pure_eq, Except.ok.injEq, Option.some.injEq]
    constructor
    · rintro ⟨hlive, rfl⟩
      exact ⟨rfl, hlive⟩
    · rintro ⟨rfl, hlive⟩
      exact ⟨hlive, rfl⟩

theorem removals_eq_ok (h : s.Represents S m) : ∀ (ids : List CoinId) (removed : List CoinRecord),
    ids.mapM s.removalRecord = .ok removed ↔ ids = removed.map CoinRecord.coinId ∧
      ∀ rec ∈ removed, m rec.coinId = some rec ∧ rec.spentHeight = none
  | [], [] => by simp
  | [], rec :: removed => by simp
  | id :: ids, removed => by
    simp only [List.mapM_cons, Res.bind_eq_ok, h.removalRecord_eq_ok, h.removals_eq_ok ids,
      Res.pure_eq, Except.ok.injEq]
    constructor
    · rintro ⟨rec, ⟨hm, hlive⟩, removed, ⟨rfl, hall⟩, rfl⟩
      obtain rfl := h.ids hm
      exact ⟨rfl, List.forall_mem_cons.2 ⟨⟨hm, hlive⟩, hall⟩⟩
    · rintro ⟨hids, hall⟩
      cases removed with
      | nil => cases hids
      | cons rec removed =>
        obtain ⟨rfl, rfl⟩ := List.cons.inj hids
        obtain ⟨hrec, hrest⟩ := List.forall_mem_cons.1 hall
        exact ⟨rec, hrec, removed, ⟨rfl, hrest⟩, rfl⟩

theorem checkAddition_eq_ok (h : s.Represents S m) {ids ids' : Finset Bytes32} {id : CoinId} :
    s.checkAddition ids id = .ok ids' ↔ (id ∉ ids ∧ m id = none) ∧ insert id ids = ids' := by
  rw [checkAddition, Backend.get_of_healthy h.healthy, h.record_get, Res.check_eq_ok]
  cases hm : m id <;> simp [err]

theorem checkAdditions_eq_ok (h : s.Represents S m) : ∀ (l : List CoinId) (ids ids' : Finset Bytes32),
    l.foldlM s.checkAddition ids = .ok ids' ↔
      l.Nodup ∧ (∀ id ∈ l, id ∉ ids ∧ m id = none) ∧ ids ∪ l.toFinset = ids'
  | [], ids, ids' => by simp
  | id :: l, ids, ids' => by
    have hunion : insert id ids ∪ l.toFinset = ids ∪ (id :: l).toFinset := by
      rw [List.toFinset_cons, Finset.union_insert, Finset.insert_union]
    simp only [List.foldlM_cons, Res.bind_eq_ok, h.checkAddition_eq_ok, h.checkAdditions_eq_ok l,
      List.nodup_cons, List.forall_mem_cons]
    constructor
    · rintro ⟨_, ⟨hid, rfl⟩, hnd, hall, rfl⟩
      refine ⟨⟨fun hmem => (hall id hmem).1 (Finset.mem_insert_self ..), hnd⟩, ⟨hid, fun a ha => ?_⟩,
        hunion.symm⟩
      exact ⟨fun hmem => (hall a ha).1 (Finset.mem_insert_of_mem hmem), (hall a ha).2⟩
    · rintro ⟨⟨hmem, hnd⟩, ⟨hid, hall⟩, rfl⟩
      refine ⟨_, ⟨hid, rfl⟩, hnd, fun a ha => ⟨fun hin => ?_, (hall a ha).2⟩, hunion⟩
      rcases Finset.mem_insert.1 hin with rfl | hin
      · exact hmem ha
      · exact (hall a ha).1 hin

omit [Chia] in
/-- A hint is a hash, which is never too long. -/
theorem checkHints : ∀ hints : List (CoinId × Bytes32), hints.forM checkHint = .ok ()
  | [] => rfl
  | hint :: hints => by
    have hhint : checkHint hint = .ok () := by simp [checkHint]
    rw [List.forM_eq_forM, List.forM_cons, hhint]
    exact checkHints hints

/-- **Phase one** passes exactly when the conditions hold on the coin set. -/
theorem validateBlock_eq_ok (h : s.Represents S m) {block : BlockData} {removed : List CoinRecord} :
    s.validateBlock block = .ok removed ↔ s.initialized = true ∧ s.height.toNat + 1 < 2 ^ 64 ∧
      block.height = s.height + 1 ∧ block.parentHash = s.tipHash ∧
      minRewards ≤ block.coinbaseCoins.length ∧ block.removals = removed.map CoinRecord.coinId ∧
      (∀ rec ∈ removed, m rec.coinId = some rec ∧ rec.spentHeight = none) ∧
      block.claimedIds.Nodup ∧ ∀ id ∈ block.claimedIds, m id = none := by
  have hclaimed : (∃ ids, block.additions.foldlM (fun ids a => s.checkAddition ids a.coinId) ∅ = .ok ids ∧
      ∃ ids', block.coinbaseCoins.foldlM (fun ids c => s.checkAddition ids (Chia.coinId c)) ids = .ok ids')
      ↔ block.claimedIds.Nodup ∧ ∀ id ∈ block.claimedIds, m id = none := by
    have hfold := h.checkAdditions_eq_ok block.claimedIds ∅
    simp only [BlockData.claimedIds, List.foldlM_append, List.foldlM_map, Res.bind_eq_ok] at hfold
    rw [BlockData.claimedIds]
    constructor
    · rintro ⟨ids, hadd, ids', hcb⟩
      obtain ⟨hnd, hall, _⟩ := (hfold ids').1 ⟨ids, hadd, hcb⟩
      exact ⟨hnd, fun id hid => (hall id hid).2⟩
    · rintro ⟨hnd, hall⟩
      obtain ⟨ids, hadd, hcb⟩ := (hfold _).2 ⟨hnd, fun id hid => ⟨by simp, hall id hid⟩, rfl⟩
      exact ⟨ids, hadd, _, hcb⟩
  simp only [validateBlock, Res.check_eq_ok, Res.bind_eq_ok, checkedAdd_eq_ok, checkHints,
    h.removals_eq_ok, Res.pure_eq, Except.ok.injEq, Bool.not_eq_true', Bool.not_eq_false, ne_eq,
    not_not, not_lt]
  rw [← hclaimed]
  constructor
  · rintro ⟨hinit, _, ⟨hlt, rfl⟩, hheight, hparent, hrew, _, ⟨hrem, hlive⟩, ids, hadd, ids', hcb, _, _,
      rfl⟩
    exact ⟨hinit, hlt, hheight, hparent, hrew, hrem, hlive, ids, hadd, ids', hcb⟩
  · rintro ⟨hinit, hlt, hheight, hparent, hrew, hrem, hlive, ids, hadd, ids', hcb⟩
    exact ⟨hinit, _, ⟨hlt, rfl⟩, hheight, hparent, hrew, _, ⟨hrem, hlive⟩, ids, hadd, ids', hcb, (), trivial,
      rfl⟩

end Represents

end CoinStore

/-! ## The coin set after a block -/

omit [Chia] in
theorem createdRecords_cases {block : BlockData} {rec : CoinRecord} (h : rec ∈ createdRecords block) :
    rec.coin ∈ block.coins ∧ rec.confirmedHeight = block.height ∧ rec.spentHeight = none := by
  rw [createdRecords, List.mem_append, List.mem_map, List.mem_map] at h
  rcases h with ⟨c, hc, rfl⟩ | ⟨a, ha, rfl⟩
  · exact ⟨List.mem_append_left _ hc, rfl, rfl⟩
  · have hcoin : a.coin ∈ block.coins := List.mem_append_right _ (List.mem_map_of_mem ha)
    cases hsame : a.sameAsParent <;> simp [additionRecord, hsame, CoinRecord.new, hcoin]

/-- Each created coin has a record. -/
theorem coinId_mem_createdRecords {block : BlockData} {c : Coin} (h : c ∈ block.coins) :
    Chia.coinId c ∈ (createdRecords block).map CoinRecord.coinId := by
  rw [BlockData.coins, List.mem_append] at h
  rw [createdRecords, List.map_append, List.mem_append, List.map_map, List.map_map]
  refine h.imp (fun h => List.mem_map.2 ⟨c, h, rfl⟩) fun h => ?_
  obtain ⟨a, ha, rfl⟩ := List.mem_map.1 h
  refine List.mem_map.2 ⟨a, ha, ?_⟩
  cases hsame : a.sameAsParent <;> simp [additionRecord, hsame, CoinRecord.new, CoinRecord.coinId]

namespace CoinStore.Applicable

variable {s : CoinStore} {m : Coinset} {block : BlockData} {removed : List CoinRecord}

/-- Creations leave the known ids alone. -/
theorem created_get (ha : s.Applicable m block removed) {id : CoinId} {rec : CoinRecord}
    (hm : m id = some rec) : m.putAll (createdRecords block) id = some rec := by
  rw [Coinset.putAll_of_not_mem _ _ fun hmem => ?_, hm]
  obtain ⟨rec', hrec', rfl⟩ := List.mem_map.1 hmem
  simp [ha.fresh rec' hrec'] at hm

/-- **What a block does to the coin set**: each record after it is an old one, a created one, or a
spent one. -/
theorem applied_cases (ha : s.Applicable m block removed) {id : CoinId} {rec : CoinRecord}
    (h : m.applyBlock block removed id = some rec) :
    (m id = some rec ∧ id ∉ block.removals) ∨
      (m id = none ∧ rec ∈ createdRecords block ∧ rec.coinId = id) ∨
      ∃ old ∈ removed, m id = some old ∧ old.spentHeight = none ∧ rec = old.spend block.height := by
  by_cases hmem : id ∈ (removed.map (·.spend block.height)).map CoinRecord.coinId
  · obtain ⟨rec', hrec', hid, hput⟩ :=
      Coinset.putAll_of_mem _ (m.putAll (createdRecords block)) hmem
    obtain ⟨old, hold, rfl⟩ := List.mem_map.1 hrec'
    obtain rfl := Option.some.inj (hput.symm.trans h)
    obtain ⟨hm, hlive⟩ := ha.live old hold
    exact .inr (.inr ⟨old, hold, hid ▸ hm, hlive, rfl⟩)
  · have hrem : id ∉ block.removals := by
      rw [ha.removals]
      rwa [List.map_map] at hmem
    rw [Coinset.applyBlock, Coinset.putAll_of_not_mem _ _ hmem] at h
    rcases Coinset.putAll_cases m h with hm | ⟨hrec, hid⟩
    · exact .inl ⟨hm, hrem⟩
    · exact .inr (.inl ⟨hid ▸ ha.fresh rec hrec, hrec, hid⟩)

/-- A known record stays, or is spent when its id is removed. -/
theorem applied_some (ha : s.Applicable m block removed) {id : CoinId} {rec : CoinRecord}
    (hm : m id = some rec) : (m.applyBlock block removed id = some rec ∧ id ∉ block.removals) ∨
      (rec.spentHeight = none ∧ id ∈ block.removals ∧
        m.applyBlock block removed id = some (rec.spend block.height)) := by
  by_cases hmem : id ∈ (removed.map (·.spend block.height)).map CoinRecord.coinId
  · obtain ⟨rec', hrec', hid, hput⟩ :=
      Coinset.putAll_of_mem _ (m.putAll (createdRecords block)) hmem
    obtain ⟨old, hold, rfl⟩ := List.mem_map.1 hrec'
    obtain ⟨hm', hlive⟩ := ha.live old hold
    obtain rfl : rec = old := Option.some.inj (hm.symm.trans (hid ▸ hm'))
    refine .inr ⟨hlive, ?_, hput⟩
    rw [ha.removals]
    rwa [List.map_map] at hmem
  · refine .inl ⟨?_, ?_⟩
    · rw [Coinset.applyBlock, Coinset.putAll_of_not_mem _ _ hmem, ha.created_get hm]
    · rw [ha.removals]
      rwa [List.map_map] at hmem

/-- Each created coin is known after the block. -/
theorem applied_created (ha : s.Applicable m block removed) {c : Coin} (hc : c ∈ block.coins) :
    ∃ rec ∈ createdRecords block, rec.coinId = Chia.coinId c ∧
      m.applyBlock block removed (Chia.coinId c) = some rec := by
  obtain ⟨rec, hrec, hid, hput⟩ := Coinset.putAll_of_mem _ m (coinId_mem_createdRecords hc)
  refine ⟨rec, hrec, hid, ?_⟩
  rw [Coinset.applyBlock, Coinset.putAll_of_not_mem _ _ fun hmem => ?_, hput]
  obtain ⟨rec', hrec', hid'⟩ := List.mem_map.1 hmem
  obtain ⟨old, hold, rfl⟩ := List.mem_map.1 hrec'
  have hnone := ha.fresh rec hrec
  rw [hid, ← hid'] at hnone
  exact nomatch hnone.symm.trans (ha.live old hold).1

theorem height_toNat (ha : s.Applicable m block removed) : block.height.toNat = s.height.toNat + 1 := by
  rw [ha.height, UInt64.toNat_add]
  exact Nat.mod_eq_of_lt ha.height_lt

/-- The block's events come after the old tip. -/
theorem later (ha : s.Applicable m block removed) :
    Lifecycle.Later coinLife s.height.toNat m (m.applyBlock block removed) where
  kept {id rec} hm := by
    rcases ha.applied_some hm with ⟨hm', _⟩ | ⟨hlive, _, hm'⟩
    · exact ⟨rec, hm', .inl rfl⟩
    · refine ⟨_, hm', .inr ⟨by simp [coinLife, hlive], ?_, block.height.toNat, rfl, ?_⟩⟩
      · simp [coinLife, CoinRecord.spend, ← hlive]
      · rw [ha.height_toNat]
        exact Nat.lt_succ_self _
  born {id rec} hnone hm' := by
    rcases ha.applied_cases hm' with ⟨hm, _⟩ | ⟨_, hrec, _⟩ | ⟨old, _, hm, _⟩
    · simp [hnone] at hm
    · simp only [coinLife, (createdRecords_cases hrec).2.1, ha.height_toNat]
      exact Nat.lt_succ_self _
    · simp [hnone] at hm

end CoinStore.Applicable

end DigCoinstore
