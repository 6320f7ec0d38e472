import DigCoinstore.LedgerRefinement

/-!
# Following the store by height (`get_coins_added_at_height`, `get_coins_removed_at_height`)

The lists of coins added and removed at each height hold every stored coin once, and every spent
coin once (`Reachable.heights_partition`). A client that adds the one list and takes away the other,
height by height, holds at each height the coins that a rollback to it would make unspent
(`Reachable.follow_eq_rollback`).
-/

namespace DigCoinstore

variable [Chia]

/-- The lists of the heights up to `n`. -/
def upTo (lists : UInt64 → List CoinRecord) (n : Nat) : List CoinRecord :=
  (List.range (n + 1)).flatMap fun k => lists (UInt64.ofNat k)

/-- The ids of some records. -/
def idsOf (records : List CoinRecord) : Finset CoinId := (records.map CoinRecord.coinId).toFinset

/-- **The client**: the ids added so far, but for those removed. -/
def follow (added removed : UInt64 → List CoinRecord) : Nat → Finset CoinId
  | 0 => idsOf (added 0)
  | n + 1 =>
    (follow added removed n ∪ idsOf (added (UInt64.ofNat (n + 1)))) \
      idsOf (removed (UInt64.ofNat (n + 1)))

namespace CoinStore

/-- What the two queries return. -/
structure AnswersByHeight (s : CoinStore) (added removed : UInt64 → List CoinRecord) : Prop where
  added : ∀ height, s.getCoinsAddedAtHeight height = .ok (added height)
  removed : ∀ height, s.getCoinsRemovedAtHeight height = .ok (removed height)

/-- The lists hold the coins of `m`, each at the height that `at` gives. -/
structure ListsAt (m : Coinset) (lists : UInt64 → List CoinRecord)
    (height : CoinRecord → Option UInt64) : Prop where
  mem : ∀ {k rec}, rec ∈ lists k ↔ m rec.coinId = some rec ∧ height rec = some k
  nodup : ∀ k, ((lists k).map CoinRecord.coinId).Nodup

namespace ListsAt

variable {m : Coinset} {lists : UInt64 → List CoinRecord} {height : CoinRecord → Option UInt64}

theorem mem_upTo (h : ListsAt m lists height) {n : Nat} (hn : n < 2 ^ 64) {rec : CoinRecord} :
    rec ∈ upTo lists n ↔ m rec.coinId = some rec ∧ ∃ k, height rec = some k ∧ k.toNat ≤ n := by
  rw [upTo, List.mem_flatMap]
  constructor
  · rintro ⟨k, hk, hrec⟩
    have hle : k ≤ n := Nat.lt_succ_iff.1 (List.mem_range.1 hk)
    obtain ⟨hm, hheight⟩ := h.mem.1 hrec
    refine ⟨hm, _, hheight, ?_⟩
    rw [UInt64.toNat_ofNat', Nat.mod_eq_of_lt (by omega)]
    exact hle
  · rintro ⟨hm, k, hheight, hle⟩
    refine ⟨k.toNat, List.mem_range.2 (Nat.lt_succ_of_le hle), h.mem.2 ⟨hm, ?_⟩⟩
    rw [hheight, UInt64.ofNat_toNat]

theorem nodup_upTo (h : ListsAt m lists height) {n : Nat} (hn : n < 2 ^ 64) :
    ((upTo lists n).map CoinRecord.coinId).Nodup := by
  rw [upTo, List.map_flatMap]
  refine List.nodup_flatMap.2 ⟨fun k _ => h.nodup _, ?_⟩
  refine List.nodup_range.imp_of_mem fun {k k'} hk hk' hne => ?_
  rintro id hid hid'
  obtain ⟨rec, hrec, rfl⟩ := List.mem_map.1 hid
  obtain ⟨rec', hrec', heq⟩ := List.mem_map.1 hid'
  obtain ⟨hm, hheight⟩ := h.mem.1 hrec
  obtain ⟨hm', hheight'⟩ := h.mem.1 hrec'
  rw [heq, hm] at hm'
  obtain rfl := Option.some.inj hm'
  have hofNat := congrArg UInt64.toNat (Option.some.inj (hheight.symm.trans hheight'))
  have hlt := List.mem_range.1 hk
  have hlt' := List.mem_range.1 hk'
  rw [UInt64.toNat_ofNat', UInt64.toNat_ofNat', Nat.mod_eq_of_lt (by omega),
    Nat.mod_eq_of_lt (by omega)] at hofNat
  exact hne hofNat

theorem mem_idsOf (h : ListsAt m lists height) (hids : ∀ {id rec}, m id = some rec → rec.coinId = id)
    {k : UInt64} {id : CoinId} :
    id ∈ idsOf (lists k) ↔ ∃ rec, m id = some rec ∧ height rec = some k := by
  rw [idsOf, List.mem_toFinset, List.mem_map]
  constructor
  · rintro ⟨rec, hrec, rfl⟩
    exact ⟨rec, h.mem.1 hrec⟩
  · rintro ⟨rec, hm, hheight⟩
    refine ⟨rec, h.mem.2 ⟨?_, hheight⟩, hids hm⟩
    rw [hids hm]
    exact hm

end ListsAt

variable {s : CoinStore} {m : Coinset}

/-- **The two queries list the coins by height.** -/
theorem Represents.listsByHeight (h : s.Represents .life m) : ∃ added removed,
    s.AnswersByHeight added removed ∧ ListsAt m added (fun rec => some rec.confirmedHeight) ∧
      ListsAt m removed (·.spentHeight) := by
  have hadded : ∀ k, Lists (s.getCoinsAddedAtHeight k)
      {rec | rec ∈ s.storedRecords ∧ rec.confirmedHeight = k} := fun k => by
    refine h.lists_pushIndexed (by decide) (by simp [Scope.life, lifeFamilies])
      (FixedInt.length_toBeBytes k) rfl (fun rec hrec => hrec.1) fun rec hrec => ?_
    rw [indexHead, Option.some.injEq, FixedInt.toBeBytes_inj, and_iff_left rfl]
    exact (and_iff_right hrec).symm
  have hremoved : ∀ k, Lists (s.getCoinsRemovedAtHeight k)
      {rec | rec ∈ s.storedRecords ∧ rec.spentHeight = some k} := fun k => by
    rw [getCoinsRemovedAtHeight]
    split
    · next hzero =>
      -- no coin is spent at height 0
      refine ⟨[], rfl, List.nodup_nil, fun rec => iff_of_false List.not_mem_nil fun hrec => ?_⟩
      obtain ⟨hlt, -⟩ := h.lives.spent (h.mem_storedRecords.1 hrec.1) hrec.2
      rw [hzero] at hlt
      exact absurd hlt (Nat.not_lt_zero _)
    · refine h.lists_pushIndexed (by decide) (by simp [Scope.life, lifeFamilies])
        (FixedInt.length_toBeBytes k) rfl (fun rec hrec => hrec.1) fun rec hrec => ?_
      rw [indexHead, Option.map_eq_some_iff, and_iff_left rfl]
      simp only [FixedInt.toBeBytes_inj, exists_eq_right]
      exact (and_iff_right hrec).symm
  choose added hokA hnodA hmemA using hadded
  choose removed hokR hnodR hmemR using hremoved
  have hdistinct : ∀ {l : List CoinRecord}, l.Nodup → (∀ rec ∈ l, m rec.coinId = some rec) →
      (l.map CoinRecord.coinId).Nodup := fun hnodup hm =>
    List.Nodup.map_on (fun rec hrec rec' hrec' heq => by
      have hsame := hm rec hrec
      rw [heq, hm rec' hrec'] at hsame
      exact (Option.some.inj hsame).symm) hnodup
  refine ⟨added, removed, ⟨hokA, hokR⟩, ⟨?_, ?_⟩, ⟨?_, ?_⟩⟩
  · intro k rec
    rw [hmemA, Set.mem_ofPred_eq, h.mem_storedRecords, Option.some.injEq]
  · exact fun k => hdistinct (hnodA k) fun rec hrec => h.mem_storedRecords.1 ((hmemA k rec).1 hrec).1
  · intro k rec
    rw [hmemR, Set.mem_ofPred_eq, h.mem_storedRecords]
  · exact fun k => hdistinct (hnodR k) fun rec hrec => h.mem_storedRecords.1 ((hmemR k rec).1 hrec).1

end CoinStore

namespace Coinset

variable {m : Coinset} {added removed : UInt64 → List CoinRecord} {tip : UInt64} {id : CoinId}

/-- The coins that a client holds at height `n`. -/
def LiveAt (m : Coinset) (n : Nat) (id : CoinId) : Prop :=
  ∃ rec, m id = some rec ∧ rec.confirmedHeight.toNat ≤ n ∧
    ∀ sh, rec.spentHeight = some sh → n < sh.toNat

omit [Chia] in
/-- One more height: the coins added there come, those removed there go. -/
theorem liveAt_succ (hm : m.Lives tip) {n : Nat} (hn : n + 1 < 2 ^ 64) : m.LiveAt (n + 1) id ↔
    (m.LiveAt n id ∨ ∃ rec, m id = some rec ∧ rec.confirmedHeight = UInt64.ofNat (n + 1)) ∧
      ¬ ∃ rec, m id = some rec ∧ rec.spentHeight = some (UInt64.ofNat (n + 1)) := by
  have hofNat : (UInt64.ofNat (n + 1)).toNat = n + 1 := by
    rw [UInt64.toNat_ofNat', Nat.mod_eq_of_lt hn]
  cases hid : m id with
  | none => simp [LiveAt, hid]
  | some rec =>
    simp only [LiveAt, hid, Option.some.injEq, exists_eq_left']
    rw [← UInt64.toNat_inj, hofNat]
    cases hs : rec.spentHeight with
    | none =>
      simp only [reduceCtorEq, false_implies, implies_true, and_true, not_false_eq_true]
      omega
    | some sh =>
      have hlt := (hm.spent hid hs).1
      simp only [Option.some.injEq, forall_eq']
      rw [← UInt64.toNat_inj, hofNat]
      omega

/-- **What the client holds.** -/
theorem mem_follow (hm : m.Lives tip) (hids : ∀ {id rec}, m id = some rec → rec.coinId = id)
    (hadded : CoinStore.ListsAt m added fun rec => some rec.confirmedHeight)
    (hremoved : CoinStore.ListsAt m removed (·.spentHeight)) :
    ∀ {n : Nat}, n < 2 ^ 64 → (id ∈ follow added removed n ↔ m.LiveAt n id)
  | 0, _ => by
    rw [follow, hadded.mem_idsOf hids]
    refine exists_congr fun rec => and_congr_right fun hid => ?_
    rw [Option.some.injEq, ← UInt64.toNat_inj]
    constructor
    · intro hzero
      refine ⟨hzero.le, fun sh hs => ?_⟩
      have hlt := (hm.spent hid hs).1
      omega
    · rintro ⟨hle, -⟩
      exact Nat.le_zero.1 hle
  | n + 1, hn => by
    rw [follow, Finset.mem_sdiff, Finset.mem_union, mem_follow hm hids hadded hremoved (by omega),
      hadded.mem_idsOf hids, hremoved.mem_idsOf hids, liveAt_succ hm hn]
    simp only [Option.some.injEq]

omit [Chia] in
theorem rollback_unspent_iff {target : UInt64} :
    (∃ rec, m.rollback target id = some rec ∧ rec.spentHeight = none) ↔
      m.LiveAt target.toNat id := by
  constructor
  · rintro ⟨rec', hid', hnone⟩
    obtain ⟨rec, hid, hle, ⟨rfl, -⟩ | ⟨-, sh, hs, hlt⟩⟩ := rollback_cases hid'
    · refine ⟨rec', hid, UInt64.le_iff_toNat_le.1 hle, fun sh hs => ?_⟩
      rw [hnone] at hs
      cases hs
    · refine ⟨rec, hid, UInt64.le_iff_toNat_le.1 hle, fun sh' hs' => ?_⟩
      obtain rfl := Option.some.inj (hs.symm.trans hs')
      exact UInt64.lt_iff_toNat_lt.1 hlt
  · rintro ⟨rec, hid, hle, hlive⟩
    have hconf := UInt64.le_iff_toNat_le.2 hle
    cases hs : rec.spentHeight with
    | none =>
      refine ⟨rec, rollback_of_kept hid hconf fun sh hs' => ?_, hs⟩
      rw [hs] at hs'
      cases hs'
    | some sh =>
      exact ⟨_, rollback_of_revived hid hconf hs (UInt64.lt_iff_toNat_lt.2 (hlive sh hs)), rfl⟩

omit [Chia] in
theorem unspent_iff_liveAt (hm : m.Lives tip) :
    (∃ rec, m id = some rec ∧ rec.spentHeight = none) ↔ m.LiveAt tip.toNat id := by
  refine exists_congr fun rec => and_congr_right fun hid => ?_
  constructor
  · intro hnone
    refine ⟨hm.confirmed_le hid, fun sh hs => ?_⟩
    rw [hnone] at hs
    cases hs
  · rintro ⟨-, hlive⟩
    refine Option.eq_none_iff_forall_ne_some.2 fun sh hs => ?_
    exact absurd (hlive sh hs) (Nat.not_lt.2 (hm.spent hid hs).2)

end Coinset

variable {U : Set Coin} {P : BlockData → Prop} {s : CoinStore}

/-- **The lists by height partition the coins**: over the heights up to the tip the lists of added
coins hold every stored record once, those of removed coins every spent record once, and above the
tip both are empty. -/
theorem Reachable.heights_partition (h : Reachable U P s) : ∃ added removed,
    s.AnswersByHeight added removed ∧
      (∀ height, s.height < height → added height = [] ∧ removed height = []) ∧
      ((upTo added s.height.toNat).map CoinRecord.coinId).Nodup ∧
      (∀ rec, rec ∈ upTo added s.height.toNat ↔ rec ∈ s.storedRecords) ∧
      ((upTo removed s.height.toNat).map CoinRecord.coinId).Nodup ∧
      ∀ rec, rec ∈ upTo removed s.height.toNat ↔ rec ∈ s.storedRecords ∧ rec.isSpent = true := by
  obtain ⟨m, hm, -⟩ := h.life
  obtain ⟨added, removed, hanswers, hadded, hremoved⟩ := hm.listsByHeight
  have hlt := s.height.toNat_lt
  refine ⟨added, removed, hanswers, fun height habove => ⟨?_, ?_⟩, hadded.nodup_upTo hlt,
    fun rec => ?_, hremoved.nodup_upTo hlt, fun rec => ?_⟩
  · refine List.eq_nil_iff_forall_not_mem.2 fun rec hrec => ?_
    obtain ⟨hid, hheight⟩ := hadded.mem.1 hrec
    obtain rfl := Option.some.inj hheight
    exact absurd (UInt64.lt_iff_toNat_lt.1 habove) (Nat.not_lt.2 (hm.lives.confirmed_le hid))
  · refine List.eq_nil_iff_forall_not_mem.2 fun rec hrec => ?_
    obtain ⟨hid, hheight⟩ := hremoved.mem.1 hrec
    exact absurd (UInt64.lt_iff_toNat_lt.1 habove) (Nat.not_lt.2 (hm.lives.spent hid hheight).2)
  · rw [hadded.mem_upTo hlt, hm.mem_storedRecords]
    refine and_iff_left_of_imp fun hid => ⟨_, rfl, hm.lives.confirmed_le hid⟩
  · rw [hremoved.mem_upTo hlt, hm.mem_storedRecords]
    refine and_congr_right fun hid => ?_
    rw [CoinRecord.isSpent, Option.isSome_iff_exists]
    refine exists_congr fun sh => and_iff_left_of_imp fun hs => ?_
    exact (hm.lives.spent hid hs).2

/-- **Following the lists gives the rolled back coin set**: what a client holds that adds and takes
away the listed coins up to a height is what is unspent after a rollback to it. -/
theorem Reachable.follow_eq_rollback (h : Reachable U P s) (hP : ∀ b, P b → b.ClaimsItsCoins) :
    ∃ added removed, s.AnswersByHeight added removed ∧
      ∀ targetHeight s' result, s.rollbackToBlock targetHeight = (s', .ok result) →
        ∀ id, id ∈ follow added removed s'.height.toNat ↔ s'.isUnspent id = true := by
  obtain ⟨l, hl⟩ := h.tracks hP
  obtain ⟨added, removed, hanswers, hadded, hremoved⟩ := hl.represents.listsByHeight
  refine ⟨added, removed, hanswers, fun targetHeight s' result hrun id => ?_⟩
  have hl' := (hl.rollbackToBlock_step targetHeight).2
  have hout := hl.represents.rollbackToBlock_outcome targetHeight
  rw [hrun] at hl' hout
  rw [Coinset.mem_follow hl.represents.lives hl.represents.ids hadded hremoved s'.height.toNat_lt,
    CoinStore.isUnspent, decide_eq_true_eq]
  cases hout with
  | kept =>
    rw [hl.unspent id]
    exact (Coinset.unspent_iff_liveAt hl.represents.lives).symm
  | rolledBack _ _ _ hrb =>
    rw [hrb.unspent hl.unspent id, hrb.height]
    exact Coinset.rollback_unspent_iff.symm

end DigCoinstore

namespace DigCoinstore

open Sample

/-- Block one spends coin 2, which is added at height 0. -/
theorem heights_partition_afterOne : ∃ added removed, afterOne.AnswersByHeight added removed ∧
    (∀ height, afterOne.height < height → added height = [] ∧ removed height = []) ∧
    ((upTo added afterOne.height.toNat).map CoinRecord.coinId).Nodup ∧
    (∀ rec, rec ∈ upTo added afterOne.height.toNat ↔ rec ∈ afterOne.storedRecords) ∧
    ((upTo removed afterOne.height.toNat).map CoinRecord.coinId).Nodup ∧
    ∀ rec, rec ∈ upTo removed afterOne.height.toNat ↔
      rec ∈ afterOne.storedRecords ∧ rec.isSpent = true :=
  reachable_afterOne.heights_partition

/-- A rollback of block one brings coin 2 back to the client too. -/
theorem follow_eq_rollback_afterOne : ∃ added removed, afterOne.AnswersByHeight added removed ∧
    ∀ targetHeight s' result, afterOne.rollbackToBlock targetHeight = (s', .ok result) →
      ∀ id, id ∈ follow added removed s'.height.toNat ↔ s'.isUnspent id = true :=
  reachable_afterOne.follow_eq_rollback fun _ hb => BlockData.Honest.claimsItsCoins hb

end DigCoinstore
