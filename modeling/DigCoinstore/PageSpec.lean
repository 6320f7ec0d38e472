import DigCoinstore.HintExact
import DigCoinstore.IndexQueries

/-!
# The page of a query

One list stands behind the answers of `batch_coin_states_by_puzzle_hashes` (`PageList`): the stored
coins that match a queried hash and pass the filters, each once, by last height and then by id. An
answer is the whole list, or its part below the least height up to which more than `max_items` of
the coins last changed (`IsPage`).
-/

namespace DigCoinstore

variable [Chia]

/-! ## The list -/

/-- The record's puzzle hash is queried, or one of its 32-byte hints. -/
def CoinStore.Matches (s : CoinStore) (puzzleHashes : List Bytes32) (filters : CoinStateFilters)
    (rec : CoinRecord) : Prop :=
  rec.coin.puzzleHash ∈ puzzleHashes ∨ filters.includeHinted = true ∧
    ∃ ph ∈ puzzleHashes, s.backend.hasForward (rec.coinId, ph.bytes) = true

/-- The record passes the filters. -/
structure CoinStateFilters.Passes (filters : CoinStateFilters) (minHeight : UInt64)
    (rec : CoinRecord) : Prop where
  spent : rec.isSpent = true → filters.includeSpent = true
  unspent : rec.isSpent = false → filters.includeUnspent = true
  height : minHeight ≤ rec.confirmedHeight
  amount : filters.minAmount ≤ rec.coin.amount

/-- By last height, then by id. -/
def PageLT (a b : CoinRecord) : Prop :=
  lastHeight a < lastHeight b ∨ lastHeight a = lastHeight b ∧ compare a.coinId b.coinId = .lt

/-- **The list that is paged.** -/
structure CoinStore.PageList (s : CoinStore) (puzzleHashes : List Bytes32) (minHeight : UInt64)
    (filters : CoinStateFilters) (l : List CoinRecord) : Prop where
  sorted : l.Pairwise PageLT
  mem : ∀ rec, rec ∈ l ↔
    rec ∈ s.storedRecords ∧ s.Matches puzzleHashes filters rec ∧ filters.Passes minHeight rec

/-- **The answer for the list**: all of it, or what lies below the least height `c` with more than
`maxItems` coins up to it. Either way it is not too long and splits no height. -/
structure IsPage (l : List CoinRecord) (maxItems : Nat) (answer : List CoinState × Option UInt64) :
    Prop where
  whole : l.length ≤ maxItems → answer = (l.map CoinRecord.toCoinState, none)
  cut : maxItems < l.length → ∃ c, maxItems < (l.filter fun rec => lastHeight rec ≤ c).length ∧
    (∀ c', maxItems < (l.filter fun rec => lastHeight rec ≤ c').length → c ≤ c') ∧
    answer = ((l.filter fun rec => lastHeight rec < c).map CoinRecord.toCoinState, some c)
  fits : answer.1.length ≤ maxItems
  unsplit : ∃ shown : List CoinRecord, answer.1 = shown.map CoinRecord.toCoinState ∧
    ∀ rec ∈ shown, ∀ rec' ∈ l, lastHeight rec' = lastHeight rec → rec' ∈ shown

omit [Chia] in
theorem keeps_iff {filters : CoinStateFilters} {minHeight : UInt64} {rec : CoinRecord} :
    filters.keeps minHeight rec = true ↔ filters.Passes minHeight rec := by
  unfold CoinStateFilters.keeps
  constructor
  · intro h
    split at h
    · cases h
    · next hspent =>
      split at h
      · cases h
      · next hunspent =>
        split at h
        · cases h
        · next hheight =>
          split at h
          · cases h
          · next hamount =>
            refine ⟨fun hs => ?_, fun hs => ?_, UInt64.not_lt.1 hheight, UInt64.not_lt.1 hamount⟩
            · simpa [hs] using hspent
            · simpa [hs] using hunspent
  · intro h
    have hspent : ¬ (rec.isSpent && !filters.includeSpent) = true := by
      cases hs : rec.isSpent <;> simp [h.spent, hs]
    have hunspent : ¬ (!rec.isSpent && !filters.includeUnspent) = true := by
      cases hs : rec.isSpent <;> simp [h.unspent, hs]
    rw [if_neg hspent, if_neg hunspent, if_neg (UInt64.not_lt.2 h.height),
      if_neg (UInt64.not_lt.2 h.amount)]

theorem PageLT.asymm {a b : CoinRecord} (h : PageLT a b) (h' : PageLT b a) : False := by
  rcases h with hlt | ⟨heq, hid⟩ <;> rcases h' with hlt' | ⟨heq', hid'⟩
  · exact UInt64.lt_irrefl _ (UInt64.lt_trans hlt hlt')
  · rw [heq'] at hlt
    exact UInt64.lt_irrefl _ hlt
  · rw [heq] at hlt'
    exact UInt64.lt_irrefl _ hlt'
  · rw [Std.OrientedOrd.eq_swap (a := a.coinId) (b := b.coinId), hid'] at hid
    cases hid

/-- The list is determined. -/
theorem CoinStore.PageList.unique {s : CoinStore} {puzzleHashes : List Bytes32} {minHeight : UInt64}
    {filters : CoinStateFilters} {l l' : List CoinRecord}
    (h : s.PageList puzzleHashes minHeight filters l)
    (h' : s.PageList puzzleHashes minHeight filters l') : l' = l := by
  have hnodup : ∀ {l : List CoinRecord}, l.Pairwise PageLT → l.Nodup := fun hl =>
    hl.imp fun hlt heq => (heq ▸ hlt).asymm (heq ▸ hlt)
  have hperm : l'.Perm l := (List.perm_ext_iff_of_nodup (hnodup h'.sorted) (hnodup h.sorted)).2
    fun rec => (h'.mem rec).trans (h.mem rec).symm
  exact hperm.eq_of_pairwise (fun a b _ _ hab hba => (hab.asymm hba).elim) h'.sorted h.sorted

/-- The sort of the query puts distinct ids in this order. -/
theorem pairwise_pageLT {l : List CoinRecord} (hl : (l.map CoinRecord.coinId).Nodup) :
    (pageSort l).Pairwise PageLT := by
  have hids : (pageSort l).Pairwise fun a b => a.coinId ≠ b.coinId := by
    have hperm := (List.mergeSort_perm l fun a b => (pageOrder a b).isLE).map CoinRecord.coinId
    exact List.pairwise_map.1 (hperm.nodup_iff.2 hl)
  refine (pairwise_pageSort l).imp₂ (fun a b hle hne => ?_) hids
  unfold pageOrder at hle
  cases hcmp : compare (lastHeight a) (lastHeight b) with
  | lt => exact .inl (Std.compare_eq_lt.1 hcmp)
  | gt =>
    rw [hcmp] at hle
    cases hle
  | eq =>
    refine .inr ⟨Std.LawfulEqOrd.eq_of_compare hcmp, ?_⟩
    rw [hcmp, Ordering.eq_then] at hle
    cases hid : compare a.coinId b.coinId with
    | lt => rfl
    | eq => exact absurd (Std.LawfulEqOrd.eq_of_compare hid) hne
    | gt =>
      rw [hid] at hle
      cases hle

/-! ## The answer -/

omit [Chia] in
/-- **A page of a sorted list** is the answer for it. -/
theorem isPage_page {l : List CoinRecord} (hl : Paging.Sorted (fun rec => (lastHeight rec).toNat) l)
    (maxItems : Nat) : IsPage l maxItems (CoinStore.page l maxItems) := by
  rw [CoinStore.page_eq hl]
  cases hget : l[maxItems]? with
  | none =>
    have hlen := List.getElem?_eq_none_iff.1 hget
    refine ⟨fun _ => rfl, fun hlt => absurd hlen (Nat.not_le.2 hlt), ?_, l, rfl, fun _ _ _ h _ => h⟩
    simpa using hlen
  | some rec =>
    obtain ⟨hlt, -⟩ := List.getElem?_eq_some_iff.1 hget
    obtain ⟨hover, hleast⟩ := hl.overflow hget
    have hbelow := hl.length_below hget
    have hle : ∀ c : UInt64, (l.filter fun y => lastHeight y ≤ c) =
        l.filter fun y => (lastHeight y).toNat ≤ c.toNat := fun c =>
      List.filter_congr fun y _ => decide_eq_decide.2 UInt64.le_iff_toNat_le
    have hshown : (l.filter fun y => lastHeight y < lastHeight rec) =
        l.filter fun y => (lastHeight y).toNat < (lastHeight rec).toNat :=
      List.filter_congr fun y _ => decide_eq_decide.2 UInt64.lt_iff_toNat_lt
    refine ⟨fun hle' => absurd hlt (Nat.not_lt.2 hle'), fun _ => ⟨lastHeight rec, ?_, ?_, ?_⟩, ?_, ?_⟩
    · rwa [hle]
    · intro c hc
      rw [hle] at hc
      exact UInt64.le_iff_toNat_le.2 (hleast c.toNat hc)
    · rw [hshown]
    · simpa using hbelow
    · refine ⟨_, rfl, fun y hy y' hy' heq => ?_⟩
      have hlow := (List.mem_filter.1 hy).2
      exact List.mem_filter.2 ⟨hy', by rwa [heq]⟩

namespace CoinStore.Represents

variable {S : Scope} {s : CoinStore} {m : Coinset} {puzzleHashes : List Bytes32}
  {filters : CoinStateFilters}

/-- The ids at the end of the puzzle-hash keys are those of the coins with the hash. -/
theorem endsKey_puzzleHash (h : s.Represents S m) (hS : .coinByPuzzleHash ∈ S.cfs) (ph : Bytes32)
    (id : CoinId) :
    s.EndsKey .coinByPuzzleHash ph id ↔ ∃ rec, m id = some rec ∧ rec.coin.puzzleHash = ph := by
  constructor
  · rintro ⟨k, v, hget, hpre, htail⟩
    obtain ⟨id', rec, hm, hrow⟩ := (h.rows _ hS k v).1 hget
    obtain ⟨rfl, -⟩ := Prod.mk.inj (Option.some.inj hrow)
    rw [puzzleHashCoinKey, keyTail_append] at htail
    obtain rfl := Option.some.inj htail
    have hpre' := List.prefix_of_prefix_length_le hpre (List.prefix_append _ _) (by simp)
    exact ⟨rec, hm, (Bytes32.ext (hpre'.eq_of_length (by simp))).symm⟩
  · rintro ⟨rec, hm, rfl⟩
    exact ⟨_, _, (h.rows _ hS).get hm rfl, List.prefix_append _ _, keyTail_append _ id⟩

/-- **The scans** keep the records that match, each once. -/
theorem scans_matching (h : s.Represents S m) (hS : .coinByPuzzleHash ∈ S.cfs)
    (hhints : HintsPaired s.backend.tables) (puzzleHashes : List Bytes32)
    (filters : CoinStateFilters) : ∃ acc, s.scans puzzleHashes filters.includeHinted = .ok acc ∧
      (acc.2.map CoinRecord.coinId).Nodup ∧
      ∀ rec, rec ∈ acc.2 ↔ rec ∈ s.storedRecords ∧ s.Matches puzzleHashes filters rec := by
  obtain ⟨members, hm⟩ := hhints
  have hheld : HintsHeld s.backend.tables {p | members p = some ()} := ⟨members, hm, fun _ => .rfl⟩
  obtain ⟨acc, hacc, hcoll⟩ := h.collect_spec .coinByPuzzleHash puzzleHashes
    (show Collected (∅, []) from ⟨List.nodup_nil, fun _ hrec => nomatch hrec⟩)
  obtain ⟨hrecs, hids⟩ := h.collect_mem (recordsOf_nil m) hacc
  have hdirect : ∀ rec, m rec.coinId = some rec →
      (rec.coinId ∈ acc.1 ↔ rec.coin.puzzleHash ∈ puzzleHashes) := fun rec hrec => by
    rw [hids]
    simp only [h.endsKey_puzzleHash hS, hrec, Option.some.injEq, exists_eq_left', Finset.notMem_empty,
      false_or]
    simp
  cases hhinted : filters.includeHinted with
  | false =>
    refine ⟨acc, ?_, hcoll.1, fun rec => ?_⟩
    · rw [scans, hacc]
      rfl
    · rw [hrecs, h.mem_storedRecords, and_comm]
      refine and_congr_right fun hrec => (hdirect rec hrec).trans ?_
      simp [Matches, hhinted]
  | true =>
    obtain ⟨acc', hacc', hcoll'⟩ := h.collect_spec .hintsByValue puzzleHashes hcoll
    obtain ⟨hrecs', hids'⟩ := h.collect_mem hrecs hacc'
    refine ⟨acc', ?_, hcoll'.1, fun rec => ?_⟩
    · rw [scans, hacc]
      exact hacc'
    · rw [hrecs', h.mem_storedRecords, and_comm]
      refine and_congr_right fun hrec => ?_
      rw [hids', hdirect rec hrec]
      simp only [Matches, hhinted, true_and, endsKey_hints hheld, hasForward_iff hheld]

/-- **One list stands behind all answers.** -/
theorem pageList_spec (h : s.Represents S m) (hS : .coinByPuzzleHash ∈ S.cfs)
    (hhints : HintsPaired s.backend.tables) (hph : puzzleHashes.length ≤ maxPuzzleHashBatchSize)
    (minHeight : UInt64) (filters : CoinStateFilters) :
    ∃ l, s.PageList puzzleHashes minHeight filters l ∧ ∀ maxItems, ∃ answer,
      s.batchCoinStatesByPuzzleHashes puzzleHashes minHeight filters maxItems = .ok answer ∧
      IsPage l maxItems answer := by
  obtain ⟨acc, hscans, hnodup, hmem⟩ := h.scans_matching hS hhints puzzleHashes filters
  have hkept : ((acc.2.filter (filters.keeps minHeight)).map CoinRecord.coinId).Nodup :=
    hnodup.sublist (List.filter_sublist.map _)
  refine ⟨pageSort (acc.2.filter (filters.keeps minHeight)), ⟨pairwise_pageLT hkept, fun rec => ?_⟩,
    fun maxItems => ⟨_, ?_, isPage_page ((pairwise_pageSort _).imp lastHeight_le_of_pageOrder) maxItems⟩⟩
  · rw [pageSort, List.mem_mergeSort, List.mem_filter, hmem, keeps_iff, and_assoc]
  · rw [batchCoinStatesByPuzzleHashes, if_neg (Nat.not_lt.2 hph), candidates_eq, hscans]
    rfl

end CoinStore.Represents

/-- **The page specification.** The list is determined, and every answer is the one for it. -/
theorem Reachable.page_spec {U : Set Coin} {P : BlockData → Prop} {s : CoinStore}
    (h : Reachable U P s) (hU : Set.InjOn Chia.coinId U) {puzzleHashes : List Bytes32}
    (hph : puzzleHashes.length ≤ maxPuzzleHashBatchSize) (minHeight : UInt64)
    (filters : CoinStateFilters) :
    ∃ l, s.PageList puzzleHashes minHeight filters l ∧
      (∀ l', s.PageList puzzleHashes minHeight filters l' → l' = l) ∧
      ∀ maxItems, ∃ answer,
        s.batchCoinStatesByPuzzleHashes puzzleHashes minHeight filters maxItems = .ok answer ∧
        IsPage l maxItems answer := by
  obtain ⟨m, hm, -⟩ : s.Follows (.all U hU) _ := h.represents
  have hS : .coinByPuzzleHash ∈ (Scope.all U hU).cfs := show _ ∈ coinFamilies by decide
  obtain ⟨l, hl, hanswer⟩ := hm.pageList_spec hS h.operated.hintsOk.2 hph minHeight filters
  exact ⟨l, hl, fun l' hl' => hl.unique hl', hanswer⟩

end DigCoinstore

namespace DigCoinstore

open Sample

theorem page_spec_afterOne :
    ∃ l, afterOne.PageList [ofNum 1, ofNum 2] 0 allCoins l ∧
      (∀ l', afterOne.PageList [ofNum 1, ofNum 2] 0 allCoins l' → l' = l) ∧
      ∀ maxItems, ∃ answer,
        afterOne.batchCoinStatesByPuzzleHashes [ofNum 1, ofNum 2] 0 allCoins maxItems = .ok answer ∧
        IsPage l maxItems answer :=
  reachable_afterOne.page_spec coinId_injOn (by decide) 0 allCoins

end DigCoinstore
