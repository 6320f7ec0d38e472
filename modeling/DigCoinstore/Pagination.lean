import DigCoinstore.History
import DigCoinstore.Lib.Paging
import DigCoinstore.Queries
import DigCoinstore.Sample

/-!
# Reading all pages

A client reads the coins of some puzzle hashes page by page and resumes at the height that the
last page returned. Pages are cut by last height, but resumed by confirmed height: the client
comes to an end, and it has seen every coin exactly if no matching coin was confirmed below the
start of a page and last changed at or above it (`Reachable.pagination_complete_iff`).
-/

namespace DigCoinstore

variable [Chia]

/-! ## The order of a page -/

theorem lastHeight_le_of_pageOrder {a b : CoinRecord} (h : (pageOrder a b).isLE = true) :
    (lastHeight a).toNat ≤ (lastHeight b).toNat := by
  rw [← UInt64.le_iff_toNat_le, ← Std.isLE_compare]
  exact Ordering.isLE_left_of_isLE_then h

omit [Chia] in
theorem confirmedHeight_le_lastHeight (rec : CoinRecord) :
    rec.confirmedHeight.toNat ≤ (lastHeight rec).toNat := by
  have hmax : lastHeight rec = if rec.confirmedHeight ≤ rec.spentHeight.getD 0 then
      rec.spentHeight.getD 0 else rec.confirmedHeight := rfl
  rw [hmax]
  split
  · next hle => exact UInt64.le_iff_toNat_le.1 hle
  · exact le_rfl

/-- The sort of the query. -/
def pageSort (l : List CoinRecord) : List CoinRecord := l.mergeSort fun a b => (pageOrder a b).isLE

theorem pairwise_pageSort (l : List CoinRecord) :
    (pageSort l).Pairwise fun a b => (pageOrder a b).isLE = true := by
  have hcmp : Std.TransCmp pageOrder :=
    inferInstanceAs (Std.TransCmp (compareLex (compareOn lastHeight) (compareOn CoinRecord.coinId)))
  refine List.pairwise_mergeSort (fun a b c => Std.TransCmp.isLE_trans) (fun a b => ?_) l
  have hswap : pageOrder b a = (pageOrder a b).swap := Std.OrientedCmp.eq_swap
  rw [hswap]
  cases pageOrder a b <;> rfl

/-- Sorting and filtering commute when no id occurs twice. -/
theorem pageSort_filter {l : List CoinRecord} (hl : (l.map CoinRecord.coinId).Nodup)
    (p : CoinRecord → Bool) : pageSort (l.filter p) = (pageSort l).filter p := by
  refine List.Perm.eq_of_pairwise (fun a b ha hb hab hba => ?_) (pairwise_pageSort _)
    ((pairwise_pageSort l).filter p)
    ((List.mergeSort_perm _ _).trans ((List.mergeSort_perm l _).filter p).symm)
  have ha' : a ∈ l := (List.mem_filter.1 (List.mem_mergeSort.1 ha)).1
  have hb' : b ∈ l := List.mem_mergeSort.1 (List.mem_filter.1 hb).1
  refine List.inj_on_of_nodup_map hl ha' hb' ?_
  have hcmp : Std.OrientedCmp pageOrder :=
    inferInstanceAs (Std.OrientedCmp (compareLex (compareOn lastHeight) (compareOn CoinRecord.coinId)))
  have heq : pageOrder a b = .eq := Std.OrientedCmp.isLE_antisymm hab hba
  exact Std.LawfulEqOrd.eq_of_compare (Ordering.then_eq_eq.1 heq).2

omit [Chia] in
/-- The filters with a height are those without it, from that height on. -/
theorem filter_keeps (filters : CoinStateFilters) (minHeight : UInt64) (l : List CoinRecord) :
    l.filter (filters.keeps minHeight) = (l.filter (filters.keeps 0)).filter fun rec =>
      minHeight.toNat ≤ rec.confirmedHeight.toNat := by
  rw [List.filter_filter]
  refine List.filter_congr fun rec _ => ?_
  have hlt : rec.confirmedHeight < minHeight ↔ ¬ minHeight.toNat ≤ rec.confirmedHeight.toNat := by
    rw [UInt64.lt_iff_toNat_lt, not_le]
  by_cases h : minHeight.toNat ≤ rec.confirmedHeight.toNat <;>
    simp [CoinStateFilters.keeps, hlt, h]

omit [Chia] in
/-- Stepping back to the block boundary leaves the records below the overflow height. -/
theorem take_blockBoundary {l : List CoinRecord}
    (hl : Paging.Sorted (fun rec => (lastHeight rec).toNat) l) (height : UInt64) :
    ∀ (stop : Nat), stop ≤ l.length → (∀ rec ∈ l.drop stop, height.toNat ≤ (lastHeight rec).toNat) →
    l.take (blockBoundary l height stop) =
      l.filter fun rec => (lastHeight rec).toNat < height.toNat
  | 0, _, habove => Paging.take_eq_filter (fun rec hrec => nomatch hrec) habove
  | stop + 1, hstop, habove => by
    have hget : l[stop]? = some l[stop] := List.getElem?_eq_getElem hstop
    rw [blockBoundary, hget]
    dsimp only
    split
    · next hlt =>
      refine Paging.take_eq_filter (fun rec hrec => ?_) habove
      exact (hl.take_le hstop hrec).trans_lt (UInt64.lt_iff_toNat_lt.1 hlt)
    · next hge =>
      refine take_blockBoundary hl height stop (by omega) fun rec hrec => ?_
      rw [List.drop_eq_getElem_cons hstop] at hrec
      rcases List.mem_cons.1 hrec with rfl | hrec
      · exact UInt64.le_iff_toNat_le.1 (UInt64.not_lt.1 hge)
      · exact habove rec hrec

namespace CoinStore

omit [Chia] in
/-- A page of a sorted list, and where to resume. -/
theorem page_eq {l : List CoinRecord} (hl : Paging.Sorted (fun rec => (lastHeight rec).toNat) l)
    (maxItems : Nat) : page l maxItems = match l[maxItems]? with
      | none => (l.map CoinRecord.toCoinState, none)
      | some rec => ((l.filter fun y => (lastHeight y).toNat < (lastHeight rec).toNat).map
          CoinRecord.toCoinState, some (lastHeight rec)) := by
  rw [page]
  cases hget : l[maxItems]? with
  | none => rfl
  | some rec =>
    obtain ⟨hlt, rfl⟩ := List.getElem?_eq_some_iff.1 hget
    have habove : ∀ y ∈ l.drop maxItems, (lastHeight l[maxItems]).toNat ≤ (lastHeight y).toNat := by
      intro y hy
      obtain ⟨i, hi, rfl⟩ := List.mem_iff_getElem.1 hy
      rw [List.length_drop] at hi
      rw [List.getElem_drop]
      rcases Nat.eq_zero_or_pos i with rfl | hpos
      · exact le_rfl
      · exact List.pairwise_iff_getElem.1 hl maxItems (maxItems + i) hlt (by omega) (by omega)
    dsimp only
    rw [take_blockBoundary hl (lastHeight l[maxItems]) maxItems (Nat.le_of_lt hlt) habove]

/-! ## The matching records -/

/-- `l` lists the records behind the candidates of every height, in page order. -/
structure Matching (s : CoinStore) (puzzleHashes : List Bytes32) (filters : CoinStateFilters)
    (l : List CoinRecord) : Prop where
  sorted : Paging.Sorted (fun rec => (lastHeight rec).toNat) l
  candidates : ∀ minHeight, s.candidates puzzleHashes minHeight filters = .ok
    (Paging.rest (fun rec => rec.confirmedHeight.toNat) l minHeight.toNat)

/-- What the loops over the index entries keep: no id twice, and every id is marked as seen. -/
def Collected (acc : Finset CoinId × List CoinRecord) : Prop :=
  (acc.2.map CoinRecord.coinId).Nodup ∧ ∀ rec ∈ acc.2, rec.coinId ∈ acc.1

namespace Represents

variable {S : Scope} {s : CoinStore} {m : Coinset}

theorem collectEntry_spec (h : s.Represents S m) {acc : Finset CoinId × List CoinRecord}
    (hacc : Collected acc) (entry : KvPair) :
    ∃ acc', s.collectEntry acc entry = .ok acc' ∧ Collected acc' := by
  rw [collectEntry]
  split
  · exact ⟨acc, rfl, hacc⟩
  · next hlen =>
    have hkey : coinIdFromKey (slice entry.1 32 64) =
        .ok (.ofTake (slice entry.1 32 64) (by simp [slice]; omega)) := dif_pos _
    rw [hkey, Res.ok_bind]
    generalize Bytes32.ofTake (slice entry.1 32 64) _ = id
    split
    · exact ⟨acc, rfl, hacc⟩
    · next hnew =>
      rw [h.getCoinRecord_eq, Res.ok_bind]
      cases hm : m id with
      | none => exact ⟨_, rfl, hacc.1, fun rec hrec => Finset.mem_insert_of_mem (hacc.2 rec hrec)⟩
      | some rec =>
        have hid : rec.coinId = id := h.ids hm
        refine ⟨_, rfl, ?_, fun rec' hrec' => ?_⟩
        · rw [List.map_append, List.map_singleton, List.nodup_append_comm, List.singleton_append,
            List.nodup_cons, hid]
          refine ⟨fun hmem => hnew ?_, hacc.1⟩
          obtain ⟨rec', hrec', rfl⟩ := List.mem_map.1 hmem
          exact hacc.2 rec' hrec'
        · rcases List.mem_append.1 hrec' with hrec' | hrec'
          · exact Finset.mem_insert_of_mem (hacc.2 rec' hrec')
          · obtain rfl := List.mem_singleton.1 hrec'
            rw [hid]
            exact Finset.mem_insert_self _ _

theorem collect_spec (h : s.Represents S m) (cf : ColumnFamily) (puzzleHashes : List Bytes32)
    {acc : Finset CoinId × List CoinRecord} (hacc : Collected acc) :
    ∃ acc', s.collect cf puzzleHashes acc = .ok acc' ∧ Collected acc' := by
  refine Res.foldlM_spec (fun acc ph hacc => ?_) puzzleHashes hacc
  rw [Backend.prefixScan_of_healthy h.healthy, orStorage_ok, Res.ok_bind]
  exact Res.foldlM_spec (fun acc entry hacc => h.collectEntry_spec hacc entry) _ hacc

/-- **The candidates** of every height come from one sorted list. -/
theorem candidates_spec (h : s.Represents S m) (puzzleHashes : List Bytes32)
    (filters : CoinStateFilters) : ∃ l, s.Matching puzzleHashes filters l := by
  obtain ⟨acc, hacc, hcoll⟩ := h.collect_spec .coinByPuzzleHash puzzleHashes
    (show Collected (∅, []) from ⟨List.nodup_nil, fun _ hrec => nomatch hrec⟩)
  obtain ⟨acc', ⟨hnodup, _⟩, hrun⟩ : ∃ acc', Collected acc' ∧ ∀ minHeight,
      s.candidates puzzleHashes minHeight filters =
        .ok (pageSort (acc'.2.filter (filters.keeps minHeight))) := by
    cases hhinted : filters.includeHinted with
    | true =>
      obtain ⟨acc', hacc', hcoll'⟩ := h.collect_spec .hintsByValue puzzleHashes hcoll
      refine ⟨acc', hcoll', fun minHeight => ?_⟩
      simp only [candidates, hacc, Res.ok_bind, hhinted, if_true, hacc']
      rfl
    | false =>
      refine ⟨acc, hcoll, fun minHeight => ?_⟩
      simp only [candidates, hacc, Res.ok_bind, hhinted, Bool.false_eq_true, if_false]
      rfl
  refine ⟨pageSort (acc'.2.filter (filters.keeps 0)),
    (pairwise_pageSort _).imp lastHeight_le_of_pageOrder, fun minHeight => ?_⟩
  rw [hrun, filter_keeps, Paging.rest, ← pageSort_filter]
  exact hnodup.sublist (List.filter_sublist.map _)

end Represents

/-! ## The client -/

/-- **The pages of a client** that starts at a height and resumes at the returned one. -/
inductive Pages (s : CoinStore) (puzzleHashes : List Bytes32) (filters : CoinStateFilters)
    (maxItems : Nat) : UInt64 → List (List CoinState) → Prop
  | last {minHeight : UInt64} {states : List CoinState} :
    s.batchCoinStatesByPuzzleHashes puzzleHashes minHeight filters maxItems = .ok (states, none) →
    Pages s puzzleHashes filters maxItems minHeight [states]
  | next {minHeight resume : UInt64} {states : List CoinState} {pages : List (List CoinState)} :
    s.batchCoinStatesByPuzzleHashes puzzleHashes minHeight filters maxItems =
      .ok (states, some resume) →
    Pages s puzzleHashes filters maxItems resume pages →
    Pages s puzzleHashes filters maxItems minHeight (states :: pages)

namespace Matching

variable {s : CoinStore} {puzzleHashes : List Bytes32} {filters : CoinStateFilters}
  {l : List CoinRecord} {maxItems : Nat}

theorem candidates_zero (h : s.Matching puzzleHashes filters l) :
    s.candidates puzzleHashes 0 filters = .ok l := by
  rw [h.candidates]
  exact congrArg Except.ok (List.filter_eq_self.2 fun _ _ => by simp)

/-- One answer of the store to the client. -/
theorem batch_eq (h : s.Matching puzzleHashes filters l)
    (hph : puzzleHashes.length ≤ maxPuzzleHashBatchSize) (minHeight : UInt64) (maxItems : Nat) :
    s.batchCoinStatesByPuzzleHashes puzzleHashes minHeight filters maxItems =
      let rest := Paging.rest (fun rec => rec.confirmedHeight.toNat) l minHeight.toNat
      .ok (match rest[maxItems]? with
        | none => (rest.map CoinRecord.toCoinState, none)
        | some rec => ((rest.filter fun y => (lastHeight y).toNat < (lastHeight rec).toNat).map
            CoinRecord.toCoinState, some (lastHeight rec))) := by
  rw [batchCoinStatesByPuzzleHashes, if_neg (Nat.not_lt.2 hph), h.candidates, Res.ok_bind]
  exact congrArg Except.ok (page_eq (h.sorted.filter _) maxItems)

/-- A client reads what a reader of the sorted list reads. -/
theorem reader (h : s.Matching puzzleHashes filters l)
    (hph : puzzleHashes.length ≤ maxPuzzleHashBatchSize) {minHeight : UInt64}
    {pages : List (List CoinState)} (hpages : s.Pages puzzleHashes filters maxItems minHeight pages) :
    ∃ recs, Paging.Pages (fun rec => (lastHeight rec).toNat) (fun rec => rec.confirmedHeight.toNat)
      maxItems l minHeight.toNat recs ∧ pages = recs.map (List.map CoinRecord.toCoinState) := by
  induction hpages with
  | @last minHeight states hbatch =>
    rw [h.batch_eq hph] at hbatch
    cases hget : (Paging.rest (fun rec => rec.confirmedHeight.toNat) l minHeight.toNat)[maxItems]? with
    | none =>
      simp only [hget, Except.ok.injEq, Prod.mk.injEq] at hbatch
      exact ⟨_, .last hget, by rw [← hbatch.1]; rfl⟩
    | some rec => simp [hget] at hbatch
  | @next minHeight resume states pages hbatch _ ih =>
    rw [h.batch_eq hph] at hbatch
    cases hget : (Paging.rest (fun rec => rec.confirmedHeight.toNat) l minHeight.toNat)[maxItems]? with
    | none => simp [hget] at hbatch
    | some rec =>
      simp only [hget, Except.ok.injEq, Prod.mk.injEq, Option.some.injEq] at hbatch
      obtain ⟨rfl, rfl⟩ := hbatch
      obtain ⟨recs, hrecs, rfl⟩ := ih
      exact ⟨_, .next hget hrecs, rfl⟩

/-- What a reader of the sorted list reads, a client reads. -/
theorem client (h : s.Matching puzzleHashes filters l)
    (hph : puzzleHashes.length ≤ maxPuzzleHashBatchSize) {c : Nat} {recs : List (List CoinRecord)}
    (hrecs : Paging.Pages (fun rec => (lastHeight rec).toNat) (fun rec => rec.confirmedHeight.toNat)
      maxItems l c recs) : ∀ minHeight : UInt64, minHeight.toNat = c →
      s.Pages puzzleHashes filters maxItems minHeight (recs.map (List.map CoinRecord.toCoinState)) := by
  induction hrecs with
  | last hget =>
    rintro minHeight rfl
    refine .last ?_
    rw [h.batch_eq hph]
    simp only [hget]
  | @next c rec recs hget _ ih =>
    rintro minHeight rfl
    refine .next ?_ (ih (lastHeight rec) rfl)
    rw [h.batch_eq hph]
    simp only [hget]

end Matching

end CoinStore

/-- No record was confirmed below the start of a page and last changed at or above it. -/
def NoStraddle (maxItems : Nat) (l : List CoinRecord) : Prop :=
  ∀ start, Paging.IsStart maxItems (l.map fun rec => (lastHeight rec).toNat) start →
    ∀ rec ∈ l, ¬ (rec.confirmedHeight.toNat < start ∧ start ≤ (lastHeight rec).toNat)

omit [Chia] in
/-- A bound for every 64-bit height is one for every number. -/
theorem count_toNat_le {l : List CoinRecord} {maxItems : Nat}
    (hbound : ∀ height, (l.filter fun rec => lastHeight rec = height).length ≤ maxItems) (k : Nat) :
    (l.filter fun rec => (lastHeight rec).toNat = k).length ≤ maxItems := by
  rcases Nat.lt_or_ge k (2 ^ 64) with hk | hk
  · have hheight : (fun rec : CoinRecord => decide ((lastHeight rec).toNat = k)) =
        fun rec => decide (lastHeight rec = UInt64.ofNat k) := by
      funext rec
      rw [decide_eq_decide, ← UInt64.toNat_inj, UInt64.toNat_ofNat', Nat.mod_eq_of_lt hk]
    rw [hheight]
    exact hbound _
  · have hnone : (l.filter fun rec => (lastHeight rec).toNat = k) = [] :=
      List.filter_eq_nil_iff.2 fun rec _ => by
        have := (lastHeight rec).toNat_lt
        simp only [decide_eq_true_eq]
        omega
    rw [hnone]
    exact Nat.zero_le _

/-- **When paging is complete**: with no more than `maxItems` matching coins to a height, a client
that reads page after page gets what one unlimited query returns exactly if no matching coin
straddles the start of a page. -/
theorem Reachable.pagination_complete_iff {U : Set Coin} {P : BlockData → Prop} {s : CoinStore}
    (h : Reachable U P s) {puzzleHashes : List Bytes32}
    (hph : puzzleHashes.length ≤ maxPuzzleHashBatchSize) (filters : CoinStateFilters)
    {l : List CoinRecord} (hl : s.candidates puzzleHashes 0 filters = .ok l) {maxItems : Nat}
    (hbound : ∀ height, (l.filter fun rec => lastHeight rec = height).length ≤ maxItems) :
    (∃ pages, s.Pages puzzleHashes filters maxItems 0 pages ∧ ∀ unlimited, l.length ≤ unlimited →
        s.batchCoinStatesByPuzzleHashes puzzleHashes 0 filters unlimited = .ok (pages.flatten, none)) ↔
      NoStraddle maxItems l := by
  obtain ⟨m, hm, _⟩ := h.life
  obtain ⟨l', hmatch⟩ := hm.candidates_spec puzzleHashes filters
  obtain rfl := Except.ok.inj (hl.symm.trans hmatch.candidates_zero)
  have hzero : Paging.rest (fun rec : CoinRecord => rec.confirmedHeight.toNat) l 0 = l :=
    List.filter_eq_self.2 fun _ _ => by simp
  have hcomplete : ∀ {recs}, Paging.Pages (fun rec => (lastHeight rec).toNat)
      (fun rec => rec.confirmedHeight.toNat) maxItems l 0 recs →
      (recs.flatten = l ↔ NoStraddle maxItems l) :=
    fun hrecs => by
      have hiff := hrecs.flatten_eq_iff confirmedHeight_le_lastHeight hmatch.sorted
      rw [hzero] at hiff
      exact hiff
  have hunlimited : ∀ unlimited, l.length ≤ unlimited →
      s.batchCoinStatesByPuzzleHashes puzzleHashes 0 filters unlimited =
        .ok (l.map CoinRecord.toCoinState, none) := fun unlimited hle => by
    have hnone : l[unlimited]? = none := List.getElem?_eq_none hle
    rw [hmatch.batch_eq hph]
    simp only [UInt64.toNat_zero, hzero, hnone]
  constructor
  · rintro ⟨pages, hpages, hall⟩
    obtain ⟨recs, hrecs, rfl⟩ := hmatch.reader hph hpages
    refine (hcomplete hrecs).1 ?_
    have hsub := hrecs.flatten_sublist confirmedHeight_le_lastHeight hmatch.sorted
    rw [UInt64.toNat_zero, hzero] at hsub
    have hstates := (hall l.length le_rfl).symm.trans (hunlimited l.length le_rfl)
    have hflat := congrArg (fun r => r.1.length) (Except.ok.inj hstates)
    refine hsub.eq_of_length ?_
    rw [← List.map_flatten, List.length_map, List.length_map] at hflat
    exact hflat
  · intro hno
    obtain ⟨recs, hrecs⟩ := Paging.Pages.exists_of_bounded confirmedHeight_le_lastHeight
      hmatch.sorted (count_toNat_le hbound) 0
    refine ⟨_, hmatch.client hph hrecs 0 rfl, fun unlimited hle => ?_⟩
    rw [hunlimited unlimited hle, ← List.map_flatten, (hcomplete hrecs).2 hno]

end DigCoinstore

namespace DigCoinstore

open Sample

/-- The coins of the genesis after block one: coin 2 is spent at height 1. -/
def genesisCoins : List CoinRecord :=
  [{ CoinRecord.new (coin 1) 0 10 false with spentHeight := none },
    { CoinRecord.new (coin 2) 0 10 false with spentHeight := some 1 }]

/-- Spent and unspent coins of any amount. -/
def allCoins : CoinStateFilters where
  includeSpent := true
  includeUnspent := true
  includeHinted := false
  minAmount := 0

/-- A coin of the genesis and a reward of block one. -/
def firstAndReward : List CoinRecord := [.new (coin 1) 0 10 false, .new (coin 3) 1 20 true]

/-- The matching coins, when the index lists them in page order. -/
theorem candidates_of_sorted {s : CoinStore} {hashes : List Bytes32} {ids : Finset CoinId}
    {l : List CoinRecord} (hcollect : s.collect .coinByPuzzleHash hashes (∅, []) = .ok (ids, l))
    (hsorted : l.Pairwise fun a b => (pageOrder a b).isLE = true) (minHeight : UInt64) :
    s.candidates hashes minHeight allCoins = .ok (l.filter (allCoins.keeps minHeight)) := by
  rw [CoinStore.candidates, hcollect, Res.ok_bind]
  exact congrArg Except.ok (List.mergeSort_of_pairwise (hsorted.filter _))

theorem candidates_afterOne (minHeight : UInt64) :
    afterOne.candidates [ofNum 1, ofNum 2] minHeight allCoins =
      .ok (genesisCoins.filter (allCoins.keeps minHeight)) := by
  have hcollect : afterOne.collect .coinByPuzzleHash [ofNum 1, ofNum 2] (∅, []) =
      .ok ({ofNum 1, ofNum 2}, genesisCoins) := Res.eq_ok_of_toOption (by decide +kernel)
  exact candidates_of_sorted hcollect (by decide +kernel) minHeight

theorem batch_afterOne (minHeight : UInt64) (maxItems : Nat) :
    afterOne.batchCoinStatesByPuzzleHashes [ofNum 1, ofNum 2] minHeight allCoins maxItems =
      .ok (CoinStore.page (genesisCoins.filter (allCoins.keeps minHeight)) maxItems) := by
  have hbatch : ¬ maxPuzzleHashBatchSize < [ofNum 1, ofNum 2].length := by decide
  rw [CoinStore.batchCoinStatesByPuzzleHashes, if_neg hbatch, candidates_afterOne, Res.ok_bind]
  rfl

/-- One height has at most one of two coins that changed last at heights 0 and 1. -/
theorem count_le_one {a b : CoinRecord} (ha : lastHeight a = 0) (hb : lastHeight b = 1)
    (height : UInt64) : ([a, b].filter fun rec => lastHeight rec = height).length ≤ 1 := by
  by_cases hzero : height = 0
  · subst hzero
    rw [List.filter_cons_of_pos (by simp [ha]), List.filter_cons_of_neg (by simp [hb])]
    exact le_rfl
  · rw [List.filter_cons_of_neg (by simpa [ha] using Ne.symm hzero)]
    exact List.length_filter_le _ _

/-- Coin 1 is the first page and coin 3 the second, which starts at height 1. -/
theorem pagination_complete_iff_afterOne :
    (∃ pages, afterOne.Pages [ofNum 1, ofNum 3] allCoins 1 0 pages ∧ ∀ unlimited, 2 ≤ unlimited →
        afterOne.batchCoinStatesByPuzzleHashes [ofNum 1, ofNum 3] 0 allCoins unlimited =
          .ok (pages.flatten, none)) ↔
      NoStraddle 1 firstAndReward := by
  have hcollect : afterOne.collect .coinByPuzzleHash [ofNum 1, ofNum 3] (∅, []) =
      .ok ({ofNum 1, ofNum 3}, firstAndReward) := Res.eq_ok_of_toOption (by decide +kernel)
  exact reachable_afterOne.pagination_complete_iff (by decide) allCoins
    (candidates_of_sorted hcollect (by decide) 0) (count_le_one rfl rfl)

/-- Read one coin at a time, the second page starts at height 1, where coin 2 was spent but not
confirmed: the client never sees it. -/
theorem pagination_loses_coin : Reachable coins BlockData.Honest afterOne ∧
    afterOne.candidates [ofNum 1, ofNum 2] 0 allCoins = .ok genesisCoins ∧
    (∀ height, (genesisCoins.filter fun rec => lastHeight rec = height).length ≤ 1) ∧
    ¬ ∃ pages, afterOne.Pages [ofNum 1, ofNum 2] allCoins 1 0 pages ∧ ∀ unlimited, 2 ≤ unlimited →
      afterOne.batchCoinStatesByPuzzleHashes [ofNum 1, ofNum 2] 0 allCoins unlimited =
        .ok (pages.flatten, none) := by
  have hfirst : CoinStore.page (genesisCoins.filter (allCoins.keeps 0)) 1 =
      ((genesisCoins.take 1).map CoinRecord.toCoinState, some 1) := by decide
  have hsecond : CoinStore.page (genesisCoins.filter (allCoins.keeps 1)) 1 = ([], none) := by
    decide
  refine ⟨reachable_afterOne, candidates_afterOne 0, count_le_one rfl rfl, ?_⟩
  rintro ⟨pages, hpages, hall⟩
  have hlen : pages.flatten.length = 2 := by
    have htwo := hall 2 le_rfl
    rw [batch_afterOne] at htwo
    have hflat := congrArg (fun r => r.1.length) (Except.ok.inj htwo)
    exact hflat.symm
  cases hpages with
  | last hbatch =>
    rw [batch_afterOne, hfirst] at hbatch
    cases hbatch
  | next hbatch hrest =>
    rw [batch_afterOne, hfirst] at hbatch
    cases hbatch
    cases hrest with
    | last hbatch =>
      rw [batch_afterOne, hsecond] at hbatch
      cases hbatch
      cases hlen
    | next hbatch _ =>
      rw [batch_afterOne, hsecond] at hbatch
      cases hbatch

end DigCoinstore
