import DigCoinstore.IndexQueries
import DigCoinstore.Sample

/-!
# Queries for several ids or puzzle hashes (`queries.rs`, QRY-001 and QRY-002)

Both batch queries ask once for each entry of their input and append the answers. A record is thus
returned as often as its id or its puzzle hash occurs in the input (`Reachable.batch_queries_iff`).
-/

namespace DigCoinstore

/-! ## Appended answers -/

section

variable {ι α : Type} [DecidableEq ι] {f : ι → List α} {own : α → ι} {l : List ι} {a : α}

/-- `f i` answers the entry `i` with distinct values, of which `own` tells the entry. -/
structure Answers (f : ι → List α) (own : α → ι) : Prop where
  nodup : ∀ i, (f i).Nodup
  own_eq : ∀ {i a}, a ∈ f i → own a = i

omit [DecidableEq ι] in
theorem Answers.mem_flatMap (h : Answers f own) : a ∈ l.flatMap f ↔ a ∈ f (own a) ∧ own a ∈ l := by
  rw [List.mem_flatMap]
  constructor
  · rintro ⟨i, hi, ha⟩
    rw [h.own_eq ha]
    exact ⟨ha, hi⟩
  · rintro ⟨ha, hl⟩
    exact ⟨own a, hl, ha⟩

/-- An answer occurs as often as its entry. -/
theorem Answers.count_flatMap [DecidableEq α] (h : Answers f own) (ha : a ∈ f (own a)) (l : List ι) :
    (l.flatMap f).count a = l.count (own a) := by
  induction l with
  | nil => rfl
  | cons i l ih =>
    rw [List.flatMap_cons, List.count_append, ih, List.count_cons, Nat.add_comm]
    by_cases hi : i = own a
    · rw [hi, (h.nodup (own a)).count, if_pos ha, if_pos (beq_self_eq_true _)]
    · have hnot : a ∉ f i := fun hmem => hi (h.own_eq hmem).symm
      rw [List.count_eq_zero_of_not_mem hnot, if_neg (by simpa using hi)]

/-- **Appended answers are distinct** exactly if no entry with an answer occurs twice. -/
theorem Answers.nodup_flatMap_iff (h : Answers f own) :
    (l.flatMap f).Nodup ↔ ∀ a ∈ l.flatMap f, l.count (own a) ≤ 1 := by
  classical
  rw [List.nodup_iff_count_le_one]
  constructor
  · intro hcount a ha
    rw [← h.count_flatMap (h.mem_flatMap.1 ha).1 l]
    exact hcount a
  · intro hcount a
    by_cases ha : a ∈ l.flatMap f
    · rw [h.count_flatMap (h.mem_flatMap.1 ha).1 l]
      exact hcount a ha
    · rw [List.count_eq_zero_of_not_mem ha]
      exact Nat.zero_le 1

omit [DecidableEq ι] in
/-- A loop that appends the answer of each entry. -/
theorem foldlM_appends {step : List α → ι → Res (List α)}
    (hstep : ∀ results i, step results i = .ok (results ++ f i)) (l : List ι) (results : List α) :
    l.foldlM step results = .ok (results ++ l.flatMap f) := by
  induction l generalizing results with
  | nil => simp
  | cons i l ih =>
    rw [List.foldlM_cons, hstep, Res.ok_bind, ih, List.flatMap_cons, List.append_assoc]

end

variable [Chia]

namespace CoinStore

section
variable (s : CoinStore)

/-- QRY-001: ids without a record are skipped. -/
def getCoinRecords (coinIds : List CoinId) : Res (List CoinRecord) :=
  coinIds.foldlM (fun results coinId => do
    match ← s.getCoinRecord coinId with
    | some rec => return results ++ [rec]
    | none => return results) []

/-- QRY-002 -/
def getCoinRecordsByPuzzleHashes (includeSpent : Bool) (puzzleHashes : List Bytes32)
    (startHeight endHeight : UInt64) : Res (List CoinRecord) :=
  puzzleHashes.foldlM (fun results ph => do
    let batch ← s.getCoinRecordsByPuzzleHash includeSpent ph startHeight endHeight
    return results ++ batch) []

/-- The stored records with one of the ids. -/
def recordsWithIds (ids : List CoinId) : Set CoinRecord :=
  {rec | rec ∈ s.storedRecords ∧ rec.coinId ∈ ids}

/-- The stored records with one of the puzzle hashes that pass the filters. -/
def recordsWithHashes (inc : Bool) (phs : List Bytes32) (st en : UInt64) : Set CoinRecord :=
  {rec | rec ∈ s.storedRecords ∧ rec.coin.puzzleHash ∈ phs ∧ (inc = false → rec.isSpent = false) ∧
    st ≤ rec.confirmedHeight ∧ rec.confirmedHeight ≤ en}

end

omit [Chia] in
/-- **A batch query lists its records** exactly if no entry of the input that has one of them occurs
twice. -/
theorem lists_appended_iff {ι : Type} [DecidableEq ι] {f : ι → List CoinRecord}
    {own : CoinRecord → ι} {step : List CoinRecord → ι → Res (List CoinRecord)} {l : List ι}
    {A : Set CoinRecord} (h : Answers f own)
    (hstep : ∀ results i, step results i = .ok (results ++ f i))
    (hA : ∀ rec, rec ∈ l.flatMap f ↔ rec ∈ A) :
    Lists (l.foldlM step []) A ↔ ∀ rec ∈ A, l.count (own rec) ≤ 1 := by
  have hrun : l.foldlM step [] = .ok (l.flatMap f) := foldlM_appends hstep l []
  have hnodup : (l.flatMap f).Nodup ↔ ∀ rec ∈ A, l.count (own rec) ≤ 1 := by
    simp only [h.nodup_flatMap_iff, hA]
  constructor
  · rintro ⟨l', heq, hl', _⟩
    obtain rfl := Except.ok.inj (hrun.symm.trans heq)
    exact hnodup.1 hl'
  · intro hcount
    exact ⟨l.flatMap f, hrun, hnodup.2 hcount, hA⟩

namespace Represents

variable {S : Scope} {s : CoinStore} {m : Coinset}

theorem lists_getCoinRecords_iff (h : s.Represents S m) (ids : List CoinId) :
    Lists (s.getCoinRecords ids) (s.recordsWithIds ids) ↔
      ∀ rec ∈ s.recordsWithIds ids, ids.count rec.coinId ≤ 1 := by
  have hanswers : Answers (fun id => (m id).toList) CoinRecord.coinId := {
    nodup := fun id => Option.toList_nodup (m id)
    own_eq := fun hmem => h.ids (Option.mem_toList.1 hmem) }
  refine lists_appended_iff hanswers (fun results id => ?_) fun rec => ?_
  · rw [h.getCoinRecord_eq, Res.ok_bind]
    cases m id <;> simp
  · rw [hanswers.mem_flatMap, recordsWithIds, Set.mem_ofPred_eq, h.mem_storedRecords]
    simp

theorem lists_getCoinRecordsByPuzzleHashes_iff (h : s.Represents S m)
    (hS : .coinByPuzzleHash ∈ S.cfs) (inc : Bool) (phs : List Bytes32) (st en : UInt64) :
    Lists (s.getCoinRecordsByPuzzleHashes inc phs st en) (s.recordsWithHashes inc phs st en) ↔
      ∀ rec ∈ s.recordsWithHashes inc phs st en, phs.count rec.coin.puzzleHash ≤ 1 := by
  have hone : ∀ ph : Bytes32, ∃ l : List CoinRecord,
      s.getCoinRecordsByPuzzleHash inc ph st en = .ok l ∧ l.Nodup ∧ ∀ rec, rec ∈ l ↔
        rec ∈ s.storedRecords ∧ rec.coin.puzzleHash = ph ∧ inHeights inc st en rec = true := by
    intro ph
    have hfamily : .coinByPuzzleHash ∈ indexFamilies := by decide
    obtain ⟨l, hpush, hnodup, hl⟩ := h.pushIndexed_eq hfamily hS ph.length_bytes (inHeights inc st en)
    rw [ph.length_bytes] at hpush
    refine ⟨l, hpush [], hnodup, fun rec => ?_⟩
    rw [hl, indexHead, Option.some.injEq, Bytes32.bytes_inj]
  choose f hrun hnodup hmem using hone
  have hanswers : Answers f (fun rec => rec.coin.puzzleHash) := {
    nodup := hnodup
    own_eq := fun ha => ((hmem _ _).1 ha).2.1 }
  refine lists_appended_iff hanswers (fun results ph => ?_) fun rec => ?_
  · rw [hrun, Res.ok_bind, Res.pure_eq]
  · rw [hanswers.mem_flatMap, hmem, recordsWithHashes, Set.mem_ofPred_eq, inHeights_iff]
    tauto

end Represents

end CoinStore

/-- **When the batch queries return each record once**, in every state of a run: `getCoinRecords` if
no id with a stored record occurs twice in its input, `getCoinRecordsByPuzzleHashes` if no hash of a
record that passes the filters does. -/
theorem Reachable.batch_queries_iff {U : Set Coin} {P : BlockData → Prop} {s : CoinStore}
    (h : Reachable U P s) :
    (∀ ids, CoinStore.Lists (s.getCoinRecords ids) (s.recordsWithIds ids) ↔
      ∀ rec ∈ s.recordsWithIds ids, ids.count rec.coinId ≤ 1) ∧
    (Set.InjOn Chia.coinId U → ∀ inc phs st en,
      CoinStore.Lists (s.getCoinRecordsByPuzzleHashes inc phs st en)
        (s.recordsWithHashes inc phs st en) ↔
      ∀ rec ∈ s.recordsWithHashes inc phs st en, phs.count rec.coin.puzzleHash ≤ 1) := by
  constructor
  · obtain ⟨m, hm, _⟩ := h.life
    exact hm.lists_getCoinRecords_iff
  · intro hU
    obtain ⟨m, hm, _⟩ : s.Follows (.all U hU) _ := h.represents
    have hS : .coinByPuzzleHash ∈ (Scope.all U hU).cfs := show _ ∈ coinFamilies by decide
    exact hm.lists_getCoinRecordsByPuzzleHashes_iff hS

end DigCoinstore

namespace DigCoinstore

open Sample

/-- Ids and hashes that differ. -/
theorem batch_queries_genesis :
    CoinStore.Lists (genesis.getCoinRecords [ofNum 2, ofNum 7, ofNum 1])
      (genesis.recordsWithIds [ofNum 2, ofNum 7, ofNum 1]) ∧
    CoinStore.Lists (genesis.getCoinRecordsByPuzzleHashes false [ofNum 2, ofNum 1] 0 0)
      (genesis.recordsWithHashes false [ofNum 2, ofNum 1] 0 0) := by
  have hiff := reachable_genesis.batch_queries_iff
  constructor
  · refine (hiff.1 _).2 fun rec _ => List.nodup_iff_count_le_one.1 ?_ _
    decide
  · refine (hiff.2 coinId_injOn _ _ _ _).2 fun rec _ => List.nodup_iff_count_le_one.1 ?_ _
    decide

theorem CoinStore.not_lists_pair (rec : CoinRecord) (A : Set CoinRecord) :
    ¬ CoinStore.Lists (.ok [rec, rec]) A := by
  rintro ⟨l, heq, hnodup, _⟩
  rw [← Except.ok.inj heq] at hnodup
  simp at hnodup

/-- Coin 1 is asked for twice and returned twice. -/
theorem batch_queries_repeat : Reachable coins BlockData.Honest genesis ∧
    ¬ CoinStore.Lists (genesis.getCoinRecords [ofNum 1, ofNum 1])
      (genesis.recordsWithIds [ofNum 1, ofNum 1]) ∧
    ¬ CoinStore.Lists (genesis.getCoinRecordsByPuzzleHashes true [ofNum 1, ofNum 1] 0 10)
      (genesis.recordsWithHashes true [ofNum 1, ofNum 1] 0 10) := by
  have htwice : (genesis.getCoinRecords [ofNum 1, ofNum 1]).toOption =
        some [.new (coin 1) 0 10 false, .new (coin 1) 0 10 false] ∧
      (genesis.getCoinRecordsByPuzzleHashes true [ofNum 1, ofNum 1] 0 10).toOption =
        some [.new (coin 1) 0 10 false, .new (coin 1) 0 10 false] := by
    decide +kernel
  refine ⟨reachable_genesis, ?_, ?_⟩
  · rw [Res.eq_ok_of_toOption htwice.1]
    exact CoinStore.not_lists_pair _ _
  · rw [Res.eq_ok_of_toOption htwice.2]
    exact CoinStore.not_lists_pair _ _

end DigCoinstore
