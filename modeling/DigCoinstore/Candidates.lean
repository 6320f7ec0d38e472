import DigCoinstore.HintLookup
import DigCoinstore.Pagination

/-!
# The candidates of a page

A scan of the batch query remembers the ids at the end of the keys and keeps the record behind each
of them (`collect_mem`). So a coin that only the second scan meets is the coin of a hint row under
one of the hashes.
-/

namespace DigCoinstore

variable [Chia]

/-- The records are those of the ids that were met. -/
def RecordsOf (m : Coinset) (acc : Finset CoinId × List CoinRecord) : Prop :=
  ∀ rec, rec ∈ acc.2 ↔ rec.coinId ∈ acc.1 ∧ m rec.coinId = some rec

theorem recordsOf_nil (m : Coinset) : RecordsOf m (∅, []) := by simp [RecordsOf]

namespace CoinStore

/-- The id ends a key under the hash. -/
def EndsKey (s : CoinStore) (cf : ColumnFamily) (ph : Bytes32) (id : CoinId) : Prop :=
  ∃ k v, (s.backend.tables cf)[k]? = some v ∧ ph.bytes <+: k ∧ keyTail k = some id

omit [Chia] in
theorem collectEntry_eq (s : CoinStore) (acc : Finset CoinId × List CoinRecord) (entry : KvPair) :
    s.collectEntry acc entry = match keyTail entry.1 with
      | none => .ok acc
      | some id => if id ∈ acc.1 then .ok acc else do
        match ← s.getCoinRecord id with
        | some rec => return (insert id acc.1, acc.2 ++ [rec])
        | none => return (insert id acc.1, acc.2) := by
  rw [collectEntry, keyTail]
  by_cases hlen : 64 ≤ entry.1.length
  · rw [if_neg (Nat.not_lt.2 hlen), dif_pos hlen]
    have hslice : (slice entry.1 32 64).length = 32 := by
      simp only [slice, List.length_take, List.length_drop]
      omega
    have hkey : coinIdFromKey (slice entry.1 32 64) = .ok ⟨slice entry.1 32 64, hslice⟩ :=
      coinIdFromKey_bytes ⟨slice entry.1 32 64, hslice⟩
    rw [hkey, Res.ok_bind]
    rfl
  · rw [if_pos (Nat.not_le.1 hlen), dif_neg hlen]

namespace Represents

variable {S : Scope} {s : CoinStore} {m : Coinset} {acc acc' : Finset CoinId × List CoinRecord}

theorem collectEntry_mem (h : s.Represents S m) {entry : KvPair} (hacc : RecordsOf m acc)
    (hok : s.collectEntry acc entry = .ok acc') :
    RecordsOf m acc' ∧ ∀ id, id ∈ acc'.1 ↔ id ∈ acc.1 ∨ keyTail entry.1 = some id := by
  rw [collectEntry_eq] at hok
  cases htail : keyTail entry.1 with
  | none =>
    rw [htail] at hok
    obtain rfl := Except.ok.inj hok
    exact ⟨hacc, by simp⟩
  | some id =>
    simp only [htail, h.getCoinRecord_eq, Res.ok_bind] at hok
    split at hok
    · next hseen =>
      obtain rfl := Except.ok.inj hok
      refine ⟨hacc, fun id' => (or_iff_left_of_imp ?_).symm⟩
      intro heq
      rwa [← Option.some.inj heq]
    · next hnew =>
      cases hm : m id with
      | none =>
        rw [hm] at hok
        obtain rfl := Except.ok.inj hok
        refine ⟨fun rec => (hacc rec).trans ?_, fun id' => ?_⟩
        · refine and_congr_left fun hrec => ?_
          have hne : rec.coinId ≠ id := fun heq => by simp [heq, hm] at hrec
          simp [hne]
        · simp [or_comm, eq_comm]
      | some found =>
        rw [hm] at hok
        obtain rfl := Except.ok.inj hok
        have hid : found.coinId = id := h.ids hm
        refine ⟨fun rec => ?_, fun id' => ?_⟩
        · rw [List.mem_append, List.mem_singleton, hacc rec, Finset.mem_insert]
          by_cases heq : rec.coinId = id
          · simp only [heq, hm, hnew, false_and, false_or, true_or, true_and, Option.some.injEq,
              eq_comm]
          · have hne : rec ≠ found := fun hr => heq (hr ▸ hid)
            simp [heq, hne]
        · simp [or_comm, eq_comm]

/-- **A scan** adds the ids that end keys under one of the hashes. -/
theorem collect_mem (h : s.Represents S m) {cf : ColumnFamily} {puzzleHashes : List Bytes32}
    (hacc : RecordsOf m acc) (hok : s.collect cf puzzleHashes acc = .ok acc') :
    RecordsOf m acc' ∧
      ∀ id, id ∈ acc'.1 ↔ id ∈ acc.1 ∨ ∃ ph ∈ puzzleHashes, s.EndsKey cf ph id := by
  refine Res.foldlM_adds (H := fun acc id => id ∈ acc.1) (fun acc ph acc' hacc hok => ?_)
    puzzleHashes hacc hok
  rw [Backend.prefixScan_of_healthy h.healthy, orStorage_ok, Res.ok_bind] at hok
  obtain ⟨hacc', hids⟩ := Res.foldlM_adds (f := s.collectEntry) (H := fun acc id => id ∈ acc.1)
    (fun acc entry acc' hacc hok => h.collectEntry_mem hacc hok) _ hacc hok
  refine ⟨hacc', fun id => (hids id).trans (or_congr_right ?_)⟩
  constructor
  · rintro ⟨kv, hkv, htail⟩
    obtain ⟨hkv, hpre⟩ := List.mem_filter.1 hkv
    exact ⟨kv.1, kv.2, OrdMap.mem_toList.1 hkv, List.isPrefixOf_iff_prefix.1 hpre, htail⟩
  · rintro ⟨k, v, hget, hpre, htail⟩
    exact ⟨(k, v), List.mem_filter.2 ⟨OrdMap.mem_toList.2 hget, List.isPrefixOf_iff_prefix.2 hpre⟩,
      htail⟩

end Represents

/-! ## The query -/

/-- The scans of a query: the ids met and the records kept. -/
def scans (s : CoinStore) (puzzleHashes : List Bytes32) (hinted : Bool) :
    Res (Finset CoinId × List CoinRecord) := do
  let acc ← s.collect .coinByPuzzleHash puzzleHashes (∅, [])
  if hinted then s.collect .hintsByValue puzzleHashes acc else pure acc

variable {s : CoinStore} {puzzleHashes : List Bytes32} {minHeight : UInt64}
  {filters : CoinStateFilters} {maxItems : Nat} {states : List CoinState} {next : Option UInt64}

theorem candidates_eq : s.candidates puzzleHashes minHeight filters =
    (s.scans puzzleHashes filters.includeHinted).map fun acc =>
      pageSort (acc.2.filter (filters.keeps minHeight)) := by
  rw [candidates, scans]
  cases s.collect .coinByPuzzleHash puzzleHashes (∅, []) with
  | error e => rfl
  | ok acc =>
    rw [Res.ok_bind, Res.ok_bind]
    cases filters.includeHinted with
    | false => rfl
    | true =>
      rw [if_pos rfl, if_pos rfl]
      cases s.collect .hintsByValue puzzleHashes acc <;> rfl

/-- **An answer** is a page of the records kept by the scans, filtered and sorted. -/
theorem exists_scans_of_batch (hok : s.batchCoinStatesByPuzzleHashes puzzleHashes minHeight filters
      maxItems = .ok (states, next)) : ∃ acc, s.scans puzzleHashes filters.includeHinted = .ok acc ∧
      page (pageSort (acc.2.filter (filters.keeps minHeight))) maxItems = (states, next) := by
  rw [batchCoinStatesByPuzzleHashes] at hok
  split at hok
  · cases hok
  · obtain ⟨l, hl, hpage⟩ := Res.bind_eq_ok.1 hok
    rw [candidates_eq] at hl
    cases hscans : s.scans puzzleHashes filters.includeHinted with
    | error e =>
      rw [hscans] at hl
      cases hl
    | ok acc =>
      rw [hscans] at hl
      obtain rfl := Except.ok.inj hl
      exact ⟨acc, rfl, Except.ok.inj hpage⟩

omit [Chia] in
theorem page_states {l : List CoinRecord} (h : page l maxItems = (states, next)) :
    (∀ state ∈ states, ∃ rec ∈ l, rec.toCoinState = state) ∧
      (next = none → states = l.map CoinRecord.toCoinState) := by
  rw [page] at h
  split at h
  · obtain ⟨rfl, rfl⟩ := Prod.mk.inj h
    exact ⟨fun state hstate => List.mem_map.1 hstate, fun _ => rfl⟩
  · obtain ⟨rfl, rfl⟩ := Prod.mk.inj h
    refine ⟨fun state hstate => ?_, fun hnone => by cases hnone⟩
    obtain ⟨rec, hrec, rfl⟩ := List.mem_map.1 hstate
    exact ⟨rec, List.mem_of_mem_take hrec, rfl⟩

/-- **A coin met through hints only** has a key of the second scan under one of the hashes. -/
theorem Represents.hinted_only {S : Scope} {m : Coinset} (h : s.Represents S m) {maxItems' : Nat}
    {states' : List CoinState}
    (hquery : s.batchCoinStatesByPuzzleHashes puzzleHashes minHeight
      { filters with includeHinted := true } maxItems = .ok (states, next))
    (hdirect : s.batchCoinStatesByPuzzleHashes puzzleHashes minHeight
      { filters with includeHinted := false } maxItems' = .ok (states', none))
    {state : CoinState} (hstate : state ∈ states) (hmissing : state ∉ states') :
    ∃ ph ∈ puzzleHashes, s.EndsKey .hintsByValue ph (Chia.coinId state.coin) := by
  obtain ⟨acc, hacc, hpage⟩ := exists_scans_of_batch hdirect
  obtain ⟨acc', hacc', hpage'⟩ := exists_scans_of_batch hquery
  obtain ⟨acc₁, hfirst, hsecond⟩ := Res.bind_eq_ok.1 hacc'
  obtain ⟨acc₂, hfirst', hnone⟩ := Res.bind_eq_ok.1 hacc
  obtain rfl := Except.ok.inj (hfirst.symm.trans hfirst')
  obtain rfl := Except.ok.inj hnone
  obtain ⟨hrecs, -⟩ := h.collect_mem (recordsOf_nil m) hfirst
  obtain ⟨hrecs', hids'⟩ := h.collect_mem hrecs hsecond
  obtain ⟨rec, hrec, rfl⟩ := (page_states hpage').1 state hstate
  obtain ⟨hrec, hkeeps⟩ := List.mem_filter.1 (List.mem_mergeSort.1 hrec)
  obtain ⟨hid, hm⟩ := (hrecs' rec).1 hrec
  refine ((hids' rec.coinId).1 hid).resolve_left fun hmet => hmissing ?_
  -- a record of the first scan is in the direct answer
  rw [(page_states hpage).2 rfl]
  refine List.mem_map_of_mem (List.mem_mergeSort.2 (List.mem_filter.2 ⟨(hrecs rec).2 ⟨hmet, hm⟩, ?_⟩))
  exact hkeeps

end CoinStore

end DigCoinstore
