import DigCoinstore.RecordQueries

/-!
# Queries by name and capped state queries (`queries.rs`, QRY-005 and QRY-006)

The state queries stop as soon as they have `max_items` results, within a puzzle hash and between
two of them. They return the first `max_items` states of what the plain record query returns
(`CoinStore.getCoinStatesByIds_eq`, `CoinStore.getCoinStatesByPuzzleHashes_eq`), and in every state
of a run the plain queries return the stored records that pass the filters
(`Reachable.state_queries`).
-/

namespace DigCoinstore

variable [Chia]

/-! ## The queries -/

/-- A loop that breaks once there are `maxItems` results. -/
def collectUpTo {ι : Type} (maxItems : Nat) (step : List CoinState → ι → Res (List CoinState)) :
    List ι → List CoinState → Res (List CoinState)
  | [], results => .ok results
  | x :: xs, results =>
    if maxItems ≤ results.length then .ok results
    else do collectUpTo maxItems step xs (← step results x)

namespace CoinStore

section
variable (s : CoinStore)

/-- QRY-005 -/
def getCoinRecordsByNames (includeSpent : Bool) (names : List CoinId)
    (startHeight endHeight : UInt64) : Res (List CoinRecord) :=
  names.foldlM (fun results coinId => do
    match ← s.getCoinRecord coinId with
    | some rec =>
      return if inHeights includeSpent startHeight endHeight rec then results ++ [rec] else results
    | none => return results) []

/-- QRY-006, by ids -/
def getCoinStatesByIds (includeSpent : Bool) (coinIds : List CoinId) (minHeight maxHeight : UInt64)
    (maxItems : Nat) : Res (List CoinState) :=
  collectUpTo maxItems (fun results coinId => do
    match ← s.getCoinRecord coinId with
    | some rec => return if inHeights includeSpent minHeight maxHeight rec
        then results ++ [rec.toCoinState] else results
    | none => return results) coinIds []

/-- `u64::MAX` -/
def maxHeight : UInt64 := UInt64.ofNat (2 ^ 64 - 1)

/-- QRY-006, by puzzle hashes -/
def getCoinStatesByPuzzleHashes (includeSpent : Bool) (puzzleHashes : List Bytes32)
    (minHeight : UInt64) (maxItems : Nat) : Res (List CoinState) :=
  collectUpTo maxItems (fun results ph => do
    let recs ← s.getCoinRecordsByPuzzleHash includeSpent ph minHeight maxHeight
    collectUpTo maxItems (fun results rec => .ok (results ++ [rec.toCoinState])) recs results)
    puzzleHashes []

/-- The stored records with one of the ids that pass the filters. -/
def recordsWithNames (inc : Bool) (ids : List CoinId) (st en : UInt64) : Set CoinRecord :=
  {rec | rec ∈ s.recordsWithIds ids ∧ (inc = false → rec.isSpent = false) ∧
    st ≤ rec.confirmedHeight ∧ rec.confirmedHeight ≤ en}

end

/-! ## The cap -/

omit [Chia] in
theorem take_of_full {α : Type} {n : Nat} {l l' : List α} (h : l.length = n) :
    (l ++ l').take n = l := by
  rw [List.take_append_of_le_length (Nat.le_of_eq h.symm), List.take_of_length_le (Nat.le_of_eq h)]

omit [Chia] in
theorem take_take_append {α : Type} (n : Nat) (l l' : List α) :
    (l.take n ++ l').take n = (l ++ l').take n := by
  rcases Nat.le_total l.length n with hle | hle
  · rw [List.take_of_length_le hle]
  · rw [take_of_full (List.length_take_of_le hle), List.take_append_of_le_length hle]

omit [Chia] in
/-- **A capped loop** collects the first `maxItems` of what its steps append. -/
theorem collectUpTo_eq {ι : Type} {maxItems : Nat}
    {step : List CoinState → ι → Res (List CoinState)} {f : ι → List CoinState} :
    ∀ {xs : List ι} {results : List CoinState}, results.length ≤ maxItems →
      (∀ x ∈ xs, ∀ results : List CoinState, results.length < maxItems →
        step results x = .ok ((results ++ f x).take maxItems)) →
      collectUpTo maxItems step xs results = .ok ((results ++ xs.flatMap f).take maxItems)
  | [], results, hle, _ => by
    rw [collectUpTo, List.flatMap_nil, List.append_nil, List.take_of_length_le hle]
  | x :: xs, results, hle, hstep => by
    rw [collectUpTo]
    split
    · next hfull => rw [take_of_full (Nat.le_antisymm hle hfull)]
    · next hroom =>
      rw [hstep x (.head _) results (Nat.not_le.1 hroom), Res.ok_bind,
        collectUpTo_eq (List.length_take_le _ _) fun y hy => hstep y (.tail _ hy), take_take_append,
        List.flatMap_cons, List.append_assoc]

omit [Chia] in
theorem collectUpTo_push {maxItems : Nat} (recs : List CoinRecord) {results : List CoinState}
    (hle : results.length ≤ maxItems) :
    collectUpTo maxItems (fun results rec => .ok (results ++ [rec.toCoinState])) recs results =
      .ok ((results ++ recs.map CoinRecord.toCoinState).take maxItems) := by
  rw [List.map_eq_flatMap]
  refine collectUpTo_eq hle fun rec _ results hroom => ?_
  rw [List.take_of_length_le]
  rw [List.length_append]
  exact hroom

/-! ## The plain queries -/

variable {s : CoinStore}

omit [Chia] in
/-- A loop that succeeds appends the answers to its entries. -/
theorem foldlM_eq_ok {ι : Type} {g : ι → Res (List CoinRecord)} {f : ι → List CoinRecord}
    (hf : ∀ x l, g x = .ok l → l = f x) :
    ∀ {xs : List ι} {results l : List CoinRecord},
      xs.foldlM (fun results x => do return results ++ (← g x)) results = .ok l →
        (∀ x ∈ xs, g x = .ok (f x)) ∧ l = results ++ xs.flatMap f
  | [], results, l, h => by
    obtain rfl := Except.ok.inj h
    exact ⟨fun _ hx => (nomatch hx), by simp⟩
  | x :: xs, results, l, h => by
    rw [List.foldlM_cons] at h
    obtain ⟨results', hstep, hrest⟩ := Res.bind_eq_ok.1 h
    obtain ⟨y, hy, hresults⟩ := Res.bind_eq_ok.1 hstep
    obtain rfl := Except.ok.inj hresults
    obtain rfl := hf x y hy
    obtain ⟨hxs, rfl⟩ := foldlM_eq_ok hf hrest
    refine ⟨fun z hz => ?_, by simp⟩
    rcases List.mem_cons.1 hz with rfl | hz
    · exact hy
    · exact hxs z hz

/-- The record of an id, if it passes the filters. -/
def namedRecords (s : CoinStore) (inc : Bool) (st en : UInt64) (id : CoinId) :
    Res (List CoinRecord) := do
  return ((← s.getCoinRecord id).filter (inHeights inc st en)).toList

omit [Chia] in
theorem getCoinRecordsByNames_loop (s : CoinStore) (inc : Bool) (names : List CoinId)
    (st en : UInt64) : s.getCoinRecordsByNames inc names st en =
      names.foldlM (fun results id => do return results ++ (← s.namedRecords inc st en id)) [] := by
  rw [getCoinRecordsByNames]
  congr 1
  funext results id
  rw [namedRecords]
  cases s.getCoinRecord id with
  | error e => rfl
  | ok o =>
    cases o with
    | none => simp
    | some rec => cases hkeep : inHeights inc st en rec <;> simp [hkeep, Option.filter_some]

omit [Chia] in
/-- **The states of the ids** are the first ones of their records, when these can be read. -/
theorem getCoinStatesByIds_eq {inc : Bool} {ids : List CoinId} {st en : UInt64}
    {l : List CoinRecord} (h : s.getCoinRecordsByNames inc ids st en = .ok l) (maxItems : Nat) :
    s.getCoinStatesByIds inc ids st en maxItems =
      .ok ((l.map CoinRecord.toCoinState).take maxItems) := by
  rw [getCoinRecordsByNames_loop] at h
  obtain ⟨hids, rfl⟩ := foldlM_eq_ok (f := fun id => ((s.namedRecords inc st en id).toOption.getD []))
    (fun id l hl => by rw [hl]; rfl) h
  rw [List.nil_append, List.map_flatMap, getCoinStatesByIds]
  refine collectUpTo_eq (Nat.zero_le _) fun id hid results hroom => ?_
  have hone := hids id hid
  generalize (s.namedRecords inc st en id).toOption.getD [] = recs at hone
  rw [namedRecords] at hone
  obtain ⟨o, ho, hrecs⟩ := Res.bind_eq_ok.1 hone
  obtain rfl := Except.ok.inj hrecs
  rw [ho, Res.ok_bind]
  cases o with
  | none =>
    rw [List.take_of_length_le] <;> simp
    exact hroom.le
  | some rec =>
    cases hkeep : inHeights inc st en rec
    · rw [List.take_of_length_le] <;> simp [hkeep, Option.filter_some]
      exact hroom.le
    · rw [List.take_of_length_le] <;> simp [hkeep, Option.filter_some]
      exact hroom

omit [Chia] in
/-- **The states of the puzzle hashes** are the first ones of their records. -/
theorem getCoinStatesByPuzzleHashes_eq {inc : Bool} {phs : List Bytes32} {st : UInt64}
    {l : List CoinRecord} (h : s.getCoinRecordsByPuzzleHashes inc phs st maxHeight = .ok l)
    (maxItems : Nat) : s.getCoinStatesByPuzzleHashes inc phs st maxItems =
      .ok ((l.map CoinRecord.toCoinState).take maxItems) := by
  obtain ⟨hphs, rfl⟩ := foldlM_eq_ok
    (f := fun ph => ((s.getCoinRecordsByPuzzleHash inc ph st maxHeight).toOption.getD []))
    (fun ph l hl => by rw [hl]; rfl) h
  rw [List.nil_append, List.map_flatMap, getCoinStatesByPuzzleHashes]
  refine collectUpTo_eq (Nat.zero_le _) fun ph hph results hroom => ?_
  rw [hphs ph hph, Res.ok_bind]
  exact collectUpTo_push _ hroom.le

namespace Represents

variable {S : Scope} {m : Coinset}

theorem getCoinRecordsByNames_ok (h : s.Represents S m) (inc : Bool) (ids : List CoinId)
    (st en : UInt64) : ∃ l, s.getCoinRecordsByNames inc ids st en = .ok l ∧
      ∀ rec, rec ∈ l ↔ rec ∈ s.recordsWithNames inc ids st en := by
  have hone : ∀ id, s.namedRecords inc st en id =
      .ok ((m id).filter (inHeights inc st en)).toList := by
    intro id
    rw [namedRecords, h.getCoinRecord_eq, Res.ok_bind, Res.pure_eq]
  refine ⟨ids.flatMap fun id => ((m id).filter (inHeights inc st en)).toList, ?_, fun rec => ?_⟩
  · rw [getCoinRecordsByNames_loop]
    refine foldlM_appends (fun results id => ?_) ids []
    rw [hone, Res.ok_bind, Res.pure_eq]
  · rw [List.mem_flatMap, recordsWithNames, Set.mem_ofPred_eq, recordsWithIds, Set.mem_ofPred_eq,
      h.mem_storedRecords, ← inHeights_iff]
    constructor
    · rintro ⟨id, hid, hrec⟩
      obtain ⟨hrec, hkeep⟩ := Option.filter_eq_some_iff.1 (Option.mem_toList.1 hrec)
      obtain rfl := h.ids hrec
      exact ⟨⟨hrec, hid⟩, hkeep⟩
    · rintro ⟨⟨hrec, hid⟩, hkeep⟩
      exact ⟨_, hid, Option.mem_toList.2 (Option.filter_eq_some_iff.2 ⟨hrec, hkeep⟩)⟩

theorem getCoinRecordsByPuzzleHashes_ok (h : s.Represents S m) (hS : .coinByPuzzleHash ∈ S.cfs)
    (inc : Bool) (phs : List Bytes32) (st en : UInt64) :
    ∃ l, s.getCoinRecordsByPuzzleHashes inc phs st en = .ok l ∧
      ∀ rec, rec ∈ l ↔ rec ∈ s.recordsWithHashes inc phs st en := by
  have hone : ∀ ph : Bytes32, ∃ l : List CoinRecord,
      s.getCoinRecordsByPuzzleHash inc ph st en = .ok l ∧ ∀ rec, rec ∈ l ↔
        rec ∈ s.storedRecords ∧ rec.coin.puzzleHash = ph ∧ inHeights inc st en rec = true := by
    intro ph
    have hfamily : .coinByPuzzleHash ∈ indexFamilies := by decide
    obtain ⟨l, hpush, -, hl⟩ := h.pushIndexed_eq hfamily hS ph.length_bytes (inHeights inc st en)
    rw [ph.length_bytes] at hpush
    refine ⟨l, hpush [], fun rec => ?_⟩
    rw [hl, indexHead, Option.some.injEq, Bytes32.bytes_inj]
  choose f hrun hmem using hone
  refine ⟨phs.flatMap f, foldlM_appends (fun results ph => ?_) phs [], fun rec => ?_⟩
  · rw [hrun, Res.ok_bind, Res.pure_eq]
  · rw [List.mem_flatMap, recordsWithHashes, Set.mem_ofPred_eq, ← inHeights_iff]
    constructor
    · rintro ⟨ph, hph, hrec⟩
      obtain ⟨hstored, rfl, hkeep⟩ := (hmem ph rec).1 hrec
      exact ⟨hstored, hph, hkeep⟩
    · rintro ⟨hstored, hph, hkeep⟩
      exact ⟨_, hph, (hmem _ _).2 ⟨hstored, rfl, hkeep⟩⟩

end Represents

end CoinStore

/-- **The state queries cut the record queries off**, in every state of a run. The record queries
find exactly the stored records that pass the filters, and a state query returns the states of the
first `maxItems` of them, in the same order. By puzzle hashes it has no upper height. -/
theorem Reachable.state_queries {U : Set Coin} {P : BlockData → Prop} {s : CoinStore}
    (h : Reachable U P s) :
    (∀ inc ids st en, ∃ l, s.getCoinRecordsByNames inc ids st en = .ok l ∧
      (∀ rec, rec ∈ l ↔ rec ∈ s.recordsWithNames inc ids st en) ∧
      ∀ maxItems, s.getCoinStatesByIds inc ids st en maxItems =
        .ok ((l.map CoinRecord.toCoinState).take maxItems)) ∧
    (Set.InjOn Chia.coinId U → ∀ inc phs st en, ∃ l,
      s.getCoinRecordsByPuzzleHashes inc phs st en = .ok l ∧
      (∀ rec, rec ∈ l ↔ rec ∈ s.recordsWithHashes inc phs st en) ∧
      (en = CoinStore.maxHeight → ∀ maxItems, s.getCoinStatesByPuzzleHashes inc phs st maxItems =
        .ok ((l.map CoinRecord.toCoinState).take maxItems))) := by
  constructor
  · intro inc ids st en
    obtain ⟨m, hm, -⟩ := h.life
    obtain ⟨l, hl, hmem⟩ := hm.getCoinRecordsByNames_ok inc ids st en
    exact ⟨l, hl, hmem, CoinStore.getCoinStatesByIds_eq hl⟩
  · intro hU inc phs st en
    obtain ⟨m, hm, -⟩ : s.Follows (.all U hU) _ := h.represents
    have hS : .coinByPuzzleHash ∈ (Scope.all U hU).cfs := show _ ∈ coinFamilies by decide
    obtain ⟨l, hl, hmem⟩ := hm.getCoinRecordsByPuzzleHashes_ok hS inc phs st en
    refine ⟨l, hl, hmem, fun hmax => ?_⟩
    subst hmax
    exact CoinStore.getCoinStatesByPuzzleHashes_eq hl

end DigCoinstore

namespace DigCoinstore

open Sample

/-- Two of three names are stored, and a cap of one keeps the first. -/
theorem state_queries_genesis :
    (∃ l, genesis.getCoinRecordsByNames true [ofNum 2, ofNum 7, ofNum 1] 0 0 = .ok l ∧
      genesis.getCoinStatesByIds true [ofNum 2, ofNum 7, ofNum 1] 0 0 1 =
        .ok ((l.map CoinRecord.toCoinState).take 1)) ∧
    (∃ l, genesis.getCoinRecordsByPuzzleHashes true [ofNum 1] 0 0 = .ok l ∧
      ∀ rec, rec ∈ l ↔ rec ∈ genesis.recordsWithHashes true [ofNum 1] 0 0) ∧
    ∃ l, genesis.getCoinRecordsByPuzzleHashes true [ofNum 1] 0 CoinStore.maxHeight = .ok l ∧
      genesis.getCoinStatesByPuzzleHashes true [ofNum 1] 0 1 =
        .ok ((l.map CoinRecord.toCoinState).take 1) := by
  obtain ⟨hnames, hhashes⟩ := reachable_genesis.state_queries
  obtain ⟨l, hl, -, hcut⟩ := hnames true [ofNum 2, ofNum 7, ofNum 1] 0 0
  obtain ⟨l₀, hl₀, hmem₀, -⟩ := hhashes coinId_injOn true [ofNum 1] 0 0
  obtain ⟨l', hl', -, hcut'⟩ := hhashes coinId_injOn true [ofNum 1] 0 CoinStore.maxHeight
  exact ⟨⟨l, hl, hcut 1⟩, ⟨l₀, hl₀, hmem₀⟩, l', hl', hcut' rfl 1⟩

end DigCoinstore
