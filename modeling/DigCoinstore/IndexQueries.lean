import DigCoinstore.IndexExact
import DigCoinstore.Queries

/-!
# Queries over an index (`queries.rs`)

A query scans one index family below a prefix, takes the coin id from the end of each key and looks
up its record. In every state of a run it returns the records of the full table that the index is
about, each once (`Reachable.index_queries`).
-/

namespace DigCoinstore

variable [Chia]

namespace CoinStore

section
variable (s : CoinStore)

/-- One index entry: the record of the coin whose id starts at byte `start` of the key. -/
def pushEntry (start : Nat) (keep : CoinRecord → Bool) (results : List CoinRecord) (entry : KvPair) :
    Res (List CoinRecord) :=
  if entry.1.length < start + 32 then .ok results
  else do
    let coinId ← coinIdFromKey (slice entry.1 start (start + 32))
    match ← s.getCoinRecord coinId with
    | some rec => return if keep rec then results ++ [rec] else results
    | none => return results

/-- The records that an index lists below `pre`. -/
def pushIndexed (cf : ColumnFamily) (start : Nat) (keep : CoinRecord → Bool)
    (results : List CoinRecord) (pre : Bytes) : Res (List CoinRecord) := do
  let entries ← orStorage (s.backend.prefixScan cf pre)
  entries.foldlM (s.pushEntry start keep) results

/-- The filters on spent coins and on confirmed heights. -/
def inHeights (includeSpent : Bool) (startHeight endHeight : UInt64) (rec : CoinRecord) : Bool :=
  if !includeSpent && rec.isSpent then false
  else if rec.confirmedHeight < startHeight || endHeight < rec.confirmedHeight then false
  else true

/-- QRY-002 -/
def getCoinRecordsByPuzzleHash (includeSpent : Bool) (puzzleHash : Bytes32)
    (startHeight endHeight : UInt64) : Res (List CoinRecord) :=
  s.pushIndexed .coinByPuzzleHash 32 (inHeights includeSpent startHeight endHeight) [] puzzleHash.bytes

/-- QRY-003 -/
def getCoinsAddedAtHeight (height : UInt64) : Res (List CoinRecord) :=
  s.pushIndexed .coinByConfirmedHeight 8 (fun _ => true) [] (FixedInt.toBeBytes height)

/-- QRY-003: no coin counts as spent at height 0. -/
def getCoinsRemovedAtHeight (height : UInt64) : Res (List CoinRecord) :=
  if height = 0 then .ok []
  else s.pushIndexed .coinBySpentHeight 8 (fun _ => true) [] (FixedInt.toBeBytes height)

/-- QRY-004 -/
def getCoinRecordsByParentIds (includeSpent : Bool) (parentIds : List CoinId)
    (startHeight endHeight : UInt64) : Res (List CoinRecord) :=
  parentIds.foldlM (fun results parentId =>
    s.pushIndexed .coinByParent 32 (inHeights includeSpent startHeight endHeight) results
      parentId.bytes) []

/-- QRY-008 -/
def getUnspentLineageInfoForPuzzleHash (puzzleHash : Bytes32) : Res (Option UnspentLineageInfo) := do
  match ← orStorage (s.backend.prefixScan .unspentByPuzzleHash puzzleHash.bytes) with
  | [entry] =>
    if entry.1.length < 64 then return none
    else do
      let coinId ← coinIdFromKey (slice entry.1 32 64)
      match ← s.getCoinRecord coinId with
      | none => return none
      | some rec =>
        let parentId := rec.coin.parentCoinInfo
        let parentParentId :=
          match ← s.getCoinRecord parentId with
          | some parentRec => parentRec.coin.parentCoinInfo
          | none => .zero
        return some { coinId, parentId, parentParentId }
  | _ => return none

end

/-! ## One scan -/

/-- The part of a record that its row's key in a family starts with. -/
def indexHead (cf : ColumnFamily) (rec : CoinRecord) : Option Bytes :=
  match cf with
  | .coinByPuzzleHash => some rec.coin.puzzleHash.bytes
  | .unspentByPuzzleHash =>
    if rec.spentHeight.isNone then some rec.coin.puzzleHash.bytes else none
  | .coinByParent => some rec.coin.parentCoinInfo.bytes
  | .coinByConfirmedHeight => some (FixedInt.toBeBytes rec.confirmedHeight)
  | .coinBySpentHeight => rec.spentHeight.map FixedInt.toBeBytes
  | _ => none

/-- The length of this part. -/
def indexWidth : ColumnFamily → Nat
  | .coinByPuzzleHash | .unspentByPuzzleHash | .coinByParent => 32
  | .coinByConfirmedHeight | .coinBySpentHeight => 8
  | _ => 0

/-- The families scanned by a query. -/
def indexFamilies : List ColumnFamily :=
  [.coinByPuzzleHash, .unspentByPuzzleHash, .coinByParent, .coinByConfirmedHeight, .coinBySpentHeight]

variable {cf : ColumnFamily} {id : CoinId} {rec : CoinRecord} {pre : Bytes}

omit [Chia] in
theorem length_indexHead {head : Bytes} (h : indexHead cf rec = some head) :
    head.length = indexWidth cf := by
  cases cf <;> simp only [indexHead, Option.some.injEq, Option.map_eq_some_iff, reduceCtorEq] at h
  case unspentByPuzzleHash =>
    split at h
    · simp [← Option.some.inj h, indexWidth]
    · cases h
  case coinBySpentHeight =>
    obtain ⟨sh, _, rfl⟩ := h
    simp [indexWidth]
  all_goals simp [← h, indexWidth]

omit [Chia] in
/-- A row's key is the head of the record and the id. -/
theorem coinRow_index (id : Bytes32) (rec : CoinRecord) (hcf : cf ∈ indexFamilies) :
    ∃ value, coinRow cf id rec =
      (indexHead cf rec).map fun head => (head ++ id.bytes, value) := by
  simp only [indexFamilies, List.mem_cons, List.not_mem_nil, or_false] at hcf
  rcases hcf with rfl | rfl | rfl | rfl | rfl
  · exact ⟨_, rfl⟩
  · refine ⟨[], ?_⟩
    cases hs : rec.spentHeight <;> simp [coinRow, indexHead, hs, puzzleHashCoinKey]
  · exact ⟨_, rfl⟩
  · exact ⟨_, rfl⟩
  · exact ⟨id.bytes, by simp [coinRow, indexHead, heightCoinKey, Function.comp_def]⟩

omit [Chia] in
/-- A prefix as long as the head selects the records with this head. -/
theorem coinRow_prefix_iff (hcf : cf ∈ indexFamilies) (hpre : pre.length = indexWidth cf) :
    (∃ k v, coinRow cf id rec = some (k, v) ∧ pre <+: k) ↔ indexHead cf rec = some pre := by
  obtain ⟨value, hrow⟩ := coinRow_index id rec hcf
  rw [hrow]
  constructor
  · rintro ⟨k, v, hkv, hprefix⟩
    obtain ⟨head, hhead, heq⟩ := Option.map_eq_some_iff.1 hkv
    obtain ⟨rfl, rfl⟩ := Prod.mk.inj heq
    have hlen := length_indexHead hhead
    obtain ⟨rest, hrest⟩ := hprefix
    rw [hhead, (List.append_inj hrest (hpre.trans hlen.symm)).1]
  · intro hhead
    exact ⟨pre ++ id.bytes, value, by rw [hhead]; rfl, List.prefix_append _ _⟩

omit [Chia] in
theorem inHeights_iff {inc : Bool} {st en : UInt64} : inHeights inc st en rec = true ↔
    (inc = false → rec.isSpent = false) ∧ st ≤ rec.confirmedHeight ∧ rec.confirmedHeight ≤ en := by
  rw [← UInt64.not_lt, ← UInt64.not_lt (a := en), inHeights]
  cases inc <;> cases hspent : rec.isSpent <;> simp

/-- The records of `A`, each once. -/
def Lists (result : Res (List CoinRecord)) (A : Set CoinRecord) : Prop :=
  ∃ l : List CoinRecord, result = .ok l ∧ l.Nodup ∧ ∀ rec, rec ∈ l ↔ rec ∈ A

/-- The unspent records with a puzzle hash. -/
def unspentAt (s : CoinStore) (ph : Bytes32) : Set CoinRecord :=
  {r | r ∈ s.storedRecords ∧ r.coin.puzzleHash = ph ∧ r.spentHeight = none}

/-- `id` is the parent of the parent of `rec`, or zero if the parent is not stored. -/
def ParentsParent (s : CoinStore) (rec : CoinRecord) (id : CoinId) : Prop :=
  (∃ parent ∈ s.storedRecords, parent.coinId = rec.coin.parentCoinInfo ∧
    id = parent.coin.parentCoinInfo) ∨
  (∀ parent ∈ s.storedRecords, parent.coinId ≠ rec.coin.parentCoinInfo) ∧ id = .zero

namespace Represents

variable {S : Scope} {s : CoinStore} {m : Coinset}

theorem pushEntry_eq (h : s.Represents S m) (hm : m id = some rec) (keep : CoinRecord → Bool)
    (results : List CoinRecord) (value : Bytes) :
    s.pushEntry pre.length keep results (pre ++ id.bytes, value) =
      .ok (if keep rec then results ++ [rec] else results) := by
  have hslice : slice (pre ++ id.bytes) pre.length (pre.length + 32) = id.bytes := by simp [slice]
  have hlen : ¬ (pre ++ id.bytes).length < pre.length + 32 := by
    rw [List.length_append, id.length_bytes]
    omega
  simp only [pushEntry, if_neg hlen, hslice, coinIdFromKey_bytes, Res.ok_bind, h.getCoinRecord_eq, hm,
    Res.pure_eq]

/-- **A query over an index** appends the records with the head `pre` that it keeps, each once. -/
theorem pushIndexed_eq (h : s.Represents S m) (hcf : cf ∈ indexFamilies) (hS : cf ∈ S.cfs)
    (hpre : pre.length = indexWidth cf) (keep : CoinRecord → Bool) : ∃ l : List CoinRecord,
    (∀ results, s.pushIndexed cf pre.length keep results pre = .ok (results ++ l)) ∧ l.Nodup ∧
      ∀ rec, rec ∈ l ↔ rec ∈ s.storedRecords ∧ indexHead cf rec = some pre ∧ keep rec = true := by
  obtain ⟨l, hscan, hnodup, hl⟩ := Backend.scan_mirrors h.healthy (h.rows cf hS) pre
  have hids : ∀ x ∈ l, x.2.coinId = x.1 ∧ m x.1 = some x.2 ∧ indexHead cf x.2 = some pre :=
    fun x hx => by
      obtain ⟨hm, hrow⟩ := (hl x.1 x.2).1 hx
      exact ⟨h.ids hm, hm, (coinRow_prefix_iff hcf hpre).1 hrow⟩
  refine ⟨(l.map (·.2)).filter keep, fun results => ?_, ?_, fun rec => ?_⟩
  · rw [pushIndexed, hscan, orStorage_ok, Res.ok_bind]
    clear hscan hnodup hl
    induction l generalizing results with
    | nil => simp
    | cons x l ih =>
      obtain ⟨_, hm, hhead⟩ := hids x (.head _)
      obtain ⟨value, hrow⟩ := coinRow_index x.1 x.2 hcf
      rw [hhead, Option.map_some] at hrow
      rw [List.map_cons, List.foldlM_cons, hrow, Option.getD_some, h.pushEntry_eq hm, Res.ok_bind,
        ih fun y hy => hids y (.tail _ hy)]
      cases hkeep : keep x.2 <;> simp [hkeep]
  · have hrecs : (l.map (·.2)).Nodup := by
      have hsame : (l.map (·.2)).map CoinRecord.coinId = l.map (·.1) := by
        rw [List.map_map]
        exact List.map_congr_left fun x hx => (hids x hx).1
      rw [← hsame] at hnodup
      exact hnodup.of_map _
    exact hrecs.filter keep
  · rw [List.mem_filter, List.mem_map, h.mem_storedRecords, ← and_assoc]
    refine and_congr_left fun _ => ?_
    constructor
    · rintro ⟨x, hx, rfl⟩
      obtain ⟨hid, hm, hhead⟩ := hids x hx
      rw [hid]
      exact ⟨hm, hhead⟩
    · rintro ⟨hm, hhead⟩
      exact ⟨(rec.coinId, rec), (hl _ _).2 ⟨hm, (coinRow_prefix_iff hcf hpre).2 hhead⟩, rfl⟩

/-- What a query over an index returns, when `A` are the records it is about. -/
theorem lists_pushIndexed (h : s.Represents S m) (hcf : cf ∈ indexFamilies) (hS : cf ∈ S.cfs)
    {start : Nat} (hpre : pre.length = start) (hstart : start = indexWidth cf)
    {keep : CoinRecord → Bool} {A : Set CoinRecord} (hsub : A ⊆ s.storedRecords)
    (hA : ∀ rec ∈ s.storedRecords,
      (indexHead cf rec = some pre ∧ keep rec = true ↔ rec ∈ A)) :
    Lists (s.pushIndexed cf start keep [] pre) A := by
  subst hpre
  obtain ⟨l, hpush, hnodup, hl⟩ := h.pushIndexed_eq hcf hS hstart keep
  refine ⟨l, hpush [], hnodup, fun rec => (hl rec).trans ⟨fun hrec => ?_, fun hrec => ?_⟩⟩
  · exact (hA rec hrec.1).1 hrec.2
  · exact ⟨hsub hrec, (hA rec (hsub hrec)).2 hrec⟩

theorem parentsParent_iff (h : s.Represents S m) {parentId : CoinId} :
    s.ParentsParent rec parentId ↔ parentId = (match m rec.coin.parentCoinInfo with
      | some parentRec => parentRec.coin.parentCoinInfo
      | none => .zero) := by
  simp only [ParentsParent, h.mem_storedRecords]
  cases hm : m rec.coin.parentCoinInfo with
  | none =>
    constructor
    · rintro (⟨parent, hparent, hid, _⟩ | ⟨_, hzero⟩)
      · rw [hid, hm] at hparent
        cases hparent
      · exact hzero
    · intro hzero
      refine .inr ⟨fun parent hparent hid => ?_, hzero⟩
      rw [hid, hm] at hparent
      cases hparent
  | some parentRec =>
    have hid := h.ids hm
    constructor
    · rintro (⟨parent, hparent, hid', heq⟩ | ⟨hnone, _⟩)
      · rw [hid', hm] at hparent
        rw [heq, Option.some.inj hparent]
      · exact absurd hid (hnone parentRec (by rw [hid, hm]))
    · intro heq
      exact .inl ⟨parentRec, by rw [hid, hm], hid, heq⟩

/-- The scan for a lineage lists the unspent records of the puzzle hash. -/
theorem mem_unspentAt_iff (h : s.Represents S m) {ph : Bytes32} :
    rec ∈ unspentAt s ph ↔ m rec.coinId = some rec ∧
      ∃ k v, coinRow .unspentByPuzzleHash rec.coinId rec = some (k, v) ∧ ph.bytes <+: k := by
  rw [coinRow_prefix_iff (by decide) (by simp [indexWidth]), unspentAt, Set.mem_ofPred_eq,
    h.mem_storedRecords]
  refine and_congr_right fun _ => ?_
  cases hs : rec.spentHeight <;> simp [indexHead, hs, Bytes32.bytes_inj]

/-- A scan that finds one entry gives the lineage of its coin. -/
theorem lineage_of_one (h : s.Represents S m) {ph : Bytes32} {value : Bytes}
    (hscan : s.backend.prefixScan .unspentByPuzzleHash ph.bytes = .ok [(ph.bytes ++ id.bytes, value)])
    (hm : m id = some rec) : s.getUnspentLineageInfoForPuzzleHash ph = .ok (some {
      coinId := id
      parentId := rec.coin.parentCoinInfo
      parentParentId := match m rec.coin.parentCoinInfo with
        | some parentRec => parentRec.coin.parentCoinInfo
        | none => .zero }) := by
  have hslice : slice (ph.bytes ++ id.bytes) 32 64 = id.bytes := by simp [slice]
  rw [getUnspentLineageInfoForPuzzleHash, hscan, orStorage_ok, Res.ok_bind]
  simp only [List.length_append, Bytes32.length_bytes, Nat.reduceAdd, Nat.lt_irrefl, if_false, hslice,
    coinIdFromKey_bytes, Res.ok_bind, h.getCoinRecord_eq, hm, Res.pure_eq]

/-- **The lineage of a puzzle hash** is that of its one unspent coin. -/
theorem lineage_spec (h : s.Represents S m) (hS : .unspentByPuzzleHash ∈ S.cfs) (ph : Bytes32) :
    ∃ o, s.getUnspentLineageInfoForPuzzleHash ph = .ok o ∧ ∀ info, o = some info ↔
      ∃ rec, {r | r ∈ s.storedRecords ∧ r.coin.puzzleHash = ph ∧ r.spentHeight = none} = {rec} ∧
        info.coinId = rec.coinId ∧ info.parentId = rec.coin.parentCoinInfo ∧
        s.ParentsParent rec info.parentParentId := by
  obtain ⟨l, hscan, hnodup, hl⟩ := Backend.scan_mirrors h.healthy (h.rows _ hS) ph.bytes
  have hmem : ∀ rec, (rec.coinId, rec) ∈ l ↔ rec ∈ unspentAt s ph := fun rec => by
    rw [hl, h.mem_unspentAt_iff]
  have hids : ∀ x ∈ l, m x.1 = some x.2 ∧ x.2.coinId = x.1 ∧ x.2 ∈ unspentAt s ph := fun x hx => by
    have hm := ((hl x.1 x.2).1 hx).1
    have hid := h.ids hm
    refine ⟨hm, hid, (hmem x.2).1 ?_⟩
    rwa [hid]
  change ∃ o, _ ∧ ∀ info, o = some info ↔ ∃ rec, unspentAt s ph = {rec} ∧ _
  cases l with
  | nil =>
    refine ⟨none, ?_, fun info => iff_of_false (fun hnone => nomatch hnone) ?_⟩
    · rw [getUnspentLineageInfoForPuzzleHash, hscan, orStorage_ok, Res.ok_bind]
      rfl
    · rintro ⟨rec, hset, _⟩
      have hrec := (hmem rec).2 (hset ▸ rfl)
      cases hrec
  | cons x l =>
    obtain ⟨hm, hid, hx⟩ := hids x (.head _)
    cases l with
    | nil =>
      have hset : unspentAt s ph = {x.2} := by
        ext rec
        rw [← hmem, List.mem_singleton, Set.mem_singleton_iff]
        refine ⟨fun heq => by rw [← heq], fun heq => ?_⟩
        rw [heq, hid]
      have hentry : (coinRow .unspentByPuzzleHash x.1 x.2).getD ([], []) =
          (ph.bytes ++ x.1.bytes, []) := by
        simp [coinRow, hx.2.2, hx.2.1, puzzleHashCoinKey]
      rw [List.map_cons, List.map_nil, hentry] at hscan
      refine ⟨_, h.lineage_of_one hscan hm, fun info => ?_⟩
      simp only [hset, Set.singleton_eq_singleton_iff, exists_eq_left', h.parentsParent_iff, hid,
        Option.some.injEq]
      constructor
      · rintro rfl
        exact ⟨rfl, rfl, rfl⟩
      · rintro ⟨hcoin, hparent, hgrand⟩
        cases info
        simp only at hcoin hparent hgrand
        rw [hcoin, hparent, hgrand]
    | cons y l =>
      refine ⟨none, ?_, fun info => iff_of_false (fun hnone => nomatch hnone) ?_⟩
      · rw [getUnspentLineageInfoForPuzzleHash, hscan, orStorage_ok, Res.ok_bind]
        rfl
      · rintro ⟨rec, hset, _⟩
        obtain ⟨_, hid', hy⟩ := hids y (.tail _ (.head _))
        rw [hset, Set.mem_singleton_iff] at hx hy
        have hne : x.1 ∉ (y :: l).map (·.1) := (List.nodup_cons.1 hnodup).1
        rw [← hid, hx, ← hy, hid'] at hne
        exact hne (.head _)

end Represents

end CoinStore

/-- **Index queries are filters of the full table**: in every state of a run, each returns the
stored records it is about, each once, and the lineage of a puzzle hash is that of its one unspent
coin. -/
theorem Reachable.index_queries {U : Set Coin} {P : BlockData → Prop} {s : CoinStore}
    (h : Reachable U P s) (hU : Set.InjOn Chia.coinId U) :
    (∀ inc ph st en, CoinStore.Lists (s.getCoinRecordsByPuzzleHash inc ph st en)
      {rec | rec ∈ s.storedRecords ∧ rec.coin.puzzleHash = ph ∧ (inc = false → rec.isSpent = false) ∧
        st ≤ rec.confirmedHeight ∧ rec.confirmedHeight ≤ en}) ∧
    (∀ inc p st en, CoinStore.Lists (s.getCoinRecordsByParentIds inc [p] st en)
      {rec | rec ∈ s.storedRecords ∧ rec.coin.parentCoinInfo = p ∧ (inc = false → rec.isSpent = false) ∧
        st ≤ rec.confirmedHeight ∧ rec.confirmedHeight ≤ en}) ∧
    (∀ height, CoinStore.Lists (s.getCoinsAddedAtHeight height)
      {rec | rec ∈ s.storedRecords ∧ rec.confirmedHeight = height}) ∧
    (∀ height, CoinStore.Lists (s.getCoinsRemovedAtHeight height)
      {rec | rec ∈ s.storedRecords ∧ rec.spentHeight = some height}) ∧
    ∀ ph, ∃ o, s.getUnspentLineageInfoForPuzzleHash ph = .ok o ∧ ∀ info, o = some info ↔
      ∃ rec, {r | r ∈ s.storedRecords ∧ r.coin.puzzleHash = ph ∧ r.spentHeight = none} = {rec} ∧
        info.coinId = rec.coinId ∧ info.parentId = rec.coin.parentCoinInfo ∧
        s.ParentsParent rec info.parentParentId := by
  obtain ⟨m, hm, _⟩ : s.Follows (.all U hU) _ := h.represents
  have hscope : ∀ cf ∈ coinFamilies, cf ∈ (Scope.all U hU).cfs := fun _ hcf => hcf
  refine ⟨fun inc ph st en => ?_, fun inc p st en => ?_, fun height => ?_, fun height => ?_,
    hm.lineage_spec (hscope _ (by decide))⟩
  · refine hm.lists_pushIndexed (by decide) (hscope _ (by decide)) ph.length_bytes rfl
      (fun rec hrec => hrec.1) fun rec hrec => ?_
    rw [CoinStore.indexHead, Option.some.injEq, Bytes32.bytes_inj, CoinStore.inHeights_iff]
    exact (and_iff_right hrec).symm
  · have hone : s.getCoinRecordsByParentIds inc [p] st en =
        s.pushIndexed .coinByParent 32 (CoinStore.inHeights inc st en) [] p.bytes := bind_pure _
    rw [hone]
    refine hm.lists_pushIndexed (by decide) (hscope _ (by decide)) p.length_bytes rfl
      (fun rec hrec => hrec.1) fun rec hrec => ?_
    rw [CoinStore.indexHead, Option.some.injEq, Bytes32.bytes_inj, CoinStore.inHeights_iff]
    exact (and_iff_right hrec).symm
  · refine hm.lists_pushIndexed (by decide) (hscope _ (by decide)) (FixedInt.length_toBeBytes height)
      rfl (fun rec hrec => hrec.1) fun rec hrec => ?_
    rw [CoinStore.indexHead, Option.some.injEq, FixedInt.toBeBytes_inj, and_iff_left rfl]
    exact (and_iff_right hrec).symm
  · rw [CoinStore.getCoinsRemovedAtHeight]
    split
    · next hzero =>
      refine ⟨[], rfl, List.nodup_nil, fun rec => ⟨fun hrec => (nomatch hrec), fun hrec => ?_⟩⟩
      obtain ⟨hlt, _⟩ := hm.lives.spent (hm.mem_storedRecords.1 hrec.1) hrec.2
      rw [hzero] at hlt
      exact absurd hlt (Nat.not_lt_zero _)
    · refine hm.lists_pushIndexed (by decide) (hscope _ (by decide))
        (FixedInt.length_toBeBytes height) rfl (fun rec hrec => hrec.1) fun rec hrec => ?_
      rw [CoinStore.indexHead, Option.map_eq_some_iff, and_iff_left rfl]
      constructor
      · rintro ⟨sh, hs, heq⟩
        exact ⟨hrec, hs.trans (congrArg some (FixedInt.toBeBytes_inj.1 heq))⟩
      · rintro ⟨_, hs⟩
        exact ⟨height, hs, rfl⟩

end DigCoinstore

namespace DigCoinstore

open Sample

/-- Block one spends coin 2, a child of coin 1, and has the rewards 3 and 4. -/
theorem index_queries_afterOne :
    CoinStore.Lists (afterOne.getCoinRecordsByPuzzleHash true (ofNum 2) 0 1)
      {rec | rec ∈ afterOne.storedRecords ∧ rec.coin.puzzleHash = ofNum 2 ∧
        (true = false → rec.isSpent = false) ∧ 0 ≤ rec.confirmedHeight ∧ rec.confirmedHeight ≤ 1} ∧
    CoinStore.Lists (afterOne.getCoinRecordsByParentIds false [ofNum 1] 0 1)
      {rec | rec ∈ afterOne.storedRecords ∧ rec.coin.parentCoinInfo = ofNum 1 ∧
        (false = false → rec.isSpent = false) ∧ 0 ≤ rec.confirmedHeight ∧ rec.confirmedHeight ≤ 1} ∧
    CoinStore.Lists (afterOne.getCoinsAddedAtHeight 1)
      {rec | rec ∈ afterOne.storedRecords ∧ rec.confirmedHeight = 1} ∧
    CoinStore.Lists (afterOne.getCoinsRemovedAtHeight 1)
      {rec | rec ∈ afterOne.storedRecords ∧ rec.spentHeight = some 1} ∧
    ∃ o, afterOne.getUnspentLineageInfoForPuzzleHash (ofNum 1) = .ok o ∧ ∀ info, o = some info ↔
      ∃ rec, {r | r ∈ afterOne.storedRecords ∧ r.coin.puzzleHash = ofNum 1 ∧
          r.spentHeight = none} = {rec} ∧
        info.coinId = rec.coinId ∧ info.parentId = rec.coin.parentCoinInfo ∧
        afterOne.ParentsParent rec info.parentParentId := by
  obtain ⟨hph, hparent, hadded, hremoved, hlineage⟩ := reachable_afterOne.index_queries coinId_injOn
  exact ⟨hph true (ofNum 2) 0 1, hparent false (ofNum 1) 0 1, hadded 1, hremoved 1, hlineage (ofNum 1)⟩

end DigCoinstore
