import DigCoinstore.Lib.Mirror
import DigCoinstore.Coinset

/-!
# The rows of a coin

`coinRow cf id rec`: the row that a coin's record has in a column family, if it has one. The
writers of the store stage groups of operations for one coin each; each group, applied to the
tables, replaces the rows of that coin and leaves every other row alone (`Indexes.create`,
`spend`, `delete`, `unspend`).
-/

namespace DigCoinstore

/-- **The row of a record** in a column family. -/
def coinRow (cf : ColumnFamily) (id : CoinId) (rec : CoinRecord) : Option KvPair :=
  match cf with
  | .coinRecords => some (coinKey id, serializeCoinRecordStorageBytes rec)
  | .coinByPuzzleHash => some (puzzleHashCoinKey rec.coin.puzzleHash id, id.bytes)
  | .unspentByPuzzleHash =>
    if rec.spentHeight.isNone then some (puzzleHashCoinKey rec.coin.puzzleHash id, []) else none
  | .coinByParent => some (parentCoinKey rec.coin.parentCoinInfo id, id.bytes)
  | .coinByConfirmedHeight => some (heightCoinKey rec.confirmedHeight id, id.bytes)
  | .coinBySpentHeight => rec.spentHeight.map fun h => (heightCoinKey h id, id.bytes)
  | _ => none

/-- The families whose keys do not depend on the coin behind the id. -/
def lifeFamilies : List ColumnFamily := [.coinRecords, .coinByConfirmedHeight, .coinBySpentHeight]

/-- All families that hold coins. -/
def coinFamilies : List ColumnFamily :=
  [.coinRecords, .coinByPuzzleHash, .unspentByPuzzleHash, .coinByParent, .coinByConfirmedHeight,
    .coinBySpentHeight]

/-- The families of coins hold no hints and no metadata. -/
theorem ne_of_mem_coinFamilies {cf : ColumnFamily} (h : cf ∈ coinFamilies) :
    cf ≠ .hints ∧ cf ≠ .hintsByValue ∧ cf ≠ .metadata := by
  simp only [coinFamilies, List.mem_cons, List.not_mem_nil, or_false] at h
  rcases h with rfl | rfl | rfl | rfl | rfl | rfl <;> decide

/-- A row's key ends with the id. -/
theorem coinRow_key {cf : ColumnFamily} {id : CoinId} {rec : CoinRecord} {k v : Bytes}
    (h : coinRow cf id rec = some (k, v)) : ∃ pre, k = pre ++ id.bytes := by
  cases cf <;> simp only [coinRow, Option.some.injEq, Prod.mk.injEq, reduceCtorEq,
    Option.map_eq_some_iff] at h
  case coinRecords => exact ⟨[], h.1.symm⟩
  case coinByPuzzleHash => exact ⟨_, h.1.symm⟩
  case unspentByPuzzleHash =>
    split at h
    · exact ⟨_, (Prod.mk.inj (Option.some.inj h)).1.symm⟩
    · cases h
  case coinByParent => exact ⟨_, h.1.symm⟩
  case coinByConfirmedHeight => exact ⟨_, h.1.symm⟩
  case coinBySpentHeight =>
    obtain ⟨_, _, hk, _⟩ := h
    exact ⟨_, hk.symm⟩

theorem keyedById_coinRow (cf : ColumnFamily) : KeyedById (coinRow cf) := by
  intro id id' r r' k v v' h h'
  obtain ⟨pre, hk⟩ := coinRow_key h
  obtain ⟨pre', hk'⟩ := coinRow_key h'
  rw [hk] at hk'
  exact Bytes32.ext (List.append_inj_right' hk' (by simp))

/-- The tables `t` hold exactly the rows of the coin set in the families `cfs`. -/
def Indexes (cfs : List ColumnFamily) (t : Tables) (m : Coinset) : Prop :=
  ∀ cf ∈ cfs, Mirrors (fun k => (t cf)[k]?) (coinRow cf) m

/-- Both records have their rows under the same keys. -/
def SameKeys (cf : ColumnFamily) (id : CoinId) (rec rec' : CoinRecord) : Prop :=
  ∀ k, HasRow (coinRow cf) id (some rec) k → HasRow (coinRow cf) id (some rec') k

/-! ## What a group of operations writes -/

theorem ops_stageDeletion (batch : WriteBatch) (id : CoinId) (rec : CoinRecord) :
    (stageDeletion batch id rec).ops = batch.ops ++ (stageDeletion .new id rec).ops := by
  cases h : rec.spentHeight <;> simp [stageDeletion, h]

/-- The keys a deletion drops in a family. -/
def deletedKeys (cf : ColumnFamily) (id : CoinId) (rec : CoinRecord) : List Bytes :=
  match cf with
  | .coinRecords => [coinKey id]
  | .coinByPuzzleHash | .unspentByPuzzleHash => [puzzleHashCoinKey rec.coin.puzzleHash id]
  | .coinByParent => [parentCoinKey rec.coin.parentCoinInfo id]
  | .coinByConfirmedHeight => [heightCoinKey rec.confirmedHeight id]
  | .coinBySpentHeight => (rec.spentHeight.map fun sh => heightCoinKey sh id).toList
  | _ => []

theorem stageDeletion_get (t : Tables) (id : CoinId) (rec : CoinRecord) (cf : ColumnFamily)
    (k : Bytes) :
    (t.applyOps (stageDeletion .new id rec).ops cf)[k]? =
      if k ∈ deletedKeys cf id rec then none else (t cf)[k]? := by
  cases h : rec.spentHeight <;> cases cf <;>
    simp [stageDeletion, deletedKeys, h, Tables.applyOp, Tables.delete_get, eq_comm (a := k)]

theorem deletedKeys_own {cf : ColumnFamily} {id : CoinId} {rec : CoinRecord} {k : Bytes}
    (h : k ∈ deletedKeys cf id rec) : ∃ pre, k = pre ++ id.bytes := by
  cases cf <;> simp only [deletedKeys, List.mem_singleton, List.not_mem_nil] at h
  case coinRecords => exact ⟨[], h⟩
  case coinBySpentHeight =>
    obtain ⟨sh, _, rfl⟩ := by simpa using h
    exact ⟨_, rfl⟩
  all_goals exact ⟨_, h⟩

theorem deletedKeys_cover {cf : ColumnFamily} {id : CoinId} {rec : CoinRecord} {k : Bytes}
    (h : HasRow (coinRow cf) id (some rec) k) : k ∈ deletedKeys cf id rec := by
  obtain ⟨rec', v, hrec, hrow⟩ := h
  obtain rfl := Option.some.inj hrec
  cases cf <;> simp_all [coinRow, deletedKeys]
  obtain ⟨sh, hs, rfl, _⟩ := hrow
  exact ⟨sh, hs, rfl⟩

/-- A key that ends with an id belongs to that id. -/
theorem own_of_append {cf : ColumnFamily} {id id' : CoinId} {rec : CoinRecord} {k v pre : Bytes}
    (hk : k = pre ++ id.bytes) (h : coinRow cf id' rec = some (k, v)) : id' = id := by
  obtain ⟨pre', hk'⟩ := coinRow_key h
  rw [hk] at hk'
  exact (Bytes32.ext (List.append_inj_right' hk' (by simp))).symm

theorem ops_stageUnspend (batch : WriteBatch) (id : CoinId) (rec : CoinRecord) (spentKey : Bytes) :
    (stageUnspend batch id rec spentKey).ops =
      batch.ops ++ (stageUnspend .new id rec spentKey).ops := by
  simp [stageUnspend]

namespace Indexes

variable {cfs : List ColumnFamily} {t : Tables} {m : Coinset}

/-- Tables without rows hold the rows of no coin. -/
theorem blank (h : ∀ cf ∈ cfs, ∀ k : Bytes, (t cf)[k]? = none) : Indexes cfs t .empty :=
  fun cf hcf => by
    simp only [h cf hcf]
    exact Mirrors.empty (coinRow cf)

/-- A deletion drops the rows of the id; on an id without a record it changes nothing. -/
theorem delete (h : Indexes cfs t m) {id : CoinId} {rec : CoinRecord}
    (hm : ∀ old, m id = some old → old = rec) :
    Indexes cfs (t.applyOps (stageDeletion .new id rec).ops) (Function.update m id none) := by
  intro cf hcf
  refine (h cf hcf).replace (keyedById_coinRow cf) id none (deletedKeys cf id rec) (fun k => ?_)
    (fun k hk => .inl ?_) (fun k hk id' r v hr => ?_)
  · by_cases hk : k ∈ deletedKeys cf id rec <;> simp [stageDeletion_get, hk]
  · obtain ⟨old, v, ho, hrow⟩ := hk
    obtain rfl := hm old ho
    exact deletedKeys_cover ⟨old, v, rfl, hrow⟩
  · obtain ⟨pre, hpre⟩ := deletedKeys_own hk
    exact own_of_append hpre hr

/-- An un-spend replaces the rows of the spent record by those of the live one. -/
theorem unspend (h : Indexes cfs t m) {id : CoinId} {old rec : CoinRecord} {sh : UInt64}
    (hm : m id = some old) (hcoin : old.coin = rec.coin)
    (hconf : old.confirmedHeight = rec.confirmedHeight) (hsh : old.spentHeight = some sh)
    (hlive : rec.spentHeight = none) :
    Indexes cfs (t.applyOps (stageUnspend .new id rec (heightCoinKey sh id)).ops)
      (Function.update m id (some rec)) := by
  intro cf hcf
  have hmir := h cf hcf
  have hkey := keyedById_coinRow cf
  have hops : ∀ k, (t.applyOps (stageUnspend .new id rec (heightCoinKey sh id)).ops cf)[k]? =
      match cf with
      | .coinRecords => if coinKey id = k then some (serializeCoinRecordStorageBytes rec)
          else (t cf)[k]?
      | .unspentByPuzzleHash => if puzzleHashCoinKey rec.coin.puzzleHash id = k then some []
          else (t cf)[k]?
      | .coinBySpentHeight => if heightCoinKey sh id = k then none else (t cf)[k]?
      | _ => (t cf)[k]? := fun k => by
    cases cf <;> simp [stageUnspend, Tables.applyOp, Tables.put_get, Tables.delete_get]
  simp only [hops]
  cases cf with
  | coinRecords =>
    refine hmir.replace hkey id (some rec) [] (by simp [coinRow]) (fun k hk => .inr ?_) (by simp)
    obtain ⟨old', v, _, hrow⟩ := hk
    simp only [coinRow, Option.some.injEq, Prod.mk.injEq] at hrow
    exact ⟨rec, serializeCoinRecordStorageBytes rec, rfl, by simp [coinRow, hrow.1]⟩
  | unspentByPuzzleHash =>
    refine hmir.replace hkey id (some rec) [] (by simp [coinRow, hlive]) (fun k hk => .inr ?_)
      (by simp)
    obtain ⟨old', v, ho, hrow⟩ := hk
    obtain rfl : old = old' := by simpa [hm] using ho
    simp [coinRow, hsh] at hrow
  | coinBySpentHeight =>
    have hrow : coinRow .coinBySpentHeight id rec = none := by simp [coinRow, hlive]
    refine hmir.replace hkey id (some rec) [heightCoinKey sh id]
      (fun k => by simp [hrow, eq_comm (a := k)]) (fun k hk => .inl ?_) (fun k hk id' r v hr => ?_)
    · obtain ⟨old', v, ho, hrow⟩ := hk
      obtain rfl : old = old' := by simpa [hm] using ho
      simp only [coinRow, hsh, Option.map_some, Option.some.injEq, Prod.mk.injEq] at hrow
      simp [hrow.1]
    · exact own_of_append (List.mem_singleton.1 hk) hr
  | coinByPuzzleHash => exact hmir.same hkey hm (by simp [coinRow, hcoin])
  | coinByParent => exact hmir.same hkey hm (by simp [coinRow, hcoin])
  | coinByConfirmedHeight => exact hmir.same hkey hm (by simp [coinRow, hconf])
  | _ => exact hmir.same hkey hm rfl

/-- Deleting a spent-height key of an id that has none changes nothing. -/
theorem skip (h : Indexes cfs t m) {id : CoinId} {pre : Bytes}
    (hm : ∀ rec, m id = some rec → rec.spentHeight = none) :
    Indexes cfs (t.applyOps [.delete .coinBySpentHeight (pre ++ id.bytes)]) m := by
  intro cf hcf k v
  rw [← h cf hcf k v]
  have hget : (t.applyOps [.delete .coinBySpentHeight (pre ++ id.bytes)] cf)[k]? =
      if .coinBySpentHeight = cf ∧ pre ++ id.bytes = k then none else (t cf)[k]? :=
    Tables.delete_get ..
  simp only [hget]
  split
  · next heq =>
    obtain ⟨rfl, rfl⟩ := heq
    refine iff_of_false (by simp) fun hv => ?_
    obtain ⟨id', rec, hrec, hrow⟩ := (h _ hcf _ _).1 hv
    obtain rfl := own_of_append rfl hrow
    simp [coinRow, hm rec hrec] at hrow
  · rfl

end Indexes

variable [Chia]

theorem ops_stageCreation (batch : WriteBatch) (rec : CoinRecord) :
    (stageCreation batch rec).ops = batch.ops ++ (stageCreation .new rec).ops := by
  cases h : rec.spentHeight <;> simp [stageCreation, appendCoinRecordToBatch, h]

theorem ops_stageSpend (height : UInt64) (batch : WriteBatch) (rec : CoinRecord) :
    (stageSpend height batch rec).ops = batch.ops ++ (stageSpend height .new rec).ops := by
  simp [stageSpend]

/-- A creation writes the rows of the record and nothing else. -/
theorem stageCreation_get (t : Tables) (rec : CoinRecord) (cf : ColumnFamily) (k : Bytes) :
    (t.applyOps (stageCreation .new rec).ops cf)[k]? =
      match coinRow cf rec.coinId rec with
      | some (k', v) => if k' = k then some v else (t cf)[k]?
      | none => (t cf)[k]? := by
  cases h : rec.spentHeight <;> cases cf <;>
    simp [stageCreation, appendCoinRecordToBatch, coinRow, h, Tables.applyOp, Tables.put_get]

/-! ## One coin's rows replaced -/

namespace Indexes

variable {cfs : List ColumnFamily} {t : Tables} {m : Coinset}

/-- A new record, or one under the keys of the old, replaces the rows of its id. -/
theorem create (h : Indexes cfs t m) {rec : CoinRecord}
    (hold : ∀ old, m rec.coinId = some old → ∀ cf ∈ cfs, SameKeys cf rec.coinId old rec) :
    Indexes cfs (t.applyOps (stageCreation .new rec).ops) (m.put rec) := by
  intro cf hcf
  refine (h cf hcf).replace (keyedById_coinRow cf) rec.coinId (some rec) [] (fun k => ?_)
    (fun k hk => .inr ?_) (by simp)
  · rw [stageCreation_get, Option.bind_some]
    cases coinRow cf rec.coinId rec <;> simp
  · obtain ⟨old, v, ho, hrow⟩ := hk
    exact hold old ho cf hcf k ⟨old, v, rfl, hrow⟩

/-- A spend replaces the rows of the record by those of the spent record. -/
theorem spend (h : Indexes cfs t m) {old rec : CoinRecord} {height : UInt64}
    (hm : m rec.coinId = some old) (hcoin : old.coin = rec.coin)
    (hconf : old.confirmedHeight = rec.confirmedHeight) (hsp : rec.spentHeight = some height)
    (hold : ∀ sh, old.spentHeight = some sh → sh = height) :
    Indexes cfs (t.applyOps (stageSpend height .new rec).ops) (m.put rec) := by
  intro cf hcf
  have hmir := h cf hcf
  have hkey := keyedById_coinRow cf
  have hops : ∀ k, (t.applyOps (stageSpend height .new rec).ops cf)[k]? =
      match cf with
      | .coinRecords => if coinKey rec.coinId = k then some (serializeCoinRecordStorageBytes rec)
          else (t cf)[k]?
      | .unspentByPuzzleHash => if puzzleHashCoinKey rec.coin.puzzleHash rec.coinId = k then none
          else (t cf)[k]?
      | .coinBySpentHeight => if heightCoinKey height rec.coinId = k then some rec.coinId.bytes
          else (t cf)[k]?
      | _ => (t cf)[k]? := fun k => by
    cases cf <;> simp [stageSpend, Tables.applyOp, Tables.put_get, Tables.delete_get]
  simp only [hops]
  cases cf with
  | coinRecords =>
    refine hmir.replace hkey rec.coinId (some rec) [] (by simp [coinRow]) (fun k hk => .inr ?_) (by simp)
    obtain ⟨old', v, _, hrow⟩ := hk
    simp only [coinRow, Option.some.injEq, Prod.mk.injEq] at hrow
    exact ⟨rec, serializeCoinRecordStorageBytes rec, rfl, by simp [coinRow, hrow.1]⟩
  | unspentByPuzzleHash =>
    have hrow : coinRow .unspentByPuzzleHash rec.coinId rec = none := by simp [coinRow, hsp]
    refine hmir.replace hkey rec.coinId (some rec) [puzzleHashCoinKey rec.coin.puzzleHash rec.coinId]
      (fun k => by simp [hrow, eq_comm (a := k)]) (fun k hk => .inl ?_) (fun k hk id' r v hr => ?_)
    · obtain ⟨old', v, ho, hrow⟩ := hk
      obtain rfl : old = old' := by simpa [hm] using ho
      simp only [coinRow] at hrow
      split at hrow
      · simp_all
      · cases hrow
    · exact own_of_append (List.mem_singleton.1 hk) hr
  | coinBySpentHeight =>
    refine hmir.replace hkey rec.coinId (some rec) [] (by simp [coinRow, hsp]) (fun k hk => .inr ?_)
      (by simp)
    obtain ⟨old', v, ho, hrow⟩ := hk
    obtain rfl : old = old' := by simpa [hm] using ho
    simp only [coinRow, Option.map_eq_some_iff, Prod.mk.injEq] at hrow
    obtain ⟨sh, hs, rfl, rfl⟩ := hrow
    obtain rfl := hold sh hs
    exact ⟨rec, rec.coinId.bytes, rfl, by simp [coinRow, hsp]⟩
  | coinByPuzzleHash => exact hmir.same hkey hm (by simp [coinRow, hcoin])
  | coinByParent => exact hmir.same hkey hm (by simp [coinRow, hcoin])
  | coinByConfirmedHeight => exact hmir.same hkey hm (by simp [coinRow, hconf])
  | _ => exact hmir.same hkey hm rfl

end Indexes

end DigCoinstore
