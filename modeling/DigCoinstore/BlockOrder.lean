import Mathlib.Data.List.Perm.Basic
import DigCoinstore.SnapshotFacts
import DigCoinstore.History
import DigCoinstore.Sample

/-!
# The order of a block's lists

The writes of two coins of a block, or of two of its hints, never disagree on a row, so they may
be staged in any order (`applyOps_stageAll_perm`), and the checks of a block do not look at the
order either. Two blocks that differ in the order of their lists are both accepted or both
rejected, and lead to the same rows, root and unspent set (`Reachable.applyBlock_order`).
-/

namespace DigCoinstore

/-! ## Writes that commute -/

namespace Tables

/-- The row an operation writes. -/
def opRow : WriteOp → ColumnFamily × Bytes
  | .put cf key _ => (cf, key)
  | .delete cf key => (cf, key)

/-- Operations of the two lists on one row are the same. -/
def Compatible (ops ops' : List WriteOp) : Prop :=
  ∀ op ∈ ops, ∀ op' ∈ ops', opRow op = opRow op' → op = op'

theorem applyOp_get (t : Tables) (op : WriteOp) (cf : ColumnFamily) (k : Bytes) :
    (t.applyOp op cf)[k]? = if opRow op = (cf, k) then
      (match op with | .put _ _ value => some value | .delete _ _ => none) else (t cf)[k]? := by
  cases op with
  | put cf' key value => simp [applyOp, opRow, put_get]
  | delete cf' key => simp [applyOp, opRow, delete_get]

theorem applyOp_comm (t : Tables) {op op' : WriteOp} (h : opRow op = opRow op' → op = op') :
    (t.applyOp op).applyOp op' = (t.applyOp op').applyOp op := by
  by_cases hrow : opRow op = opRow op'
  · rw [h hrow]
  · funext cf
    refine Std.ExtTreeMap.ext_getElem? fun k => ?_
    rw [applyOp_get, applyOp_get, applyOp_get, applyOp_get]
    by_cases hop : opRow op = (cf, k)
    · have hop' : opRow op' ≠ (cf, k) := fun hop' => hrow (hop.trans hop'.symm)
      rw [if_neg hop', if_pos hop, if_pos hop]
    · rw [if_neg hop, if_neg hop]

theorem applyOps_applyOp_comm {op : WriteOp} : ∀ (ops : List WriteOp) (t : Tables),
    (∀ op' ∈ ops, opRow op = opRow op' → op = op') →
    (t.applyOp op).applyOps ops = (t.applyOps ops).applyOp op
  | [], _, _ => rfl
  | op' :: ops, t, h => by
    rw [applyOps_cons, applyOps_cons, applyOp_comm t (h op' (.head _)),
      applyOps_applyOp_comm ops _ fun op'' hop => h op'' (.tail _ hop)]

/-- Compatible groups of operations commute. -/
theorem applyOps_comm (ops' : List WriteOp) : ∀ (ops : List WriteOp) (t : Tables),
    Compatible ops ops' → (t.applyOps ops).applyOps ops' = (t.applyOps ops').applyOps ops
  | [], _, _ => rfl
  | op :: ops, t, h => by
    rw [applyOps_cons, applyOps_comm ops' ops _ fun o ho => h o (.tail _ ho),
      applyOps_applyOp_comm ops' t (h op (.head _)), applyOps_cons]

end Tables

/-- **A staging loop** whose groups are compatible may take its list in any order. -/
theorem applyOps_stageAll_perm {α : Type} {stage : WriteBatch → α → WriteBatch}
    (hstage : ∀ batch a, (stage batch a).ops = batch.ops ++ (stage .new a).ops) {l l' : List α}
    (hperm : l.Perm l')
    (h : ∀ a ∈ l, ∀ b ∈ l, Tables.Compatible (stage .new a).ops (stage .new b).ops) (t : Tables) :
    t.applyOps (l.foldl stage .new).ops = t.applyOps (l'.foldl stage .new).ops := by
  rw [← foldl_applyOps_stage hstage, ← foldl_applyOps_stage hstage]
  exact hperm.foldl_eq' (fun a ha b hb t => Tables.applyOps_comm _ _ t (h a ha b hb)) t

/-! ## The rows of one coin -/

/-- The operations are on different tables, under keys that end with the id. -/
structure OwnRows (id : CoinId) (ops : List WriteOp) : Prop where
  keys : ∀ op ∈ ops, ∃ head, (Tables.opRow op).2 = head ++ id.bytes
  tables : ∀ op ∈ ops, ∀ op' ∈ ops, (Tables.opRow op).1 = (Tables.opRow op').1 → op = op'

/-- The rows of different coins are different rows. -/
theorem OwnRows.compatible {id id' : CoinId} {ops ops' : List WriteOp} (h : OwnRows id ops)
    (h' : OwnRows id' ops') (heq : id = id' → ops = ops') : Tables.Compatible ops ops' := by
  intro op hop op' hop' hrow
  obtain ⟨head, hkey⟩ := h.keys op hop
  obtain ⟨head', hkey'⟩ := h'.keys op' hop'
  have hbytes : head ++ id.bytes = head' ++ id'.bytes := by rw [← hkey, ← hkey', hrow]
  have hlen : id.bytes.length = id'.bytes.length := id.length_bytes.trans id'.length_bytes.symm
  have hid : id = id' := Bytes32.ext (List.append_inj' hbytes hlen).2
  rw [← heq hid] at hop'
  exact h.tables op hop op' hop' (congrArg Prod.fst hrow)

variable [Chia]

theorem ownRows_stageSpend (height : UInt64) (rec : CoinRecord) :
    OwnRows rec.coinId (stageSpend height .new rec).ops where
  keys := by simp [stageSpend, Tables.opRow, coinKey, puzzleHashCoinKey, heightCoinKey]
  tables := by simp [stageSpend, Tables.opRow]

theorem ownRows_stageCreation {rec : CoinRecord} (hlive : rec.spentHeight = none) :
    OwnRows rec.coinId (stageCreation .new rec).ops where
  keys := by
    simp [stageCreation, appendCoinRecordToBatch, hlive, Tables.opRow, coinKey, puzzleHashCoinKey,
      parentCoinKey, heightCoinKey]
  tables := by simp [stageCreation, appendCoinRecordToBatch, hlive, Tables.opRow]

omit [Chia] in
/-- Hint rows have empty values, so two of them never disagree. -/
theorem compatible_stageHint (hint hint' : CoinId × Bytes32) :
    Tables.Compatible (stageHint .new hint).ops (stageHint .new hint').ops := by
  have hput : ∀ (hint : CoinId × Bytes32), ∀ op ∈ (stageHint .new hint).ops,
      op = .put (Tables.opRow op).1 (Tables.opRow op).2 [] := by
    intro hint op hop
    by_cases hz : hint.2 = .zero
    · simp [stageHint, hz] at hop
    · simp only [stageHint, if_neg hz, WriteBatch.ops_put, WriteBatch.ops_new, List.nil_append,
        List.cons_append, List.mem_cons, List.not_mem_nil, or_false] at hop
      rcases hop with rfl | rfl <;> rfl
  intro op hop op' hop' hrow
  rw [hput hint op hop, hput hint' op' hop', hrow]

/-! ## The coin set -/

/-- Records that agree where they share an id may be put in any order. -/
theorem Coinset.putAll_perm (m : Coinset) {recs recs' : List CoinRecord} (hperm : recs.Perm recs')
    (h : ∀ rec ∈ recs, ∀ rec' ∈ recs, rec.coinId = rec'.coinId → rec = rec') :
    m.putAll recs = m.putAll recs' := by
  refine hperm.foldl_eq' (fun rec hrec rec' hrec' m => ?_) m
  by_cases hid : rec.coinId = rec'.coinId
  · rw [h rec hrec rec' hrec' hid]
  · exact Function.update_comm hid _ _ m

/-! ## Reordered blocks -/

namespace BlockData

/-- The blocks differ in the order of their lists only. -/
structure SameUpToOrder (block block' : BlockData) : Prop where
  height : block.height = block'.height
  timestamp : block.timestamp = block'.timestamp
  blockHash : block.blockHash = block'.blockHash
  parentHash : block.parentHash = block'.parentHash
  additions : block.additions.Perm block'.additions
  removals : block.removals.Perm block'.removals
  coinbaseCoins : block.coinbaseCoins.Perm block'.coinbaseCoins
  hints : block.hints.Perm block'.hints
  expectedStateRoot : block.expectedStateRoot = block'.expectedStateRoot

variable {block block' : BlockData}

omit [Chia] in
theorem SameUpToOrder.symm (h : block.SameUpToOrder block') : block'.SameUpToOrder block :=
  ⟨h.height.symm, h.timestamp.symm, h.blockHash.symm, h.parentHash.symm, h.additions.symm,
    h.removals.symm, h.coinbaseCoins.symm, h.hints.symm, h.expectedStateRoot.symm⟩

theorem SameUpToOrder.honest (h : block.SameUpToOrder block') (hhonest : block.Honest) :
    block'.Honest := fun a ha => hhonest a (h.additions.mem_iff.2 ha)

theorem SameUpToOrder.claimedIds (h : block.SameUpToOrder block') :
    block.claimedIds.Perm block'.claimedIds :=
  (h.additions.map _).append (h.coinbaseCoins.map _)

omit [Chia] in
theorem SameUpToOrder.createdRecords (h : block.SameUpToOrder block') :
    (createdRecords block).Perm (createdRecords block') := by
  have hcoinbase : coinbaseRecord block = coinbaseRecord block' := by
    funext coin
    simp only [coinbaseRecord, h.height, h.timestamp]
  have haddition : additionRecord block = additionRecord block' := by
    funext addition
    simp only [additionRecord, h.height, h.timestamp]
  rw [DigCoinstore.createdRecords, DigCoinstore.createdRecords, hcoinbase, haddition]
  exact (h.coinbaseCoins.map _).append (h.additions.map _)

/-- The ids of the records an honest block creates are those it claims. -/
theorem Honest.createdRecords_ids (h : block.Honest) :
    ((DigCoinstore.createdRecords block).map CoinRecord.coinId).Perm block.claimedIds := by
  have hcoinbase : (block.coinbaseCoins.map (coinbaseRecord block)).map CoinRecord.coinId =
      block.coinbaseCoins.map Chia.coinId := by
    rw [List.map_map]
    rfl
  have haddition : (block.additions.map (additionRecord block)).map CoinRecord.coinId =
      block.additions.map (·.coinId) := by
    rw [List.map_map]
    refine List.map_congr_left fun a ha => ?_
    rw [h a ha]
    cases hsame : a.sameAsParent <;>
      simp [additionRecord, hsame, CoinRecord.new, CoinRecord.coinId]
  rw [DigCoinstore.createdRecords, List.map_append, hcoinbase, haddition]
  exact List.perm_append_comm

end BlockData

namespace CoinStore

variable {S : Scope} {s : CoinStore} {m : Coinset} {block block' : BlockData}
  {removed removed' : List CoinRecord}

namespace Applicable

/-- A block that fits still fits when its lists are reordered. -/
theorem reorder (ha : s.Applicable m block removed) (h : block.SameUpToOrder block') :
    ∃ removed', removed.Perm removed' ∧ s.Applicable m block' removed' := by
  have hids : block'.removals.Perm (removed.map CoinRecord.coinId) := ha.removals ▸ h.removals.symm
  obtain ⟨removed', hremovals, hperm⟩ :=
    (congrFun₂ (List.eq_map_comp_perm CoinRecord.coinId) block'.removals removed).mpr hids
  refine ⟨removed', hperm.symm, ?_⟩
  exact {
    initialized := ha.initialized
    height_lt := ha.height_lt
    height := h.height ▸ ha.height
    parent := h.parentHash ▸ ha.parent
    rewards := h.coinbaseCoins.length_eq ▸ ha.rewards
    removals := hremovals
    live := fun rec hrec => ha.live rec (hperm.mem_iff.1 hrec)
    nodup := h.claimedIds.nodup_iff.1 ha.nodup
    claimed := fun id hid => ha.claimed id (h.claimedIds.mem_iff.2 hid)
    fresh := fun rec hrec => ha.fresh rec (h.createdRecords.mem_iff.2 hrec) }

/-- The records of the removals. -/
theorem removed_map (ha : s.Applicable m block removed) :
    block.removals.map m = removed.map some := by
  rw [ha.removals, List.map_map]
  exact List.map_congr_left fun rec hrec => (ha.live rec hrec).1

/-- Reordered removals have their records reordered. -/
theorem removed_perm (ha : s.Applicable m block removed) (ha' : s.Applicable m block' removed')
    (h : block.SameUpToOrder block') : removed.Perm removed' := by
  refine (List.map_perm_map_iff (Option.some_injective _)).1 ?_
  rw [← ha.removed_map, ← ha'.removed_map]
  exact h.removals.map m

/-- The records an honest block creates have different ids. -/
theorem created_inj (ha : s.Applicable m block removed) (hhonest : block.Honest) :
    ∀ rec ∈ createdRecords block, ∀ rec' ∈ createdRecords block, rec.coinId = rec'.coinId →
      rec = rec' :=
  List.inj_on_of_nodup_map (hhonest.createdRecords_ids.nodup_iff.2 ha.nodup)

/-- The records a block spends are those of their ids. -/
theorem spent_inj (ha : s.Applicable m block removed) :
    ∀ rec ∈ removed.map (·.spend block.height), ∀ rec' ∈ removed.map (·.spend block.height),
      rec.coinId = rec'.coinId → rec = rec' := by
  intro rec hrec rec' hrec' hid
  obtain ⟨old, hold, rfl⟩ := List.mem_map.1 hrec
  obtain ⟨old', hold', rfl⟩ := List.mem_map.1 hrec'
  have hm := (ha.live old hold).1
  rw [show old.coinId = old'.coinId from hid, (ha.live old' hold').1] at hm
  rw [Option.some.inj hm]

/-- Both blocks lead to the same coin set. -/
theorem applyBlock_reorder (ha : s.Applicable m block removed) (hhonest : block.Honest)
    (h : block.SameUpToOrder block') (hperm : removed.Perm removed') :
    m.applyBlock block removed = m.applyBlock block' removed' := by
  rw [Coinset.applyBlock, m.putAll_perm h.createdRecords (ha.created_inj hhonest),
    Coinset.putAll_perm _ (hperm.map _) ha.spent_inj, h.height, Coinset.applyBlock]

/-- **Both blocks write the same rows.** -/
theorem tables_reorder (ha : s.Applicable m block removed) (hhonest : block.Honest)
    (h : block.SameUpToOrder block') (hperm : removed.Perm removed') (tree tree' : SparseMerkleTree) :
    (s.accept block removed tree).backend.tables =
      (s.accept block' removed' tree').backend.tables := by
  have hcreated : ∀ a ∈ createdRecords block, ∀ b ∈ createdRecords block,
      Tables.Compatible (stageCreation .new a).ops (stageCreation .new b).ops := fun a hra b hrb =>
    (ownRows_stageCreation (createdRecords_cases hra).2.2).compatible
      (ownRows_stageCreation (createdRecords_cases hrb).2.2) fun hid => by
        rw [ha.created_inj hhonest a hra b hrb hid]
  have hspent : ∀ a ∈ removed.map (·.spend block.height), ∀ b ∈ removed.map (·.spend block.height),
      Tables.Compatible (stageSpend block.height .new a).ops (stageSpend block.height .new b).ops :=
    fun a hra b hrb => (ownRows_stageSpend block.height a).compatible
      (ownRows_stageSpend block.height b) fun hid => by rw [ha.spent_inj a hra b hrb hid]
  simp only [accept]
  rw [ops_stageTip, ops_stageTip (stageBlock block' _ _), Tables.applyOps_append,
    Tables.applyOps_append, applyOps_stageBlock, applyOps_stageBlock,
    applyOps_stageAll_perm ops_stageCreation h.createdRecords hcreated,
    applyOps_stageAll_perm (ops_stageSpend block.height) (hperm.map _) hspent,
    applyOps_stageAll_perm ops_stageHint h.hints fun a _ b _ => compatible_stageHint a b,
    h.height, h.blockHash, h.timestamp]

end Applicable

/-- The unspent sets are the same. -/
theorem unspentIds_reorder (ha : s.Applicable m block removed) (ha' : s.Applicable m block' removed')
    (h : block.SameUpToOrder block') (tree tree' : SparseMerkleTree) :
    (s.accept block removed tree).unspentIds = (s.accept block' removed' tree').unspentIds := by
  refine Finset.ext fun id => ?_
  rw [mem_accept_unspentIds ha, mem_accept_unspentIds ha', h.removals.mem_iff,
    h.claimedIds.mem_iff]

/-- An accepted block is accepted in every order of its lists, with the same outcome. -/
theorem Represents.applyBlock_reorder (hr : s.Represents S m) (hhonest : block.Honest)
    (hcoins : ∀ c ∈ block.coins, c ∈ S.coins) (hcoins' : ∀ c ∈ block'.coins, c ∈ S.coins)
    (h : block.SameUpToOrder block') {s₁ : CoinStore} {result : ApplyBlockResult}
    (happ : s.applyBlock block = (s₁, .ok result)) :
    ∃ s₁', s.applyBlock block' = (s₁', .ok result) ∧ s₁'.backend.tables = s₁.backend.tables ∧
      s₁'.stateRoot.1 = s₁.stateRoot.1 ∧ s₁'.unspentIds = s₁.unspentIds := by
  obtain ⟨removed, tree, ha, htree, rfl, hroot, rfl⟩ := hr.of_accepted happ
  have hroots : ∀ {removed' : List CoinRecord} {tree' : SparseMerkleTree},
      s.Applicable m block' removed' → TreeOf tree' (m.applyBlock block' removed') →
        tree'.fullRoot = tree.fullRoot := fun ha' htree' => by
    rw [← ha.applyBlock_reorder hhonest h (ha.removed_perm ha' h)] at htree'
    exact htree'.fullRoot_eq htree
  have hout := hr.applyBlock_outcome block'
  generalize s.applyBlock block' = outcome at hout ⊢
  cases hout with
  | rejected hnot =>
    obtain ⟨removed', _, ha'⟩ := ha.reorder h
    exact absurd ha' (hnot removed')
  | mismatched ha' htree' _ hexp hne =>
    exact absurd ((hroot _ (h.expectedStateRoot.trans hexp)).trans (hroots ha' htree').symm) hne
  | @accepted removed' tree' ha' htree' _ =>
    have hperm := ha.removed_perm ha' h
    have h₁ := hr.accept_represents hcoins ha htree
    have h₁' := hr.accept_represents hcoins' ha' htree'
    rw [← ha.applyBlock_reorder hhonest h hperm] at h₁'
    refine ⟨_, ?_, (ha.tables_reorder hhonest h hperm tree tree').symm, ?_,
      (unspentIds_reorder ha ha' h tree tree').symm⟩
    · rw [hroots ha' htree', h.createdRecords.length_eq, hperm.length_eq, h.height]
    · rw [stateRoot, stateRoot, SparseMerkleTree.root_fst h₁'.coherent,
        SparseMerkleTree.root_fst h₁.coherent, h₁'.treeOf.fullRoot_eq h₁.treeOf]

end CoinStore

/-- **A block's outcome does not depend on the order of its lists**: it is accepted in every order
or in none, and an accepted one returns the same result and leads to the same rows, root and
unspent set. -/
theorem Reachable.applyBlock_order {U : Set Coin} {P : BlockData → Prop} {s : CoinStore}
    (hs : Reachable U P s) {block block' : BlockData} (hhonest : block.Honest)
    (h : block.SameUpToOrder block') :
    (s.applyBlock block).2.isOk = (s.applyBlock block').2.isOk ∧
    ∀ s₁ result, s.applyBlock block = (s₁, .ok result) →
      ∃ s₁', s.applyBlock block' = (s₁', .ok result) ∧ s₁'.backend.tables = s₁.backend.tables ∧
        s₁'.stateRoot.1 = s₁.stateRoot.1 ∧ ∀ id, s₁'.isUnspent id = s₁.isUnspent id := by
  obtain ⟨m, hm, _⟩ := hs.life
  constructor
  · cases hres : (s.applyBlock block).2 with
    | ok result =>
      obtain ⟨s₁', happ', _⟩ := hm.applyBlock_reorder hhonest (fun _ _ => Set.mem_univ _)
        (fun _ _ => Set.mem_univ _) h (Prod.ext rfl hres)
      rw [happ']
    | error e =>
      cases hres' : (s.applyBlock block').2 with
      | error e' => rfl
      | ok result =>
        obtain ⟨s₁', happ', _⟩ := hm.applyBlock_reorder (h.honest hhonest) (fun _ _ => Set.mem_univ _)
          (fun _ _ => Set.mem_univ _) h.symm (Prod.ext rfl hres')
        rw [happ'] at hres
        cases hres
  · intro s₁ result happ
    obtain ⟨s₁', happ', htables, hroot, hids⟩ := hm.applyBlock_reorder hhonest
      (fun _ _ => Set.mem_univ _) (fun _ _ => Set.mem_univ _) h happ
    refine ⟨s₁', happ', htables, hroot, fun id => ?_⟩
    rw [CoinStore.isUnspent, CoinStore.isUnspent, hids]

end DigCoinstore

namespace DigCoinstore

open Sample

/-- Block one with its lists reversed. -/
def blockOneReversed : BlockData :=
  { blockOne with
    additions := blockOne.additions.reverse
    removals := blockOne.removals.reverse
    coinbaseCoins := blockOne.coinbaseCoins.reverse
    hints := blockOne.hints.reverse }

theorem applyBlock_order_reversed : ∃ s' result,
    genesis.applyBlock blockOne = (afterOne, .ok result) ∧
      genesis.applyBlock blockOneReversed = (s', .ok result) ∧
        s'.backend.tables = afterOne.backend.tables ∧ s'.stateRoot.1 = afterOne.stateRoot.1 ∧
          ∀ id, s'.isUnspent id = afterOne.isUnspent id := by
  have hsame : blockOne.SameUpToOrder blockOneReversed :=
    { height := rfl
      timestamp := rfl
      blockHash := rfl
      parentHash := rfl
      additions := (List.reverse_perm _).symm
      removals := (List.reverse_perm _).symm
      coinbaseCoins := (List.reverse_perm _).symm
      hints := (List.reverse_perm _).symm
      expectedStateRoot := rfl }
  obtain ⟨result, happ⟩ := accepted_one.exists_result
  obtain ⟨s', happ', hrest⟩ :=
    (reachable_genesis.applyBlock_order blockOne_fits.1 hsame).2 _ _ happ
  exact ⟨s', result, happ, happ', hrest⟩

end DigCoinstore
