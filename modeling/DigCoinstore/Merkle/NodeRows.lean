import DigCoinstore.Lib.Crash
import DigCoinstore.Merkle.Walk
import DigCoinstore.Merkle.RootOfLeaves

/-!
# The rows of the nodes on disk

A flush writes the nodes that one walk visited. After a batch of leaves, a flush and a commit the
visited nodes have their rows, and every other row is what it was (`Flushed.step_rows`).
-/

namespace DigCoinstore

variable [Chia]

namespace SparseMerkleTree

/-! ## Steps -/

inductive LeafBatch where
  | insert (entries : List (Bytes32 × Bytes32))
  | update (entries : List (Bytes32 × Bytes32))
  | remove (keys : List Bytes32)

/-- The tree after a batch; one that fails leaves it as it is. -/
def applyBatch (tree : SparseMerkleTree) : LeafBatch → SparseMerkleTree
  | .insert entries => tree.orKeep (tree.batchInsert entries)
  | .update entries => tree.orKeep (tree.batchUpdate entries)
  | .remove keys => tree.orKeep (tree.batchRemove keys)

/-- A batch of leaves, flushed into the writes `staged` of other families. -/
structure FlushStep where
  leafBatch : LeafBatch
  staged : WriteBatch
  other : .merkleNodes ∉ staged.ops.map Tables.opCf

/-- A tree and the backend it is flushed to. -/
structure Persisted where
  tree : SparseMerkleTree
  backend : Backend

namespace Persisted

def new : Persisted := ⟨.new, .fresh⟩

/-- Change the leaves, flush, commit. -/
def step (s : Persisted) (next : FlushStep) : Persisted :=
  let (tree, batch) := (s.tree.applyBatch next.leafBatch).flushToBatch next.staged
  { tree, backend := (s.backend.batchWrite batch).1 }

end Persisted

/-- The steps on an empty tree and an empty backend. -/
def persist (steps : List FlushStep) : Persisted := steps.foldl Persisted.step .new

/-! ## Subtrees -/

variable (tree : SparseMerkleTree)

/-- The subtree at `p` holds a leaf. -/
def Holds (p : List Bool) : Prop := ∃ k, tree.get k ≠ none ∧ p <+: keyBits k

/-- The hash of the subtree at `p`. -/
def subtreeHash (p : List Bool) : Bytes32 := nodeHash (leafAt tree.leaves.toList 0) p

variable {tree}

omit [Chia] in
theorem holds_iff {p : List Bool} : tree.Holds p ↔ Occupies tree.leaves.toList p := by
  constructor
  · rintro ⟨k, hk, hp⟩
    obtain ⟨v, hv⟩ := Option.ne_none_iff_exists'.1 hk
    exact ⟨(k, v), OrdMap.mem_toList.2 hv, hp⟩
  · rintro ⟨⟨k, v⟩, hkv, hp⟩
    have hv : tree.get k = some v := OrdMap.mem_toList.1 hkv
    exact ⟨k, by simp [hv], hp⟩

omit [Chia] in
theorem Holds.mono {p q : List Bool} (h : tree.Holds q) (hpq : p <+: q) : tree.Holds p := by
  obtain ⟨k, hk, hq⟩ := h
  exact ⟨k, hk, hpq.trans hq⟩

/-! ## Rows -/

/-- The row that a pending write leads to. -/
def nodeRow : MerkleNodePersistOp → Option Bytes
  | .put h => some h.bytes
  | .delete => none

omit [Chia] in
theorem ops_stageNode (batch : WriteBatch) (node : Bytes × MerkleNodePersistOp) :
    (stageNode batch node).ops = batch.ops ++ (stageNode .new node).ops := by
  obtain ⟨key, op⟩ := node
  cases op <;> rfl

omit [Chia] in
theorem stageNode_get (t : Tables) (node : Bytes × MerkleNodePersistOp) (k : Bytes) :
    (t.applyOps (stageNode .new node).ops .merkleNodes)[k]? =
      if node.1 = k then nodeRow node.2 else (t .merkleNodes)[k]? := by
  obtain ⟨key, op⟩ := node
  cases op with
  | put h =>
    exact (Tables.put_get t .merkleNodes .merkleNodes key h.bytes k).trans
      (if_congr (and_iff_right rfl) rfl rfl)
  | delete =>
    exact (Tables.delete_get t .merkleNodes .merkleNodes key k).trans
      (if_congr (and_iff_right rfl) rfl rfl)

omit [Chia] in
/-- The rows after the pending nodes have been written. -/
theorem stageNodes_get : ∀ (nodes : List (Bytes × MerkleNodePersistOp)) (t : Tables) (k : Bytes),
    (nodes.map (·.1)).Nodup →
    (∀ op, (k, op) ∈ nodes →
      (t.applyOps (nodes.foldl stageNode .new).ops .merkleNodes)[k]? = nodeRow op) ∧
    ((∀ op, (k, op) ∉ nodes) →
      (t.applyOps (nodes.foldl stageNode .new).ops .merkleNodes)[k]? = (t .merkleNodes)[k]?)
  | [], _, _, _ => ⟨fun _ h => (nomatch h), fun _ => rfl⟩
  | node :: nodes, t, k, hnd => by
    rw [List.map_cons, List.nodup_cons] at hnd
    obtain ⟨hmem, hnot⟩ := stageNodes_get nodes (t.applyOps (stageNode .new node).ops) k hnd.2
    have hhead := stageNode_get t node k
    rw [applyOps_stageAll ops_stageNode]
    constructor
    · intro op hop
      rcases List.mem_cons.1 hop with rfl | htail
      · have hrest : ∀ op', (k, op') ∉ nodes := fun op' hop' =>
          hnd.1 (List.mem_map_of_mem (f := (·.1)) hop')
        rw [hnot hrest, hhead, if_pos rfl]
      · exact hmem op htail
    · intro hno
      rw [hnot fun op hop => hno op (.tail _ hop), hhead, if_neg]
      rintro rfl
      exact hno node.2 (.head _)

/-- **The rows after a flush**: those of the pending nodes are new. -/
theorem flush_get (t : Tables) {staged : WriteBatch}
    (hother : .merkleNodes ∉ staged.ops.map Tables.opCf) (k : Bytes) :
    (t.applyOps (tree.flushToBatch staged).2.ops .merkleNodes)[k]? =
      match tree.root.2.dirtyMerkleNodes[k]? with
      | some op => nodeRow op
      | none => (t .merkleNodes)[k]? := by
  obtain ⟨hmem, hnot⟩ := stageNodes_get tree.root.2.dirtyMerkleNodes.toList (t.applyOps staged.ops) k
    (OrdMap.nodup_keys _)
  have hflush : t.applyOps (tree.flushToBatch staged).2.ops .merkleNodes =
      (t.applyOps staged.ops).applyOps
        (tree.root.2.dirtyMerkleNodes.toList.foldl stageNode .new).ops .merkleNodes := by
    rw [flushToBatch, WriteBatch.ops_put, Tables.applyOps_append, ops_stageAll ops_stageNode,
      Tables.applyOps_append]
    have hroot : Tables.opCf (.put .metadata merkleStateRootMetaKey tree.root.1.bytes) ≠
        .merkleNodes := show ColumnFamily.metadata ≠ .merkleNodes by decide
    exact Tables.applyOp_other _ hroot
  rw [hflush]
  cases hdirty : tree.root.2.dirtyMerkleNodes[k]? with
  | some op => exact hmem op (OrdMap.mem_toList.2 hdirty)
  | none =>
    rw [hnot fun op hop => by simpa [hdirty] using OrdMap.mem_toList.1 hop,
      Tables.applyOps_other _ _ hother]

/-- The root row after a flush. -/
theorem flush_root (t : Tables) (staged : WriteBatch) :
    (t.applyOps (tree.flushToBatch staged).2.ops .metadata)[merkleStateRootMetaKey]? =
      some tree.root.1.bytes := by
  rw [flushToBatch, WriteBatch.ops_put, Tables.applyOps_append]
  exact (Tables.put_get _ .metadata .metadata merkleStateRootMetaKey _ merkleStateRootMetaKey).trans
    (if_pos ⟨rfl, rfl⟩)

/-! ## What a step does -/

/-- The walk comes to `p`: it is the root, or a child of a node with a leaf. -/
def Visited (tree : SparseMerkleTree) (p : List Bool) : Prop := p = [] ∨ tree.Holds p.dropLast

omit [Chia] in
theorem Holds.visited {p : List Bool} (h : tree.Holds p) : tree.Visited p :=
  .inr (h.mono (List.dropLast_prefix p))

/-- **The pending nodes of a tree that was changed**: those that the walk visits. -/
theorem root_dirty (hroot : tree.rootHash = none) :
    (∀ p, p.length ≤ 255 → tree.Visited p → tree.root.2.dirtyMerkleNodes[nodeKey p]? =
      some (nodeOp (leafAt tree.leaves.toList 0) p)) ∧
    ∀ k, (∀ p, p.length ≤ 255 → tree.Visited p → nodeKey p ≠ k) →
      tree.root.2.dirtyMerkleNodes[k]? = none := by
  have hdirty : tree.root.2.dirtyMerkleNodes = (visits 256 tree.leaves.toList []).foldl
      (recordNode (leafAt tree.leaves.toList 0)) ∅ := by
    rw [← computeSubtreeHashCore_snd _ 256 tree.leaves.toList [] ∅ rfl rfl, pathOf_nil]
    simp only [root, hroot]
    rfl
  have hvisits : ∀ p, p ∈ visits 256 tree.leaves.toList [] ↔ p.length ≤ 256 ∧ tree.Visited p :=
    fun p => by
      rw [mem_visits tree.leaves.toList 256 _ [] rfl fun kv => (and_iff_left List.nil_prefix).symm,
        Visited, holds_iff]
      exact and_iff_right List.nil_prefix
  rw [hdirty]
  refine ⟨fun p hp hvis => ?_, fun k hk => ?_⟩
  · exact recordAll_of_mem _ hp _ _ (.inl ((hvisits p).2 ⟨by omega, hvis⟩))
  · rw [recordAll_of_not_mem _ _ _ fun p hp hlen => hk p hlen ((hvisits p).1 hp).2]
    exact Std.ExtTreeMap.getElem?_empty

/-- The row that the walk leads to at a visited node. -/
def rowAt (tree : SparseMerkleTree) (p : List Bool) : Option Bytes :=
  nodeRow (nodeOp (leafAt tree.leaves.toList 0) p)

theorem rowAt_eq (tree : SparseMerkleTree) (p : List Bool) : tree.rowAt p =
    if tree.subtreeHash p = emptyHash (256 - p.length) then none
    else some (tree.subtreeHash p).bytes := by
  rw [rowAt, nodeOp, subtreeHash]
  split <;> rfl

/-- **What a flush leaves behind**: nothing is pending, and every visited node has its row. -/
structure Persisted.Flushed (s : Persisted) : Prop where
  healthy : s.backend.Healthy
  coherent : s.tree.Coherent
  cached : s.tree.rootHash ≠ none
  clean : s.tree.dirtyMerkleNodes = ∅
  keys : ∀ key value, (s.backend.tables .merkleNodes)[key]? = some value →
    ∃ p, p.length ≤ 255 ∧ key = nodeKey p
  visited : ∀ p, p.length ≤ 255 → s.tree.Visited p →
    (s.backend.tables .merkleNodes)[nodeKey p]? = s.tree.rowAt p

omit [Chia] in
theorem Holds.congr {tree' : SparseMerkleTree} {p : List Bool}
    (hleaves : tree'.leaves = tree.leaves) :
    tree'.Holds p ↔ tree.Holds p := by
  rw [Holds, Holds]
  simp only [get, hleaves]

/-- A batch keeps the pending nodes, and the leaves too unless it empties the cache. -/
theorem applyBatch_spec (hc : tree.Coherent) (batch : LeafBatch) :
    (tree.applyBatch batch).Coherent ∧
    (tree.applyBatch batch).dirtyMerkleNodes = tree.dirtyMerkleNodes ∧
    ((tree.applyBatch batch).rootHash = none ∨ tree.applyBatch batch = tree) := by
  have hkeep : ∀ {result : Except MerkleError SparseMerkleTree},
      (∀ tree', result = .ok tree' → tree'.Coherent ∧
        tree'.dirtyMerkleNodes = tree.dirtyMerkleNodes ∧ (tree'.rootHash = none ∨ tree' = tree)) →
      (tree.orKeep result).Coherent ∧
        (tree.orKeep result).dirtyMerkleNodes = tree.dirtyMerkleNodes ∧
        ((tree.orKeep result).rootHash = none ∨ tree.orKeep result = tree) := fun hok =>
    orKeep_cases (P := fun t => t.Coherent ∧ t.dirtyMerkleNodes = tree.dirtyMerkleNodes ∧
      (t.rootHash = none ∨ t = tree)) ⟨hc, rfl, .inr rfl⟩ hok
  cases batch with
  | insert entries =>
    refine hkeep fun tree' h => ⟨(batchInsert_spec hc h).2.2, ?_⟩
    obtain ⟨_, rfl⟩ := batchInsert_eq_ok.1 h
    cases entries with
    | nil => exact ⟨rfl, .inr rfl⟩
    | cons e entries => exact ⟨rfl, .inl rfl⟩
  | update entries =>
    refine hkeep fun tree' h => ⟨(batchUpdate_spec hc h).2.2, ?_⟩
    obtain ⟨_, rfl⟩ := batchUpdate_eq_ok.1 h
    cases entries with
    | nil => exact ⟨rfl, .inr rfl⟩
    | cons e entries => exact ⟨rfl, .inl rfl⟩
  | remove keys =>
    refine hkeep fun tree' h => ⟨(batchRemove_spec hc h).2.2, ?_⟩
    obtain ⟨_, rfl⟩ := batchRemove_eq_ok.1 h
    cases keys with
    | nil => exact ⟨rfl, .inr rfl⟩
    | cons k keys => exact ⟨rfl, .inl rfl⟩

namespace Persisted

variable {s : Persisted}

theorem flushed_new : new.Flushed where
  healthy := Backend.healthy_fresh
  coherent := coherent_new
  cached := Option.some_ne_none _
  clean := rfl
  keys _ _ h := by simp [new, Backend.fresh, Tables.empty] at h
  visited p hp hvis := by
    have hnone : ∀ q, ¬ SparseMerkleTree.new.Holds q := fun q => by
      rintro ⟨k, hk, _⟩
      exact hk Std.ExtTreeMap.getElem?_empty
    obtain rfl : p = [] := hvis.resolve_right (hnone _)
    have hempty : SparseMerkleTree.new.subtreeHash [] = emptyHash 256 :=
      fullRoot_of_empty fun k => Std.ExtTreeMap.getElem?_empty
    show (_ : Option Bytes) = SparseMerkleTree.new.rowAt []
    rw [rowAt_eq, if_pos (show _ = emptyHash (256 - ([] : List Bool).length) from hempty)]
    exact Std.ExtTreeMap.getElem?_empty

/-- The tree, the leaves and the rows after a step. -/
theorem Flushed.step_tree (h : s.Flushed) (next : FlushStep) :
    (s.step next).tree = (s.tree.applyBatch next.leafBatch).root.2.clearDirty ∧
    (s.step next).tree.leaves = (s.tree.applyBatch next.leafBatch).leaves ∧
    (s.step next).backend = { s.backend with
      tables := s.backend.tables.applyOps
        ((s.tree.applyBatch next.leafBatch).flushToBatch next.staged).2.ops } := by
  refine ⟨rfl, ?_, ?_⟩
  · show (s.tree.applyBatch next.leafBatch).root.2.leaves = _
    rw [root_leaves]
  · exact congrArg Prod.fst (Backend.batchWrite_of_healthy h.healthy _)

/-- **The rows after a step**: those of the visited nodes are new, the others stay. -/
theorem Flushed.step_rows (h : s.Flushed) (next : FlushStep) :
    (∀ p, p.length ≤ 255 → (s.step next).tree.Visited p →
      ((s.step next).backend.tables .merkleNodes)[nodeKey p]? = (s.step next).tree.rowAt p) ∧
    ∀ key, (∀ p, p.length ≤ 255 → (s.step next).tree.Visited p → nodeKey p ≠ key) →
      ((s.step next).backend.tables .merkleNodes)[key]? = (s.backend.tables .merkleNodes)[key]? := by
  obtain ⟨_, hleaves, hbackend⟩ := h.step_tree next
  obtain ⟨_, hdirty, hcase⟩ := applyBatch_spec h.coherent next.leafBatch
  have hrow : ∀ p, (s.step next).tree.rowAt p = (s.tree.applyBatch next.leafBatch).rowAt p :=
    fun p => by rw [rowAt, rowAt, hleaves]
  have hvis : ∀ p, (s.step next).tree.Visited p ↔ (s.tree.applyBatch next.leafBatch).Visited p :=
    fun p => or_congr Iff.rfl (Holds.congr hleaves)
  simp only [hrow, hvis, hbackend, flush_get _ next.other]
  rcases hcase with hnone | hsame
  · -- the walk runs again
    obtain ⟨hmem, hnot⟩ := root_dirty hnone
    refine ⟨fun p hp hv => ?_, fun key hkey => ?_⟩
    · rw [hmem p hp hv]
      rfl
    · rw [hnot key hkey]
  · -- the leaves are those of the last flush, and nothing is pending
    have hroot : s.tree.root.2 = s.tree := by
      obtain ⟨r, hr⟩ := Option.ne_none_iff_exists'.1 h.cached
      simp only [root, hr]
    have hpending : ∀ key : Bytes, s.tree.dirtyMerkleNodes[key]? = none := fun key => by
      rw [h.clean]
      exact Std.ExtTreeMap.getElem?_empty
    rw [hsame, hroot]
    refine ⟨fun p hp hv => ?_, fun key _ => ?_⟩
    · rw [hpending]
      exact h.visited p hp hv
    · rw [hpending]

/-- A step leaves a flushed state. -/
theorem Flushed.step (h : s.Flushed) (next : FlushStep) : (s.step next).Flushed := by
  obtain ⟨htree, hleaves, hbackend⟩ := h.step_tree next
  obtain ⟨hvisited, hother⟩ := h.step_rows next
  obtain ⟨hcoh, _, _⟩ := applyBatch_spec h.coherent next.leafBatch
  exact {
    healthy := by
      rw [hbackend]
      exact h.healthy
    coherent := by
      rw [htree]
      exact (root_coherent hcoh).clearDirty
    cached := by
      rw [htree]
      show (s.tree.applyBatch next.leafBatch).root.2.rootHash ≠ none
      cases hroot : (s.tree.applyBatch next.leafBatch).rootHash <;> simp [root, hroot]
    clean := by
      rw [htree]
      rfl
    keys := fun key value hrow => by
      by_cases hkey : ∃ p, p.length ≤ 255 ∧ nodeKey p = key
      · obtain ⟨p, hp, rfl⟩ := hkey
        exact ⟨p, hp, rfl⟩
      · rw [hother key fun p hp _ heq => hkey ⟨p, hp, heq⟩] at hrow
        exact h.keys key value hrow
    visited := hvisited }

end Persisted

theorem flushed_persist (steps : List FlushStep) : (persist steps).Flushed :=
  foldl_inv Persisted.flushed_new fun _ next _ h => h.step next

end SparseMerkleTree

end DigCoinstore
