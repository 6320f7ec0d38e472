import DigCoinstore.Lib.Crash
import DigCoinstore.Merkle.Paths
import DigCoinstore.Merkle.Persist
import DigCoinstore.Sample

/-!
# The root as a function of the leaves

Whatever is called on a tree, its two readers return the root of the full tree of its leaves
(`root_of_leaves`): history, batches, the cache and the order in which the map is iterated leave no
trace.
-/

namespace DigCoinstore

variable [Chia]

namespace SparseMerkleTree

/-! ## Runs of calls -/

/-- A call on a tree. -/
inductive TreeCall where
  | batchInsert (entries : List (Bytes32 × Bytes32))
  | batchUpdate (entries : List (Bytes32 × Bytes32))
  | batchRemove (keys : List Bytes32)
  | root
  | rootObserved
  | flushToBatch (batch : WriteBatch)
  | clearDirty

/-- A batch that fails leaves the tree as it is. -/
def orKeep (tree : SparseMerkleTree) (result : Except MerkleError SparseMerkleTree) :
    SparseMerkleTree :=
  match result with
  | .ok tree' => tree'
  | .error _ => tree

/-- The tree after a call. -/
def after (tree : SparseMerkleTree) : TreeCall → SparseMerkleTree
  | .batchInsert entries => tree.orKeep (tree.batchInsert entries)
  | .batchUpdate entries => tree.orKeep (tree.batchUpdate entries)
  | .batchRemove keys => tree.orKeep (tree.batchRemove keys)
  | .root => tree.root.2
  | .rootObserved => tree
  | .flushToBatch batch => (tree.flushToBatch batch).1
  | .clearDirty => tree.clearDirty

/-- The tree after calls on a new one. -/
def run (calls : List TreeCall) : SparseMerkleTree := calls.foldl after .new

variable {tree : SparseMerkleTree}

omit [Chia] in
theorem orKeep_cases {P : SparseMerkleTree → Prop} {result : Except MerkleError SparseMerkleTree}
    (htree : P tree) (hok : ∀ tree', result = .ok tree' → P tree') : P (tree.orKeep result) := by
  cases result with
  | ok tree' => exact hok tree' rfl
  | error e => exact htree

/-- Each call builds on what was built. -/
theorem Built.after (h : tree.Built) (call : TreeCall) : (tree.after call).Built := by
  cases call with
  | batchInsert entries => exact orKeep_cases h fun _ => h.batchInsert
  | batchUpdate entries => exact orKeep_cases h fun _ => h.batchUpdate
  | batchRemove keys => exact orKeep_cases h fun _ => h.batchRemove
  | root => exact h.root
  | rootObserved => exact h
  | flushToBatch batch => exact h.flushToBatch
  | clearDirty => exact h.clearDirty

theorem built_run (calls : List TreeCall) : (run calls).Built :=
  foldl_inv (I := Built) .new fun _ call _ h => h.after call

/-! ## Positions -/

/-- What the full tree holds at the position `p`. -/
def position (tree : SparseMerkleTree) (p : List Bool) : Bytes32 :=
  (tree.get (pathOf p)).getD (emptyHash 0)

omit [Chia] in
theorem pathOf_keyBits (k : Bytes32) : pathOf (keyBits k) = k :=
  keyBits_injective (keyBits_pathOf (length_keyBits k))

/-- The position of a key holds its leaf, or the empty one. -/
theorem position_keyBits (tree : SparseMerkleTree) (k : Bytes32) :
    tree.position (keyBits k) = (tree.get k).getD (emptyHash 0) := by
  rw [position, pathOf_keyBits]

theorem fullRoot_eq_position (tree : SparseMerkleTree) :
    tree.fullRoot = FullTree.root merkleNodeHash smtHeight tree.position := by
  refine FullTree.root_congr merkleNodeHash 256 fun p hp => ?_
  rw [← keyBits_pathOf hp, leafAt_keyBits, position_keyBits]

/-! ## Any order of iteration -/

/-- The first entry found for a path is the only one. -/
theorem leafAt_perm {listed listed' : List (Bytes32 × Bytes32)} (hperm : listed.Perm listed')
    (hkeys : (listed'.map (·.1)).Nodup) : leafAt listed 0 = leafAt listed' 0 := by
  funext p
  unfold leafAt
  cases hfind : listed.find? fun kv => (keyBits kv.1).drop 0 == p with
  | none =>
    have hnone : listed'.find? (fun kv => (keyBits kv.1).drop 0 == p) = none := by
      rw [List.find?_eq_none] at hfind ⊢
      exact fun kv hkv => hfind kv (hperm.mem_iff.2 hkv)
    rw [hnone]
  | some kv =>
    have hmem : kv ∈ listed' := hperm.mem_iff.1 (List.mem_of_find?_eq_some hfind)
    have hpath := List.find?_some hfind
    cases hfind' : listed'.find? fun kv => (keyBits kv.1).drop 0 == p with
    | none => exact absurd hpath (List.find?_eq_none.1 hfind' kv hmem)
    | some kv' =>
      have hmem' := List.mem_of_find?_eq_some hfind'
      have hpath' := List.find?_some hfind'
      simp only [List.drop_zero, beq_iff_eq] at hpath hpath'
      have hkey : kv.1 = kv'.1 := keyBits_injective (hpath.trans hpath'.symm)
      exact congrArg Prod.snd (List.inj_on_of_nodup_map hkeys hmem hmem' hkey)

/-- **The root is a function of the leaves.** After any calls on a new tree, both readers return
the root of the full tree of the leaves; so does the walk over the leaves in any order, and so do
the readers of every tree with these leaves. -/
theorem root_of_leaves (calls : List TreeCall) :
    (∀ k, (run calls).position (keyBits k) = ((run calls).get k).getD (emptyHash 0)) ∧
    (run calls).root.1 = FullTree.root merkleNodeHash smtHeight (run calls).position ∧
    (run calls).rootObserved = FullTree.root merkleNodeHash smtHeight (run calls).position ∧
    (∀ listed : List (Bytes32 × Bytes32), listed.Perm (run calls).leaves.toList → ∀ record,
      (computeSubtreeHashCore smtHeight listed .zero ∅ record).1 = (run calls).root.1) ∧
    ∀ calls', (∀ k, (run calls').get k = (run calls).get k) →
      (run calls').root.1 = (run calls).root.1 ∧ (run calls').rootObserved = (run calls).root.1 := by
  have hcoh := (built_run calls).coherent
  have hroot := root_fst hcoh
  refine ⟨position_keyBits _, ?_, ?_, fun listed hperm record => ?_, fun calls' hsame => ?_⟩
  · rw [hroot, fullRoot_eq_position]
  · rw [rootObserved_eq hcoh, fullRoot_eq_position]
  · rw [hroot, computeSubtreeHashCore_fst smtHeight le_rfl]
    exact congrArg (FullTree.root merkleNodeHash 256) (leafAt_perm hperm (OrdMap.nodup_keys _))
  · have hcoh' := (built_run calls').coherent
    rw [hroot, root_fst hcoh', rootObserved_eq hcoh', fullRoot_congr hsame]
    exact ⟨rfl, rfl⟩

end SparseMerkleTree

end DigCoinstore

namespace DigCoinstore.SparseMerkleTree

open Sample

/-- Two batches, or one in the other order with a flush and a failed update after it. -/
theorem root_of_leaves_two :
    (run [.batchInsert [(ofNum 2, ofNum 7), (ofNum 1, ofNum 8)], .flushToBatch .new,
      .batchUpdate [(ofNum 3, ofNum 9)]]).root.1 =
        (run [.batchInsert [(ofNum 1, ofNum 8)], .root, .batchInsert [(ofNum 2, ofNum 7)]]).root.1 := by
  refine ((root_of_leaves _).2.2.2.2 _ fun k => ?_).1
  have hentries : (run [.batchInsert [(ofNum 2, ofNum 7), (ofNum 1, ofNum 8)], .flushToBatch .new,
      .batchUpdate [(ofNum 3, ofNum 9)]]).leaves.toList = (run [.batchInsert [(ofNum 1, ofNum 8)],
        .root, .batchInsert [(ofNum 2, ofNum 7)]]).leaves.toList := by decide +kernel
  rw [get, get, Std.ExtTreeMap.toList_inj.1 hentries]

end DigCoinstore.SparseMerkleTree
