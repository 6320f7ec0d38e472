import DigCoinstore.Merkle.TreeFacts

/-!
# Persistence of the tree (`merkle/mod.rs`, `merkle/persistent.rs`)

The calls that write the pending nodes of a tree to a batch and that load a tree whose stored root
matches its leaves. A tree built by the calls of the module has a right cache (`Built.coherent`).
-/

namespace DigCoinstore

/-- `b"merkle_state_root"` -/
def merkleStateRootMetaKey : Bytes :=
  [109, 101, 114, 107, 108, 101, 95, 115, 116, 97, 116, 101, 95, 114, 111, 111, 116]

variable [Chia]

namespace SparseMerkleTree

variable (tree : SparseMerkleTree)

def clearDirty : SparseMerkleTree := { tree with dirtyMerkleNodes := ∅ }

def stageNode (batch : WriteBatch) (node : Bytes × MerkleNodePersistOp) : WriteBatch :=
  match node.2 with
  | .put h => batch.put .merkleNodes node.1 h.bytes
  | .delete => batch.delete .merkleNodes node.1

/-- The pending nodes and the root into `batch`; nothing stays pending. -/
def flushToBatch (batch : WriteBatch) : SparseMerkleTree × WriteBatch :=
  let (root, tree) := tree.root
  (tree.clearDirty,
    (tree.dirtyMerkleNodes.toList.foldl stageNode batch).put .metadata merkleStateRootMetaKey root.bytes)

/-- A tree of the given leaves, if its root is the stored one. -/
def loadFromStore (store : Backend) (leaves : IdMap Bytes32) : Except MerkleError SparseMerkleTree :=
  match store.get .metadata merkleStateRootMetaKey with
  | .error e => .error (.storage e.toString)
  | .ok none => .error .persistedRootMissing
  | .ok (some diskBytes) =>
    if h : diskBytes.length = 32 then
      let diskRoot : Bytes32 := ⟨diskBytes, h⟩
      let tree : SparseMerkleTree := { leaves, rootHash := none, dirtyMerkleNodes := ∅ }
      let recomputed := tree.rootObserved
      if recomputed ≠ diskRoot then .error (.persistedRootMismatch diskRoot recomputed)
      else .ok { tree with rootHash := some diskRoot }
    else .error (.invalidPersistedRootLength diskBytes.length)

/-- **The trees that the calls of the module build.** -/
inductive Built : SparseMerkleTree → Prop
  | new : Built .new
  | batchInsert {tree tree' : SparseMerkleTree} {entries : List (Bytes32 × Bytes32)} :
    Built tree → tree.batchInsert entries = .ok tree' → Built tree'
  | batchUpdate {tree tree' : SparseMerkleTree} {entries : List (Bytes32 × Bytes32)} :
    Built tree → tree.batchUpdate entries = .ok tree' → Built tree'
  | batchRemove {tree tree' : SparseMerkleTree} {keys : List Bytes32} :
    Built tree → tree.batchRemove keys = .ok tree' → Built tree'
  | root {tree : SparseMerkleTree} : Built tree → Built tree.root.2
  | clearDirty {tree : SparseMerkleTree} : Built tree → Built tree.clearDirty
  | flushToBatch {tree : SparseMerkleTree} {batch : WriteBatch} :
    Built tree → Built (tree.flushToBatch batch).1
  | loadFromStore {tree : SparseMerkleTree} {store : Backend} {leaves : IdMap Bytes32} :
    SparseMerkleTree.loadFromStore store leaves = .ok tree → Built tree

variable {tree}

theorem Coherent.clearDirty (h : tree.Coherent) : tree.clearDirty.Coherent := h

/-- A loaded tree caches the root it was checked against. -/
theorem loadFromStore_coherent {store : Backend} {leaves : IdMap Bytes32}
    (h : loadFromStore store leaves = .ok tree) : tree.Coherent := by
  unfold loadFromStore at h
  split at h
  · cases h
  · cases h
  · split at h
    · next diskBytes _ hlen =>
      dsimp only at h
      split at h
      · cases h
      · next hroot =>
        obtain rfl := Except.ok.inj h
        have hdirty : ({ leaves, rootHash := none, dirtyMerkleNodes := ∅ } : SparseMerkleTree).Coherent :=
          coherent_of_none rfl
        intro root hcache
        rw [← Option.some.inj hcache, ← not_ne_iff.1 hroot]
        exact rootObserved_eq hdirty
    · cases h

theorem Built.coherent (h : Built tree) : tree.Coherent := by
  induction h with
  | new => exact coherent_new
  | batchInsert _ h ih => exact (batchInsert_spec ih h).2.2
  | batchUpdate _ h ih => exact (batchUpdate_spec ih h).2.2
  | batchRemove _ h ih => exact (batchRemove_spec ih h).2.2
  | root _ ih => exact root_coherent ih
  | clearDirty _ ih => exact ih.clearDirty
  | flushToBatch _ ih => exact (root_coherent ih).clearDirty
  | loadFromStore h => exact loadFromStore_coherent h

end SparseMerkleTree

end DigCoinstore
