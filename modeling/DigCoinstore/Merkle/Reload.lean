import DigCoinstore.Merkle.Exclusion
import DigCoinstore.Merkle.NodeRows

/-!
# Loading a flushed tree (`merkle/mod.rs`)

`loadFromStore` reads one row, the root that the last flush wrote, and compares it with the root of
the leaves it is given. Of all leaf maps it accepts that of the flushed tree and no other, and the
loaded tree proves every key against the old root (`load_flushed_iff`).
-/

namespace DigCoinstore

variable [Chia]

namespace Backend

omit [Chia] in
theorem batchWrite_eq_ok {b b' : Backend} {batch : WriteBatch}
    (h : b.batchWrite batch = (b', .ok ())) :
    b' = { b with tables := b.tables.applyOps batch.ops } := by
  unfold batchWrite at h
  cases hfault : b.faults (.batchWrite batch) with
  | none =>
    rw [hfault] at h
    exact (congrArg Prod.fst h).symm
  | some e =>
    rw [hfault] at h
    cases congrArg Prod.snd h

end Backend

namespace SparseMerkleTree

/-- The leaves that `loadFromStore` is given, before it has a root. -/
def unrooted (leaves : IdMap Bytes32) : SparseMerkleTree :=
  { leaves, rootHash := none, dirtyMerkleNodes := ∅ }

variable {tree : SparseMerkleTree}

/-! ## The leaves and the root -/

omit [Chia] in
theorem get_eq_of_getD {tree' : SparseMerkleTree} {empty : Bytes32}
    (hleaf : ∀ k, tree.get k ≠ some empty) (hleaf' : ∀ k, tree'.get k ≠ some empty) {k : Bytes32}
    (h : (tree.get k).getD empty = (tree'.get k).getD empty) : tree.get k = tree'.get k := by
  cases hget : tree.get k with
  | none =>
    cases hget' : tree'.get k with
    | none => rfl
    | some v' =>
      rw [hget, hget', Option.getD_none, Option.getD_some] at h
      subst h
      exact absurd hget' (hleaf' k)
  | some v =>
    cases hget' : tree'.get k with
    | none =>
      rw [hget, hget', Option.getD_none, Option.getD_some] at h
      subst h
      exact absurd hget (hleaf k)
    | some v' =>
      rw [hget, hget', Option.getD_some, Option.getD_some] at h
      exact congrArg some h

/-- **The root determines the leaf map** when no pairs collide and no leaf is the empty one. -/
theorem fullRoot_eq_iff {tree' : SparseMerkleTree}
    (hinj : Set.InjOn (Function.uncurry merkleNodeHash) (tree.hashedPairs ∪ tree'.hashedPairs))
    (hleaf : ∀ k, tree.get k ≠ some (emptyHash 0))
    (hleaf' : ∀ k, tree'.get k ≠ some (emptyHash 0)) :
    tree'.fullRoot = tree.fullRoot ↔ tree'.leaves = tree.leaves := by
  constructor
  · intro hroot
    refine Std.ExtTreeMap.ext_getElem? fun k => ?_
    exact (get_eq_of_getD hleaf hleaf' (fullRoot_inj hinj hroot.symm k)).symm
  · intro hleaves
    exact fullRoot_congr fun k => by rw [hleaves]

/-! ## Loading -/

theorem loadFromStore_eq_ok {store : Backend} {leaves : IdMap Bytes32} {diskRoot : Bytes32}
    {loaded : SparseMerkleTree}
    (hrow : store.get .metadata merkleStateRootMetaKey = .ok (some diskRoot.bytes)) :
    loadFromStore store leaves = .ok loaded ↔
      (unrooted leaves).fullRoot = diskRoot ∧
        { unrooted leaves with rootHash := some diskRoot } = loaded := by
  have hobserved : (unrooted leaves).rootObserved = (unrooted leaves).fullRoot :=
    rootObserved_eq (coherent_of_none rfl)
  have hload : loadFromStore store leaves =
      if (unrooted leaves).rootObserved ≠ diskRoot
      then .error (.persistedRootMismatch diskRoot (unrooted leaves).rootObserved)
      else .ok { unrooted leaves with rootHash := some diskRoot } := by
    unfold loadFromStore
    simp only [hrow, diskRoot.length_bytes, dif_pos]
    rfl
  rw [hload, hobserved]
  by_cases hroot : (unrooted leaves).fullRoot = diskRoot
  · rw [if_neg (not_not.2 hroot), Except.ok.injEq]
    exact (and_iff_right hroot).symm
  · rw [if_pos hroot]
    refine iff_of_false ?_ fun h => hroot h.1
    intro h
    cases h

theorem get_committed {store store' : Backend} {batch : WriteBatch}
    (hcommit : store.batchWrite (tree.flushToBatch batch).2 = (store', .ok ()))
    (hread : store'.faults (.get .metadata merkleStateRootMetaKey) = none) :
    store'.get .metadata merkleStateRootMetaKey = .ok (some tree.root.1.bytes) := by
  have hrow : (store'.tables .metadata)[merkleStateRootMetaKey]? = some tree.root.1.bytes := by
    rw [Backend.batchWrite_eq_ok hcommit]
    exact flush_root store.tables batch
  unfold Backend.get
  rw [hread, hrow]

/-- **Loading accepts exactly the committed leaves.** A built tree is flushed into any batch, the
batch is committed, and the root row can be read. When no two of the hashed pairs collide and no
leaf is the empty one, the leaves `leaves'` load iff they are those of the tree; the loaded tree has
the old root, is clean, and proves every key against that root. -/
theorem load_flushed_iff (h : tree.Built) {store store' : Backend} {batch : WriteBatch}
    (hcommit : store.batchWrite (tree.flushToBatch batch).2 = (store', .ok ()))
    (hread : store'.faults (.get .metadata merkleStateRootMetaKey) = none)
    {leaves' : IdMap Bytes32}
    (hinj : Set.InjOn (Function.uncurry merkleNodeHash)
      (tree.hashedPairs ∪ (unrooted leaves').hashedPairs))
    (hleaf : ∀ k, tree.get k ≠ some (emptyHash 0))
    (hleaf' : ∀ k : Bytes32, leaves'[k]? ≠ some (emptyHash 0)) :
    ((∃ loaded, loadFromStore store' leaves' = .ok loaded) ↔ leaves' = tree.leaves) ∧
    ∀ loaded, loadFromStore store' leaves' = .ok loaded →
      loaded.root.1 = tree.root.1 ∧ loaded.rootObserved = tree.root.1 ∧ loaded.isDirty = false ∧
      ∀ key, ∃ proof, loaded.getCoinProof key = .ok proof ∧ proof.key = key ∧
        proof.value = tree.get key ∧ proof.verify tree.root.1 = true := by
  have hroot := root_fst h.coherent
  have hload : ∀ loaded, loadFromStore store' leaves' = .ok loaded ↔
      (unrooted leaves').fullRoot = tree.root.1 ∧
        { unrooted leaves' with rootHash := some tree.root.1 } = loaded :=
    fun loaded => loadFromStore_eq_ok (get_committed hcommit hread)
  have hleaves : (unrooted leaves').fullRoot = tree.root.1 ↔ leaves' = tree.leaves := by
    rw [hroot]
    exact fullRoot_eq_iff hinj hleaf hleaf'
  refine ⟨?_, fun loaded hloaded => ?_⟩
  · constructor
    · rintro ⟨loaded, hloaded⟩
      exact hleaves.1 ((hload loaded).1 hloaded).1
    · intro hsame
      exact ⟨_, (hload _).2 ⟨hleaves.2 hsame, rfl⟩⟩
  · have hcoh := loadFromStore_coherent hloaded
    obtain ⟨hfull, rfl⟩ := (hload loaded).1 hloaded
    have hsame : leaves' = tree.leaves := hleaves.1 hfull
    refine ⟨rfl, ?_, rfl, fun key => ?_⟩
    · rw [rootObserved_eq hcoh, ← root_fst hcoh]
      rfl
    · refine ⟨_, rfl, rfl, ?_, verify_getProof hcoh key⟩
      show leaves'[key]? = tree.leaves[key]?
      rw [hsame]

end SparseMerkleTree

end DigCoinstore

namespace DigCoinstore.SparseMerkleTree

open Sample

theorem load_flushed_oneLeaf :
    ∃ loaded, loadFromStore (Backend.fresh.batchWrite (oneLeaf.flushToBatch .new).2).1
      oneLeaf.leaves = .ok loaded := by
  have hleaf : ∀ k, oneLeaf.get k ≠ some (emptyHash 0) := fun k => by
    rw [get_oneLeaf]
    split
    · exact fun heq => leafHash_ne_empty (Option.some.inj heq)
    · exact fun heq => nomatch heq
  have hinj : Set.InjOn (Function.uncurry merkleNodeHash)
      (oneLeaf.hashedPairs ∪ (unrooted oneLeaf.leaves).hashedPairs) := by
    rw [show (unrooted oneLeaf.leaves).hashedPairs = oneLeaf.hashedPairs from rfl, Set.union_self]
    exact injOn_oneLeaf
  have hcommit : Backend.fresh.batchWrite (oneLeaf.flushToBatch .new).2 =
      ((Backend.fresh.batchWrite (oneLeaf.flushToBatch .new).2).1, .ok ()) := rfl
  exact (load_flushed_iff built_oneLeaf hcommit rfl hinj hleaf hleaf).1.2 rfl

end DigCoinstore.SparseMerkleTree
