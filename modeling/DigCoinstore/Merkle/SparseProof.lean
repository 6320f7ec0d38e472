import DigCoinstore.Merkle.Persist

/-!
# Merkle proofs (`merkle/proof.rs`)

`verify` hashes the claimed leaf up its path with the siblings of the proof. What it accepts
against the root of a tree is the leaf of that tree (`verify_binds`).
-/

namespace DigCoinstore

variable [Chia]

/-- `siblings[d]` is the sibling at depth `d`, from the root. -/
structure SparseMerkleProof where
  key : Bytes32
  value : Option Bytes32
  siblings : List Bytes32
deriving DecidableEq

namespace SparseMerkleProof

variable (p : SparseMerkleProof)

def leafValue : Bytes32 := p.value.getD (emptyHash 0)

/-- One level of the walk; the length check keeps `siblings[depth]` in range. -/
def verifyStep (current : Bytes32) (depth : Nat) : Bytes32 :=
  let sibling := p.siblings.getD depth .zero
  if getBit p.key depth then merkleNodeHash sibling current else merkleNodeHash current sibling

def verify (expectedRoot : Bytes32) : Bool :=
  if p.siblings.length ≠ smtHeight then false
  else (List.range smtHeight).reverse.foldl p.verifyStep p.leafValue == expectedRoot

/-- The siblings hashed with the node of each level. -/
def hashedPairs : Set (Bytes32 × Bytes32) :=
  FullTree.climbPairs merkleNodeHash (keyBits p.key) p.siblings p.leafValue

variable {p}

omit [Chia] in
theorem keyBits_getD (key : Bytes32) {d : Nat} (hd : d < 256) :
    (keyBits key).getD d false = getBit key d := by
  simp [keyBits, smtHeight, hd]

/-- `verify` accepts when the path climbs to the root. -/
theorem verify_iff {expectedRoot : Bytes32} : p.verify expectedRoot = true ↔
    p.siblings.length = (keyBits p.key).length ∧
      FullTree.climb merkleNodeHash (keyBits p.key) p.siblings p.leafValue = expectedRoot := by
  rw [verify, length_keyBits]
  by_cases hlen : p.siblings.length = 256
  · have hloop : (List.range smtHeight).reverse.foldl p.verifyStep p.leafValue =
        FullTree.climb merkleNodeHash (keyBits p.key) p.siblings p.leafValue := by
      rw [FullTree.climb_eq_foldl merkleNodeHash .zero _ _ _ (by rw [hlen, length_keyBits]),
        length_keyBits]
      refine List.foldl_ext _ _ _ fun current d hd => ?_
      have hd' : d < 256 := by simpa [smtHeight] using hd
      rw [keyBits_getD _ hd', verifyStep]
    rw [if_neg (show ¬ p.siblings.length ≠ smtHeight from not_not.2 hlen), hloop, beq_iff_eq]
    exact (and_iff_right hlen).symm
  · rw [if_pos (show p.siblings.length ≠ smtHeight from hlen)]
    simp [hlen]

/-- **A verified proof binds the leaf**: against the root of a tree it shows the leaf of the tree
at its key, the empty one when the key is absent. -/
theorem verify_leaf {tree : SparseMerkleTree} (h : tree.Coherent)
    (hinj : Set.InjOn (Function.uncurry merkleNodeHash) (tree.hashedPairs ∪ p.hashedPairs))
    (hverify : p.verify tree.root.1 = true) : p.leafValue = (tree.get p.key).getD (emptyHash 0) := by
  obtain ⟨hlen, hclimb⟩ := verify_iff.1 hverify
  rw [SparseMerkleTree.root_fst h] at hclimb
  rw [← SparseMerkleTree.leafAt_keyBits]
  refine FullTree.climb_binding (keyBits p.key) p.siblings p.leafValue _ hlen ?_
    (hclimb.trans ?_)
  · rw [length_keyBits]
    exact hinj
  · rw [length_keyBits]
    rfl

end SparseMerkleProof

/-- **Merkle proof soundness.** No two proofs for one key that verify against the root of a tree
differ in their leaf, and the leaf is that of the tree. -/
theorem SparseMerkleTree.Built.verify_binds {tree : SparseMerkleTree} (h : tree.Built)
    {p p' : SparseMerkleProof} {key : Bytes32} (hp : p.key = key) (hp' : p'.key = key)
    (hinj : Set.InjOn (Function.uncurry merkleNodeHash)
      (tree.hashedPairs ∪ p.hashedPairs ∪ p'.hashedPairs))
    (hverify : p.verify tree.root.1 = true) :
    p.leafValue = (tree.get key).getD (emptyHash 0) ∧
      (p'.verify tree.root.1 = true → p'.leafValue = p.leafValue) := by
  subst hp
  have hleaf := SparseMerkleProof.verify_leaf h.coherent (hinj.mono Set.subset_union_left) hverify
  refine ⟨hleaf, fun hverify' => ?_⟩
  have hinj' := hinj.mono (Set.union_subset_union_left p'.hashedPairs Set.subset_union_left)
  rw [SparseMerkleProof.verify_leaf h.coherent hinj' hverify', hp', hleaf]

end DigCoinstore
