import DigCoinstore.CoinStore.RowFacts
import DigCoinstore.Merkle.ProofGen
import DigCoinstore.Represents
import DigCoinstore.Sample

/-!
# Inclusion and exclusion (`merkle/proof.rs`)

`verify` starts the walk of an exclusion proof from the hash of the empty leaf, and takes this hash
as a claimed value too: for an absent key some proof of inclusion verifies exactly when the claimed
value is that hash (`proofs_exclude_iff`). A stored key has no exclusion proof.
-/

namespace DigCoinstore

variable [Chia]

namespace SparseMerkleTree

variable {tree : SparseMerkleTree}

/-- An absent key with the hash of the empty leaf as its value. -/
def forgedProof (tree : SparseMerkleTree) (key : Bytes32) : SparseMerkleProof :=
  { tree.getProof key with value := some (emptyHash 0) }

theorem leafValue_forgedProof {key : Bytes32} (hkey : tree.get key = none) :
    (tree.forgedProof key).leafValue = (tree.getProof key).leafValue := by
  have hvalue : (tree.getProof key).value = none := hkey
  rw [SparseMerkleProof.leafValue, SparseMerkleProof.leafValue, hvalue]
  rfl

theorem hashedPairs_forgedProof {key : Bytes32} (hkey : tree.get key = none) :
    (tree.forgedProof key).hashedPairs ⊆ tree.hashedPairs := by
  rw [SparseMerkleProof.hashedPairs, leafValue_forgedProof hkey]
  exact hashedPairs_getProof key

/-- It verifies as the exclusion proof does. -/
theorem verify_forgedProof (h : tree.Coherent) {key : Bytes32} (hkey : tree.get key = none) :
    (tree.forgedProof key).verify tree.root.1 = true := by
  have hproof := SparseMerkleProof.verify_iff.1 (verify_getProof h key)
  rw [← leafValue_forgedProof hkey] at hproof
  exact SparseMerkleProof.verify_iff.2 hproof

/-- The leaf of a row is not the empty leaf. -/
theorem leafHash_ne_emptyHash {rec : CoinRecord}
    (hsha : Set.InjOn merkleLeafHash {emptyLeafSentinel, serializeCoinRecordStorageBytes rec}) :
    CoinStore.leafHash rec ≠ emptyHash 0 := by
  intro heq
  have hrow := hsha (.inr rfl) (.inl rfl) heq
  have hlen := length_serialize rec
  rw [hrow, emptyLeafSentinel, List.length_replicate] at hlen
  omega

/-- **When inclusion and exclusion proofs exclude each other.** No two pairs hashed for the tree or
for the proof collide; the leaves are hashes of rows. -/
theorem Built.proofs_exclude_iff (h : tree.Built)
    (hnode : Set.InjOn (Function.uncurry merkleNodeHash) tree.hashedPairs)
    (hleaf : ∀ key v, tree.get key = some v → ∃ rec : CoinRecord, v = CoinStore.leafHash rec ∧
      Set.InjOn merkleLeafHash {emptyLeafSentinel, serializeCoinRecordStorageBytes rec}) :
    (∀ key v, tree.get key = none →
      ((∀ p : SparseMerkleProof, p.key = key → p.value = some v →
        Set.InjOn (Function.uncurry merkleNodeHash) (tree.hashedPairs ∪ p.hashedPairs) →
        p.verify tree.root.1 = false) ↔ v ≠ emptyHash 0)) ∧
    ∀ p : SparseMerkleProof, tree.get p.key ≠ none → p.value = none →
      Set.InjOn (Function.uncurry merkleNodeHash) (tree.hashedPairs ∪ p.hashedPairs) →
      p.verify tree.root.1 = false := by
  have hcoh := h.coherent
  refine ⟨fun key v hkey => ⟨fun hnone hv => ?_, fun hv p hp hvalue hinj => ?_⟩,
    fun p hkey hvalue hinj => ?_⟩
  · -- the siblings of the tree lead from the empty leaf to its root
    subst hv
    have hpairs := hashedPairs_forgedProof hkey
    have hfalse := hnone (tree.forgedProof key) rfl rfl (by rwa [Set.union_eq_left.2 hpairs])
    rw [verify_forgedProof hcoh hkey] at hfalse
    cases hfalse
  · rw [Bool.eq_false_iff]
    intro hverify
    have hbound := SparseMerkleProof.verify_leaf hcoh hinj hverify
    rw [hp, hkey, SparseMerkleProof.leafValue, hvalue] at hbound
    exact hv hbound
  · rw [Bool.eq_false_iff]
    intro hverify
    have hbound := SparseMerkleProof.verify_leaf hcoh hinj hverify
    obtain ⟨v, hv⟩ := Option.ne_none_iff_exists'.1 hkey
    obtain ⟨rec, rfl, hsha⟩ := hleaf _ _ hv
    rw [hv, SparseMerkleProof.leafValue, hvalue] at hbound
    exact leafHash_ne_emptyHash hsha hbound.symm

end SparseMerkleTree

end DigCoinstore

namespace DigCoinstore.SparseMerkleTree

open Sample

/-! ## Proofs of the tree with one leaf -/

theorem injOn_leafInputs_new : Set.InjOn merkleLeafHash
    {emptyLeafSentinel, serializeCoinRecordStorageBytes (.new (coin 1) 0 10 false)} := by
  have hne : merkleLeafHash emptyLeafSentinel ≠
      merkleLeafHash (serializeCoinRecordStorageBytes (.new (coin 1) 0 10 false)) :=
    leafHash_ne_empty.symm
  rintro x (rfl | rfl) y (rfl | rfl) heq
  · rfl
  · exact absurd heq hne
  · exact absurd heq.symm hne
  · rfl

theorem leaves_oneLeaf (key v : Bytes32) (hv : oneLeaf.get key = some v) :
    ∃ rec : CoinRecord, v = CoinStore.leafHash rec ∧
      Set.InjOn merkleLeafHash {emptyLeafSentinel, serializeCoinRecordStorageBytes rec} := by
  rw [get_oneLeaf] at hv
  split at hv
  · exact ⟨.new (coin 1) 0 10 false, (Option.some.inj hv).symm, injOn_leafInputs_new⟩
  · cases hv

theorem get_oneLeaf_zero : oneLeaf.get .zero = none := by
  rw [get_oneLeaf]
  decide

/-- Key 1 is stored: its proof shows its leaf. Key 0 is absent: its two proofs show the empty leaf. -/
theorem verify_binds_oneLeaf :
    ((oneLeaf.getProof (ofNum 1)).leafValue = (oneLeaf.get (ofNum 1)).getD (emptyHash 0) ∧
      ((oneLeaf.getProof (ofNum 1)).verify oneLeaf.root.1 = true →
        (oneLeaf.getProof (ofNum 1)).leafValue = (oneLeaf.getProof (ofNum 1)).leafValue)) ∧
    (oneLeaf.getProof .zero).leafValue = (oneLeaf.get .zero).getD (emptyHash 0) ∧
      ((oneLeaf.forgedProof .zero).verify oneLeaf.root.1 = true →
        (oneLeaf.forgedProof .zero).leafValue = (oneLeaf.getProof .zero).leafValue) := by
  have hpairs : ∀ key, (oneLeaf.getProof key).hashedPairs ⊆ oneLeaf.hashedPairs :=
    fun key => hashedPairs_getProof key
  have hforged : (oneLeaf.forgedProof .zero).hashedPairs ⊆ oneLeaf.hashedPairs :=
    hashedPairs_forgedProof get_oneLeaf_zero
  refine ⟨built_oneLeaf.verify_binds rfl rfl ?_ (verify_getProof built_oneLeaf.coherent _),
    built_oneLeaf.verify_binds rfl rfl ?_ (verify_getProof built_oneLeaf.coherent _)⟩
  · rw [Set.union_eq_left.2 (hpairs _), Set.union_eq_left.2 (hpairs _)]
    exact injOn_oneLeaf
  · rw [Set.union_eq_left.2 (hpairs _), Set.union_eq_left.2 hforged]
    exact injOn_oneLeaf

/-- Key 0 is absent and has no leaf 5; key 1 is stored. -/
theorem proofs_exclude_iff_oneLeaf :
    (∀ p : SparseMerkleProof, p.key = .zero → p.value = some (ofNum 5) →
      Set.InjOn (Function.uncurry merkleNodeHash) (oneLeaf.hashedPairs ∪ p.hashedPairs) →
      p.verify oneLeaf.root.1 = false) ∧
    ∀ p : SparseMerkleProof, p.key = ofNum 1 → p.value = none →
      Set.InjOn (Function.uncurry merkleNodeHash) (oneLeaf.hashedPairs ∪ p.hashedPairs) →
      p.verify oneLeaf.root.1 = false := by
  have hexclude := built_oneLeaf.proofs_exclude_iff injOn_oneLeaf leaves_oneLeaf
  have hone : oneLeaf.get (ofNum 1) ≠ none := by
    rw [get_oneLeaf]
    decide
  refine ⟨(hexclude.1 .zero (ofNum 5) get_oneLeaf_zero).2 (by decide), fun p hp => hexclude.2 p ?_⟩
  rw [hp]
  exact hone

/-- Key 0 is absent, and the claim that it holds the hash of the empty leaf verifies. -/
theorem forged_inclusion_verifies :
    oneLeaf.Built ∧ oneLeaf.get .zero = none ∧ (oneLeaf.forgedProof .zero).key = .zero ∧
      (oneLeaf.forgedProof .zero).value = some (emptyHash 0) ∧
      Set.InjOn (Function.uncurry merkleNodeHash)
        (oneLeaf.hashedPairs ∪ (oneLeaf.forgedProof .zero).hashedPairs) ∧
      (oneLeaf.forgedProof .zero).verify oneLeaf.root.1 = true := by
  refine ⟨built_oneLeaf, get_oneLeaf_zero, rfl, rfl, ?_,
    verify_forgedProof built_oneLeaf.coherent get_oneLeaf_zero⟩
  rw [Set.union_eq_left.2 (hashedPairs_forgedProof get_oneLeaf_zero)]
  exact injOn_oneLeaf

end DigCoinstore.SparseMerkleTree
