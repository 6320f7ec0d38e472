import DigCoinstore.Merkle.SparseProof

/-!
# Proof generation (`merkle/proof.rs`)

`getProof` walks down the bits of the key and hashes the leaves on the other side of every turn.
After any calls on a new tree the proof of any key has 256 siblings, shows the leaf of the tree and
verifies against its root, and `getCoinProof` hands it out unless the leaves were written since the
last `root` and one is left (`proof_complete`).
-/

namespace DigCoinstore

variable [Chia]

namespace SparseMerkleTree

/-- The loop of `build_sparse_proof_for_key`, with `levels` levels left and the leaves that share
the bits of `key` so far. -/
def siblingWalk (key : Bytes32) : (levels : Nat) → (currentLeaves : List (Bytes32 × Bytes32)) →
    List Bytes32
  | 0, _ => []
  | levels + 1, currentLeaves =>
    let depth := smtHeight - (levels + 1)
    let bit := getBit key depth
    let leftLeaves := currentLeaves.filter fun kv => !getBit kv.1 depth
    let rightLeaves := currentLeaves.filter fun kv => getBit kv.1 depth
    let siblingLeaves := if bit then leftLeaves else rightLeaves
    let path := (List.range depth).foldl (fun path d => childPath path d (getBit key d)) .zero
    let siblingPath := childPath path depth (!bit)
    let siblingHash := (computeSubtreeHashCore levels siblingLeaves siblingPath ∅ false).1
    siblingHash :: siblingWalk key levels (if bit then rightLeaves else leftLeaves)

variable (tree : SparseMerkleTree)

/-- `build_sparse_proof_for_key`, from the leaves alone. -/
def buildSparseProofForKey (key : Bytes32) : SparseMerkleProof where
  key := key
  value := tree.leaves[key]?
  siblings := siblingWalk key smtHeight tree.leaves.toList

/-- The proof for a key, from a clean tree only. -/
def getCoinProof (coinId : Bytes32) : Except MerkleError SparseMerkleProof :=
  if tree.isDirty then .error .proofRequiresCleanTree else .ok (tree.buildSparseProofForKey coinId)

/-- The proof of any key, from a dirty tree too. -/
def getProof (key : Bytes32) : SparseMerkleProof := tree.buildSparseProofForKey key

/-! ## The walk -/

/-- **The walk collects the siblings of the full tree.** -/
theorem siblingWalk_eq (key : Bytes32) : ∀ (levels : Nat), levels ≤ 256 →
    ∀ leaves : List (Bytes32 × Bytes32), siblingWalk key levels leaves =
      FullTree.siblings merkleNodeHash ((keyBits key).drop (256 - levels))
        (leafAt leaves (256 - levels))
  | 0, _, leaves => by
    have hdrop : (keyBits key).drop (256 - 0) = [] := List.drop_of_length_le (by simp)
    rw [hdrop, siblingWalk, FullTree.siblings]
  | levels + 1, hle, leaves => by
    have hdepth : 256 - (levels + 1) < 256 := by omega
    have hsucc : 256 - levels = 256 - (levels + 1) + 1 := by omega
    have hlen : ((keyBits key).drop (256 - (levels + 1) + 1)).length = levels := by
      rw [List.length_drop, length_keyBits]
      omega
    -- the leaves on one side of this depth are those below the turn to that side
    have hside : ∀ b, leafAt (leaves.filter fun kv => getBit kv.1 (256 - (levels + 1)) == b)
        (256 - levels) = fun p => leafAt leaves (256 - (levels + 1)) (b :: p) := fun b => by
      funext p
      rw [hsucc]
      exact leafAt_filter leaves hdepth b p
    have hleft := hside false
    have hright := hside true
    simp only [beq_false, beq_true] at hleft hright
    have ih := siblingWalk_eq key levels (by omega)
    simp only [siblingWalk, smtHeight, keyBits_drop key hdepth, FullTree.siblings, hlen,
      computeSubtreeHashCore_fst levels (by omega), ih]
    by_cases hbit : getBit key (256 - (levels + 1)) = true
    · simp only [hbit, if_true, hleft, hright, Bool.not_true, ← hsucc]
    · rw [Bool.not_eq_true] at hbit
      simp only [hbit, Bool.false_eq_true, if_false, hleft, hright, Bool.not_false, ← hsucc]

variable {tree}

/-- The proof of a key has the siblings of the full tree. -/
theorem siblings_getProof (key : Bytes32) : (tree.getProof key).siblings =
    FullTree.siblings merkleNodeHash (keyBits key) (leafAt tree.leaves.toList 0) :=
  siblingWalk_eq key 256 le_rfl tree.leaves.toList

/-- The proof that the tree gives for a key hashes pairs of the tree only. -/
theorem hashedPairs_getProof (key : Bytes32) :
    (tree.getProof key).hashedPairs ⊆ tree.hashedPairs := by
  have hpairs := FullTree.climbPairs_siblings merkleNodeHash (keyBits key)
    (leafAt tree.leaves.toList 0)
  rw [leafAt_keyBits, length_keyBits, ← siblings_getProof] at hpairs
  exact hpairs

/-- **The proof of any key verifies.** -/
theorem verify_getProof (h : tree.Coherent) (key : Bytes32) :
    (tree.getProof key).verify tree.root.1 = true := by
  have hclimb := FullTree.climb_siblings merkleNodeHash (keyBits key) (leafAt tree.leaves.toList 0)
  rw [leafAt_keyBits, ← siblings_getProof, length_keyBits] at hclimb
  refine SparseMerkleProof.verify_iff.2 ⟨?_, ?_⟩
  · rw [siblings_getProof, FullTree.length_siblings]
    rfl
  · rw [root_fst h]
    exact hclimb

/-! ## Runs of calls on a tree -/

/-- The calls that change a tree or its cache. -/
inductive Call where
  | batchInsert (entries : List (Bytes32 × Bytes32))
  | batchUpdate (entries : List (Bytes32 × Bytes32))
  | batchRemove (keys : List Bytes32)
  | root

/-- A tree, and whether leaves were written since the last `root`. -/
structure Tracked where
  tree : SparseMerkleTree
  mutated : Bool

namespace Tracked

def new : Tracked := { tree := .new, mutated := false }

/-- A batch of `writes` leaves; a failed one leaves the tree as it is. -/
def batch (t : Tracked) (writes : Nat) (result : Except MerkleError SparseMerkleTree) : Tracked :=
  match result with
  | .ok tree => { tree, mutated := t.mutated || writes != 0 }
  | .error _ => t

def call (t : Tracked) : Call → Tracked
  | .batchInsert entries => t.batch entries.length (t.tree.batchInsert entries)
  | .batchUpdate entries => t.batch entries.length (t.tree.batchUpdate entries)
  | .batchRemove keys => t.batch keys.length (t.tree.batchRemove keys)
  | .root => { tree := t.tree.root.2, mutated := false }

/-- The cache is right, and empty exactly after a write. -/
def Valid (t : Tracked) : Prop := t.tree.Coherent ∧ t.tree.rootHash.isNone = t.mutated

theorem valid_new : new.Valid := ⟨coherent_new, rfl⟩

/-- A batch that empties the cache when it writes keeps a tracked tree valid. -/
theorem Valid.batch {t : Tracked} (h : t.Valid) {writes : Nat}
    {result : Except MerkleError SparseMerkleTree} (hresult : ∀ tree, result = .ok tree →
      tree.Coherent ∧ tree.rootHash = if writes = 0 then t.tree.rootHash else none) :
    (t.batch writes result).Valid := by
  cases result with
  | error e => exact h
  | ok tree =>
    obtain ⟨hcoh, hcache⟩ := hresult tree rfl
    refine ⟨hcoh, ?_⟩
    have hmutated := h.2
    rw [Tracked.batch, hcache]
    by_cases hwrites : writes = 0
    · simp [hwrites, hmutated]
    · simp [hwrites]

theorem Valid.call {t : Tracked} (h : t.Valid) (c : Call) : (t.call c).Valid := by
  cases c with
  | batchInsert entries =>
    refine h.batch fun tree hins => ⟨(batchInsert_spec h.1 hins).2.2, ?_⟩
    obtain ⟨_, rfl⟩ := batchInsert_eq_ok.1 hins
    simp
  | batchUpdate entries =>
    refine h.batch fun tree hupd => ⟨(batchUpdate_spec h.1 hupd).2.2, ?_⟩
    obtain ⟨_, rfl⟩ := batchUpdate_eq_ok.1 hupd
    simp
  | batchRemove keys =>
    refine h.batch fun tree hrem => ⟨(batchRemove_spec h.1 hrem).2.2, ?_⟩
    obtain ⟨_, rfl⟩ := batchRemove_eq_ok.1 hrem
    simp
  | root =>
    refine ⟨root_coherent h.1, ?_⟩
    cases hcache : t.tree.rootHash with
    | none => simp [Tracked.call, SparseMerkleTree.root, hcache]
    | some cached => simp [Tracked.call, SparseMerkleTree.root, hcache]

/-- Every run keeps a tracked tree valid. -/
theorem Valid.run : ∀ (calls : List Call) {t : Tracked}, t.Valid → (calls.foldl Tracked.call t).Valid
  | [], _, h => h
  | c :: calls, _, h => Valid.run calls (h.call c)

end Tracked

/-- The tree after some calls on a new one. -/
def Tracked.after (calls : List Call) : Tracked := calls.foldl Tracked.call .new

/-- **Merkle proof completeness**, for every key after every run of calls. -/
theorem proof_complete (calls : List Call) (key : Bytes32) :
    ((Tracked.after calls).tree.getProof key).siblings.length = 256 ∧
      ((Tracked.after calls).tree.getProof key).key = key ∧
      ((Tracked.after calls).tree.getProof key).value = (Tracked.after calls).tree.get key ∧
      ((Tracked.after calls).tree.getProof key).verify (Tracked.after calls).tree.root.1 = true ∧
      (Tracked.after calls).tree.getCoinProof key =
        if (Tracked.after calls).mutated = true ∧ (Tracked.after calls).tree.leaves.isEmpty = false
        then .error .proofRequiresCleanTree
        else .ok ((Tracked.after calls).tree.getProof key) := by
  obtain ⟨hcoh, hcache⟩ := Tracked.Valid.run calls Tracked.valid_new
  have hproof := verify_getProof hcoh key
  refine ⟨(SparseMerkleProof.verify_iff.1 hproof).1.trans (length_keyBits _), rfl, rfl, hproof, ?_⟩
  have hdirty : (Tracked.after calls).tree.isDirty = true ↔
      (Tracked.after calls).mutated = true ∧ (Tracked.after calls).tree.leaves.isEmpty = false := by
    rw [isDirty, Bool.and_eq_true, Bool.not_eq_true', Tracked.after, hcache]
  rw [getCoinProof]
  exact if_congr hdirty rfl rfl

end SparseMerkleTree

end DigCoinstore
