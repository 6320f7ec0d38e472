import DigCoinstore.Lib.Batch
import DigCoinstore.Merkle.RootOfLeaves

/-!
# Batches and single calls (`merkle/mod.rs`)

Each batch call checks all its keys against the old leaves before it writes. An update does what
single calls do in order; an insertion or a removal does so unless it names one of the keys it would
accept twice (`batches_match_singles_iff`).
-/

namespace DigCoinstore

namespace SparseMerkleTree

/-! ## One entry at a time -/

section
variable (tree : SparseMerkleTree)

def insertEach (entries : List (Bytes32 × Bytes32)) : Except MerkleError SparseMerkleTree :=
  entries.foldlM (fun tree e => tree.batchInsert [e]) tree

def updateEach (entries : List (Bytes32 × Bytes32)) : Except MerkleError SparseMerkleTree :=
  entries.foldlM (fun tree e => tree.batchUpdate [e]) tree

def removeEach (keys : List Bytes32) : Except MerkleError SparseMerkleTree :=
  keys.foldlM (fun tree k => tree.batchRemove [k]) tree

/-- **A batch does what its entries do one at a time**, or reports the first that fails and changes
nothing. -/
structure MatchesSingles [Chia] (batch singles : Except MerkleError SparseMerkleTree) : Prop where
  result : batch = singles
  unchanged : ∀ e, singles = .error e →
    (tree.orKeep batch).leaves = tree.leaves ∧ (tree.orKeep batch).root.1 = tree.root.1

end

/-! ## The calls as batches -/

/-- Write or drop leaves; the cached root is stale. -/
def withLeaves (tree : SparseMerkleTree) (leaves : IdMap Bytes32) : SparseMerkleTree :=
  { tree with leaves, rootHash := none }

def insertOp : Batch.Op SparseMerkleTree (Bytes32 × Bytes32) MerkleError where
  accepts tree e := !tree.leaves.contains e.1
  apply tree e := tree.withLeaves (tree.leaves.insert e.1 e.2)
  error e := .keyAlreadyExists e.1

def updateOp : Batch.Op SparseMerkleTree (Bytes32 × Bytes32) MerkleError where
  accepts tree e := tree.leaves.contains e.1
  apply tree e := tree.withLeaves (tree.leaves.insert e.1 e.2)
  error e := .keyNotFound e.1

def removeOp : Batch.Op SparseMerkleTree Bytes32 MerkleError where
  accepts tree k := tree.leaves.contains k
  apply tree k := tree.withLeaves (tree.leaves.erase k)
  error k := .keyNotFound k

variable (tree : SparseMerkleTree)

/-- A loop over the leaves, from a batch that is not empty on with a stale root. -/
theorem foldl_withLeaves {α : Type} (step : IdMap Bytes32 → α → IdMap Bytes32) :
    ∀ (l : List α) (tree : SparseMerkleTree),
      l.foldl (fun tree a => tree.withLeaves (step tree.leaves a)) tree = { tree with
        leaves := l.foldl step tree.leaves
        rootHash := if l.isEmpty then tree.rootHash else none }
  | [], _ => rfl
  | a :: l, tree => by
    rw [List.foldl_cons, foldl_withLeaves step l, List.foldl_cons]
    cases l <;> rfl

theorem batchInsert_eq (entries : List (Bytes32 × Bytes32)) :
    tree.batchInsert entries = insertOp.batch tree entries := by
  have hfold := foldl_withLeaves (fun leaves (e : Bytes32 × Bytes32) => leaves.insert e.1 e.2) entries
    tree
  unfold batchInsert Batch.Op.batch
  simp only [insertOp, Bool.not_not]
  rw [hfold]
  cases entries.find? fun e => tree.leaves.contains e.1 <;> rfl

theorem batchUpdate_eq (entries : List (Bytes32 × Bytes32)) :
    tree.batchUpdate entries = updateOp.batch tree entries := by
  have hfold := foldl_withLeaves (fun leaves (e : Bytes32 × Bytes32) => leaves.insert e.1 e.2) entries
    tree
  unfold batchUpdate Batch.Op.batch
  simp only [updateOp]
  rw [hfold]
  cases entries.find? fun e => !tree.leaves.contains e.1 <;> rfl

theorem batchRemove_eq (keys : List Bytes32) :
    tree.batchRemove keys = removeOp.batch tree keys := by
  have hfold := foldl_withLeaves (fun leaves (k : Bytes32) => leaves.erase k) keys tree
  unfold batchRemove Batch.Op.batch
  simp only [removeOp]
  rw [hfold]
  cases keys.find? fun k => !tree.leaves.contains k <;> rfl

/-! ## Single calls -/

/-- Calls with one entry each are the single calls of an operation. -/
theorem each_of_batch {α : Type} {op : Batch.Op SparseMerkleTree α MerkleError}
    {call : SparseMerkleTree → List α → Except MerkleError SparseMerkleTree}
    (hcall : ∀ tree l, call tree l = op.batch tree l) (tree : SparseMerkleTree) (l : List α) :
    l.foldlM (fun tree a => call tree [a]) tree = op.each tree l := by
  have hone : (fun tree a => call tree [a]) = op.single := by
    funext tree a
    rw [hcall]
    cases ha : op.accepts tree a with
    | true =>
      rw [Batch.Op.single_of_accepts ha, Batch.Op.batch, List.find?_cons_of_neg (by simp [ha])]
      rfl
    | false =>
      rw [Batch.Op.single_of_refuses ha, Batch.Op.batch, List.find?_cons_of_pos (by simp [ha])]
  rw [hone]
  rfl

theorem insertEach_eq (entries : List (Bytes32 × Bytes32)) :
    tree.insertEach entries = insertOp.each tree entries := each_of_batch batchInsert_eq tree entries

theorem updateEach_eq (entries : List (Bytes32 × Bytes32)) :
    tree.updateEach entries = updateOp.each tree entries := each_of_batch batchUpdate_eq tree entries

theorem removeEach_eq (keys : List Bytes32) :
    tree.removeEach keys = removeOp.each tree keys := each_of_batch batchRemove_eq tree keys

/-! ## What spoils an entry -/

variable {tree}

/-- An inserted key is taken. -/
theorem insertOp_law : insertOp.Law fun a b => a.1 = b.1 where
  accepts_apply := by
    intro tree a _ b
    simp only [insertOp, withLeaves, Bool.not_eq_true', ← Bool.not_eq_true, contains_iff,
      OrdMap.getElem?_insert]
    split <;> simp [*]
  error_ne := by
    intro tree a b ha hb heq
    have hkey : a.1 = b.1 := MerkleError.keyAlreadyExists.inj heq
    simp only [insertOp, hkey] at ha hb
    rw [ha] at hb
    cases hb

/-- An updated key is still there. -/
theorem updateOp_law : updateOp.Law fun _ _ => False where
  accepts_apply := by
    intro tree a ha b
    have hleaf : tree.leaves[a.1]? ≠ none := contains_iff.1 ha
    simp only [updateOp, withLeaves, contains_iff, OrdMap.getElem?_insert, not_false_iff, and_true]
    split
    · next hkey =>
      rw [hkey] at hleaf
      exact iff_of_true (Option.some_ne_none _) hleaf
    · exact Iff.rfl
  error_ne := by
    intro tree a b ha hb heq
    have hkey : a.1 = b.1 := MerkleError.keyNotFound.inj heq
    simp only [updateOp, hkey] at ha hb
    rw [ha] at hb
    cases hb

/-- A removed key is gone. -/
theorem removeOp_law : removeOp.Law fun a b => a = b where
  accepts_apply := by
    intro tree a _ b
    simp only [removeOp, withLeaves, contains_iff, OrdMap.getElem?_erase]
    split <;> simp [*]
  error_ne := by
    intro tree a b ha hb heq
    have hkey : a = b := MerkleError.keyNotFound.inj heq
    simp only [removeOp, hkey] at ha hb
    rw [ha] at hb
    cases hb

/-! ## Batches -/

variable [Chia]

theorem matchesSingles_iff {batch singles : Except MerkleError SparseMerkleTree} :
    tree.MatchesSingles batch singles ↔ batch = singles := by
  refine ⟨MatchesSingles.result, fun hsame => ⟨hsame, fun e he => ?_⟩⟩
  rw [hsame, he]
  exact ⟨rfl, rfl⟩

/-- **When batches do what single calls do**, for every tree: updates always; an insertion if the
keys before the first one that is taken are distinct, and a removal if the keys before the first one
that is missing are. -/
theorem batches_match_singles_iff (tree : SparseMerkleTree) :
    (∀ entries, tree.MatchesSingles (tree.batchInsert entries) (tree.insertEach entries) ↔
      ((entries.takeWhile fun e => !tree.leaves.contains e.1).map (·.1)).Nodup) ∧
    (∀ entries, tree.MatchesSingles (tree.batchUpdate entries) (tree.updateEach entries)) ∧
    ∀ keys, tree.MatchesSingles (tree.batchRemove keys) (tree.removeEach keys) ↔
      (keys.takeWhile fun k => tree.leaves.contains k).Nodup := by
  refine ⟨fun entries => ?_, fun entries => ?_, fun keys => ?_⟩
  · rw [matchesSingles_iff, batchInsert_eq, insertEach_eq, insertOp_law.batch_eq_each_iff, List.Nodup,
      List.pairwise_map]
    rfl
  · rw [matchesSingles_iff, batchUpdate_eq, updateEach_eq, updateOp_law.batch_eq_each_iff]
    exact List.pairwise_of_forall fun _ _ => not_false
  · rw [matchesSingles_iff, batchRemove_eq, removeEach_eq, removeOp_law.batch_eq_each_iff]
    rfl

end SparseMerkleTree

end DigCoinstore

namespace DigCoinstore.SparseMerkleTree

open Sample

def insertedTwice : List (Bytes32 × Bytes32) := [(ofNum 1, ofNum 5), (ofNum 1, ofNum 6)]

def removedTwice : List Bytes32 := [ofNum 1, ofNum 1]

/-- The tree with a leaf for key 1. -/
def heldOnce : SparseMerkleTree := new.withLeaves (new.leaves.insert (ofNum 1) (ofNum 5))

/-- An empty tree accepts two leaves for one key, and a tree with that key removes it twice. -/
theorem repeated_keys_accepted :
    ((∃ tree, new.batchInsert insertedTwice = .ok tree) ∧
      new.insertEach insertedTwice = .error (.keyAlreadyExists (ofNum 1)) ∧
      ¬ new.MatchesSingles (new.batchInsert insertedTwice) (new.insertEach insertedTwice)) ∧
    (∃ tree, heldOnce.batchRemove removedTwice = .ok tree) ∧
      heldOnce.removeEach removedTwice = .error (.keyNotFound (ofNum 1)) ∧
      ¬ heldOnce.MatchesSingles (heldOnce.batchRemove removedTwice)
        (heldOnce.removeEach removedTwice) := by
  have hnone : ∀ k : Bytes32, new.leaves[k]? = none := fun _ => Std.ExtTreeMap.getElem?_empty
  have hheld : heldOnce.leaves[ofNum 1]? = some (ofNum 5) := Std.ExtTreeMap.getElem?_insert_self
  have hins : ∃ tree, new.batchInsert insertedTwice = .ok tree :=
    ⟨_, batchInsert_eq_ok.2 ⟨fun e _ => hnone e.1, rfl⟩⟩
  have hrem : ∃ tree, heldOnce.batchRemove removedTwice = .ok tree := by
    refine ⟨_, batchRemove_eq_ok.2 ⟨fun k hk => ?_, rfl⟩⟩
    have hkey : k = ofNum 1 := by simpa [removedTwice] using hk
    rw [hkey, hheld]
    exact Option.some_ne_none _
  -- the second single call finds the key as the first one left it
  have hins' : new.insertEach insertedTwice = .error (.keyAlreadyExists (ofNum 1)) := by
    have hacc : insertOp.accepts new (ofNum 1, ofNum 5) = true := by
      decide
    rw [insertEach_eq, insertedTwice, Batch.Op.each_cons_of_accepts hacc]
    exact Batch.Op.each_cons_of_refuses (by decide)
  have hrem' : heldOnce.removeEach removedTwice = .error (.keyNotFound (ofNum 1)) := by
    have hacc : removeOp.accepts heldOnce (ofNum 1) = true := by
      decide
    rw [removeEach_eq, removedTwice, Batch.Op.each_cons_of_accepts hacc]
    exact Batch.Op.each_cons_of_refuses (by decide)
  refine ⟨⟨hins, hins', fun hmatch => ?_⟩, hrem, hrem', fun hmatch => ?_⟩
  · obtain ⟨tree, htree⟩ := hins
    rw [hins', htree] at hmatch
    cases hmatch.result
  · obtain ⟨tree, htree⟩ := hrem
    rw [hrem', htree] at hmatch
    cases hmatch.result

end DigCoinstore.SparseMerkleTree
