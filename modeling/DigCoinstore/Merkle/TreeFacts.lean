import DigCoinstore.Lib.FullTree
import DigCoinstore.Merkle.Tree

/-!
# Facts about the sparse Merkle tree

`computeSubtreeHashCore_fst`: the walk returns the root of the full 256-level tree, so `root` and
`rootObserved` return `fullRoot` of a tree whose cache is right (`root_fst`, `rootObserved_eq`).
The root determines the leaves (`fullRoot_inj`).
-/

namespace DigCoinstore

variable [Chia]

/-! ## Keys as paths -/

omit [Chia] in
theorem getBit_eq_testBit (key : Bytes32) (n : Nat) :
    getBit key n = (key.bytes.getD (n / 8) 0).toNat.testBit (7 - n % 8) := by
  rw [getBit]
  generalize key.bytes.getD (n / 8) 0 = x
  have hk : 7 - n % 8 < 8 := by omega
  have hshift : (x >>> UInt8.ofNat (7 - n % 8)).toNat = x.toNat >>> (7 - n % 8) := by
    rw [UInt8.toNat_shiftRight, UInt8.toNat_ofNat', Nat.mod_eq_of_lt (by omega : _ < 2 ^ 8),
      Nat.mod_eq_of_lt hk]
  rw [Bool.eq_iff_iff, beq_iff_eq, ← UInt8.toNat_inj, UInt8.toNat_and, hshift,
    Nat.testBit_eq_decide_div_mod_eq, decide_eq_true_iff, Nat.shiftRight_eq_div_pow]
  change _ &&& 1 = 1 ↔ _
  rw [Nat.and_one_is_mod]

/-- The bits of a key, from the root down. -/
def keyBits (key : Bytes32) : List Bool := (List.range smtHeight).map (getBit key)

omit [Chia] in
@[simp] theorem length_keyBits (key : Bytes32) : (keyBits key).length = 256 := by
  simp [keyBits, smtHeight]

omit [Chia] in
theorem keyBits_drop (key : Bytes32) {d : Nat} (hd : d < 256) :
    (keyBits key).drop d = getBit key d :: (keyBits key).drop (d + 1) := by
  rw [List.drop_eq_getElem_cons (by simpa using hd)]
  simp [keyBits]

omit [Chia] in
theorem keyBits_injective : Function.Injective keyBits := by
  intro a b h
  have hbit : ∀ n, n < 256 → getBit a n = getBit b n := fun n hn => by
    have := congrArg (·[n]?) h
    simpa [keyBits, smtHeight, hn] using this
  apply Bytes32.ext
  apply List.ext_getElem (by simp)
  intro i ha hb
  have hi : i < 32 := by simpa using ha
  apply UInt8.toNat_inj.1
  apply Nat.eq_of_testBit_eq
  intro j
  by_cases hj : j < 8
  · have hn := hbit (i * 8 + (7 - j)) (by omega)
    have hdiv : (i * 8 + (7 - j)) / 8 = i := by omega
    have hmod : 7 - (i * 8 + (7 - j)) % 8 = j := by omega
    rw [getBit_eq_testBit, getBit_eq_testBit, hdiv, hmod] at hn
    simpa [List.getElem?_eq_getElem ha, List.getElem?_eq_getElem hb] using hn
  · have hbig : ∀ x : UInt8, x.toNat.testBit j = false := fun x =>
      Nat.testBit_lt_two_pow (lt_of_lt_of_le x.toNat_lt (Nat.pow_le_pow_right (by omega) (by omega)))
    rw [hbig, hbig]

/-! ## The full tree -/

/-- What `leaves`, reached after `depth` turns, hold at the end of the path `p`. -/
def leafAt (leaves : List (Bytes32 × Bytes32)) (depth : Nat) (p : List Bool) : Bytes32 :=
  match leaves.find? fun kv => (keyBits kv.1).drop depth == p with
  | some kv => kv.2
  | none => emptyHash 0

theorem emptyHash_eq : ∀ level, emptyHash level = FullTree.emptyRoot merkleNodeHash (emptyHash 0) level
  | 0 => rfl
  | level + 1 => congrArg₂ merkleNodeHash (emptyHash_eq level) (emptyHash_eq level)

/-- The leaves on one side of `depth` hold what all leaves hold on that side. -/
theorem leafAt_filter (leaves : List (Bytes32 × Bytes32)) {depth : Nat} (hd : depth < 256) (b : Bool)
    (p : List Bool) :
    leafAt (leaves.filter fun kv => getBit kv.1 depth == b) (depth + 1) p =
      leafAt leaves depth (b :: p) := by
  have hpred : ∀ kv : Bytes32 × Bytes32,
      decide ((getBit kv.1 depth == b) = true ∧ ((keyBits kv.1).drop (depth + 1) == p) = true) =
        ((keyBits kv.1).drop depth == b :: p) := fun kv => by
    rw [keyBits_drop kv.1 hd, List.cons_beq_cons, Bool.decide_and, Bool.decide_coe,
      Bool.decide_coe]
  unfold leafAt
  rw [List.find?_filter]
  simp only [hpred]

namespace SparseMerkleTree

/-- **What the walk returns is the root of the full tree.** -/
theorem computeSubtreeHashCore_fst : ∀ (levels : Nat), levels ≤ 256 →
    ∀ (leaves : List (Bytes32 × Bytes32)) (path : Bytes32) (dirty : DirtyNodes) (rec : Bool),
    (computeSubtreeHashCore levels leaves path dirty rec).1 =
      FullTree.root merkleNodeHash levels (leafAt leaves (256 - levels))
  | levels, _, [], path, dirty, rec => by
    have hleaf : leafAt [] (256 - levels) = fun _ => emptyHash 0 := rfl
    rw [hleaf, FullTree.root_const, ← emptyHash_eq]
    cases levels <;> rfl
  | 0, _, leaf :: leaves, path, dirty, rec => by
    have hdrop : (keyBits leaf.1).drop 256 = [] := List.drop_of_length_le (by simp)
    simp [computeSubtreeHashCore, FullTree.root, leafAt, hdrop]
  | levels + 1, hle, leaf :: leaves, path, dirty, rec => by
    have hdepth : 256 - (levels + 1) < 256 := by omega
    have hsucc : 256 - levels = 256 - (levels + 1) + 1 := by omega
    have hleft := leafAt_filter (leaf :: leaves) hdepth false
    have hright := leafAt_filter (leaf :: leaves) hdepth true
    simp only [beq_false, beq_true] at hleft hright
    simp only [computeSubtreeHashCore, FullTree.root, smtHeight,
      computeSubtreeHashCore_fst levels (by omega), hsucc, ← hleft, ← hright]

/-- **The root of the full 256-level tree** over the leaves. -/
def fullRoot (tree : SparseMerkleTree) : Bytes32 :=
  FullTree.root merkleNodeHash 256 (leafAt tree.leaves.toList 0)

/-- The pairs of children hashed to compute the root. -/
def hashedPairs (tree : SparseMerkleTree) : Set (Bytes32 × Bytes32) :=
  FullTree.pairs merkleNodeHash 256 (leafAt tree.leaves.toList 0)

theorem fullRoot_congr {tree tree' : SparseMerkleTree}
    (h : ∀ k : Bytes32, tree.leaves[k]? = tree'.leaves[k]?) : tree.fullRoot = tree'.fullRoot := by
  rw [fullRoot, fullRoot, OrdMap.toList_congr h]

theorem leafAt_keyBits (tree : SparseMerkleTree) (k : Bytes32) :
    leafAt tree.leaves.toList 0 (keyBits k) = (tree.get k).getD (emptyHash 0) := by
  have hkey : ∀ kv : Bytes32 × Bytes32, ((keyBits kv.1).drop 0 == keyBits k) = (kv.1 == k) :=
    fun kv => by
      rw [List.drop_zero, Bool.eq_iff_iff, beq_iff_eq, beq_iff_eq, keyBits_injective.eq_iff]
  unfold leafAt
  simp only [hkey]
  rw [get]
  split
  · next kv hfind =>
    have hk : kv.1 = k := by simpa using List.find?_some hfind
    rw [← hk, OrdMap.mem_toList.1 (List.mem_of_find?_eq_some hfind)]
    rfl
  · next hfind =>
    have hnone : tree.leaves[k]? = none := by
      refine Option.eq_none_iff_forall_ne_some.2 fun v hv => ?_
      simpa using List.find?_eq_none.1 hfind (k, v) (OrdMap.mem_toList.2 hv)
    rw [hnone]
    rfl

/-- **Equal roots have equal leaves** when no two of the pairs hashed for them collide; an absent
leaf counts as the empty leaf. -/
theorem fullRoot_inj {tree tree' : SparseMerkleTree}
    (hinj : Set.InjOn (Function.uncurry merkleNodeHash) (tree.hashedPairs ∪ tree'.hashedPairs))
    (h : tree.fullRoot = tree'.fullRoot) (k : Bytes32) :
    (tree.get k).getD (emptyHash 0) = (tree'.get k).getD (emptyHash 0) := by
  rw [← leafAt_keyBits, ← leafAt_keyBits]
  exact FullTree.root_inj 256 hinj h _ (length_keyBits k)

/-- **One other leaf gives another root** when a node tells its children apart one at a time. -/
theorem fullRoot_ne {tree tree' : SparseMerkleTree}
    (hl : ∀ a a' b, merkleNodeHash a b = merkleNodeHash a' b → a = a')
    (hr : ∀ a b b', merkleNodeHash a b = merkleNodeHash a b' → b = b') {k : Bytes32}
    (hk : (tree.get k).getD (emptyHash 0) ≠ (tree'.get k).getD (emptyHash 0))
    (hsame : ∀ k', k' ≠ k → tree.get k' = tree'.get k') : tree.fullRoot ≠ tree'.fullRoot := by
  refine FullTree.root_ne hl hr 256 (keyBits k) (length_keyBits k) ?_ fun q _ hq => ?_
  · rwa [leafAt_keyBits, leafAt_keyBits]
  · by_cases hkey : ∃ k', keyBits k' = q
    · obtain ⟨k', rfl⟩ := hkey
      rw [leafAt_keyBits, leafAt_keyBits, hsame k' fun heq => hq (congrArg keyBits heq)]
    · -- no key ends at this path
      have hnone : ∀ leaves, leafAt leaves 0 q = emptyHash 0 := fun leaves => by
        have hfind : leaves.find? (fun kv => (keyBits kv.1).drop 0 == q) = none := by
          refine List.find?_eq_none.2 fun kv _ heq => hkey ⟨kv.1, ?_⟩
          rwa [List.drop_zero, beq_iff_eq] at heq
        rw [leafAt, hfind]
      rw [hnone, hnone]

/-! ## The cached root -/

/-- The cache holds the root or nothing. -/
def Coherent (tree : SparseMerkleTree) : Prop := ∀ h, tree.rootHash = some h → h = tree.fullRoot

theorem coherent_of_none {tree : SparseMerkleTree} (h : tree.rootHash = none) : tree.Coherent :=
  fun _ h' => by simp [h] at h'

theorem fullRoot_of_empty {tree : SparseMerkleTree} (h : ∀ k : Bytes32, tree.leaves[k]? = none) :
    tree.fullRoot = emptyHash smtHeight := by
  have hleaf : leafAt [] 0 = fun _ => emptyHash 0 := rfl
  rw [fullRoot, OrdMap.toList_eq_nil h, hleaf, FullTree.root_const, ← emptyHash_eq]
  rfl

/-- Without leaves only equal empty subtrees are hashed together. -/
theorem hashedPairs_of_empty {tree : SparseMerkleTree} (h : ∀ k : Bytes32, tree.leaves[k]? = none) :
    tree.hashedPairs = {p | ∃ i < 256, p = (emptyHash i, emptyHash i)} := by
  have hleaf : leafAt [] 0 = fun _ => emptyHash 0 := rfl
  rw [hashedPairs, OrdMap.toList_eq_nil h, hleaf, FullTree.pairs_const]
  simp only [← emptyHash_eq]

theorem coherent_new : new.Coherent := by
  intro h hh
  rw [fullRoot_of_empty fun k => Std.ExtTreeMap.getElem?_empty]
  exact (Option.some.inj hh).symm

variable {tree : SparseMerkleTree}

theorem root_fst (h : tree.Coherent) : tree.root.1 = tree.fullRoot := by
  unfold root
  split
  · next cached hc => exact h cached hc
  · exact computeSubtreeHashCore_fst 256 le_rfl _ _ _ _

@[simp] theorem root_leaves : tree.root.2.leaves = tree.leaves := by
  unfold root
  split <;> rfl

theorem root_coherent (h : tree.Coherent) : tree.root.2.Coherent := by
  have hroot := root_fst h
  intro r hr
  have hleaves : ∀ k : Bytes32, tree.root.2.leaves[k]? = tree.leaves[k]? := fun k => by
    rw [root_leaves]
  rw [fullRoot_congr hleaves, ← hroot]
  unfold root at hr ⊢
  split at hr <;> simp_all

/-- The second call finds the root in the cache. -/
theorem root_root : tree.root.2.root = tree.root := by
  cases hc : tree.rootHash <;> simp [root, hc]

theorem rootObserved_eq (h : tree.Coherent) : tree.rootObserved = tree.fullRoot := by
  unfold rootObserved
  split
  · next hempty =>
    refine (fullRoot_of_empty fun k => ?_).symm
    rw [Std.ExtTreeMap.isEmpty_iff.1 hempty, Std.ExtTreeMap.getElem?_empty]
  · split
    · next cached hc => exact h cached hc
    · exact computeSubtreeHashCore_fst 256 le_rfl _ _ _ _

end SparseMerkleTree

/-! ## Batches -/

namespace SparseMerkleTree

variable {tree tree' : SparseMerkleTree}

section
omit [Chia]

theorem contains_iff {leaves : IdMap Bytes32} {k : Bytes32} :
    leaves.contains k = true ↔ leaves[k]? ≠ none := by
  rw [Std.ExtTreeMap.contains_eq_isSome_getElem?, Option.isSome_iff_ne_none]

/-- An insertion succeeds when no key has a leaf. -/
theorem batchInsert_eq_ok {entries : List (Bytes32 × Bytes32)} :
    tree.batchInsert entries = .ok tree' ↔ (∀ e ∈ entries, tree.leaves[e.1]? = none) ∧
      { tree with
        leaves := OrdMap.insertAll tree.leaves entries
        rootHash := if entries.isEmpty then tree.rootHash else none } = tree' := by
  have hfind : (entries.find? fun e => tree.leaves.contains e.1) = none ↔
      ∀ e ∈ entries, tree.leaves[e.1]? = none := by
    simp only [List.find?_eq_none, contains_iff, ne_eq, not_not]
  unfold batchInsert
  split
  · next he =>
    rw [← hfind, he]
    simp
  · next he =>
    rw [← hfind, he]
    simp

theorem batchUpdate_eq_ok {entries : List (Bytes32 × Bytes32)} :
    tree.batchUpdate entries = .ok tree' ↔ (∀ e ∈ entries, tree.leaves[e.1]? ≠ none) ∧
      { tree with
        leaves := OrdMap.insertAll tree.leaves entries
        rootHash := if entries.isEmpty then tree.rootHash else none } = tree' := by
  have hfind : (entries.find? fun e => !tree.leaves.contains e.1) = none ↔
      ∀ e ∈ entries, tree.leaves[e.1]? ≠ none := by
    simp only [List.find?_eq_none, Bool.not_eq_true', Bool.not_eq_false, contains_iff]
  unfold batchUpdate
  split
  · next he =>
    rw [← hfind, he]
    simp
  · next he =>
    rw [← hfind, he]
    simp

theorem batchRemove_eq_ok {keys : List Bytes32} :
    tree.batchRemove keys = .ok tree' ↔ (∀ k ∈ keys, tree.leaves[k]? ≠ none) ∧
      { tree with
        leaves := OrdMap.eraseAll tree.leaves keys
        rootHash := if keys.isEmpty then tree.rootHash else none } = tree' := by
  have hfind : (keys.find? fun k => !tree.leaves.contains k) = none ↔
      ∀ k ∈ keys, tree.leaves[k]? ≠ none := by
    simp only [List.find?_eq_none, Bool.not_eq_true', Bool.not_eq_false, contains_iff]
  unfold batchRemove
  split
  · next he =>
    rw [← hfind, he]
    simp
  · next he =>
    rw [← hfind, he]
    simp

/-- A key that has a leaf stops an insertion. -/
theorem batchInsert_known {entries : List (Bytes32 × Bytes32)} {e : Bytes32 × Bytes32}
    (he : e ∈ entries) (hleaf : tree.leaves[e.1]? ≠ none) :
    ∃ err, tree.batchInsert entries = .error err := by
  cases hins : tree.batchInsert entries with
  | error err => exact ⟨err, rfl⟩
  | ok tree' => exact absurd ((batchInsert_eq_ok.1 hins).1 e he) hleaf

/-- A key without a leaf stops a removal. -/
theorem batchRemove_unknown {keys : List Bytes32} {k : Bytes32} (hk : k ∈ keys)
    (hleaf : tree.leaves[k]? = none) : ∃ err, tree.batchRemove keys = .error err := by
  cases hrem : tree.batchRemove keys with
  | error err => exact ⟨err, rfl⟩
  | ok tree' => exact absurd hleaf ((batchRemove_eq_ok.1 hrem).1 k hk)

end

section
variable (tree)

/-- The guard on an empty batch makes no difference. -/
theorem insert_guard (pre : String) (entries : List (Bytes32 × Bytes32)) :
    (if entries.isEmpty then .ok tree else orMerkle pre (tree.batchInsert entries)) =
      orMerkle pre (tree.batchInsert entries) := by
  cases entries with
  | nil => rfl
  | cons e entries => rfl

theorem update_guard (pre : String) (entries : List (Bytes32 × Bytes32)) :
    (if entries.isEmpty then .ok tree else orMerkle pre (tree.batchUpdate entries)) =
      orMerkle pre (tree.batchUpdate entries) := by
  cases entries with
  | nil => rfl
  | cons e entries => rfl

theorem remove_guard (pre : String) (keys : List Bytes32) :
    (if keys.isEmpty then .ok tree else orMerkle pre (tree.batchRemove keys)) =
      orMerkle pre (tree.batchRemove keys) := by
  cases keys with
  | nil => rfl
  | cons k keys => rfl

end

/-- A batch keeps the cache right: it empties it, or it was empty itself. -/
theorem Coherent.batch (h : tree.Coherent) {leaves : IdMap Bytes32} {clean : Bool}
    (hclean : clean = true → leaves = tree.leaves) :
    { tree with leaves, rootHash := if clean then tree.rootHash else none }.Coherent := by
  cases clean with
  | false => exact coherent_of_none rfl
  | true =>
    obtain rfl := hclean rfl
    exact h

theorem batchInsert_spec {entries : List (Bytes32 × Bytes32)} (hc : tree.Coherent)
    (h : tree.batchInsert entries = .ok tree') :
    (∀ e ∈ entries, tree.leaves[e.1]? = none) ∧
      tree'.leaves = OrdMap.insertAll tree.leaves entries ∧ tree'.Coherent := by
  obtain ⟨hnone, rfl⟩ := batchInsert_eq_ok.1 h
  exact ⟨hnone, rfl, hc.batch fun hempty => by rw [List.isEmpty_iff.1 hempty]; rfl⟩

theorem batchUpdate_spec {entries : List (Bytes32 × Bytes32)} (hc : tree.Coherent)
    (h : tree.batchUpdate entries = .ok tree') :
    (∀ e ∈ entries, tree.leaves[e.1]? ≠ none) ∧
      tree'.leaves = OrdMap.insertAll tree.leaves entries ∧ tree'.Coherent := by
  obtain ⟨hsome, rfl⟩ := batchUpdate_eq_ok.1 h
  exact ⟨hsome, rfl, hc.batch fun hempty => by rw [List.isEmpty_iff.1 hempty]; rfl⟩

theorem batchRemove_spec {keys : List Bytes32} (hc : tree.Coherent)
    (h : tree.batchRemove keys = .ok tree') :
    (∀ k ∈ keys, tree.leaves[k]? ≠ none) ∧
      tree'.leaves = OrdMap.eraseAll tree.leaves keys ∧ tree'.Coherent := by
  obtain ⟨hsome, rfl⟩ := batchRemove_eq_ok.1 h
  exact ⟨hsome, rfl, hc.batch fun hempty => by rw [List.isEmpty_iff.1 hempty]; rfl⟩

/-- A key removed from a tree cannot be removed again, whatever is updated in between. -/
theorem batchRemove_again {removed : SparseMerkleTree} (hc : tree.Coherent) {keys : List Bytes32}
    {entries : List (Bytes32 × Bytes32)} (hrem : tree.batchRemove keys = .ok removed)
    (hupd : removed.batchUpdate entries = .ok tree') {k : Bytes32} (hk : k ∈ keys) :
    ∃ err, tree'.batchRemove keys = .error err := by
  obtain ⟨_, hleaves, hcoh⟩ := batchRemove_spec hc hrem
  obtain ⟨hknown, hleaves', _⟩ := batchUpdate_spec hcoh hupd
  have hgone : removed.leaves[k]? = none := by
    rw [hleaves, OrdMap.getElem?_eraseAll, if_pos hk]
  refine batchRemove_unknown hk ?_
  rw [hleaves', OrdMap.getElem?_insertAll_of_not_mem _ _ fun hmem => ?_, hgone]
  obtain ⟨entry, hentry, rfl⟩ := List.mem_map.1 hmem
  exact hknown entry hentry hgone

end SparseMerkleTree

end DigCoinstore
