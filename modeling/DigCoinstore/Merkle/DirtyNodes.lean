import DigCoinstore.Merkle.Pruning

/-!
# The dirty map after a recompute (`merkle/mod.rs`)

A `root` call that recomputes the root records a write for each subtree above the leaves that holds
a leaf, a deletion for the empty siblings of such subtrees, and nothing else
(`root_dirtyNodes_exact`).
-/

namespace DigCoinstore

variable [Chia]

namespace SparseMerkleTree

variable (tree : SparseMerkleTree)

/-- The accessor of the pending node writes. -/
def dirtyNodes : DirtyNodes := tree.dirtyMerkleNodes

/-- There is no leaf below `p`, and one below the sibling of `p`. -/
def EmptySibling (p : List Bool) : Prop :=
  ∃ q b, p = q ++ [b] ∧ ¬ tree.Holds p ∧ tree.Holds (q ++ [!b])

variable {tree}

/-! ## Visited positions -/

omit [Chia] in
theorem holds_child {q : List Bool} (hq : q.length < 256) (h : tree.Holds q) :
    ∃ b, tree.Holds (q ++ [b]) := by
  obtain ⟨k, hk, hpre⟩ := h
  exact ⟨getBit k q.length, k, hk, (prefix_concat_keyBits hq _ k).2 ⟨hpre, rfl⟩⟩

omit [Chia] in
/-- **The visited positions without a leaf** are the empty siblings of positions with one. -/
theorem visited_empty_iff (hroot : tree.Holds []) {p : List Bool} (hp : p.length ≤ 256) :
    tree.Visited p ∧ ¬ tree.Holds p ↔ tree.EmptySibling p := by
  constructor
  · rintro ⟨hvis, hempty⟩
    rcases List.eq_nil_or_concat p with rfl | ⟨q, b, rfl⟩
    · exact absurd hroot hempty
    · rw [List.concat_eq_append] at *
      rw [List.length_append, List.length_singleton] at hp
      have hparent : tree.Holds q := by
        simpa using hvis.resolve_left (by simp)
      obtain ⟨b', hchild⟩ := holds_child (by omega) hparent
      have hb : b' = !b := by
        cases b <;> cases b' <;> first | rfl | exact absurd hchild hempty
      exact ⟨q, b, rfl, hempty, hb ▸ hchild⟩
  · rintro ⟨q, b, rfl, hempty, hsibling⟩
    refine ⟨.inr ?_, hempty⟩
    rw [List.dropLast_concat]
    exact hsibling.mono (List.prefix_append q _)

/-! ## Recorded operations -/

theorem root_dirty_get (hroot : tree.rootHash = none) {key : Bytes} {op : MerkleNodePersistOp} :
    tree.root.2.dirtyNodes[key]? = some op ↔
      ∃ p, p.length ≤ 255 ∧ tree.Visited p ∧ key = nodeKey p ∧
        nodeOp (leafAt tree.leaves.toList 0) p = op := by
  obtain ⟨hmem, hnot⟩ := root_dirty hroot
  constructor
  · intro hget
    by_contra hnone
    have hkey : ∀ p, p.length ≤ 255 → tree.Visited p → nodeKey p ≠ key := by
      rintro p hp hvis rfl
      have hop := (hmem p hp hvis).symm.trans hget
      exact hnone ⟨p, hp, hvis, rfl, Option.some.inj hop⟩
    exact absurd ((hnot key hkey).symm.trans hget) (Option.some_ne_none op).symm
  · rintro ⟨p, hp, hvis, rfl, rfl⟩
    exact hmem p hp hvis

section
variable (hleaf : ∀ k, tree.get k ≠ some (emptyHash 0))
  (hinj : Set.InjOn (Function.uncurry merkleNodeHash)
    (tree.hashedPairs ∪ {x | ∃ i < 256, x = (emptyHash i, emptyHash i)}))
include hleaf hinj

/-- Without empty leaves, exactly the subtrees without a leaf hash to the empty one. -/
theorem subtreeHash_empty_iff {p : List Bool} (hp : p.length ≤ 256) :
    tree.subtreeHash p = emptyHash (256 - p.length) ↔ ¬ tree.Holds p := by
  rw [subtreeHash_eq_iff hp hinj, not_iff_not]
  constructor
  · rintro ⟨k, v, hk, _, hpre⟩
    exact ⟨k, by simp [hk], hpre⟩
  · rintro ⟨k, hk, hpre⟩
    obtain ⟨v, hv⟩ := Option.ne_none_iff_exists'.1 hk
    exact ⟨k, v, hv, fun heq => hleaf k (heq ▸ hv), hpre⟩

theorem nodeOp_eq_put {p : List Bool} (hp : p.length ≤ 255) {h : Bytes32} :
    nodeOp (leafAt tree.leaves.toList 0) p = .put h ↔ tree.Holds p ∧ h = tree.subtreeHash p := by
  have hempty := subtreeHash_empty_iff hleaf hinj (p := p) (by omega)
  rw [subtreeHash] at hempty
  rw [nodeOp, subtreeHash]
  split
  · next heq =>
    have hnot := hempty.1 heq
    refine iff_of_false ?_ fun hholds => hnot hholds.1
    intro hop
    cases hop
  · next hne =>
    have hholds : tree.Holds p := by
      by_contra hnot
      exact hne (hempty.2 hnot)
    rw [MerkleNodePersistOp.put.injEq, and_iff_right hholds, eq_comm]

theorem nodeOp_eq_delete {p : List Bool} (hp : p.length ≤ 255) :
    nodeOp (leafAt tree.leaves.toList 0) p = .delete ↔ ¬ tree.Holds p := by
  rw [← subtreeHash_empty_iff hleaf hinj (p := p) (by omega), nodeOp, subtreeHash]
  split
  · next heq => exact iff_of_true rfl heq
  · next hne =>
    refine iff_of_false ?_ hne
    intro hop
    cases hop

/-- **The dirty map is exact.** A tree with a leaf, none of them the empty one, recomputes its root,
and no two of the hashed pairs collide. Then the map has a write for each prefix shorter than 256
with a leaf below it, a deletion for each empty sibling of one, and no other entry; different
prefixes have different keys. -/
theorem root_dirtyNodes_exact (hroot : tree.rootHash = none) (hsome : ∃ k, tree.get k ≠ none) :
    (∀ key h, tree.root.2.dirtyNodes[key]? = some (.put h) ↔
      ∃ p, p.length < 256 ∧ tree.Holds p ∧ key = nodeKey p ∧ h = tree.subtreeHash p) ∧
    (∀ key, tree.root.2.dirtyNodes[key]? = some .delete ↔
      ∃ p, p.length < 256 ∧ tree.EmptySibling p ∧ key = nodeKey p) ∧
    ∀ p q : List Bool, p.length < 256 → q.length < 256 → nodeKey p = nodeKey q → p = q := by
  have hnonempty : tree.Holds [] := by
    obtain ⟨k, hk⟩ := hsome
    exact ⟨k, hk, List.nil_prefix⟩
  refine ⟨fun key h => ?_, fun key => ?_, fun p q hp hq => nodeKey_inj (by omega) (by omega)⟩
  · rw [root_dirty_get hroot]
    constructor
    · rintro ⟨p, hp, _, hkey, hop⟩
      obtain ⟨hholds, hhash⟩ := (nodeOp_eq_put hleaf hinj hp).1 hop
      exact ⟨p, by omega, hholds, hkey, hhash⟩
    · rintro ⟨p, hp, hholds, hkey, hhash⟩
      have hop := (nodeOp_eq_put hleaf hinj (by omega)).2 ⟨hholds, hhash⟩
      exact ⟨p, by omega, hholds.visited, hkey, hop⟩
  · rw [root_dirty_get hroot]
    constructor
    · rintro ⟨p, hp, hvis, hkey, hop⟩
      have hnot := (nodeOp_eq_delete hleaf hinj hp).1 hop
      exact ⟨p, by omega, (visited_empty_iff hnonempty (by omega)).1 ⟨hvis, hnot⟩, hkey⟩
    · rintro ⟨p, hp, hsibling, hkey⟩
      obtain ⟨hvis, hnot⟩ := (visited_empty_iff hnonempty (by omega)).2 hsibling
      exact ⟨p, by omega, hvis, hkey, (nodeOp_eq_delete hleaf hinj (by omega)).2 hnot⟩

end

end SparseMerkleTree

end DigCoinstore

namespace DigCoinstore.SparseMerkleTree

open Sample

theorem root_dirtyNodes_oneLeaf :
    oneLeaf.root.2.dirtyNodes[nodeKey [false]]? = some (.put (oneLeaf.subtreeHash [false])) ∧
      oneLeaf.root.2.dirtyNodes[nodeKey [true]]? = some .delete := by
  have hone : oneLeaf.get (ofNum 1) ≠ none := by
    rw [get_oneLeaf, if_pos rfl]
    exact Option.some_ne_none _
  have hleaf : ∀ k, oneLeaf.get k ≠ some (emptyHash 0) := fun k => by
    rw [get_oneLeaf]
    split
    · exact fun heq => leafHash_ne_empty (Option.some.inj heq)
    · exact fun heq => nomatch heq
  have hpairs : oneLeaf.hashedPairs ∪ {x | ∃ i < 256, x = (emptyHash i, emptyHash i)} ⊆
      oneLeafPairs := by
    refine Set.union_subset hashedPairs_oneLeaf ?_
    rintro x ⟨i, hi, rfl⟩
    exact ⟨i, hi, .inl (by rw [← emptyHash_eq])⟩
  obtain ⟨hput, hdelete, _⟩ :=
    root_dirtyNodes_exact hleaf (injOn_oneLeafPairs.mono hpairs) rfl ⟨ofNum 1, hone⟩
  have hpath : [false] <+: keyBits (ofNum 1) := by decide
  have hheld : oneLeaf.Holds [false] := ⟨ofNum 1, hone, hpath⟩
  have hempty : ¬ oneLeaf.Holds [true] := by
    rintro ⟨k, hk, hpre⟩
    rw [get_oneLeaf] at hk
    split at hk
    · next heq =>
      subst heq
      have hbit := List.prefix_of_prefix_length_le hpre hpath le_rfl
      exact absurd hbit (by decide)
    · exact hk rfl
  exact ⟨(hput _ _).2 ⟨[false], by decide, hheld, rfl, rfl⟩,
    (hdelete _).2 ⟨[true], by decide, ⟨[], true, rfl, hempty, hheld⟩, rfl⟩⟩

end DigCoinstore.SparseMerkleTree
