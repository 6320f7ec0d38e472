import DigCoinstore.Merkle.NodeRows
import DigCoinstore.Merkle.Exclusion

/-!
# Stale rows of nodes

The walk of a flush stops at a node without leaves, so the rows below it stay as they were. After
every step of a run the rows are those of the tree exactly when no step empties a node below
another node without leaves (`published_iff`).
-/

namespace DigCoinstore

variable [Chia]

namespace SparseMerkleTree

variable (tree : SparseMerkleTree)

/-- The subtree at `p` holds a leaf with another value than the empty leaf. -/
def Valued (p : List Bool) : Prop := ∃ k v, tree.get k = some v ∧ v ≠ emptyHash 0 ∧ p <+: keyBits k

/-- **The rows on disk are those of the tree**: one for each subtree with a leaf, and the root. -/
structure Persisted.Published (s : Persisted) : Prop where
  nodes : ∀ key value, (s.backend.tables .merkleNodes)[key]? = some value ↔
    ∃ p, p.length ≤ 255 ∧ s.tree.Holds p ∧ key = nodeKey p ∧ value = (s.tree.subtreeHash p).bytes
  root : (s.backend.tables .metadata)[merkleStateRootMetaKey]? = some s.tree.root.1.bytes

/-- **The batch empties no node below another one without leaves**, and leaves no subtree whose
leaves all have the value of the empty leaf. -/
structure Tidy (batch : LeafBatch) : Prop where
  pruned : ∀ p, p.length ≤ 255 → tree.Holds p → ¬ (tree.applyBatch batch).Holds p →
    p = [] ∨ (tree.applyBatch batch).Holds p.dropLast
  valued : ∀ p, p.length ≤ 255 → (tree.applyBatch batch).Holds p → (tree.applyBatch batch).Valued p

variable {tree}

/-- **A subtree hashes to the empty one** exactly if all its leaves have the empty leaf's value. -/
theorem subtreeHash_eq_iff {p : List Bool} (hp : p.length ≤ 256)
    (hinj : Set.InjOn (Function.uncurry merkleNodeHash)
      (tree.hashedPairs ∪ {x | ∃ i < 256, x = (emptyHash i, emptyHash i)})) :
    tree.subtreeHash p = emptyHash (256 - p.length) ↔ ¬ tree.Valued p := by
  have hsub : FullTree.pairs merkleNodeHash (256 - p.length)
      (FullTree.below (leafAt tree.leaves.toList 0) p) ∪ {x | ∃ i < 256 - p.length,
        x = (FullTree.emptyRoot merkleNodeHash (emptyHash 0) i,
          FullTree.emptyRoot merkleNodeHash (emptyHash 0) i)} ⊆
      tree.hashedPairs ∪ {x | ∃ i < 256, x = (emptyHash i, emptyHash i)} := by
    refine Set.union_subset_union ?_ fun x hx => ?_
    · have hpairs : FullTree.pairs merkleNodeHash (256 - p.length) _ ⊆ _ :=
        FullTree.pairs_below p (256 - p.length) (leafAt tree.leaves.toList 0)
      rwa [Nat.add_sub_cancel' hp] at hpairs
    · obtain ⟨i, hi, rfl⟩ := hx
      exact ⟨i, by omega, by rw [← emptyHash_eq]⟩
  rw [subtreeHash, nodeHash, emptyHash_eq, FullTree.root_eq_emptyRoot_iff (hinj.mono hsub)]
  constructor
  · rintro hall ⟨k, v, hk, hv, rest, hrest⟩
    have hlen := congrArg List.length hrest
    rw [List.length_append, length_keyBits] at hlen
    have hleaf := hall rest (by omega)
    rw [FullTree.below, hrest, leafAt_keyBits, hk] at hleaf
    exact hv hleaf
  · intro hnone q hq
    have hlen : (p ++ q).length = 256 := by
      rw [List.length_append]
      omega
    rw [FullTree.below, ← keyBits_pathOf hlen, leafAt_keyBits]
    cases hk : tree.get (pathOf (p ++ q)) with
    | none => rfl
    | some v =>
      by_contra hv
      refine hnone ⟨_, v, hk, hv, ?_⟩
      rw [keyBits_pathOf hlen]
      exact List.prefix_append p q

theorem Valued.congr {tree' : SparseMerkleTree} {p : List Bool}
    (hleaves : tree'.leaves = tree.leaves) : tree'.Valued p ↔ tree.Valued p := by
  rw [Valued, Valued]
  simp only [get, hleaves]

/-! ## One step -/

namespace Persisted

variable {s : Persisted}

/-- Each node above the leaves has its row or none. -/
def NodesExact (s : Persisted) : Prop := ∀ p, p.length ≤ 255 →
  (s.tree.Holds p →
    (s.backend.tables .merkleNodes)[nodeKey p]? = some (s.tree.subtreeHash p).bytes) ∧
  (¬ s.tree.Holds p → (s.backend.tables .merkleNodes)[nodeKey p]? = none)

theorem nodesExact_new : new.NodesExact := fun p _ => by
  have hnone : (new.backend.tables .merkleNodes)[nodeKey p]? = none := Std.ExtTreeMap.getElem?_empty
  exact ⟨fun ⟨k, hk, _⟩ => absurd Std.ExtTreeMap.getElem?_empty hk, fun _ => hnone⟩

/-- There are no rows but those of the nodes. -/
theorem Flushed.nodes_iff (h : s.Flushed) : s.NodesExact ↔
    ∀ key value, (s.backend.tables .merkleNodes)[key]? = some value ↔
      ∃ p, p.length ≤ 255 ∧ s.tree.Holds p ∧ key = nodeKey p ∧
        value = (s.tree.subtreeHash p).bytes := by
  constructor
  · intro hexact key value
    constructor
    · intro hrow
      obtain ⟨p, hp, rfl⟩ := h.keys key value hrow
      obtain ⟨hheld, hempty⟩ := hexact p hp
      by_cases hholds : s.tree.Holds p
      · exact ⟨p, hp, hholds, rfl, Option.some.inj (hrow.symm.trans (hheld hholds))⟩
      · rw [hempty hholds] at hrow
        cases hrow
    · rintro ⟨p, hp, hholds, rfl, rfl⟩
      exact (hexact p hp).1 hholds
  · intro hrows p hp
    refine ⟨fun hholds => (hrows _ _).2 ⟨p, hp, hholds, rfl, rfl⟩, fun hempty => ?_⟩
    refine Option.eq_none_iff_forall_ne_some.2 fun value hrow => ?_
    obtain ⟨q, hq, hholds, hkey, _⟩ := (hrows _ _).1 hrow
    rw [nodeKey_inj hp hq hkey] at hempty
    exact hempty hholds

/-- **When a step keeps the rows exact.** -/
theorem Flushed.nodesExact_step_iff (h : s.Flushed) (hs : s.NodesExact) (next : FlushStep)
    (hinj : Set.InjOn (Function.uncurry merkleNodeHash)
      ((s.step next).tree.hashedPairs ∪ {x | ∃ i < 256, x = (emptyHash i, emptyHash i)})) :
    (s.step next).NodesExact ↔ s.tree.Tidy next.leafBatch := by
  obtain ⟨_, hleaves, _⟩ := h.step_tree next
  obtain ⟨hvisited, hother⟩ := h.step_rows next
  have hholds : ∀ p, (s.tree.applyBatch next.leafBatch).Holds p ↔ (s.step next).tree.Holds p :=
    fun p => Holds.congr hleaves.symm
  have hvalued : ∀ p, (s.tree.applyBatch next.leafBatch).Valued p ↔ (s.step next).tree.Valued p :=
    fun p => Valued.congr hleaves.symm
  -- the row of a node that the walk does not come to is the old one
  have hkept : ∀ p, p.length ≤ 255 → ¬ (s.step next).tree.Visited p →
      ((s.step next).backend.tables .merkleNodes)[nodeKey p]? =
        (s.backend.tables .merkleNodes)[nodeKey p]? := fun p hp hvis =>
    hother _ fun q hq hq' heq => hvis (nodeKey_inj hq hp heq ▸ hq')
  constructor
  · intro hexact
    constructor
    · intro p hp hheld hempty
      rw [hholds] at hempty
      by_contra hcontra
      rw [hholds] at hcontra
      have hrow := hkept p hp hcontra
      rw [(hs p hp).1 hheld, (hexact p hp).2 hempty] at hrow
      cases hrow
    · intro p hp hheld
      rw [hholds] at hheld
      rw [hvalued]
      by_contra hnot
      have hrow := hvisited p hp hheld.visited
      rw [rowAt_eq, if_pos ((subtreeHash_eq_iff (by omega) hinj).2 hnot),
        (hexact p hp).1 hheld] at hrow
      cases hrow
  · rintro ⟨hpruned, hval⟩ p hp
    constructor
    · intro hheld
      have hnonempty : (s.step next).tree.Valued p :=
        (hvalued p).1 (hval p hp ((hholds p).2 hheld))
      rw [hvisited p hp hheld.visited, rowAt_eq,
        if_neg fun heq => (subtreeHash_eq_iff (by omega) hinj).1 heq hnonempty]
    · intro hempty
      by_cases hvis : (s.step next).tree.Visited p
      · have hnot : ¬ (s.step next).tree.Valued p := fun ⟨k, v, hk, _, hpre⟩ =>
          hempty ⟨k, by simp [hk], hpre⟩
        rw [hvisited p hp hvis, rowAt_eq, if_pos ((subtreeHash_eq_iff (by omega) hinj).2 hnot)]
      · rw [hkept p hp hvis]
        refine (hs p hp).2 fun hheld => hvis ?_
        refine (hpruned p hp hheld fun hnew => hempty ((hholds p).1 hnew)).imp id fun hparent => ?_
        exact (hholds _).1 hparent

/-- The root row after a step. -/
theorem Flushed.root_row (h : s.Flushed) (next : FlushStep) :
    ((s.step next).backend.tables .metadata)[merkleStateRootMetaKey]? =
      some (s.step next).tree.root.1.bytes := by
  obtain ⟨htree, _, hbackend⟩ := h.step_tree next
  have hroot : (s.step next).tree.root.1 = (s.tree.applyBatch next.leafBatch).root.1 := by
    rw [htree]
    cases hcache : (s.tree.applyBatch next.leafBatch).rootHash <;> simp [root, clearDirty, hcache]
  rw [hroot, hbackend]
  exact flush_root _ _

/-- After a step, the rows are those of the tree if those of the nodes are. -/
theorem Flushed.published_step_iff (h : s.Flushed) (next : FlushStep) :
    (s.step next).Published ↔ (s.step next).NodesExact := by
  rw [(h.step next).nodes_iff]
  exact ⟨fun hp => hp.nodes, fun hnodes => ⟨hnodes, h.root_row next⟩⟩

end Persisted

/-! ## Runs -/

theorem persist_concat (done : List FlushStep) (next : FlushStep) :
    persist (done ++ [next]) = (persist done).step next := List.foldl_concat ..

/-- The pairs hashed in the course of a run. -/
def runPairs (steps : List FlushStep) : Set (Bytes32 × Bytes32) :=
  {x | ∃ done, done <+: steps ∧ x ∈ (persist done).tree.hashedPairs}

/-- The pairs of a state of the run, and those of the empty tree. -/
theorem statePairs_subset {done steps : List FlushStep} (h : done <+: steps) :
    (persist done).tree.hashedPairs ∪ {x | ∃ i < 256, x = (emptyHash i, emptyHash i)} ⊆
      runPairs steps := by
  refine Set.union_subset (fun x hx => ⟨done, h, hx⟩) fun x hx => ⟨[], List.nil_prefix, ?_⟩
  have hempty : SparseMerkleTree.new.hashedPairs = {x | ∃ i < 256, x = (emptyHash i, emptyHash i)} :=
    hashedPairs_of_empty fun k => Std.ExtTreeMap.getElem?_empty
  exact hempty.symm ▸ hx

/-- **When the rows on disk are those of the tree**, after each step of a run in which no two of
the hashed pairs collide: exactly if every step is tidy. -/
theorem published_iff (steps : List FlushStep)
    (hinj : Set.InjOn (Function.uncurry merkleNodeHash) (runPairs steps)) :
    (∀ done next, done ++ [next] <+: steps → (persist (done ++ [next])).Published) ↔
      ∀ done next, done ++ [next] <+: steps → (persist done).tree.Tidy next.leafBatch := by
  have hstep : ∀ done next, done ++ [next] <+: steps → (persist done).NodesExact →
      ((persist (done ++ [next])).Published ↔ (persist done).tree.Tidy next.leafBatch) := by
    intro done next hpre hexact
    have hinj' := hinj.mono (statePairs_subset hpre)
    rw [persist_concat] at hinj' ⊢
    rw [(flushed_persist done).published_step_iff next,
      (flushed_persist done).nodesExact_step_iff hexact next hinj']
  constructor
  · intro hpub done next hpre
    refine (hstep done next hpre ?_).1 (hpub done next hpre)
    rcases List.eq_nil_or_concat done with rfl | ⟨before, last, rfl⟩
    · exact Persisted.nodesExact_new
    · rw [List.concat_eq_append] at hpre ⊢
      have hlast := hpub before last ((List.prefix_append _ _).trans hpre)
      exact (flushed_persist _).nodes_iff.2 hlast.nodes
  · intro htidy
    have hexact : ∀ done, done <+: steps → (persist done).NodesExact := by
      intro done
      induction done using List.reverseRecOn with
      | nil => exact fun _ => Persisted.nodesExact_new
      | append_singleton done next ih =>
        intro hpre
        have hbefore := ih ((List.prefix_append _ _).trans hpre)
        have hpub := (hstep done next hpre hbefore).2 (htidy done next hpre)
        exact (flushed_persist _).nodes_iff.2 hpub.nodes
    intro done next hpre
    exact (hstep done next hpre (hexact done ((List.prefix_append _ _).trans hpre))).2
      (htidy done next hpre)

end SparseMerkleTree

end DigCoinstore

namespace DigCoinstore.SparseMerkleTree

open Sample

/-- Coin 1 gets its leaf. -/
def insertStep : FlushStep where
  leafBatch := .insert [(ofNum 1, CoinStore.leafHash (.new (coin 1) 0 10 false))]
  staged := .new
  other := List.not_mem_nil

/-- Coin 1 loses its leaf. -/
def removeStep : FlushStep where
  leafBatch := .remove [ofNum 1]
  staged := .new
  other := List.not_mem_nil

theorem applyBatch_insertStep : new.applyBatch insertStep.leafBatch = oneLeaf := by
  have hins : new.batchInsert [(ofNum 1, CoinStore.leafHash (.new (coin 1) 0 10 false))] =
      .ok oneLeaf :=
    batchInsert_eq_ok.2 ⟨fun e _ => Std.ExtTreeMap.getElem?_empty, rfl⟩
  rw [insertStep, applyBatch, hins, orKeep]

theorem persist_insertStep : persist [insertStep] = Persisted.new.step insertStep :=
  persist_concat [] insertStep

theorem persist_insertStep_leaves : (persist [insertStep]).tree.leaves = oneLeaf.leaves := by
  rw [persist_insertStep, (Persisted.flushed_new.step_tree insertStep).2.1]
  exact congrArg leaves applyBatch_insertStep

theorem runPairs_insertStep : runPairs [insertStep] ⊆ oneLeafPairs := by
  rintro x ⟨done, hpre, hx⟩
  rcases List.prefix_cons_iff.1 hpre with rfl | ⟨rest, rfl, hrest⟩
  · have hempty : new.hashedPairs = _ :=
      hashedPairs_of_empty fun k => Std.ExtTreeMap.getElem?_empty
    rw [show (persist []).tree = new from rfl, hempty] at hx
    obtain ⟨i, hi, rfl⟩ := hx
    exact ⟨i, hi, .inl (by rw [← emptyHash_eq])⟩
  · obtain rfl := List.prefix_nil.1 hrest
    rw [hashedPairs, persist_insertStep_leaves] at hx
    exact hashedPairs_oneLeaf hx

/-- One leaf inserted. -/
theorem published_insertStep : (persist [insertStep]).Published := by
  refine (published_iff [insertStep] (injOn_oneLeafPairs.mono runPairs_insertStep)).2 ?_ [] insertStep
    List.prefix_rfl
  intro done next hpre
  rcases List.prefix_cons_iff.1 hpre with hnil | ⟨rest, hcons, hrest⟩
  · simp at hnil
  obtain rfl := List.prefix_nil.1 hrest
  obtain ⟨rfl, hnext⟩ := List.append_eq_singleton_iff.1 hcons |>.resolve_right fun h => by simp at h
  obtain rfl := (List.cons.inj hnext).1
  have hnew : ∀ p, ¬ new.Holds p := fun p ⟨k, hk, _⟩ => hk Std.ExtTreeMap.getElem?_empty
  constructor
  · intro p _ hheld
    exact absurd hheld (hnew p)
  · intro p _ hheld
    rw [show (persist []).tree = new from rfl, applyBatch_insertStep] at hheld ⊢
    obtain ⟨k, hk, hpre⟩ := hheld
    rw [get_oneLeaf] at hk
    split at hk
    · next heq =>
      refine ⟨k, _, ?_, leafHash_ne_empty, hpre⟩
      rw [get_oneLeaf, if_pos heq]
    · exact absurd rfl hk

/-- After the leaf is removed the tree is empty, and the row of the node at level 1 is still there. -/
theorem stale_row : (∀ k, (persist [insertStep, removeStep]).tree.get k = none) ∧
    ((persist [insertStep, removeStep]).backend.tables .merkleNodes)[nodeKey [false]]? ≠ none ∧
    ¬ (persist [insertStep, removeStep]).Published := by
  have hflushed : (persist [insertStep]).Flushed := flushed_persist [insertStep]
  have hrun : persist [insertStep, removeStep] = (persist [insertStep]).step removeStep :=
    persist_concat [insertStep] removeStep
  have hget : ∀ k, (persist [insertStep]).tree.get k = oneLeaf.get k := fun k => by
    rw [get, get, persist_insertStep_leaves]
  -- the second batch empties the tree
  have hempty : ∀ k, (persist [insertStep, removeStep]).tree.get k = none := fun k => by
    obtain ⟨_, hleaves, _⟩ := hflushed.step_tree removeStep
    have hrem : (persist [insertStep]).tree.batchRemove [ofNum 1] = .ok
        { (persist [insertStep]).tree with
          leaves := OrdMap.eraseAll (persist [insertStep]).tree.leaves [ofNum 1]
          rootHash := none } := by
      refine batchRemove_eq_ok.2 ⟨fun k hk => ?_, rfl⟩
      obtain rfl := List.mem_singleton.1 hk
      have hone := hget (ofNum 1)
      rw [get_oneLeaf, if_pos rfl] at hone
      exact fun hnone => absurd (hone.symm.trans hnone) (Option.some_ne_none _)
    rw [hrun, get, hleaves, removeStep, applyBatch, hrem, orKeep, OrdMap.getElem?_eraseAll,
      persist_insertStep_leaves]
    split
    · rfl
    · next hk =>
      have hone := get_oneLeaf k
      rwa [if_neg fun heq : ofNum 1 = k => hk (heq ▸ List.mem_singleton_self _)] at hone
  have hholds : ∀ p, ¬ (persist [insertStep, removeStep]).tree.Holds p := by
    intro p hp
    obtain ⟨k, hk, _⟩ := hp
    exact hk (hempty k)
  have hpath : [false] <+: keyBits (ofNum 1) := by decide
  have hheld : (persist [insertStep]).tree.Holds [false] := by
    refine ⟨ofNum 1, ?_, hpath⟩
    rw [hget, get_oneLeaf, if_pos rfl]
    exact Option.some_ne_none _
  have hrow : ((persist [insertStep, removeStep]).backend.tables .merkleNodes)[nodeKey [false]]? ≠
      none := by
    have hvalued : (persist [insertStep]).tree.Valued [false] := by
      refine ⟨ofNum 1, _, ?_, leafHash_ne_empty, hpath⟩
      rw [hget, get_oneLeaf, if_pos rfl]
    have hne := fun heq => (subtreeHash_eq_iff (by decide) (injOn_oneLeafPairs.mono
      ((statePairs_subset List.prefix_rfl).trans runPairs_insertStep))).1 heq hvalued
    have hstays := (hflushed.step_rows removeStep).2 (nodeKey [false]) fun q hq hvis heq => by
      obtain rfl := nodeKey_inj hq (by decide) heq
      rw [← hrun] at hvis
      exact hholds [] (hvis.resolve_left (by decide))
    rw [hrun, hstays, hflushed.visited [false] (by decide) hheld.visited, rowAt_eq, if_neg hne]
    exact Option.some_ne_none _
  refine ⟨hempty, hrow, fun hpub => ?_⟩
  obtain ⟨value, hvalue⟩ := Option.ne_none_iff_exists'.1 hrow
  obtain ⟨p, _, hp, _⟩ := (hpub.nodes _ _).1 hvalue
  exact hholds p hp

end DigCoinstore.SparseMerkleTree
