import Mathlib.Data.Set.Function
import Mathlib.Tactic.Common

/-!
# Full binary hash trees

`root node h leaf`: the root of the full binary tree of height `h` whose leaf at path `p` is
`leaf p`, under the hash `node` of two children. `pairs node h leaf` are the pairs hashed on the
way. A node hash that is injective on the hashed pairs binds: equal roots have equal leaves
(`root_inj`), and a path of siblings that climbs to the root starts at the leaf of its path
(`climb_binding`). The siblings of the tree itself climb to its root (`climb_siblings`).
-/

namespace FullTree

variable {H : Type*} (node : H → H → H)

/-- **The root** of the full tree of height `h`; a path lists the turns from the root. -/
def root : Nat → (List Bool → H) → H
  | 0, leaf => leaf []
  | h + 1, leaf => node (root h fun p => leaf (false :: p)) (root h fun p => leaf (true :: p))

/-- The root of the tree of height `h` all of whose leaves are `e`. -/
def emptyRoot (e : H) : Nat → H
  | 0 => e
  | h + 1 => node (emptyRoot e h) (emptyRoot e h)

/-- The pairs of children hashed to compute `root`. -/
def pairs : Nat → (List Bool → H) → Set (H × H)
  | 0, _ => ∅
  | h + 1, leaf =>
    {(root node h fun p => leaf (false :: p), root node h fun p => leaf (true :: p))} ∪
      (pairs h (fun p => leaf (false :: p)) ∪ pairs h fun p => leaf (true :: p))

theorem root_const (e : H) : ∀ h, root node h (fun _ => e) = emptyRoot node e h
  | 0 => rfl
  | h + 1 => by simp only [root, emptyRoot, root_const e h]

theorem root_congr : ∀ (h : Nat) {f g : List Bool → H}, (∀ p, p.length = h → f p = g p) →
    root node h f = root node h g
  | 0, _, _, hfg => hfg [] rfl
  | h + 1, f, g, hfg => by
    have hl := root_congr h (f := fun p => f (false :: p)) (g := fun p => g (false :: p))
      fun p hp => hfg _ (by simp [hp])
    have hr := root_congr h (f := fun p => f (true :: p)) (g := fun p => g (true :: p))
      fun p hp => hfg _ (by simp [hp])
    simp only [root, hl, hr]

/-- The pairs of a tree of equal leaves. -/
theorem pairs_const (e : H) : ∀ h, pairs node h (fun _ => e) =
    {p | ∃ i < h, p = (emptyRoot node e i, emptyRoot node e i)}
  | 0 => by simp [pairs]
  | h + 1 => by
    ext p
    simp only [pairs, root_const, pairs_const e h, Set.union_self, Set.singleton_union,
      Set.mem_insert_iff, Set.mem_ofPred_eq, Nat.lt_succ_iff_lt_or_eq, or_and_right, exists_or,
      exists_eq_left]
    exact or_comm

variable {node}

/-- **One other leaf gives another root** when a node tells its children apart one at a time. -/
theorem root_ne (hl : ∀ a a' b, node a b = node a' b → a = a')
    (hr : ∀ a b b', node a b = node a b' → b = b') : ∀ (h : Nat) {f g : List Bool → H}
    (p : List Bool), p.length = h → f p ≠ g p → (∀ q, q.length = h → q ≠ p → f q = g q) →
    root node h f ≠ root node h g
  | 0, _, _, p, hp, hne, _ => by
    obtain rfl := List.length_eq_zero_iff.1 hp
    exact hne
  | h + 1, f, g, [], hp, _, _ => by simp at hp
  | h + 1, f, g, b :: p, hp, hne, hsame => by
    have hlen : p.length = h := by simpa using hp
    cases b with
    | false =>
      have hright := root_congr node h (f := fun q => f (true :: q)) (g := fun q => g (true :: q))
        fun q hq => hsame _ (by simp [hq]) (by simp)
      have hleft := root_ne hl hr h (f := fun q => f (false :: q)) (g := fun q => g (false :: q)) p
        hlen hne fun q hq hqp => hsame _ (by simp [hq]) (by simpa using hqp)
      simp only [root, hright]
      exact fun heq => hleft (hl _ _ _ heq)
    | true =>
      have hleft := root_congr node h (f := fun q => f (false :: q)) (g := fun q => g (false :: q))
        fun q hq => hsame _ (by simp [hq]) (by simp)
      have hright := root_ne hl hr h (f := fun q => f (true :: q)) (g := fun q => g (true :: q)) p
        hlen hne fun q hq hqp => hsame _ (by simp [hq]) (by simpa using hqp)
      simp only [root, hleft]
      exact fun heq => hright (hr _ _ _ heq)

/-- **Equal roots have equal leaves**, when no two of the hashed pairs collide. -/
theorem root_inj : ∀ (h : Nat) {f g : List Bool → H},
    Set.InjOn (Function.uncurry node) (pairs node h f ∪ pairs node h g) →
    root node h f = root node h g → ∀ p, p.length = h → f p = g p
  | 0, _, _, _, heq, p, hp => by
    obtain rfl := List.length_eq_zero_iff.1 hp
    exact heq
  | h + 1, f, g, hinj, heq, p, hp => by
    have hpair := hinj (.inl (.inl rfl)) (.inr (.inl rfl)) heq
    obtain ⟨hl, hr⟩ := Prod.mk.inj hpair
    cases p with
    | nil => simp at hp
    | cons b p =>
      have hlen : p.length = h := by simpa using hp
      cases b with
      | false =>
        refine root_inj h (hinj.mono ?_) hl p hlen
        exact Set.union_subset_union (fun _ hx => .inr (.inl hx)) (fun _ hx => .inr (.inl hx))
      | true =>
        refine root_inj h (hinj.mono ?_) hr p hlen
        exact Set.union_subset_union (fun _ hx => .inr (.inr hx)) (fun _ hx => .inr (.inr hx))

/-! ## Subtrees -/

/-- The leaves below the path `p`. -/
def below (leaf : List Bool → H) (p : List Bool) : List Bool → H := fun q => leaf (p ++ q)

theorem below_append (leaf : List Bool → H) (p q : List Bool) :
    below (below leaf p) q = below leaf (p ++ q) :=
  funext fun r => congrArg leaf (List.append_assoc p q r).symm

/-- A subtree hashes nothing that the tree does not hash. -/
theorem pairs_below : ∀ (p : List Bool) (h : Nat) (leaf : List Bool → H),
    pairs node h (below leaf p) ⊆ pairs node (p.length + h) leaf
  | [], h, leaf => by
    rw [List.length_nil, Nat.zero_add]
    exact Set.Subset.rfl
  | b :: p, h, leaf => by
    have ih := pairs_below p h (below leaf [b])
    rw [below_append, List.singleton_append] at ih
    rw [List.length_cons, Nat.add_right_comm]
    cases b with
    | false => exact ih.trans fun _ hx => .inr (.inl hx)
    | true => exact ih.trans fun _ hx => .inr (.inr hx)

/-- **A tree with the root of the empty one is empty**, when no two of the hashed pairs collide. -/
theorem root_eq_emptyRoot_iff {e : H} {h : Nat} {leaf : List Bool → H}
    (hinj : Set.InjOn (Function.uncurry node)
      (pairs node h leaf ∪ {x | ∃ i < h, x = (emptyRoot node e i, emptyRoot node e i)})) :
    root node h leaf = emptyRoot node e h ↔ ∀ p, p.length = h → leaf p = e := by
  rw [← root_const node e h]
  rw [← pairs_const node e h] at hinj
  exact ⟨root_inj h hinj, root_congr node h⟩

/-! ## Paths -/

variable (node)

/-- Hash `v` up the path `bits` with the given siblings, both listed from the root. -/
def climb : List Bool → List H → H → H
  | b :: bits, s :: siblings, v =>
    if b then node s (climb bits siblings v) else node (climb bits siblings v) s
  | _, _, v => v

/-- The pairs of children hashed by `climb`. -/
def climbPairs : List Bool → List H → H → Set (H × H)
  | b :: bits, s :: siblings, v =>
    {if b then (s, climb node bits siblings v) else (climb node bits siblings v, s)} ∪
      climbPairs bits siblings v
  | _, _, _ => ∅

/-- The roots of the subtrees that a path turns away from. -/
def siblings : List Bool → (List Bool → H) → List H
  | [], _ => []
  | b :: bits, leaf =>
    root node bits.length (fun p => leaf ((!b) :: p)) :: siblings bits fun p => leaf (b :: p)

@[simp] theorem length_siblings : ∀ (bits : List Bool) (leaf : List Bool → H),
    (siblings node bits leaf).length = bits.length
  | [], _ => rfl
  | b :: bits, leaf => congrArg (· + 1) (length_siblings bits fun p => leaf (b :: p))

/-- The siblings do not depend on the leaf at the end of the path. -/
theorem siblings_congr : ∀ (bits : List Bool) {f g : List Bool → H},
    (∀ p, p.length = bits.length → p ≠ bits → f p = g p) → siblings node bits f = siblings node bits g
  | [], _, _, _ => rfl
  | b :: bits, f, g, hfg => by
    have hother := root_congr node bits.length (f := fun p => f ((!b) :: p))
      (g := fun p => g ((!b) :: p)) fun p hp => hfg _ (by simp [hp]) (by simp)
    have hrest := siblings_congr bits (f := fun p => f (b :: p)) (g := fun p => g (b :: p))
      fun p hp hne => hfg _ (by simp [hp]) (by simpa using hne)
    rw [siblings, siblings, hother, hrest]

/-- **The siblings of a tree lead to its root.** -/
theorem climb_siblings : ∀ (bits : List Bool) (leaf : List Bool → H),
    climb node bits (siblings node bits leaf) (leaf bits) = root node bits.length leaf
  | [], _ => rfl
  | b :: bits, leaf => by
    have ih := climb_siblings bits fun p => leaf (b :: p)
    rw [siblings, climb, ih]
    cases b <;> rfl

/-- They hash nothing that the tree does not hash. -/
theorem climbPairs_siblings : ∀ (bits : List Bool) (leaf : List Bool → H),
    climbPairs node bits (siblings node bits leaf) (leaf bits) ⊆ pairs node bits.length leaf
  | [], _ => Set.Subset.rfl
  | b :: bits, leaf => by
    have hroot := climb_siblings node bits fun p => leaf (b :: p)
    have ih := climbPairs_siblings bits fun p => leaf (b :: p)
    rw [siblings, climbPairs, hroot, List.length_cons]
    cases b with
    | false => exact Set.union_subset_union Set.Subset.rfl (ih.trans Set.subset_union_left)
    | true => exact Set.union_subset_union Set.Subset.rfl (ih.trans Set.subset_union_right)

/-- Climbing as a loop over the levels, from the leaf up. -/
theorem climb_eq_foldl (z : H) : ∀ (bits : List Bool) (siblings : List H) (v : H),
    siblings.length = bits.length → climb node bits siblings v =
      (List.range bits.length).reverse.foldl (fun current d =>
        if bits.getD d false then node (siblings.getD d z) current
        else node current (siblings.getD d z)) v
  | [], [], _, _ => rfl
  | [], _ :: _, _, hlen => by simp at hlen
  | _ :: _, [], _, hlen => by simp at hlen
  | b :: bits, s :: siblings, v, hlen => by
    have ih := climb_eq_foldl z bits siblings v (by simpa using hlen)
    rw [climb, ih, List.length_cons, List.range_succ_eq_map, List.reverse_cons, List.foldl_append,
      ← List.map_reverse, List.foldl_map]
    simp

/-- The leaf `v` with the siblings of a tree of equal leaves, `i` levels up the path. -/
def climbed (e v : H) (bits : List Bool) (i : Nat) : H :=
  climb node (bits.drop (bits.length - i)) ((List.range i).reverse.map (emptyRoot node e)) v

/-- The pair hashed on the way one level further up. -/
def climbedPair (e v : H) (bits : List Bool) (i : Nat) : H × H :=
  if bits.getD (bits.length - (i + 1)) false then (emptyRoot node e i, climbed node e v bits i)
  else (climbed node e v bits i, emptyRoot node e i)

section
variable (e v : H) (b : Bool) (bits : List Bool)

/-- Below its first turn a path climbs like the rest of it. -/
theorem climbedPair_cons {i : Nat} (hi : i < bits.length) :
    climbedPair node e v (b :: bits) i = climbedPair node e v bits i := by
  have hdrop : (b :: bits).length - i = bits.length - i + 1 := by
    rw [List.length_cons]
    omega
  have hbit : (b :: bits).length - (i + 1) = bits.length - (i + 1) + 1 := by
    rw [List.length_cons]
    omega
  rw [climbedPair, climbedPair, climbed, climbed, hdrop, hbit]
  rfl

/-- The pair at the top of a path. -/
theorem climbedPair_top : climbedPair node e v (b :: bits) bits.length =
    if b then (emptyRoot node e bits.length,
      climb node bits ((List.range bits.length).reverse.map (emptyRoot node e)) v)
    else (climb node bits ((List.range bits.length).reverse.map (emptyRoot node e)) v,
      emptyRoot node e bits.length) := by
  have hclimbed : climbed node e v (b :: bits) bits.length =
      climb node bits ((List.range bits.length).reverse.map (emptyRoot node e)) v := by
    simp [climbed]
  simp [climbedPair, hclimbed]

end

/-- **The pairs of a tree with one leaf**: those on its path, and equal empty subtrees. -/
theorem pairs_single (e v : H) : ∀ bits : List Bool,
    pairs node bits.length (fun p => if p = bits then v else e) ⊆
      {p | ∃ i < bits.length, p = (emptyRoot node e i, emptyRoot node e i) ∨
        p = climbedPair node e v bits i} ∧
    root node bits.length (fun p => if p = bits then v else e) =
      climb node bits ((List.range bits.length).reverse.map (emptyRoot node e)) v
  | [] => ⟨fun _ h => h.elim, by simp [root, climb]⟩
  | b :: bits => by
    obtain ⟨hpairs, hroot⟩ := pairs_single e v bits
    have hsame : (fun p => if b :: p = b :: bits then v else e) =
        fun p => if p = bits then v else e :=
      funext fun p => by simp
    have hother : (fun p => if (!b) :: p = b :: bits then v else e) = fun _ => e :=
      funext fun p => if_neg (by simp)
    have htail : ∀ p, p ∈ pairs node bits.length (fun p => if p = bits then v else e) ∨
        p ∈ pairs node bits.length (fun _ => e) → ∃ i < bits.length + 1,
          p = (emptyRoot node e i, emptyRoot node e i) ∨ p = climbedPair node e v (b :: bits) i := by
      intro p hp
      rw [pairs_const] at hp
      rcases hp with hp | ⟨i, hi, rfl⟩
      · obtain ⟨i, hi, hpair⟩ := hpairs hp
        rw [← climbedPair_cons node e v b bits hi] at hpair
        exact ⟨i, by omega, hpair⟩
      · exact ⟨i, by omega, .inl rfl⟩
    rw [List.length_cons, List.range_succ, List.reverse_append, List.reverse_singleton,
      List.singleton_append, List.map_cons, climb]
    cases b with
    | false =>
      rw [Bool.not_false] at hother
      simp only [pairs, root, hsame, hother, root_const, hroot]
      refine ⟨fun p hp => ?_, rfl⟩
      rcases hp with rfl | hp
      · exact ⟨bits.length, Nat.lt_succ_self _, .inr (by rw [climbedPair_top]; rfl)⟩
      · exact htail p hp
    | true =>
      rw [Bool.not_true] at hother
      simp only [pairs, root, hsame, hother, root_const, hroot]
      refine ⟨fun p hp => ?_, rfl⟩
      rcases hp with rfl | hp
      · exact ⟨bits.length, Nat.lt_succ_self _, .inr (by rw [climbedPair_top]; rfl)⟩
      · exact htail p hp.symm

variable {node}

/-- **A path that climbs to the root starts at the leaf**, when no two hashed pairs collide. -/
theorem climb_binding : ∀ (bits : List Bool) (siblings : List H) (v : H) (leaf : List Bool → H),
    siblings.length = bits.length →
    Set.InjOn (Function.uncurry node)
      (pairs node bits.length leaf ∪ climbPairs node bits siblings v) →
    climb node bits siblings v = root node bits.length leaf → v = leaf bits
  | [], [], _, _, _, _, heq => heq
  | [], _ :: _, _, _, hlen, _, _ => by simp at hlen
  | _ :: _, [], _, _, hlen, _, _ => by simp at hlen
  | b :: bits, s :: siblings, v, leaf, hlen, hinj, heq => by
    have htail : siblings.length = bits.length := by simpa using hlen
    cases b with
    | false =>
      have hpair := hinj (.inr (.inl rfl)) (.inl (.inl rfl)) heq
      refine climb_binding bits siblings v (fun p => leaf (false :: p)) htail (hinj.mono ?_)
        (Prod.mk.inj hpair).1
      exact Set.union_subset_union (fun _ hx => .inr (.inl hx)) (fun _ hx => .inr hx)
    | true =>
      have hpair := hinj (.inr (.inl rfl)) (.inl (.inl rfl)) heq
      refine climb_binding bits siblings v (fun p => leaf (true :: p)) htail (hinj.mono ?_)
        (Prod.mk.inj hpair).2
      exact Set.union_subset_union (fun _ hx => .inr (.inr hx)) (fun _ hx => .inr hx)

end FullTree
