import DigCoinstore.Merkle.Paths

/-!
# The nodes that the walk records

`visits` lists the positions that `computeSubtreeHashCore` comes to: the walk goes on below a node
that holds a leaf and stops at one that does not (`mem_visits`). At each of them it records the
hash of the subtree, or a deletion where that is the hash of the empty one
(`computeSubtreeHashCore_snd`, `getElem?_recordAll`).
-/

namespace DigCoinstore

/-! ## Rows of nodes -/

/-- The key of the row of the node at `p`. -/
def nodeKey (p : List Bool) : Bytes := merkleNodeKey (UInt8.ofNat p.length) (pathOf p)

/-- The nodes above the leaves have different keys. -/
theorem nodeKey_inj {p p' : List Bool} (hp : p.length ≤ 255) (hp' : p'.length ≤ 255)
    (h : nodeKey p = nodeKey p') : p = p' := by
  obtain ⟨hlevel, hpath⟩ := List.cons.inj h
  have hlen : p.length = p'.length := by
    have htoNat := congrArg UInt8.toNat hlevel
    rwa [UInt8.toNat_ofNat', UInt8.toNat_ofNat', Nat.mod_eq_of_lt (by omega),
      Nat.mod_eq_of_lt (by omega)] at htoNat
  exact (pathOf_inj hlen (by omega)).1 (Bytes32.ext hpath)

/-! ## Visited positions -/

/-- The positions that the walk over `leaves` comes to from `p`, `levels` levels above the leaves. -/
def visits : (levels : Nat) → (leaves : List (Bytes32 × Bytes32)) → (p : List Bool) → List (List Bool)
  | _, [], p => [p]
  | 0, _ :: _, p => [p]
  | levels + 1, leaf :: rest, p =>
    visits levels ((leaf :: rest).filter fun kv => !getBit kv.1 p.length) (p ++ [false]) ++
      visits levels ((leaf :: rest).filter fun kv => getBit kv.1 p.length) (p ++ [true]) ++ [p]

/-- Some of the leaves lies below `p`. -/
def Occupies (leaves : List (Bytes32 × Bytes32)) (p : List Bool) : Prop :=
  ∃ kv ∈ leaves, p <+: keyBits kv.1

theorem prefix_concat_keyBits {p : List Bool} (hp : p.length < 256) (b : Bool) (key : Bytes32) :
    p ++ [b] <+: keyBits key ↔ p <+: keyBits key ∧ getBit key p.length = b := by
  constructor
  · intro h
    refine ⟨(List.prefix_append p [b]).trans h, ?_⟩
    obtain ⟨rest, hrest⟩ := h
    have hdrop := congrArg (List.drop p.length) hrest
    rw [List.append_assoc, List.drop_left, keyBits_drop key hp] at hdrop
    exact (List.cons.inj hdrop).1.symm
  · rintro ⟨⟨rest, hrest⟩, hbit⟩
    have hdrop := congrArg (List.drop p.length) hrest
    rw [List.drop_left, keyBits_drop key hp, hbit] at hdrop
    refine ⟨(keyBits key).drop (p.length + 1), ?_⟩
    rw [List.append_assoc]
    exact (congrArg (p ++ ·) hdrop.symm).trans hrest

/-- **The visited positions**: the start, and the children of the nodes with a leaf. -/
theorem mem_visits (all : List (Bytes32 × Bytes32)) : ∀ (levels : Nat)
    (leaves : List (Bytes32 × Bytes32)) (p : List Bool), p.length + levels = 256 →
    (∀ kv, kv ∈ leaves ↔ kv ∈ all ∧ p <+: keyBits kv.1) → ∀ q, q ∈ visits levels leaves p ↔
      p <+: q ∧ q.length ≤ 256 ∧ (q = p ∨ Occupies all q.dropLast)
  | levels, [], p, hlen, hleaves, q => by
    have hvisits : visits levels [] p = [p] := by cases levels <;> rfl
    rw [hvisits, List.mem_singleton]
    constructor
    · rintro rfl
      exact ⟨List.prefix_rfl, by omega, .inl rfl⟩
    · rintro ⟨hpq, _, hq | ⟨kv, hkv, hpre⟩⟩
      · exact hq
      · by_contra hne
        have hp : p <+: q.dropLast := by
          obtain ⟨rest, rfl⟩ := hpq
          rw [List.dropLast_append_of_ne_nil fun h => hne (by rw [h, List.append_nil])]
          exact List.prefix_append _ _
        exact nomatch (hleaves kv).2 ⟨hkv, hp.trans hpre⟩
  | 0, leaf :: rest, p, hlen, _, q => by
    rw [visits, List.mem_singleton]
    constructor
    · rintro rfl
      exact ⟨List.prefix_rfl, by omega, .inl rfl⟩
    · rintro ⟨hpq, hq, _⟩
      exact (hpq.eq_of_length_le (by omega)).symm
  | levels + 1, leaf :: rest, p, hlen, hleaves, q => by
    have hp : p.length < 256 := by omega
    have hchild : ∀ b, (p ++ [b]).length + levels = 256 := fun b => by
      rw [List.length_append, List.length_singleton]
      omega
    have hside : ∀ b, ∀ kv, kv ∈ (leaf :: rest).filter (fun kv => getBit kv.1 p.length == b) ↔
        kv ∈ all ∧ p ++ [b] <+: keyBits kv.1 := fun b kv => by
      rw [List.mem_filter, hleaves, beq_iff_eq, prefix_concat_keyBits hp, and_assoc]
    have hleft := mem_visits all levels _ _ (hchild false) (hside false) q
    have hright := mem_visits all levels _ _ (hchild true) (hside true) q
    simp only [beq_false, beq_true] at hleft hright
    rw [visits, List.mem_append, List.mem_append, List.mem_singleton, hleft, hright]
    -- the node itself holds a leaf
    have hocc : Occupies all p := by
      obtain ⟨hmem, hpre⟩ := (hleaves leaf).1 (.head _)
      exact ⟨leaf, hmem, hpre⟩
    have hstep : ∀ b, p ++ [b] <+: q ∧ q.length ≤ 256 ∧ (q = p ++ [b] ∨ Occupies all q.dropLast) →
        p <+: q ∧ q.length ≤ 256 ∧ (q = p ∨ Occupies all q.dropLast) := by
      rintro b ⟨hpq, hq, hvis⟩
      refine ⟨(List.prefix_append p [b]).trans hpq, hq, .inr ?_⟩
      rcases hvis with rfl | hvis
      · rwa [List.dropLast_concat]
      · exact hvis
    constructor
    · rintro ((h | h) | rfl)
      · exact hstep false h
      · exact hstep true h
      · exact ⟨List.prefix_rfl, by omega, .inl rfl⟩
    · rintro ⟨⟨turns, rfl⟩, hq, hvis⟩
      cases turns with
      | nil => exact .inr (List.append_nil p)
      | cons b turns =>
        have hne : p ++ b :: turns ≠ p := fun h => by simpa using congrArg List.length h
        have hpre : p ++ [b] <+: p ++ b :: turns := ⟨turns, by simp⟩
        cases b with
        | false => exact .inl (.inl ⟨hpre, hq, .inr (hvis.resolve_left hne)⟩)
        | true => exact .inl (.inr ⟨hpre, hq, .inr (hvis.resolve_left hne)⟩)

/-! ## Recorded writes -/

variable [Chia]

/-- The hash of the subtree at `p`. -/
def nodeHash (leaf : List Bool → Bytes32) (p : List Bool) : Bytes32 :=
  FullTree.root merkleNodeHash (256 - p.length) (FullTree.below leaf p)

/-- The write recorded for the node at `p`. -/
def nodeOp (leaf : List Bool → Bytes32) (p : List Bool) : MerkleNodePersistOp :=
  if nodeHash leaf p = emptyHash (256 - p.length) then .delete else .put (nodeHash leaf p)

def recordNode (leaf : List Bool → Bytes32) (dirty : DirtyNodes) (p : List Bool) : DirtyNodes :=
  recordMerklePersistOp dirty p.length (pathOf p) (nodeHash leaf p)

theorem recordNode_eq (leaf : List Bool → Bytes32) (dirty : DirtyNodes) {p : List Bool}
    (hp : p.length ≤ 255) : recordNode leaf dirty p = dirty.insert (nodeKey p) (nodeOp leaf p) := by
  have hlevel : ¬ smtHeight ≤ p.length := by
    unfold smtHeight
    omega
  rw [recordNode, recordMerklePersistOp, if_neg hlevel, nodeOp]
  show (if nodeHash leaf p = emptyHash (256 - p.length) then _ else _) = _
  split <;> rfl

/-- Nothing is recorded at the leaves. -/
theorem recordNode_leaf (leaf : List Bool → Bytes32) (dirty : DirtyNodes) {p : List Bool}
    (hp : ¬ p.length ≤ 255) : recordNode leaf dirty p = dirty := by
  have hlevel : smtHeight ≤ p.length := by
    unfold smtHeight
    omega
  rw [recordNode, recordMerklePersistOp, if_pos hlevel]

/-- A visited node has its write recorded, whatever was recorded before. -/
theorem recordAll_of_mem (leaf : List Bool → Bytes32) {p : List Bool} (hp : p.length ≤ 255) :
    ∀ (l : List (List Bool)) (dirty : DirtyNodes), p ∈ l ∨ dirty[nodeKey p]? = some (nodeOp leaf p) →
      (l.foldl (recordNode leaf) dirty)[nodeKey p]? = some (nodeOp leaf p)
  | [], dirty, h => h.resolve_left List.not_mem_nil
  | q :: l, dirty, h => by
    refine recordAll_of_mem leaf hp l _ ?_
    by_cases hmem : p ∈ l
    · exact .inl hmem
    refine .inr ?_
    by_cases hq : q.length ≤ 255
    · rw [recordNode_eq leaf dirty hq, OrdMap.getElem?_insert]
      by_cases hkey : nodeKey q = nodeKey p
      · rw [if_pos hkey, nodeKey_inj hq hp hkey]
      · rw [if_neg hkey]
        refine h.resolve_left fun hpq => ?_
        rcases List.mem_cons.1 hpq with rfl | hpl
        · exact hkey rfl
        · exact hmem hpl
    · rw [recordNode_leaf leaf dirty hq]
      refine h.resolve_left fun hpq => ?_
      rcases List.mem_cons.1 hpq with rfl | hpl
      · exact hq hp
      · exact hmem hpl

/-- The other keys stay as they are. -/
theorem recordAll_of_not_mem (leaf : List Bool → Bytes32) {k : Bytes} : ∀ (l : List (List Bool))
    (dirty : DirtyNodes), (∀ p ∈ l, p.length ≤ 255 → nodeKey p ≠ k) →
      (l.foldl (recordNode leaf) dirty)[k]? = dirty[k]?
  | [], _, _ => rfl
  | q :: l, dirty, h => by
    rw [List.foldl_cons, recordAll_of_not_mem leaf l _ fun p hp => h p (.tail _ hp)]
    by_cases hq : q.length ≤ 255
    · rw [recordNode_eq leaf dirty hq, OrdMap.getElem?_insert, if_neg (h q (.head _) hq)]
    · rw [recordNode_leaf leaf dirty hq]

namespace SparseMerkleTree

/-- **The walk records the nodes it visits.** -/
theorem computeSubtreeHashCore_snd (leaf : List Bool → Bytes32) : ∀ (levels : Nat)
    (leaves : List (Bytes32 × Bytes32)) (p : List Bool) (dirty : DirtyNodes),
    p.length + levels = 256 → leafAt leaves p.length = FullTree.below leaf p →
    (computeSubtreeHashCore levels leaves (pathOf p) dirty true).2 =
      (visits levels leaves p).foldl (recordNode leaf) dirty
  | levels, [], p, dirty, hlen, hleaf => by
    have hdepth : smtHeight - levels = p.length := by
      unfold smtHeight
      omega
    have hhash : nodeHash leaf p = emptyHash levels := by
      have hempty : leafAt [] p.length = fun _ => emptyHash 0 := rfl
      rw [nodeHash, ← hleaf, hempty, FullTree.root_const, ← emptyHash_eq]
      congr 1
      omega
    have hcore : (computeSubtreeHashCore levels [] (pathOf p) dirty true).2 =
        recordMerklePersistOp dirty (smtHeight - levels) (pathOf p) (emptyHash levels) := by
      cases levels <;> rfl
    have hvisits : visits levels [] p = [p] := by cases levels <;> rfl
    rw [hcore, hvisits, hdepth, ← hhash]
    rfl
  | 0, kv :: rest, p, dirty, hlen, _ => by
    exact (recordNode_leaf leaf dirty (by omega)).symm
  | levels + 1, kv :: rest, p, dirty, hlen, hleaf => by
    have hp : p.length < 256 := by omega
    have hdepth : smtHeight - (levels + 1) = p.length := by
      unfold smtHeight
      omega
    have hchild : ∀ b, (p ++ [b]).length = p.length + 1 := fun b => by
      rw [List.length_append, List.length_singleton]
    have hside : ∀ b, leafAt ((kv :: rest).filter fun kv => getBit kv.1 p.length == b)
        (p ++ [b]).length = FullTree.below leaf (p ++ [b]) := fun b => by
      funext q
      rw [hchild, leafAt_filter _ hp, hleaf, ← FullTree.below_append]
      rfl
    have hleft := hside false
    have hright := hside true
    simp only [beq_false, beq_true] at hleft hright
    have ihleft := computeSubtreeHashCore_snd leaf levels _ (p ++ [false]) dirty
      (by rw [hchild]; omega) hleft
    have ihright := fun d => computeSubtreeHashCore_snd leaf levels _ (p ++ [true]) d
      (by rw [hchild]; omega) hright
    have hfst := computeSubtreeHashCore_fst (levels + 1) (by omega) (kv :: rest) (pathOf p) dirty true
    have hlevels : 256 - p.length = levels + 1 := by omega
    have hhash : FullTree.root merkleNodeHash (levels + 1) (leafAt (kv :: rest) (256 - (levels + 1))) =
        nodeHash leaf p := by
      rw [nodeHash, hlevels, show 256 - (levels + 1) = p.length from hdepth, ← hleaf]
    rw [hhash] at hfst
    rw [visits, List.foldl_append, List.foldl_append, ← ihleft, ← ihright]
    simp only [computeSubtreeHashCore, hdepth, childPath_pathOf hp] at hfst ⊢
    rw [hfst]
    rfl

end SparseMerkleTree

end DigCoinstore
