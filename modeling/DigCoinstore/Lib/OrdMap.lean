import Mathlib.Algebra.BigOperators.Group.List.Basic
import Mathlib.Algebra.GroupWithZero.Nat
import Mathlib.Data.List.Nodup
import Mathlib.Tactic.Common

/-!
# Ordered finite maps

What the development uses of `Std.ExtTreeMap` over a lawful order: lookups after a write stated
with equality of keys, the entries listed in key order without repeats, and a run of insertions
(`getElem?_insertAll`, where the last entry of a key wins).
-/

namespace OrdMap

/-- Maps ordered by `compare`. -/
abbrev Map (K V : Type) [Ord K] := Std.ExtTreeMap K V compare

section writes
variable {K V : Type} [Ord K] [Std.TransOrd K]

/-- Insert the entries one after the other. -/
def insertAll (t : Map K V) (l : List (K × V)) : Map K V :=
  l.foldl (fun t kv => t.insert kv.1 kv.2) t

/-- Erase the keys one after the other. -/
def eraseAll (t : Map K V) (l : List K) : Map K V := l.foldl (fun t k => t.erase k) t

@[simp] theorem insertAll_nil (t : Map K V) : insertAll t [] = t := rfl

@[simp] theorem insertAll_cons (t : Map K V) (kv : K × V) (l : List (K × V)) :
    insertAll t (kv :: l) = insertAll (t.insert kv.1 kv.2) l := rfl

theorem insertAll_append (t : Map K V) (l l' : List (K × V)) :
    insertAll t (l ++ l') = insertAll (insertAll t l) l' := List.foldl_append

end writes

variable {K V : Type} [Ord K] [Std.TransOrd K] [Std.LawfulEqOrd K]

section lookup
variable [DecidableEq K]

theorem getElem?_insert (t : Map K V) (k a : K) (v : V) :
    (t.insert k v)[a]? = if k = a then some v else t[a]? := by
  rw [Std.ExtTreeMap.getElem?_insert]
  exact if_congr Std.LawfulEqCmp.compare_eq_iff_eq rfl rfl

theorem getElem?_erase (t : Map K V) (k a : K) :
    (t.erase k)[a]? = if k = a then none else t[a]? := by
  rw [Std.ExtTreeMap.getElem?_erase]
  exact if_congr Std.LawfulEqCmp.compare_eq_iff_eq rfl rfl

theorem getElem?_eraseAll (l : List K) (t : Map K V) (a : K) :
    (eraseAll t l)[a]? = if a ∈ l then none else t[a]? := by
  induction l generalizing t with
  | nil => simp [eraseAll]
  | cons k l ih =>
    rw [eraseAll, List.foldl_cons]
    refine (ih (t.erase k)).trans ?_
    rw [getElem?_erase]
    by_cases hl : a ∈ l <;> by_cases hk : k = a <;> simp [hl, hk, eq_comm (a := a)]

theorem getElem?_insertAll_of_not_mem (l : List (K × V)) (t : Map K V) {a : K}
    (ha : a ∉ l.map (·.1)) : (insertAll t l)[a]? = t[a]? := by
  induction l generalizing t with
  | nil => rfl
  | cons kv l ih =>
    simp only [List.map_cons, List.mem_cons, not_or] at ha
    rw [insertAll_cons, ih _ ha.2, getElem?_insert, if_neg (Ne.symm ha.1)]

/-- A key that is inserted is found, with one of its values. -/
theorem getElem?_insertAll_of_mem (l : List (K × V)) (t : Map K V) {a : K}
    (ha : a ∈ l.map (·.1)) : ∃ v, (a, v) ∈ l ∧ (insertAll t l)[a]? = some v := by
  induction l generalizing t with
  | nil => simp at ha
  | cons kv l ih =>
    by_cases hl : a ∈ l.map (·.1)
    · obtain ⟨v, hv, h⟩ := ih (t.insert kv.1 kv.2) hl
      exact ⟨v, .tail _ hv, h⟩
    · have hk : kv.1 = a := by simpa [hl, eq_comm] using ha
      refine ⟨kv.2, by simp [← hk], ?_⟩
      rw [insertAll_cons, getElem?_insertAll_of_not_mem _ _ hl, getElem?_insert, if_pos hk]

/-- Insertions keep the keys and add their own. -/
theorem getElem?_insertAll_ne_none (l : List (K × V)) (t : Map K V) {a : K}
    (ha : t[a]? ≠ none ∨ a ∈ l.map (·.1)) : (insertAll t l)[a]? ≠ none := by
  by_cases hl : a ∈ l.map (·.1)
  · obtain ⟨v, _, hget⟩ := getElem?_insertAll_of_mem l t hl
    simp [hget]
  · rw [getElem?_insertAll_of_not_mem l t hl]
    exact ha.resolve_right hl

theorem contains_insertAll (l : List (K × V)) (k : K) :
    (insertAll ∅ l).contains k = decide (k ∈ l.map (·.1)) := by
  rw [Std.ExtTreeMap.contains_eq_isSome_getElem?]
  by_cases hk : k ∈ l.map (·.1)
  · obtain ⟨v, _, hget⟩ := getElem?_insertAll_of_mem l ∅ hk
    rw [hget, decide_eq_true hk, Option.isSome_some]
  · rw [getElem?_insertAll_of_not_mem l ∅ hk, decide_eq_false hk, Std.ExtTreeMap.getElem?_empty,
      Option.isSome_none]

end lookup

/-! ## Entries -/

theorem mem_toList {t : Map K V} {k : K} {v : V} : (k, v) ∈ t.toList ↔ t[k]? = some v :=
  Std.ExtTreeMap.mem_toList_iff_getElem?_eq_some

theorem nodup_keys (t : Map K V) : (t.toList.map (·.1)).Nodup := by
  refine List.pairwise_map.2 (t.distinct_keys_toList.imp ?_)
  intro a b h heq
  exact h (Std.LawfulEqCmp.compare_eq_iff_eq.2 heq)

theorem nodup_toList (t : Map K V) : t.toList.Nodup := (nodup_keys t).of_map _

theorem toList_eq_nil {t : Map K V} (h : ∀ k : K, t[k]? = none) : t.toList = [] := by
  apply List.eq_nil_iff_forall_not_mem.2
  rintro ⟨k, v⟩ hm
  simp [h] at hm

theorem getElem?_of_toList_nil {t : Map K V} (h : t.toList = []) (k : K) : t[k]? = none := by
  refine Option.eq_none_iff_forall_ne_some.2 fun v hv => ?_
  have hmem := mem_toList.2 hv
  rw [h] at hmem
  cases hmem

/-- Maps with the same lookups have the same entries. -/
theorem toList_congr {t t' : Map K V} (h : ∀ k : K, t[k]? = t'[k]?) : t.toList = t'.toList := by
  rw [Std.ExtTreeMap.ext_getElem? h]

/-- **The entries in order**: a list of them with increasing keys is the list. -/
theorem toList_eq_of_sorted {t : Map K V} {l : List (K × V)}
    (hsorted : l.Pairwise fun a b => compare a.1 b.1 = .lt)
    (hl : ∀ k v, (k, v) ∈ l ↔ t[k]? = some v) : t.toList = l := by
  have hirrefl : ∀ a : K × V, compare a.1 a.1 ≠ .lt := fun a h => by
    rw [Std.ReflOrd.compare_self] at h
    cases h
  have hnodup : l.Nodup := by
    refine hsorted.imp ?_
    rintro a b hab rfl
    exact hirrefl a hab
  refine List.Perm.eq_of_pairwise (fun a b _ _ hab hba => ?_) t.ordered_keys_toList hsorted
    ((List.perm_ext_iff_of_nodup (nodup_toList t) hnodup).2 fun kv => ?_)
  · exact absurd (Std.TransCmp.lt_trans hab hba) (hirrefl a)
  · rw [hl kv.1 kv.2, ← mem_toList]

/-- The size of a map whose keys are those of two others. -/
theorem size_eq_add {t t₁ t₂ : Map K V} (hkeys : ∀ k : K, k ∈ t ↔ k ∈ t₁ ∨ k ∈ t₂)
    (hdisjoint : ∀ k : K, k ∈ t₁ → k ∉ t₂) : t.size = t₁.size + t₂.size := by
  have hnodup : ∀ t : Map K V, t.keys.Nodup := fun t => by
    rw [← Std.ExtTreeMap.map_fst_toList_eq_keys]
    exact nodup_keys t
  have hperm : t.keys.Perm (t₁.keys ++ t₂.keys) := by
    refine (List.perm_ext_iff_of_nodup (hnodup t) ?_).2 fun k => ?_
    · refine (hnodup t₁).append (hnodup t₂) fun k hk hk' => ?_
      exact hdisjoint k (Std.ExtTreeMap.mem_keys.1 hk) (Std.ExtTreeMap.mem_keys.1 hk')
    · rw [List.mem_append, Std.ExtTreeMap.mem_keys, Std.ExtTreeMap.mem_keys,
        Std.ExtTreeMap.mem_keys, hkeys]
  simpa only [List.length_append, Std.ExtTreeMap.length_keys] using hperm.length_eq

/-- Distinct keys are found with their values. -/
theorem getElem?_insertAll [DecidableEq K] {l : List (K × V)} (hl : (l.map (·.1)).Nodup) {k : K}
    {v : V} : (insertAll ∅ l)[k]? = some v ↔ (k, v) ∈ l := by
  constructor
  · intro h
    by_cases hk : k ∈ l.map (·.1)
    · obtain ⟨v', hv, h'⟩ := getElem?_insertAll_of_mem l ∅ hk
      rw [h] at h'
      rwa [Option.some.inj h']
    · rw [getElem?_insertAll_of_not_mem _ _ hk, Std.ExtTreeMap.getElem?_empty] at h
      cases h
  · intro h
    obtain ⟨v', hv, h'⟩ := getElem?_insertAll_of_mem l ∅ (List.mem_map.2 ⟨_, h, rfl⟩)
    have heq := List.inj_on_of_nodup_map hl h hv rfl
    rw [h', (Prod.mk.inj heq).2]

/-- Distinct keys: the entries are those inserted. -/
theorem toList_insertAll_perm [DecidableEq K] {l : List (K × V)} (hl : (l.map (·.1)).Nodup) :
    (insertAll ∅ l).toList.Perm l :=
  (List.perm_ext_iff_of_nodup (nodup_toList _) (hl.of_map _)).2 fun _ =>
    mem_toList.trans (getElem?_insertAll hl)

theorem size_insertAll [DecidableEq K] {l : List (K × V)} (hl : (l.map (·.1)).Nodup) :
    (insertAll ∅ l).size = l.length := by
  rw [← Std.ExtTreeMap.length_toList]
  exact (toList_insertAll_perm hl).length_eq

/-- A map built from a list of the graph of `m`, with a function applied to its values. -/
theorem getElem?_insertAll_graph [DecidableEq K] {W : Type} {l : List (K × W)} {m : K → Option W}
    (hl : (l.map (·.1)).Nodup) (hm : ∀ k w, (k, w) ∈ l ↔ m k = some w) (f : W → V) (k : K) :
    (insertAll ∅ (l.map fun x => (x.1, f x.2)))[k]? = (m k).map f := by
  have hkeys : ((l.map fun x => (x.1, f x.2)).map (·.1)).Nodup := by
    rwa [List.map_map]
  apply Option.ext
  intro v
  rw [getElem?_insertAll hkeys, Option.map_eq_some_iff, List.mem_map]
  constructor
  · rintro ⟨⟨k', w⟩, hx, heq⟩
    obtain ⟨rfl, rfl⟩ := Prod.mk.inj heq
    exact ⟨w, (hm _ _).1 hx, rfl⟩
  · rintro ⟨w, hw, rfl⟩
    exact ⟨(k, w), (hm _ _).2 hw, rfl⟩

/-- The entries after an insertion: the new one, and the others. -/
theorem toList_insert_perm [DecidableEq K] (t : Map K V) (k : K) (v : V) :
    (t.insert k v).toList.Perm ((k, v) :: t.toList.filter fun kv => kv.1 ≠ k) := by
  have hnd : ((k, v) :: t.toList.filter fun kv => kv.1 ≠ k).Nodup := by
    refine List.nodup_cons.2 ⟨fun hmem => ?_, (nodup_toList t).filter _⟩
    simpa using (List.mem_filter.1 hmem).2
  refine (List.perm_ext_iff_of_nodup (nodup_toList _) hnd).2 fun kv => ?_
  obtain ⟨a, w⟩ := kv
  rw [mem_toList, getElem?_insert, List.mem_cons, List.mem_filter, mem_toList]
  by_cases hk : k = a
  · subst hk
    simp [eq_comm (a := v)]
  · simp [hk, Ne.symm hk]

/-- The entries of a map: that of a key, and the others. -/
theorem toList_perm_of_get [DecidableEq K] {t : Map K V} {k : K} {v : V} (h : t[k]? = some v) :
    t.toList.Perm ((k, v) :: t.toList.filter fun kv => kv.1 ≠ k) := by
  have hsame : t.insert k v = t := Std.ExtTreeMap.ext_getElem? fun a => by
    rw [getElem?_insert]
    split
    · next hk => rw [← hk, h]
    · rfl
  have hperm := toList_insert_perm t k v
  rwa [hsame] at hperm

/-- A sum over the entries after an insertion. -/
theorem sum_insert [DecidableEq K] (t : Map K V) (k : K) (v : V) (f : V → Nat) :
    ((t.insert k v).toList.map fun kv => f kv.2).sum + ((t[k]?).map f).getD 0 =
      (t.toList.map fun kv => f kv.2).sum + f v := by
  have hnew := ((toList_insert_perm t k v).map fun kv => f kv.2).sum_eq
  rw [List.map_cons, List.sum_cons] at hnew
  rw [hnew]
  cases hget : t[k]? with
  | some w =>
    have hold := ((toList_perm_of_get hget).map fun kv => f kv.2).sum_eq
    rw [List.map_cons, List.sum_cons] at hold
    rw [hold]
    simp only [Option.map_some, Option.getD_some]
    omega
  | none =>
    have hall : (t.toList.filter fun kv => kv.1 ≠ k) = t.toList := by
      refine List.filter_eq_self.2 fun kv hkv => decide_eq_true fun heq => ?_
      have hsome : t[k]? = some kv.2 := mem_toList.1 (heq ▸ hkv)
      simp [hget] at hsome
    rw [hall]
    simp only [Option.map_none, Option.getD_none]
    omega

end OrdMap

namespace List

variable {α β γ : Type*}

/-- A list whose members are images is the image of a list. -/
theorem exists_map_eq {f : α → β} {P : α → Prop} :
    ∀ (l : List β), (∀ b ∈ l, ∃ a, P a ∧ f a = b) → ∃ l' : List α, l'.map f = l ∧ ∀ a ∈ l', P a
  | [], _ => ⟨[], rfl, by simp⟩
  | b :: l, h => by
    obtain ⟨a, ha, rfl⟩ := h b (.head _)
    obtain ⟨l', rfl, hl'⟩ := exists_map_eq l fun b hb => h b (.tail _ hb)
    exact ⟨a :: l', rfl, by simpa using ⟨ha, hl'⟩⟩

end List
