import Mathlib.Data.Finset.Insert
import Mathlib.Data.List.Dedup
import Mathlib.Tactic.Common

/-!
# Collecting distinct items up to a cap

`push` adds the items it has not seen, until there are `cap`. Fed with lists that are themselves cut
at `cap`, it still collects as many distinct items as there is room for: a list that is cut has
`cap` distinct items, so after it the collection is full (`Valid.push_take`).
-/

namespace CappedUnion

variable {α : Type} [DecidableEq α]

/-- Add the items of a list that are not in the set; `.error` carries the items of a collection that
was full before the end of the list. -/
def push (cap : ℕ) : List α → Finset α → List α → Except (List α) (Finset α × List α)
  | [], seen, result => .ok (seen, result)
  | a :: l, seen, result =>
    if cap ≤ result.length then .error result
    else if a ∈ seen then push cap l seen result
    else push cap l (insert a seen) (result ++ [a])

omit [DecidableEq α] in
/-- **Distinct members of `U`**, all of them or `cap`. -/
structure Listing (cap : ℕ) (U : Set α) (l : List α) : Prop where
  nodup : l.Nodup
  sub : ∀ a ∈ l, a ∈ U
  bounded : l.length ≤ cap
  full : l.length = cap ∨ ∀ a ∈ U, a ∈ l

/-- A listing and the set of its members. -/
structure Valid (cap : ℕ) (U : Set α) (seen : Finset α) (result : List α) : Prop
    extends Listing cap U result where
  seen_iff : ∀ a, a ∈ seen ↔ a ∈ result

section
omit [DecidableEq α]

variable {cap : ℕ} {U U' : Set α} {l all : List α}

theorem length_le_of_sub (hl : l.Nodup) (hsub : ∀ a ∈ l, a ∈ all) : l.length ≤ all.length :=
  (hl.subperm hsub).length_le

/-- **The length of a listing.** -/
theorem Listing.length_eq (h : Listing cap U l) (hall : all.Nodup) (hU : ∀ a, a ∈ all ↔ a ∈ U) :
    l.length = min cap all.length := by
  have hle := length_le_of_sub h.nodup fun a ha => (hU a).2 (h.sub a ha)
  have hcap := h.bounded
  rcases h.full with hfull | hfull
  · omega
  · have hge := length_le_of_sub hall fun a ha => hfull a ((hU a).1 ha)
    omega

/-- A full listing lists any larger set. -/
theorem Listing.of_full (h : Listing cap U l) (hfull : l.length = cap) (hsub : U ⊆ U') :
    Listing cap U' l :=
  ⟨h.nodup, fun a ha => hsub (h.sub a ha), h.bounded, .inl hfull⟩

/-- A listing that has all of the first `cap` items of a list has the list or is full. -/
theorem full_of_take (hall : all.Nodup) (hbound : l.length ≤ cap)
    (htake : ∀ a ∈ all.take cap, a ∈ l) : l.length = cap ∨ ∀ a ∈ all, a ∈ l := by
  rcases Nat.le_total all.length cap with hle | hge
  · rw [List.take_of_length_le hle] at htake
    exact .inr htake
  · have hlen := length_le_of_sub (hall.sublist (List.take_sublist cap all)) htake
    rw [List.length_take] at hlen
    exact .inl (by omega)

end

variable {cap : ℕ} {U : Set α} {seen : Finset α} {result : List α}

omit [DecidableEq α] in
theorem Valid.start (cap : ℕ) : Valid cap (∅ : Set α) ∅ [] where
  nodup := .nil
  sub _ ha := nomatch ha
  bounded := Nat.zero_le _
  full := .inr fun _ ha => ha.elim
  seen_iff _ := by simp

theorem push_spec : ∀ (l : List α) {seen : Finset α} {result : List α}, result.Nodup →
    result.length ≤ cap → (∀ a, a ∈ seen ↔ a ∈ result) →
    (∃ result', push cap l seen result = .error result' ∧ result'.Nodup ∧ result'.length = cap ∧
      ∀ a ∈ result', a ∈ result ∨ a ∈ l) ∨
    ∃ seen' result', push cap l seen result = .ok (seen', result') ∧ result'.Nodup ∧
      result'.length ≤ cap ∧ (∀ a, a ∈ seen' ↔ a ∈ result') ∧
      ∀ a, a ∈ result' ↔ a ∈ result ∨ a ∈ l
  | [], seen, result, hnodup, hbound, hseen =>
    .inr ⟨seen, result, rfl, hnodup, hbound, hseen, fun a => by simp⟩
  | b :: l, seen, result, hnodup, hbound, hseen => by
    rw [push]
    by_cases hfull : cap ≤ result.length
    · rw [if_pos hfull]
      exact .inl ⟨result, rfl, hnodup, by omega, fun a ha => .inl ha⟩
    · rw [if_neg hfull]
      by_cases hb : b ∈ seen
      · rw [if_pos hb]
        have hmem : b ∈ result := (hseen b).1 hb
        rcases push_spec l hnodup hbound hseen with ⟨result', hrun, hnd, hlen, hsub⟩ |
          ⟨seen', result', hrun, hnd, hlen, hseen', hiff⟩
        · exact .inl ⟨result', hrun, hnd, hlen, fun a ha => (hsub a ha).imp_right (.tail b)⟩
        · refine .inr ⟨seen', result', hrun, hnd, hlen, hseen', fun a => ?_⟩
          constructor
          · intro ha
            exact ((hiff a).1 ha).imp_right (.tail b)
          · rintro (ha | ha)
            · exact (hiff a).2 (.inl ha)
            · rcases List.mem_cons.1 ha with rfl | ha
              · exact (hiff a).2 (.inl hmem)
              · exact (hiff a).2 (.inr ha)
      · rw [if_neg hb]
        have hnew : b ∉ result := fun hmem => hb ((hseen b).2 hmem)
        have hnodup' : (result ++ [b]).Nodup := by
          rw [List.nodup_append]
          refine ⟨hnodup, List.nodup_singleton b, fun a ha c hc heq => hnew ?_⟩
          rwa [← List.mem_singleton.1 hc, ← heq]
        have hbound' : (result ++ [b]).length ≤ cap := by
          rw [List.length_append, List.length_singleton]
          omega
        have hseen' : ∀ a, a ∈ insert b seen ↔ a ∈ result ++ [b] := fun a => by
          rw [Finset.mem_insert, List.mem_append, List.mem_singleton, hseen, or_comm]
        rcases push_spec l hnodup' hbound' hseen' with ⟨result', hrun, hnd, hlen, hsub⟩ |
          ⟨seen', result', hrun, hnd, hlen, hseen'', hiff⟩
        · refine .inl ⟨result', hrun, hnd, hlen, fun a ha => ?_⟩
          simpa [or_assoc] using hsub a ha
        · refine .inr ⟨seen', result', hrun, hnd, hlen, hseen'', fun a => ?_⟩
          simpa [or_assoc] using hiff a

/-- **One list, cut at the cap.** The collection is full, or lists the set with the whole list. -/
theorem Valid.push_take (h : Valid cap U seen result) {all : List α} (hall : all.Nodup) :
    (∃ result', push cap (all.take cap) seen result = .error result' ∧
      Listing cap (U ∪ {a | a ∈ all}) result' ∧ result'.length = cap) ∨
    ∃ seen' result', push cap (all.take cap) seen result = .ok (seen', result') ∧
      Valid cap (U ∪ {a | a ∈ all}) seen' result' := by
  rcases push_spec (all.take cap) h.nodup h.bounded h.seen_iff with
    ⟨result', hrun, hnodup, hlen, hsub⟩ | ⟨seen', result', hrun, hnodup, hlen, hseen, hiff⟩
  · refine .inl ⟨result', hrun, ⟨hnodup, fun a ha => ?_, hlen.le, .inl hlen⟩, hlen⟩
    exact (hsub a ha).imp (h.sub a) List.mem_of_mem_take
  · refine .inr ⟨seen', result', hrun, ⟨hnodup, fun a ha => ?_, hlen, ?_⟩, hseen⟩
    · exact ((hiff a).1 ha).imp (h.sub a) List.mem_of_mem_take
    · rcases full_of_take hall hlen fun a ha => (hiff a).2 (.inr ha) with hfull | hlist
      · exact .inl hfull
      rcases h.full with hfull | hold
      · -- the collection was full before
        have hge := length_le_of_sub h.nodup fun a ha => (hiff a).2 (.inl ha)
        exact .inl (by omega)
      · refine .inr fun a ha => ?_
        rcases ha with ha | ha
        · exact (hiff a).2 (.inl (hold a ha))
        · exact hlist a ha

end CappedUnion
