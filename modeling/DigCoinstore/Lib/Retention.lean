import Mathlib.Data.List.Perm.Subperm
import Mathlib.Order.Lattice
import Mathlib.Tactic.Common

/-!
# Keeping the greatest keys

A store that may hold at most `n` items drops those with the smallest keys (`dropped`). At most `n`
items are left (`length_kept_le`), and an item is left exactly when fewer than `n` have a greater
key (`mem_dropped_iff`).
-/

namespace Retention

variable {α K : Type*} [LinearOrder K] (key : α → K)

/-- The items in ascending order. -/
def sorted (l : List α) : List α := l.mergeSort fun a b => key a ≤ key b

/-- **The items to drop**, so that at most `n` are left. -/
def dropped (l : List α) (n : ℕ) : List α := (sorted key l).take (l.length - n)

variable {key} {l : List α}

variable (key) in
theorem sorted_perm (l : List α) : (sorted key l).Perm l := List.mergeSort_perm _ _

theorem pairwise_sorted (l : List α) : (sorted key l).Pairwise fun a b => key a ≤ key b := by
  have h := @List.pairwise_mergeSort α (fun a b => decide (key a ≤ key b))
    (fun a b c hab hbc => by simp only [decide_eq_true_eq] at *; exact hab.trans hbc)
    (fun a b => by simpa using le_total (key a) (key b)) l
  exact h.imp fun hab => of_decide_eq_true hab

/-- Lists of the same items are sorted alike. -/
theorem sorted_congr (hkey : Function.Injective key) {l l' : List α} (hperm : l.Perm l') :
    sorted key l = sorted key l' :=
  List.Perm.eq_of_pairwise (fun _ _ _ _ hab hba => hkey (le_antisymm hab hba)) (pairwise_sorted l)
    (pairwise_sorted l') ((sorted_perm key l).trans (hperm.trans (sorted_perm key l').symm))

variable [DecidableEq α]

/-- In a sorted list without repeats the position of an item is the number of smaller ones. -/
theorem idxOf_eq (hkey : Function.Injective key) (hs : l.Pairwise fun a b => key a ≤ key b)
    (hnd : l.Nodup) {a : α} (ha : a ∈ l) : l.idxOf a = (l.filter (key · < key a)).length := by
  induction l with
  | nil => cases ha
  | cons b l ih =>
    obtain ⟨hb, hl⟩ := List.pairwise_cons.1 hs
    obtain ⟨hnot, hnd⟩ := List.nodup_cons.1 hnd
    by_cases heq : b = a
    · subst heq
      have hnone : (b :: l).filter (key · < key b) = [] := List.filter_eq_nil_iff.2 fun c hc => by
        rcases List.mem_cons.1 hc with rfl | hc
        · simp
        · simpa using hb c hc
      rw [hnone, List.idxOf_cons_self, List.length_nil]
    · have hal : a ∈ l := (List.mem_cons.1 ha).resolve_left (Ne.symm heq)
      have hlt : key b < key a := lt_of_le_of_ne (hb a hal) fun h => heq (hkey h)
      rw [List.idxOf_cons_ne _ heq, ih hl hnd hal, List.filter_cons_of_pos (by simpa using hlt),
        List.length_cons]

/-- A key is smaller, greater or that of the item itself. -/
theorem length_eq (hkey : Function.Injective key) (l : List α) (a : α) :
    l.length = (l.filter (key · < key a)).length + l.count a + (l.filter (key a < key ·)).length := by
  induction l with
  | nil => rfl
  | cons b l ih =>
    rcases lt_trichotomy (key b) (key a) with hlt | heq | hgt
    · have hne : b ≠ a := fun h => hlt.ne (congrArg key h)
      simp only [List.length_cons, List.filter_cons, List.count_cons, hlt, hlt.not_gt, hne,
        beq_iff_eq, decide_true, decide_false, if_true, if_false, Bool.false_eq_true]
      omega
    · obtain rfl := hkey heq
      simp only [List.length_cons, List.filter_cons, List.count_cons, lt_irrefl, beq_self_eq_true,
        decide_false, if_true, if_false, Bool.false_eq_true]
      omega
    · have hne : b ≠ a := fun h => hgt.ne' (congrArg key h)
      simp only [List.length_cons, List.filter_cons, List.count_cons, hgt, hgt.not_gt, hne,
        beq_iff_eq, decide_true, decide_false, if_true, if_false, Bool.false_eq_true]
      omega

/-- **An item is dropped** exactly when `n` have a greater key. -/
theorem mem_dropped_iff (hkey : Function.Injective key) (hnd : l.Nodup) {a : α} (ha : a ∈ l) (n : ℕ) :
    a ∈ dropped key l n ↔ n ≤ (l.filter (key a < key ·)).length := by
  have hperm := sorted_perm key l
  have hnds : (sorted key l).Nodup := hperm.nodup_iff.2 hnd
  have hlen := length_eq hkey l a
  rw [hnd.count, if_pos ha] at hlen
  rw [dropped, List.mem_take_iff_idxOf_lt (hperm.mem_iff.2 ha),
    idxOf_eq hkey (pairwise_sorted l) hnds (hperm.mem_iff.2 ha), (hperm.filter _).length_eq]
  omega

omit [DecidableEq α] in
/-- **As many items are left as may be.** -/
theorem length_kept_eq (n : ℕ) (hnd : l.Nodup) {kept : List α} (hkeptnd : kept.Nodup)
    (hkept : ∀ a, a ∈ kept ↔ a ∈ l ∧ a ∉ dropped key l n) : kept.length = min n l.length := by
  have hsplit := List.take_append_drop (l.length - n) (sorted key l)
  obtain ⟨-, hdrop, hapart⟩ := List.nodup_append.1 (hsplit.symm ▸ (sorted_perm key l).nodup_iff.2 hnd)
  have hperm : kept.Perm ((sorted key l).drop (l.length - n)) := by
    refine (List.perm_ext_iff_of_nodup hkeptnd hdrop).2 fun a => ?_
    have hmem : a ∈ l ↔ a ∈ (sorted key l).take (l.length - n) ∨
        a ∈ (sorted key l).drop (l.length - n) := by
      rw [← List.mem_append, hsplit, (sorted_perm key l).mem_iff]
    rw [hkept, hmem, dropped]
    exact ⟨fun ⟨hor, hnot⟩ => hor.resolve_left hnot,
      fun hdropped => ⟨.inr hdropped, fun htake => hapart a htake a hdropped rfl⟩⟩
  rw [hperm.length_eq, List.length_drop, (sorted_perm key l).length_eq]
  omega

omit [DecidableEq α] in
/-- **At most `n` items are left.** -/
theorem length_kept_le (n : ℕ) {kept : List α} (hnd : kept.Nodup)
    (hkept : ∀ a ∈ kept, a ∈ l ∧ a ∉ dropped key l n) : kept.length ≤ n := by
  have hsub : kept ⊆ (sorted key l).drop (l.length - n) := fun a ha => by
    obtain ⟨hmem, hnot⟩ := hkept a ha
    have hsorted : a ∈ (sorted key l).take (l.length - n) ++ (sorted key l).drop (l.length - n) := by
      rw [List.take_append_drop]
      exact (sorted_perm key l).mem_iff.2 hmem
    exact (List.mem_append.1 hsorted).resolve_left hnot
  have hle := (hnd.subperm hsub).length_le
  rw [List.length_drop, (sorted_perm key l).length_eq] at hle
  omega

/-- **A list that lost some of what it is to drop** is to drop the rest. -/
theorem mem_dropped_of_partial (hkey : Function.Injective key) {n : ℕ} {rest : List α}
    (hnd : l.Nodup) (hndrest : rest.Nodup) (hsub : ∀ a ∈ rest, a ∈ l)
    (hkept : ∀ a ∈ l, a ∉ dropped key l n → a ∈ rest) {a : α} (ha : a ∈ rest) :
    a ∈ dropped key rest n ↔ a ∈ dropped key l n := by
  have hle : ∀ {l l' : List α}, l.Nodup → l ⊆ l' → l.length ≤ l'.length := fun hnd hsub =>
    (List.Nodup.subperm hnd hsub).length_le
  rw [mem_dropped_iff hkey hndrest ha, mem_dropped_iff hkey hnd (hsub a ha)]
  constructor
  · intro hn
    refine hn.trans (hle (hndrest.filter _) fun b hb => ?_)
    obtain ⟨hb, hlt⟩ := List.mem_filter.1 hb
    exact List.mem_filter.2 ⟨hsub b hb, hlt⟩
  · intro hn
    -- the `n` items that are kept are all above `a`
    have hlen : (l.filter (· ∉ dropped key l n)).length = n := by
      rw [length_kept_eq n hnd (hnd.filter _) fun b => by rw [List.mem_filter, decide_eq_true_eq]]
      exact min_eq_left (hn.trans (List.length_filter_le _ _))
    calc n = (l.filter (· ∉ dropped key l n)).length := hlen.symm
      _ ≤ (rest.filter (key a < key ·)).length := hle (hnd.filter _) fun b hb => by
        obtain ⟨hb, hnot⟩ := List.mem_filter.1 hb
        have hnot : b ∉ dropped key l n := of_decide_eq_true hnot
        refine List.mem_filter.2 ⟨hkept b hb hnot, decide_eq_true (lt_of_not_ge fun hba => hnot ?_)⟩
        refine (mem_dropped_iff hkey hnd hb n).2 (hn.trans (hle (hnd.filter _) fun c hc => ?_))
        obtain ⟨hc, hlt⟩ := List.mem_filter.1 hc
        exact List.mem_filter.2 ⟨hc, decide_eq_true (hba.trans_lt (of_decide_eq_true hlt))⟩

end Retention
