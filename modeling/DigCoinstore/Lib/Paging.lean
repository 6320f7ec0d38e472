import Mathlib.Order.Lattice
import Mathlib.Data.List.Nodup
import Mathlib.Logic.Relation
import Mathlib.Tactic.Common

/-!
# Paging through a sorted list

A list sorted by `key` is read in pages of at most `n` items that never split a key: a page ends
before the key of the first item that does not fit, and the reader resumes from that key. Items
are resumed by another height, `start`, which is at most `key`. The reader always comes to an end
when no key has more than `n` items (`Pages.exists_of_bounded`), and it has read the whole list
exactly if no item straddles the start of a page (`Pages.flatten_eq_iff`). Where both heights are one
and new items come after all others, the list may change between two pages: what it holds in the
end has been read (`LivePages.mem_of_final`).
-/

namespace Paging

variable {α K : Type*} [LinearOrder K] (key start : α → K)

/-- The items to read from `c` on. -/
def rest (l : List α) (c : K) : List α := l.filter fun x => c ≤ start x

/-- **The pages of a reader** that resumes from `c`. -/
inductive Pages (n : Nat) (l : List α) : K → List (List α) → Prop
  | last {c : K} : (rest start l c)[n]? = none → Pages n l c [rest start l c]
  | next {c : K} {x : α} {pages : List (List α)} : (rest start l c)[n]? = some x →
    Pages n l (key x) pages →
    Pages n l c (((rest start l c).filter fun y => key y < key x) :: pages)

/-- The keys at which pages start, when sorted keys are packed greedily: at most `n` to a page
and no key split. -/
inductive IsStart (n : Nat) : List K → K → Prop
  | first {keys : List K} {k : K} : keys[n]? = some k → IsStart n keys k
  | later {keys : List K} {k k' : K} : keys[n]? = some k →
    IsStart n (keys.filter fun j => k ≤ j) k' → IsStart n keys k'

theorem IsStart.mem {n : Nat} {keys : List K} {k : K} (h : IsStart n keys k) : k ∈ keys := by
  induction h with
  | first hk => exact List.mem_of_getElem? hk
  | later _ _ ih => exact (List.mem_filter.1 ih).1

/-! ## Sorted lists -/

/-- The list is sorted by its key. -/
def Sorted (l : List α) : Prop := l.Pairwise fun x y => key x ≤ key y

variable {key start}

theorem Sorted.filter {l : List α} (h : Sorted key l) (p : α → Bool) : Sorted key (l.filter p) :=
  List.Pairwise.filter p h

theorem Sorted.split {l : List α} (h : Sorted key l) (k : K) :
    l = (l.filter fun y => key y < k) ++ l.filter fun y => k ≤ key y := by
  induction l with
  | nil => rfl
  | cons x l ih =>
    obtain ⟨hx, hl⟩ := List.pairwise_cons.1 h
    by_cases hlt : key x < k
    · rw [List.filter_cons_of_pos (by simpa using hlt),
        List.filter_cons_of_neg (by simpa using hlt), List.cons_append, ← ih hl]
    · have hge := not_lt.1 hlt
      have hnone : (l.filter fun y => key y < k) = [] :=
        List.filter_eq_nil_iff.2 fun y hy => by simpa using hge.trans (hx y hy)
      have hall : (l.filter fun y => k ≤ key y) = l :=
        List.filter_eq_self.2 fun y hy => by simpa using hge.trans (hx y hy)
      rw [List.filter_cons_of_neg (by simpa using hlt), List.filter_cons_of_pos (by simpa using hge),
        hnone, hall, List.nil_append]

/-- A cut that leaves the keys below `k` on its left. -/
theorem take_eq_filter {l : List α} {i : Nat} {k : K} (hlow : ∀ y ∈ l.take i, key y < k)
    (hhigh : ∀ y ∈ l.drop i, k ≤ key y) : l.take i = l.filter fun y => key y < k := by
  have hl : (l.take i).filter (fun y => key y < k) = l.take i :=
    List.filter_eq_self.2 fun y hy => by simpa using hlow y hy
  have hr : (l.drop i).filter (fun y => key y < k) = [] :=
    List.filter_eq_nil_iff.2 fun y hy => by simpa using hhigh y hy
  conv_rhs => rw [← List.take_append_drop i l]
  rw [List.filter_append, hl, hr, List.append_nil]

theorem Sorted.take_le {l : List α} (h : Sorted key l) {i : Nat} (hi : i < l.length) {y : α}
    (hy : y ∈ l.take (i + 1)) : key y ≤ key l[i] := by
  obtain ⟨j, hj, rfl⟩ := List.mem_iff_getElem.1 hy
  rw [List.length_take] at hj
  rw [List.getElem_take]
  rcases Nat.lt_or_ge j i with hlt | hge
  · exact List.pairwise_iff_getElem.1 h j i (by omega) hi hlt
  · obtain rfl : j = i := by omega
    exact le_rfl

/-- At most `n` items lie below the key of the item that does not fit. -/
theorem Sorted.length_below {l : List α} (h : Sorted key l) {n : Nat} {x : α} (hx : l[n]? = some x) :
    (l.filter fun y => key y < key x).length ≤ n := by
  obtain ⟨hn, heq⟩ := List.getElem?_eq_some_iff.1 hx
  have htail : l.drop n = x :: l.drop (n + 1) := by rw [List.drop_eq_getElem_cons hn, heq]
  have hsorted := List.Pairwise.drop (i := n) h
  rw [htail, List.pairwise_cons] at hsorted
  have hdrop : (l.drop n).filter (fun y => key y < key x) = [] := by
    refine List.filter_eq_nil_iff.2 fun y hy => ?_
    rw [htail] at hy
    rcases List.mem_cons.1 hy with rfl | hy
    · simp
    · simpa using hsorted.1 y hy
  have hsplit : (l.filter fun y => key y < key x) = (l.take n).filter fun y => key y < key x := by
    conv_lhs => rw [← List.take_append_drop n l, List.filter_append, hdrop, List.append_nil]
  have htake := List.length_filter_le (fun y => key y < key x) (l.take n)
  rw [List.length_take] at htake
  rw [hsplit]
  omega

/-- **The key of the first item that does not fit** is the least one with more than `n` items up to
it. -/
theorem Sorted.overflow {l : List α} (h : Sorted key l) {n : Nat} {x : α} (hx : l[n]? = some x) :
    n < (l.filter fun y => key y ≤ key x).length ∧
      ∀ k, n < (l.filter fun y => key y ≤ k).length → key x ≤ k := by
  constructor
  · obtain ⟨hn, rfl⟩ := List.getElem?_eq_some_iff.1 hx
    have hall : ((l.take (n + 1)).filter fun y => key y ≤ key l[n]) = l.take (n + 1) :=
      List.filter_eq_self.2 fun y hy => decide_eq_true (h.take_le hn hy)
    have hlen := ((List.take_sublist (n + 1) l).filter fun y => key y ≤ key l[n]).length_le
    rw [hall, List.length_take] at hlen
    omega
  · intro k hk
    by_contra hlt
    have hsub : (l.filter fun y => key y ≤ k).Sublist (l.filter fun y => key y < key x) :=
      List.monotone_filter_right _ fun y hy => by
        simpa using (of_decide_eq_true hy).trans_lt (not_le.1 hlt)
    have hle := hsub.length_le.trans (h.length_below hx)
    omega

/-- When no key has more than `n` items, a page that is cut is not empty. -/
theorem Sorted.exists_lt {l : List α} (h : Sorted key l) {n : Nat} {x : α} (hx : l[n]? = some x)
    (hbound : (l.filter fun y => key y = key x).length ≤ n) : ∃ y ∈ l, key y < key x := by
  by_contra hnone
  push Not at hnone
  obtain ⟨hn, rfl⟩ := List.getElem?_eq_some_iff.1 hx
  -- the first `n + 1` items all have the key of the last of them
  have hsame : ((l.take (n + 1)).filter fun y => key y = key l[n]) = l.take (n + 1) :=
    List.filter_eq_self.2 fun y hy => decide_eq_true
      (le_antisymm (h.take_le hn hy) (hnone y (List.mem_of_mem_take hy)))
  have hlen := ((List.take_sublist (n + 1) l).filter fun y => key y = key l[n]).length_le
  rw [hsame, List.length_take] at hlen
  omega

/-! ## Reading -/

section
variable {n : Nat} {l : List α}

theorem rest_rest (l : List α) {c k : K} (h : c ≤ k) : rest start (rest start l c) k = rest start l k := by
  rw [rest, rest, rest, List.filter_filter]
  refine List.filter_congr fun x _ => ?_
  rw [← Bool.decide_and, decide_eq_decide]
  exact and_iff_left_of_imp h.trans

theorem le_of_mem_rest (hle : ∀ x, start x ≤ key x) {c : K} {x : α} (hx : x ∈ rest start l c) :
    c ≤ key x :=
  (of_decide_eq_true (List.mem_filter.1 hx).2).trans (hle x)

theorem rest_sublist_above (hle : ∀ x, start x ≤ key x) {c k : K} (h : c ≤ k) :
    (rest start l k).Sublist ((rest start l c).filter fun y => k ≤ key y) := by
  rw [← rest_rest l h]
  exact List.monotone_filter_right _ fun y hy => by
    simpa using (of_decide_eq_true hy).trans (hle y)

/-- **The reader comes to an end** when no key has more than `n` items. -/
theorem Pages.exists_of_bounded (hle : ∀ x, start x ≤ key x) (hs : Sorted key l)
    (hbound : ∀ k, (l.filter fun y => key y = k).length ≤ n) (c : K) :
    ∃ pages, Pages key start n l c pages := by
  induction hm : (rest start l c).length using Nat.strongRecOn generalizing c with
  | _ m ih =>
    subst hm
    cases hx : (rest start l c)[n]? with
    | none => exact ⟨_, .last hx⟩
    | some x =>
      have hcx := le_of_mem_rest hle (List.mem_of_getElem? hx)
      have hcount : ((rest start l c).filter fun y => key y = key x).length ≤ n :=
        Nat.le_trans (List.filter_sublist.filter _).length_le (hbound (key x))
      obtain ⟨y, hy, hlt⟩ := (hs.filter _ : Sorted key (rest start l c)).exists_lt hx hcount
      have hshort : (rest start l (key x)).length < (rest start l c).length := by
        rw [← rest_rest l hcx]
        refine List.length_filter_lt_length_iff_exists.2 ⟨y, hy, ?_⟩
        simpa using (hle y).trans_lt hlt
      obtain ⟨pages, hpages⟩ := ih _ hshort (key x) rfl
      exact ⟨_, .next hx hpages⟩

/-- Nothing is read that is not in the list, nothing out of order and nothing twice. -/
theorem Pages.flatten_sublist (hle : ∀ x, start x ≤ key x) (hs : Sorted key l) {c : K}
    {pages : List (List α)} (h : Pages key start n l c pages) :
    pages.flatten.Sublist (rest start l c) := by
  induction h with
  | last => simp
  | @next c x pages hx _ ih =>
    have hcx := le_of_mem_rest hle (List.mem_of_getElem? hx)
    have hsplit := (hs.filter _ : Sorted key (rest start l c)).split (key x)
    have happend := (List.Sublist.refl ((rest start l c).filter fun y => key y < key x)).append
      (ih.trans (rest_sublist_above hle hcx))
    rw [List.flatten_cons]
    exact happend.trans (hsplit ▸ List.Sublist.refl _)

/-- A page that is cut reads everything exactly if the reader then resumes with all that is left and
reads that. -/
theorem flatten_cons_eq_iff (hs : Sorted key l) {c k : K} {read : List α}
    (hread : read.Sublist (rest start l k))
    (habove : (rest start l k).Sublist ((rest start l c).filter fun y => k ≤ key y)) :
    ((rest start l c).filter fun y => key y < k) ++ read = rest start l c ↔
      rest start l k = ((rest start l c).filter fun y => k ≤ key y) ∧ read = rest start l k := by
  have hsplit := (hs.filter _ : Sorted key (rest start l c)).split k
  constructor
  · intro heq
    have hall : read = (rest start l c).filter fun y => k ≤ key y :=
      List.append_cancel_left (heq.trans hsplit)
    have hsame : rest start l k = (rest start l c).filter fun y => k ≤ key y :=
      habove.eq_of_length_le (hall ▸ hread.length_le)
    exact ⟨hsame, hall.trans hsame.symm⟩
  · rintro ⟨hsame, rfl⟩
    rw [hsame]
    exact hsplit.symm

/-- **What is read is the whole list** exactly if no item straddles the start of a page. -/
theorem Pages.flatten_eq_iff (hle : ∀ x, start x ≤ key x) (hs : Sorted key l) {c : K}
    {pages : List (List α)} (h : Pages key start n l c pages) :
    pages.flatten = rest start l c ↔ ∀ k, IsStart n ((rest start l c).map key) k →
      ∀ x ∈ rest start l c, ¬ (start x < k ∧ k ≤ key x) := by
  induction h with
  | @last c hnone =>
    refine iff_of_true (by simp) fun k hk => ?_
    have hnone' : ((rest start l c).map key)[n]? = none := by rw [List.getElem?_map, hnone]; rfl
    cases hk with
    | first hk => exact nomatch hnone'.symm.trans hk
    | later hk _ => exact nomatch hnone'.symm.trans hk
  | @next c x pages hx hpages ih =>
    have hcx := le_of_mem_rest hle (List.mem_of_getElem? hx)
    have habove := rest_sublist_above hle hcx (l := l)
    have hkey : ((rest start l c).map key)[n]? = some (key x) := by rw [List.getElem?_map, hx]; rfl
    have hkeys : ((rest start l c).map key).filter (fun j => key x ≤ j) =
        ((rest start l c).filter fun y => key x ≤ key y).map key := List.filter_map ..
    rw [List.flatten_cons, flatten_cons_eq_iff hs (hpages.flatten_sublist hle hs) habove, ih]
    constructor
    · rintro ⟨hsame, hrest⟩ k hk y hy ⟨hlt, hge⟩
      have hstart : key x ≤ k ∧ (y ∈ rest start l (key x) → ¬ (start y < k ∧ k ≤ key y)) := by
        cases hk with
        | first hk =>
          obtain rfl := Option.some.inj (hkey.symm.trans hk)
          refine ⟨le_rfl, fun hy' hstr => ?_⟩
          exact (of_decide_eq_true (List.mem_filter.1 hy').2).not_gt hstr.1
        | later hk hk' =>
          obtain rfl := Option.some.inj (hkey.symm.trans hk)
          refine ⟨of_decide_eq_true (List.mem_filter.1 hk'.mem).2, fun hy' => ?_⟩
          rw [hkeys, ← hsame] at hk'
          exact hrest k hk' y hy'
      have hy' : y ∈ rest start l (key x) := by
        rw [hsame]
        exact List.mem_filter.2 ⟨hy, by simpa using hstart.1.trans hge⟩
      exact hstart.2 hy' ⟨hlt, hge⟩
    · intro hno
      have hsame : rest start l (key x) = (rest start l c).filter fun y => key x ≤ key y := by
        rw [← rest_rest l hcx]
        refine List.filter_congr fun y hy => decide_eq_decide.2 ⟨fun h => h.trans (hle y), fun h => ?_⟩
        exact not_lt.1 fun hlt => hno (key x) (.first hkey) y hy ⟨hlt, h⟩
      refine ⟨hsame, fun k hk y hy => hno k (.later hkey ?_) y (habove.subset hy |> fun h =>
        (List.mem_filter.1 h).1)⟩
      rw [hkeys, ← hsame]
      exact hk

end

/-! ## Lists that change between the pages -/

section
variable {σ I : Type*} (key) (items : σ → List α) (next : σ → σ → Prop) (n : Nat)

/-- **The pages of a reader** of a list that changes from one page to the next. -/
inductive LivePages : σ → K → List (List α) → σ → Prop
  | last {s : σ} {c : K} : (rest key (items s) c)[n]? = none →
    LivePages s c [rest key (items s) c] s
  | next {s s' t : σ} {c : K} {x : α} {pages : List (List α)} :
    (rest key (items s) c)[n]? = some x → next s s' → LivePages s' (key x) pages t →
    LivePages s c (((rest key (items s) c).filter fun y => key y < key x) :: pages) t

/-- **New items come last**: after the tip, which no item is above and which never goes back. -/
structure NewItemsLast (good : σ → Prop) (tip : σ → K) : Prop where
  step : ∀ {s s'}, good s → next s s' → good s'
  le_tip : ∀ {s x}, good s → x ∈ items s → key x ≤ tip s
  tip_le : ∀ {s s'}, good s → next s s' → tip s ≤ tip s'
  after_tip : ∀ {s s' y}, good s → next s s' → y ∈ items s' → y ∈ items s ∨ tip s < key y

variable {key items next n} {good : σ → Prop} {tip : σ → K} {s t : σ} {c : K}
  {pages : List (List α)}

theorem Pages.live (hrefl : next s s) (h : Pages key key n (items s) c pages) :
    LivePages key items next n s c pages s := by
  induction h with
  | last hnone => exact .last hnone
  | next hx _ ih => exact .next hx hrefl ih

namespace LivePages

theorem le_of_mem (h : LivePages key items next n s c pages t) {y : α} (hy : y ∈ pages.flatten) :
    c ≤ key y := by
  induction h with
  | last _ =>
    rw [List.flatten_singleton] at hy
    exact of_decide_eq_true (List.mem_filter.1 hy).2
  | next hx _ _ ih =>
    have hcx := of_decide_eq_true (List.mem_filter.1 (List.mem_of_getElem? hx)).2
    rw [List.flatten_cons] at hy
    rcases List.mem_append.1 hy with hy | hy
    · exact of_decide_eq_true (List.mem_filter.1 (List.mem_filter.1 hy).1).2
    · exact hcx.trans (ih hy)

theorem reaches (h : LivePages key items next n s c pages t) : Relation.ReflTransGen next s t := by
  induction h with
  | last _ => exact .refl
  | next _ hnext _ ih => exact .head hnext ih

/-- What is read was in the list at some time. -/
theorem exists_state (h : LivePages key items next n s c pages t) {y : α}
    (hy : y ∈ pages.flatten) : ∃ u, Relation.ReflTransGen next s u ∧
      Relation.ReflTransGen next u t ∧ y ∈ items u := by
  induction h with
  | last _ =>
    rw [List.flatten_singleton] at hy
    exact ⟨_, .refl, .refl, (List.mem_filter.1 hy).1⟩
  | next hx hnext hpages ih =>
    rw [List.flatten_cons] at hy
    rcases List.mem_append.1 hy with hy | hy
    · exact ⟨_, .refl, .head hnext hpages.reaches, (List.mem_filter.1 (List.mem_filter.1 hy).1).1⟩
    · obtain ⟨u, hu, hut, hmem⟩ := ih hy
      exact ⟨u, .head hnext hu, hut, hmem⟩

/-- Over the whole reading, too, new items come after the tip. -/
theorem after_tip (hnew : NewItemsLast key items next good tip) (hs : good s)
    (h : LivePages key items next n s c pages t) :
    tip s ≤ tip t ∧ ∀ y ∈ items t, y ∈ items s ∨ tip s < key y := by
  induction h with
  | last _ => exact ⟨le_rfl, fun y hy => .inl hy⟩
  | next _ hnext _ ih =>
    obtain ⟨hle, hafter⟩ := ih (hnew.step hs hnext)
    have htip := hnew.tip_le hs hnext
    refine ⟨htip.trans hle, fun y hy => ?_⟩
    rcases hafter y hy with hy | hlt
    · exact hnew.after_tip hs hnext hy
    · exact .inr (htip.trans_lt hlt)

/-- **What the list holds in the end** has been read, from the start on. -/
theorem mem_of_final (hnew : NewItemsLast key items next good tip) (hs : good s)
    (h : LivePages key items next n s c pages t) {y : α} (hy : y ∈ items t) (hc : c ≤ key y) :
    y ∈ pages.flatten := by
  induction h with
  | last _ =>
    rw [List.flatten_singleton]
    exact List.mem_filter.2 ⟨hy, decide_eq_true hc⟩
  | @next s s' t c x pages hx hnext hpages ih =>
    rw [List.flatten_cons]
    by_cases hlt : key y < key x
    · -- what lies below the cut was there already when the page was read
      have hs' := hnew.step hs hnext
      have hxtip := hnew.le_tip hs (List.mem_filter.1 (List.mem_of_getElem? hx)).1
      have hnot : ∀ {k : K}, tip s ≤ k → ¬ k < key y := fun hle hky =>
        absurd ((hxtip.trans hle).trans_lt hky) hlt.not_gt
      have hmem' := ((hpages.after_tip hnew hs').2 y hy).resolve_right (hnot (hnew.tip_le hs hnext))
      have hmem := (hnew.after_tip hs hnext hmem').resolve_right (hnot le_rfl)
      exact List.mem_append_left _ (List.mem_filter.2
        ⟨List.mem_filter.2 ⟨hmem, decide_eq_true hc⟩, decide_eq_true hlt⟩)
    · exact List.mem_append_right _ (ih (hnew.step hs hnext) hy (not_lt.1 hlt))

/-- **Nothing is read twice**, if an item keeps its key under its name. -/
theorem nodup (hnew : NewItemsLast key items next good tip) (hs : good s) (name : α → I)
    (keyOf : I → K) (hnames : ∀ s, good s → ((items s).map name).Nodup)
    (hkeys : ∀ y ∈ pages.flatten, key y = keyOf (name y))
    (h : LivePages key items next n s c pages t) : (pages.flatten.map name).Nodup := by
  induction h with
  | @last s c _ =>
    rw [List.flatten_singleton]
    exact (hnames s hs).sublist (List.filter_sublist.map _)
  | @next s s' t c x pages hx hnext hpages ih =>
    rw [List.flatten_cons] at hkeys ⊢
    rw [List.map_append]
    refine List.Nodup.append ((hnames s hs).sublist
      ((List.filter_sublist.trans List.filter_sublist).map _)) (ih (hnew.step hs hnext) fun y hy =>
        hkeys y (List.mem_append_right _ hy)) fun i hi hi' => ?_
    obtain ⟨y, hy, rfl⟩ := List.mem_map.1 hi
    obtain ⟨y', hy', heq⟩ := List.mem_map.1 hi'
    have hlt : key y < key x := of_decide_eq_true (List.mem_filter.1 hy).2
    have hsame : key y = key y' := by
      rw [hkeys y (List.mem_append_left _ hy), hkeys y' (List.mem_append_right _ hy'), heq]
    exact absurd (hpages.le_of_mem hy') (not_le.2 (hsame ▸ hlt))

end LivePages

end

end Paging
