import Mathlib.Data.List.Sort
import DigCoinstore.Lib.OrdMap

/-!
# Ordered maps of strings: scans and shared maps

A cursor placed at a string, read while the keys start with it, yields the entries under that
prefix (`scan_eq_filter`): they are next to each other in the order of the keys. Several maps can
share one, each under a tag in front of its keys (`Holds`): writes under one tag are not seen
under another (`Holds.insert_apart`), and a scan of the shared map with the tag in front is a scan
of the map that is held (`Holds.scan_eq`).
-/

namespace PrefixScan

open OrdMap

variable {α V : Type}

/-- The key starts with `pre`. -/
def under [BEq α] (pre : List α) (kv : List α × V) : Bool := pre.isPrefixOf kv.1

theorem under_iff [DecidableEq α] {pre : List α} {kv : List α × V} :
    under pre kv = true ↔ pre <+: kv.1 := List.isPrefixOf_iff_prefix

variable [Ord α]

/-- The key is below `pre`. -/
def below (pre : List α) (kv : List α × V) : Bool := compare kv.1 pre == .lt

theorem below_iff {pre : List α} {kv : List α × V} :
    below pre kv = true ↔ compare kv.1 pre = .lt := beq_iff_eq

/-- **What a cursor reads** from `pre` on, as long as the keys start with `pre`. -/
def scan [Std.TransOrd α] [BEq α] (t : Map (List α) V) (pre : List α) : List (List α × V) :=
  (t.toList.dropWhile (below pre)).takeWhile (under pre)

/-! ## The order of strings -/

theorem compare_cons (x y : α) (k l : List α) :
    compare (x :: k) (y :: l) = (compare x y).then (compare k l) :=
  List.compareLex_cons_cons

section order
variable [Std.LawfulEqOrd α]

theorem compare_append (pre k l : List α) : compare (pre ++ k) (pre ++ l) = compare k l := by
  induction pre with
  | nil => rfl
  | cons x pre ih =>
    rw [List.cons_append, List.cons_append, compare_cons, Std.ReflOrd.compare_self, ih]
    rfl

/-- A string is not below its prefixes. -/
theorem compare_ne_lt_of_prefix {pre k : List α} (h : pre <+: k) : compare k pre ≠ .lt := by
  obtain ⟨rest, rfl⟩ := h
  have hrest : compare rest ([] : List α) ≠ .lt := by
    cases rest with
    | nil => exact fun h => nomatch h
    | cons x rest => exact fun h => nomatch h
  have happ := compare_append pre rest []
  rw [List.append_nil] at happ
  rwa [happ]

/-- **The strings under a prefix are next to each other**: one that is not below the prefix, and is
below a string under it, is under it. -/
theorem prefix_of_between {pre k l : List α} (hpre : compare k pre ≠ .lt) (hlt : compare k l = .lt)
    (hl : pre <+: l) : pre <+: k := by
  induction pre generalizing k l with
  | nil => exact List.nil_prefix
  | cons x pre ih =>
    obtain ⟨rest, rfl⟩ := hl
    cases k with
    | nil => exact absurd rfl hpre
    | cons y k =>
      rw [List.cons_append, compare_cons] at hlt
      rw [compare_cons] at hpre
      cases hyx : compare y x with
      | lt => rw [hyx] at hpre; exact absurd rfl hpre
      | gt => rw [hyx] at hlt; cases hlt
      | eq =>
        rw [hyx] at hlt hpre
        rw [Std.LawfulEqOrd.eq_of_compare hyx]
        exact List.cons_prefix_cons.2 ⟨rfl, ih hpre hlt (List.prefix_append _ _)⟩

/-! ## Scans -/

variable [DecidableEq α]

/-- A key is not both below a string and under it. -/
theorem not_under_of_below {pre : List α} {kv : List α × V}
    (h : below pre kv = true) : ¬ under pre kv = true := fun hu =>
  compare_ne_lt_of_prefix (under_iff.1 hu) (below_iff.1 h)

/-- From an entry that is not below the prefix on, the cursor stops where the prefix ends. -/
theorem takeWhile_eq_filter {pre : List α} {l : List (List α × V)}
    (hsorted : l.Pairwise fun a b => compare a.1 b.1 = .lt)
    (hge : ∀ kv ∈ l, ¬ below pre kv = true) : l.takeWhile (under pre) = l.filter (under pre) := by
  induction l with
  | nil => rfl
  | cons kv l ih =>
    obtain ⟨hkv, hl⟩ := List.pairwise_cons.1 hsorted
    by_cases hp : under pre kv = true
    · rw [List.takeWhile_cons_of_pos hp, List.filter_cons_of_pos hp,
        ih hl fun kv' hkv' => hge kv' (.tail _ hkv')]
    · have hne : compare kv.1 pre ≠ .lt := fun h => hge kv (.head _) (below_iff.2 h)
      have hnone : l.filter (under pre) = [] :=
        List.filter_eq_nil_iff.2 fun kv' hkv' hp' =>
          hp (under_iff.2 (prefix_of_between hne (hkv kv' hkv') (under_iff.1 hp')))
      rw [List.takeWhile_cons_of_neg hp, List.filter_cons_of_neg hp, hnone]

/-- The entries below the prefix are not under it. -/
theorem filter_dropWhile {pre : List α} (l : List (List α × V)) :
    (l.dropWhile (below pre)).filter (under pre) = l.filter (under pre) := by
  induction l with
  | nil => rfl
  | cons kv l ih =>
    by_cases hlt : below pre kv = true
    · rw [List.dropWhile_cons_of_pos hlt, ih, List.filter_cons_of_neg (not_under_of_below hlt)]
    · rw [List.dropWhile_cons_of_neg hlt]

end order

variable [Std.TransOrd α]

/-- In a sorted list nothing after the drop is below the prefix. -/
theorem ge_of_mem_dropWhile {pre : List α} {l : List (List α × V)}
    (hsorted : l.Pairwise fun a b => compare a.1 b.1 = .lt) {kv : List α × V}
    (hkv : kv ∈ l.dropWhile (below pre)) : ¬ below pre kv = true := by
  induction l with
  | nil => cases hkv
  | cons kv₀ l ih =>
    obtain ⟨hkv₀, hl⟩ := List.pairwise_cons.1 hsorted
    by_cases hlt : below pre kv₀ = true
    · rw [List.dropWhile_cons_of_pos hlt] at hkv
      exact ih hl hkv
    · rw [List.dropWhile_cons_of_neg hlt] at hkv
      rcases List.mem_cons.1 hkv with rfl | hmem
      · exact hlt
      · exact fun h => hlt (below_iff.2 (Std.TransCmp.lt_trans (hkv₀ kv hmem) (below_iff.1 h)))

/-- **A scan yields the entries under the prefix**, in key order. -/
theorem scan_eq_filter [Std.LawfulEqOrd α] [DecidableEq α] (t : Map (List α) V) (pre : List α) :
    scan t pre = t.toList.filter (under pre) := by
  have hsorted := t.ordered_keys_toList
  rw [scan, takeWhile_eq_filter (hsorted.sublist (List.dropWhile_sublist _)) fun kv hkv =>
    ge_of_mem_dropWhile hsorted hkv, filter_dropWhile]

/-! ## Maps that share a map -/

/-- **`db` holds `m` under a tag**: the entries of `m` are those of `db` under the tag. -/
def Holds (tag : List α) (db m : Map (List α) V) : Prop := ∀ k : List α, db[tag ++ k]? = m[k]?

/-- No key under one tag is a key under the other. -/
def Apart (tag tag' : List α) : Prop := ∀ k k' : List α, tag ++ k ≠ tag' ++ k'

namespace Holds

theorem empty (tag : List α) : Holds tag (∅ : Map (List α) V) ∅ := fun k => by simp

variable [Std.LawfulEqOrd α] [DecidableEq α] {tag tag' : List α} {db m : Map (List α) V}

theorem insert (h : Holds tag db m) (k : List α) (v : V) :
    Holds tag (db.insert (tag ++ k) v) (m.insert k v) := fun k' => by
  rw [getElem?_insert, getElem?_insert, h k']
  exact if_congr (List.append_right_inj tag) rfl rfl

theorem erase (h : Holds tag db m) (k : List α) : Holds tag (db.erase (tag ++ k)) (m.erase k) :=
  fun k' => by
    rw [getElem?_erase, getElem?_erase, h k']
    exact if_congr (List.append_right_inj tag) rfl rfl

theorem insert_apart (h : Holds tag db m) (hapart : Apart tag' tag) (k : List α) (v : V) :
    Holds tag (db.insert (tag' ++ k) v) m := fun k' => by
  rw [getElem?_insert, if_neg (hapart k k'), h k']

theorem erase_apart (h : Holds tag db m) (hapart : Apart tag' tag) (k : List α) :
    Holds tag (db.erase (tag' ++ k)) m := fun k' => by
  rw [getElem?_erase, if_neg (hapart k k'), h k']

/-- **A scan under the tag** is a scan of the map that is held, once the tag is cut off. -/
theorem scan_eq (h : Holds tag db m) (pre : List α) :
    (scan db (tag ++ pre)).map (fun kv => (kv.1.drop tag.length, kv.2)) = scan m pre := by
  rw [scan_eq_filter, scan_eq_filter]
  have hirrefl : Std.Irrefl fun a b : List α × V => compare a.1 b.1 = .lt :=
    ⟨fun a ha => by simp [Std.ReflOrd.compare_self] at ha⟩
  have hantisymm : Std.Antisymm fun a b : List α × V => compare a.1 b.1 = .lt :=
    ⟨fun a b hab hba => absurd (Std.TransCmp.lt_trans hab hba) (hirrefl.irrefl a)⟩
  have htagged : ∀ kv ∈ db.toList.filter (under (tag ++ pre)),
      kv.1 = tag ++ kv.1.drop tag.length := fun kv hkv => by
    obtain ⟨rest, hrest⟩ := under_iff.1 (List.mem_filter.1 hkv).2
    rw [← hrest, List.append_assoc, List.drop_left]
  refine List.Pairwise.eq_of_mem_iff (r := fun a b => compare a.1 b.1 = .lt) ?_
    (m.ordered_keys_toList.filter _) fun kv => ?_
  · refine List.pairwise_map.2 ((db.ordered_keys_toList.filter _).imp_of_mem fun ha hb hab => ?_)
    rw [htagged _ ha, htagged _ hb, compare_append] at hab
    exact hab
  · obtain ⟨k, v⟩ := kv
    rw [List.mem_map, List.mem_filter, mem_toList, under_iff]
    constructor
    · rintro ⟨kv', hkv', heq⟩
      obtain ⟨rfl, rfl⟩ := Prod.mk.inj heq
      have hkey := htagged kv' hkv'
      obtain ⟨hmem, hpre⟩ := List.mem_filter.1 hkv'
      have hget : db[kv'.1]? = some kv'.2 := mem_toList.1 hmem
      rw [hkey, h] at hget
      rw [under_iff, hkey, List.prefix_append_right_inj] at hpre
      exact ⟨hget, hpre⟩
    · rintro ⟨hget, hpre⟩
      refine ⟨(tag ++ k, v), List.mem_filter.2 ⟨mem_toList.2 ((h k).trans hget), ?_⟩, ?_⟩
      · exact under_iff.2 ((List.prefix_append_right_inj tag).2 hpre)
      · rw [List.drop_left]

end Holds

end PrefixScan
