import Mathlib.Logic.Function.Basic
import Mathlib.Tactic.Common

/-!
# Tables that mirror a map of records

A table is a partial map from keys to values. `row id r` is the row that the record `r` of `id`
has in the table, if it has one. `Mirrors t row m`: the rows of `t` are exactly those of the
records of `m`. A table determines nothing else and is determined by `m` (`Mirrors.unique`); a
write that replaces the row of one id keeps the mirror (`Mirrors.write`).
-/

variable {Id R K V : Type*}

/-- **The rows of `t` are exactly the rows of the records of `m`.** -/
def Mirrors (t : K → Option V) (row : Id → R → Option (K × V)) (m : Id → Option R) : Prop :=
  ∀ k v, t k = some v ↔ ∃ id r, m id = some r ∧ row id r = some (k, v)

/-- No two ids have rows under one key. -/
def KeyedById (row : Id → R → Option (K × V)) : Prop :=
  ∀ ⦃id id' r r' k v v'⦄, row id r = some (k, v) → row id' r' = some (k, v') → id = id'

/-- The row of a member of a set of ids, whose records say nothing: all rows have the value `v`. -/
def keyRow (key : Id → K) (v : V) (id : Id) (_ : Unit) : Option (K × V) := some (key id, v)

theorem keyedById_keyRow {key : Id → K} (hkey : Function.Injective key) (v : V) :
    KeyedById (keyRow key v) := fun id id' r r' k v₁ v₂ h h' => by
  simp only [keyRow, Option.some.injEq, Prod.mk.injEq] at h h'
  exact hkey (h.1.trans h'.1.symm)

/-- The optional record `o` of `id` has a row under `k`. -/
def HasRow (row : Id → R → Option (K × V)) (id : Id) (o : Option R) (k : K) : Prop :=
  ∃ r v, o = some r ∧ row id r = some (k, v)

namespace Mirrors

variable {t t' : K → Option V} {row : Id → R → Option (K × V)} {m : Id → Option R}

theorem unique (h : Mirrors t row m) (h' : Mirrors t' row m) : t = t' := by
  funext k
  apply Option.ext
  intro v
  rw [h k v, h' k v]

theorem empty (row : Id → R → Option (K × V)) : Mirrors (fun _ => none) row (fun _ => none) := by
  simp [Mirrors]

theorem get (h : Mirrors t row m) {id : Id} {r : R} {k : K} {v : V} (hm : m id = some r)
    (hr : row id r = some (k, v)) : t k = some v :=
  (h k v).2 ⟨id, r, hm, hr⟩

/-- **Replacing the row of one id keeps the mirror**: the new row is in the table, the old key is
gone unless the new row has it, and every other key is as before. -/
theorem write [DecidableEq Id] (h : Mirrors t row m) (hk : KeyedById row) (id : Id) (o : Option R)
    (hnew : ∀ r k v, o = some r → row id r = some (k, v) → t' k = some v)
    (hold : ∀ k, HasRow row id (m id) k → ¬ HasRow row id o k → t' k = none)
    (hframe : ∀ k, ¬ HasRow row id (m id) k → ¬ HasRow row id o k → t' k = t k) :
    Mirrors t' row (Function.update m id o) := by
  intro k v
  constructor
  · intro ht
    by_cases hn : HasRow row id o k
    · obtain ⟨r, v', ho, hr⟩ := hn
      obtain rfl : v = v' := by simpa [ht] using hnew r k v' ho hr
      exact ⟨id, r, by simp [ho], hr⟩
    · by_cases ho : HasRow row id (m id) k
      · simp [hold k ho hn] at ht
      · rw [hframe k ho hn] at ht
        obtain ⟨id', r, hm, hr⟩ := (h k v).1 ht
        have hne : id' ≠ id := fun heq => ho ⟨r, v, heq ▸ hm, heq ▸ hr⟩
        exact ⟨id', r, by simp [hne, hm], hr⟩
  · rintro ⟨id', r, hm, hr⟩
    by_cases heq : id' = id
    · subst heq
      exact hnew r k v (by simpa using hm) hr
    · rw [Function.update_of_ne heq] at hm
      have hfresh : ∀ o', ¬ HasRow row id o' k := fun _ ⟨_, _, _, hr'⟩ => heq (hk hr hr')
      rw [hframe k (hfresh _) (hfresh _)]
      exact h.get hm hr

/-- **Writing one row and deleting some keys** of one id keeps the mirror, when the deleted keys
and the new row cover the old row. -/
theorem replace [DecidableEq Id] [DecidableEq K] (h : Mirrors t row m) (hk : KeyedById row) (id : Id)
    (o : Option R) (del : List K)
    (hget : ∀ k, t' k = match o.bind (row id) with
      | some (k', v) => if k' = k then some v else if k ∈ del then none else t k
      | none => if k ∈ del then none else t k)
    (hcover : ∀ k, HasRow row id (m id) k → k ∈ del ∨ HasRow row id o k)
    (hown : ∀ k ∈ del, ∀ id' r v, row id' r = some (k, v) → id' = id) :
    Mirrors t' row (Function.update m id o) := by
  have hmiss : ∀ k, ¬ HasRow row id o k → t' k = if k ∈ del then none else t k := fun k hn => by
    rw [hget k]
    split
    · next k' v hrow =>
      obtain ⟨r, ho, hr⟩ := Option.bind_eq_some_iff.1 hrow
      rw [if_neg]
      rintro rfl
      exact hn ⟨r, v, ho, hr⟩
    · rfl
  refine h.write hk id o (fun r k v ho hr => ?_) (fun k ho hn => ?_) (fun k ho hn => ?_)
  · rw [hget k, ho, Option.bind_some, hr]
    simp
  · rw [hmiss k hn, if_pos ((hcover k ho).resolve_right hn)]
  · rw [hmiss k hn]
    split
    · next hdel =>
      refine (Option.eq_none_iff_forall_ne_some.2 fun v hv => ?_).symm
      obtain ⟨id', r, hm, hr⟩ := (h k v).1 hv
      obtain rfl := hown k hdel id' r v hr
      exact ho ⟨r, v, hm, hr⟩
    · rfl

/-- A record that changes without changing its row keeps the mirror. -/
theorem same [DecidableEq Id] (h : Mirrors t row m) (hk : KeyedById row) {id : Id} {r r' : R}
    (hm : m id = some r) (hrow : row id r' = row id r) :
    Mirrors t row (Function.update m id (some r')) := by
  refine h.write hk id (some r') (fun r'' k v ho hr => ?_) (fun k ho hn => absurd ?_ hn)
    (fun _ _ _ => rfl)
  · obtain rfl := Option.some.inj ho
    exact h.get hm (hrow ▸ hr)
  · obtain ⟨r'', v, ho, hr⟩ := ho
    obtain rfl : r = r'' := by simpa [hm] using ho
    exact ⟨r', v, rfl, hrow.trans hr⟩

/-! ## Sets of ids -/

section
variable {key : Id → K} {v : V} {members : Id → Option Unit}

theorem insert [DecidableEq Id] (h : Mirrors t (keyRow key v) members)
    (hkey : Function.Injective key) (id : Id) (hself : t' (key id) = some v)
    (hother : ∀ k, k ≠ key id → t' k = t k) :
    Mirrors t' (keyRow key v) (Function.update members id (some ())) := by
  refine h.write (keyedById_keyRow hkey v) id (some ()) (fun r k v' _ hr => ?_)
    (fun k ho hn => ?_) (fun k _ hn => ?_)
  · simp only [keyRow, Option.some.injEq, Prod.mk.injEq] at hr
    rw [← hr.1, hself, hr.2]
  · obtain ⟨r, v', _, hr⟩ := ho
    exact absurd ⟨r, v', rfl, hr⟩ hn
  · exact hother k fun heq => hn ⟨(), v, rfl, heq ▸ rfl⟩

theorem erase [DecidableEq Id] (h : Mirrors t (keyRow key v) members)
    (hkey : Function.Injective key) (id : Id) (hself : t' (key id) = none)
    (hother : ∀ k, k ≠ key id → t' k = t k) :
    Mirrors t' (keyRow key v) (Function.update members id none) := by
  refine h.write (keyedById_keyRow hkey v) id none (fun _ _ _ ho => nomatch ho)
    (fun k ho _ => ?_) (fun k ho _ => ?_)
  · obtain ⟨r, v', _, hr⟩ := ho
    simp only [keyRow, Option.some.injEq, Prod.mk.injEq] at hr
    rw [← hr.1, hself]
  · by_cases hid : k = key id
    · -- the id is no member, so nothing stands under its key
      subst hid
      rw [hself]
      refine (Option.eq_none_iff_forall_ne_some.2 fun v' hv => ho ?_).symm
      obtain ⟨id', r, hm, hr⟩ := (h _ _).1 hv
      simp only [keyRow, Option.some.injEq, Prod.mk.injEq] at hr
      obtain rfl := hkey hr.1
      exact ⟨r, v', hm, by simp [keyRow, hr.2]⟩
    · exact hother k hid

/-- The rows of the members. -/
theorem row_iff (h : Mirrors t (keyRow key v) members) {k : K} {v' : V} :
    t k = some v' ↔ ∃ id, members id = some () ∧ (k, v') = (key id, v) := by
  refine (h k v').trans (exists_congr fun id => ?_)
  constructor
  · rintro ⟨_, hm, hr⟩
    exact ⟨hm, (Option.some.inj hr).symm⟩
  · rintro ⟨hm, hr⟩
    exact ⟨(), hm, congrArg some hr.symm⟩

/-- A key is in the table when it is a member's. -/
theorem get_key (h : Mirrors t (keyRow key v) members) (hkey : Function.Injective key) (id : Id) :
    (t (key id)).isSome = (members id).isSome := by
  rw [Bool.eq_iff_iff, Option.isSome_iff_exists, Option.isSome_iff_exists]
  constructor
  · rintro ⟨v', hv⟩
    obtain ⟨id', r, hm, hr⟩ := (h _ _).1 hv
    simp only [keyRow, Option.some.injEq, Prod.mk.injEq] at hr
    obtain rfl := hkey hr.1
    exact ⟨r, hm⟩
  · rintro ⟨r, hm⟩
    exact ⟨v, h.get hm rfl⟩

end

end Mirrors
