import Mathlib.Algebra.BigOperators.Group.Multiset.Basic
import Mathlib.Algebra.Order.Group.Nat

/-!
# One fact in two rows

Two tables hold the same fact, each in a row of its own. An insertion looks for the forward row
and, if there is none, writes the forward row and then the reverse row. A removal that has found
the forward row deletes the reverse row and then the forward row. Insertions and removals that
interleave keep the rows together (`Safe.agree`) as long as no removal can fall between the look
and the second write of an insertion: there is no removal left, or only one and the fact is there,
so that the insertion finds it or comes after the removal (`Safe`).
-/

namespace TwoRows

/-- **Where a party stands**: it may still remove the fact `n` times; or it is about to look for
the fact, to write a row, or to delete the forward row, with `n` removals after it. -/
inductive Party where
  | idle (n : ℕ)
  | check
  | forward
  | reverse
  | clear (n : ℕ)

/-- How often the party may still delete the forward row. -/
def Party.left : Party → ℕ
  | .idle n => n
  | .clear n => n + 1
  | _ => 0

/-- How often some party may still delete the forward row. -/
def left (vs : Multiset Party) : ℕ := (vs.map Party.left).sum

@[simp] theorem left_cons (v : Party) (vs : Multiset Party) :
    left (v ::ₘ vs) = v.left + left vs := by
  simp [left]

@[simp] theorem left_idle (n : ℕ) : (Party.idle n).left = n := rfl
@[simp] theorem left_check : Party.check.left = 0 := rfl
@[simp] theorem left_forward : Party.forward.left = 0 := rfl
@[simp] theorem left_reverse : Party.reverse.left = 0 := rfl
@[simp] theorem left_clear (n : ℕ) : (Party.clear n).left = n + 1 := rfl

/-- **A move of one party**: the two rows and the party before it, and after it. -/
inductive Move : Bool → Bool → Party → Bool → Bool → Party → Prop
  | rest {f r : Bool} {m n : ℕ} : m ≤ n → Move f r (.idle n) f r (.idle m)
  | found {r : Bool} : Move true r .check true r (.idle 0)
  | missing {r : Bool} : Move false r .check false r .forward
  | writeForward {f r : Bool} : Move f r .forward true r .reverse
  | writeReverse {f r : Bool} : Move f r .reverse f true (.idle 0)
  | deleteReverse {f r : Bool} {n : ℕ} : Move f r (.idle (n + 1)) f false (.clear n)
  | deleteForward {f r : Bool} {n : ℕ} : Move f r (.clear n) false r (.idle n)

/-- The party will bring the rows together again. -/
def Party.Repairs (v : Party) : Prop := v = .reverse ∨ ∃ n, v = .clear n

/-- **The invariant.** -/
structure Safe (f r : Bool) (vs : Multiset Party) : Prop where
  reverse_le : r = true → f = true
  forward_le : f = true → r = true ∨ ∃ v ∈ vs, v.Repairs
  check : .check ∈ vs → left vs = 0 ∨ f = true ∧ left vs = 1
  forward : .forward ∈ vs → left vs = 0
  reverse : .reverse ∈ vs → f = true ∧ left vs = 0
  clear : ∀ n, .clear n ∈ vs → r = false

theorem left_pos_of_clear {vs : Multiset Party} {n : ℕ} (h : .clear n ∈ vs) : 0 < left vs := by
  obtain ⟨rest, rfl⟩ := Multiset.exists_cons_of_mem h
  rw [left_cons, left_clear]
  omega

/-- A party that has not moved. -/
theorem mem_of_mem_moved {u v v' : Party} {vs : Multiset Party} (hu : u ∈ v' ::ₘ vs)
    (hne : u ≠ v') : u ∈ v ::ₘ vs :=
  Multiset.mem_cons_of_mem ((Multiset.mem_cons.1 hu).resolve_left hne)

namespace Safe

variable {f r f' r' : Bool} {v v' : Party} {vs : Multiset Party}

/-- A party whose move leaves the rows as they are and lets nothing more be removed. -/
theorem stay (h : Safe f r (v ::ₘ vs)) (hleft : v'.left ≤ v.left) (hrep : ¬ v.Repairs)
    (hidle : ∃ n, v' = .idle n) : Safe f r (v' ::ₘ vs) := by
  obtain ⟨n, rfl⟩ := hidle
  have htotal : left (.idle n ::ₘ vs) ≤ left (v ::ₘ vs) := by
    rw [left_cons, left_cons]
    exact Nat.add_le_add_right hleft _
  refine ⟨h.reverse_le, fun hf => ?_, fun hu => ?_, fun hu => ?_, fun hu => ?_, fun m hu => ?_⟩
  · rcases h.forward_le hf with hr | ⟨u, hu, hurep⟩
    · exact .inl hr
    · rcases Multiset.mem_cons.1 hu with rfl | hu
      · exact absurd hurep hrep
      · exact .inr ⟨u, Multiset.mem_cons_of_mem hu, hurep⟩
  · rcases h.check (mem_of_mem_moved hu (by simp)) with hnone | ⟨hf, hone⟩
    · exact .inl (by omega)
    · rcases Nat.lt_or_ge (left (.idle n ::ₘ vs)) 1 with hnone | hge
      · exact .inl (by omega)
      · exact .inr ⟨hf, by omega⟩
  · have hnone := h.forward (mem_of_mem_moved hu (by simp))
    omega
  · obtain ⟨hf, hnone⟩ := h.reverse (mem_of_mem_moved hu (by simp))
    exact ⟨hf, by omega⟩
  · exact h.clear m (mem_of_mem_moved hu (by simp))

/-- The fact is missing, so no removal is left to come between. -/
theorem missing (h : Safe false r (.check ::ₘ vs)) : Safe false r (.forward ::ₘ vs) := by
  have hnone : left (.forward ::ₘ vs) = 0 := by
    simpa using h.check (Multiset.mem_cons_self _ _)
  refine ⟨h.reverse_le, nofun, fun _ => .inl hnone, fun _ => hnone, fun hu => ?_, fun m hu => ?_⟩
  · exact ⟨(h.reverse (mem_of_mem_moved hu (by simp))).1, hnone⟩
  · exact h.clear m (mem_of_mem_moved hu (by simp))

theorem writeForward (h : Safe f r (.forward ::ₘ vs)) : Safe true r (.reverse ::ₘ vs) := by
  have hnone : left (.reverse ::ₘ vs) = 0 := by simpa using h.forward (Multiset.mem_cons_self _ _)
  refine ⟨fun _ => rfl, fun _ => .inr ⟨_, Multiset.mem_cons_self _ _, .inl rfl⟩,
    fun _ => .inl hnone, fun _ => hnone, fun _ => ⟨rfl, hnone⟩, fun m hu => ?_⟩
  exact h.clear m (mem_of_mem_moved hu (by simp))

/-- No removal is left, so none is half done. -/
theorem writeReverse (h : Safe f r (.reverse ::ₘ vs)) : Safe f true (.idle 0 ::ₘ vs) := by
  obtain ⟨rfl, hnone⟩ := h.reverse (Multiset.mem_cons_self _ _)
  have hnone : left (.idle 0 ::ₘ vs) = 0 := by simpa using hnone
  refine ⟨fun _ => rfl, fun _ => .inl rfl, fun _ => .inl hnone, fun _ => hnone,
    fun _ => ⟨rfl, hnone⟩, fun m hu => ?_⟩
  have hpos := left_pos_of_clear hu
  omega

/-- With a removal left no insertion is between its look and its second write. -/
theorem deleteReverse {n : ℕ} (h : Safe f r (.idle (n + 1) ::ₘ vs)) :
    Safe f false (.clear n ::ₘ vs) := by
  have hleft : left (.clear n ::ₘ vs) = left (.idle (n + 1) ::ₘ vs) := by
    rw [left_cons, left_cons, left_clear, left_idle]
  have hpos := left_pos_of_clear (Multiset.mem_cons_self (.clear n) vs)
  refine ⟨nofun, fun _ => .inr ⟨_, Multiset.mem_cons_self _ _, .inr ⟨n, rfl⟩⟩, fun hu => ?_,
    fun hu => ?_, fun hu => ?_, fun _ _ => rfl⟩
  · rw [hleft]
    exact h.check (mem_of_mem_moved hu (by simp))
  · rw [hleft]
    exact h.forward (mem_of_mem_moved hu (by simp))
  · have hnone := (h.reverse (mem_of_mem_moved hu (by simp))).2
    omega

/-- The reverse row is gone already; of one removal none is left. -/
theorem deleteForward {n : ℕ} (h : Safe f r (.clear n ::ₘ vs)) :
    Safe false r (.idle n ::ₘ vs) := by
  obtain rfl := h.clear n (Multiset.mem_cons_self _ _)
  have hleft : left (.clear n ::ₘ vs) = left (.idle n ::ₘ vs) + 1 := by
    rw [left_cons, left_cons, left_clear, left_idle]
    omega
  refine ⟨nofun, nofun, fun hu => ?_, fun hu => ?_, fun hu => ?_, fun _ _ => rfl⟩
  · have hone := h.check (mem_of_mem_moved hu (by simp))
    omega
  · have hnone := h.forward (mem_of_mem_moved hu (by simp))
    omega
  · have hnone := (h.reverse (mem_of_mem_moved hu (by simp))).2
    omega

/-- **Every move keeps the invariant.** -/
theorem move (h : Safe f r (v ::ₘ vs)) (hmove : Move f r v f' r' v') : Safe f' r' (v' ::ₘ vs) := by
  cases hmove with
  | rest hmn => exact h.stay hmn (by simp [Party.Repairs]) ⟨_, rfl⟩
  | found => exact h.stay (by simp) (by simp [Party.Repairs]) ⟨0, rfl⟩
  | missing => exact h.missing
  | writeForward => exact h.writeForward
  | writeReverse => exact h.writeReverse
  | deleteReverse => exact h.deleteReverse
  | deleteForward => exact h.deleteForward

/-- **The rows agree** once every party is idle. -/
theorem agree (h : Safe f r vs) (hidle : ∀ v ∈ vs, ∃ n, v = .idle n) : f = r := by
  rw [Bool.eq_iff_iff]
  refine ⟨fun hf => ?_, h.reverse_le⟩
  rcases h.forward_le hf with hr | ⟨v, hv, hrep⟩
  · exact hr
  · obtain ⟨n, rfl⟩ := hidle v hv
    rcases hrep with hrep | ⟨m, hrep⟩ <;> cases hrep

end Safe

end TwoRows
