import Mathlib.Tactic.Common

/-!
# Computations that may fail in addition

`Flaky F x y`: the computation `x` ends as `y`, or with an error of the kind `F`. A program built
from steps that are flaky versions of others is a flaky version of the program built from those
(`bind`, `mapM`, `foldlM`).
-/

universe u v

variable {ε : Type u} {α β γ : Type v} {F : ε → Prop}

/-- **`x` ends as `y`**, or with an error of the kind `F`. -/
def Flaky (F : ε → Prop) (x y : Except ε α) : Prop := x = y ∨ ∃ e, F e ∧ x = .error e

namespace Flaky

variable {x y : Except ε α}

theorem refl (x : Except ε α) : Flaky F x x := .inl rfl

theorem failed {e : ε} (h : F e) (y : Except ε α) : Flaky F (.error e) y := .inr ⟨e, h, rfl⟩

theorem bind {f g : α → Except ε β} (h : Flaky F x y) (hfg : ∀ a, Flaky F (f a) (g a)) :
    Flaky F (x >>= f) (y >>= g) := by
  rcases h with rfl | ⟨e, he, rfl⟩
  · cases x with
    | ok a => exact hfg a
    | error e => exact .refl _
  · exact failed he _

theorem ite {p : Prop} [Decidable p] {x' y' : Except ε α} (h : Flaky F x y) (h' : Flaky F x' y') :
    Flaky F (if p then x else x') (if p then y else y') := by
  split
  · exact h
  · exact h'

/-- A bind whose value is mapped afterwards. -/
theorem bind_map {f : α → Except ε γ} {g : α → Except ε β} {k : β → γ} (h : Flaky F x y)
    (hfg : ∀ a, Flaky F (f a) ((g a).map k)) : Flaky F (x >>= f) ((y >>= g).map k) := by
  have hmap : (y >>= g).map k = y >>= fun a => (g a).map k := by cases y <;> rfl
  rw [hmap]
  exact h.bind hfg

theorem ite_map {p : Prop} [Decidable p] {x x' : Except ε β} {y y' : Except ε α} {k : α → β}
    (h : Flaky F x (y.map k)) (h' : Flaky F x' (y'.map k)) :
    Flaky F (if p then x else x') ((if p then y else y').map k) := by
  split
  · exact h
  · exact h'

theorem mapM {f g : α → Except ε β} (hfg : ∀ a, Flaky F (f a) (g a)) :
    ∀ l : List α, Flaky F (l.mapM f) (l.mapM g)
  | [] => .refl _
  | a :: l => by
    rw [List.mapM_cons, List.mapM_cons]
    exact (hfg a).bind fun _ => (mapM hfg l).bind fun _ => .refl _

theorem foldlM {f g : β → α → Except ε β} (hfg : ∀ b a, Flaky F (f b a) (g b a)) :
    ∀ (l : List α) (b : β), Flaky F (l.foldlM f b) (l.foldlM g b)
  | [], _ => .refl _
  | a :: l, b => by
    rw [List.foldlM_cons, List.foldlM_cons]
    exact (hfg b a).bind fun b' => foldlM hfg l b'

end Flaky
