import Mathlib.Data.List.Infix
import Mathlib.Tactic.Common

/-!
# Interrupted runs

A run applies the writes `ws` one after the other to a state. `StopsIn write ws s s'`: the run from
`s` stops at `s'`, with at least one write left to do. What every write keeps holds at each stop
(`StopsIn.inv`), and a run of two parts stops in the first part or, from its end, in the second
(`stopsIn_append`).
-/

variable {σ W : Type*} {write : σ → W → σ} {s s' : σ} {w : W} {ws ws' : List W}

/-- **The run of `ws` from `s` stops at `s'`** before its end. -/
def StopsIn (write : σ → W → σ) (ws : List W) (s s' : σ) : Prop :=
  ∃ k < ws.length, s' = (ws.take k).foldl write s

theorem not_stopsIn_nil : ¬ StopsIn write [] s s' := by
  rintro ⟨k, hk, _⟩
  exact absurd hk (Nat.not_lt_zero k)

theorem stopsIn_cons : StopsIn write (w :: ws) s s' ↔ s' = s ∨ StopsIn write ws (write s w) s' := by
  constructor
  · rintro ⟨k, hk, rfl⟩
    cases k with
    | zero => exact .inl rfl
    | succ k => exact .inr ⟨k, Nat.lt_of_succ_lt_succ hk, rfl⟩
  · rintro (rfl | ⟨k, hk, rfl⟩)
    · exact ⟨0, Nat.succ_pos _, rfl⟩
    · exact ⟨k + 1, Nat.succ_lt_succ hk, rfl⟩

/-- **A run of two parts** stops in one of them. -/
theorem stopsIn_append : StopsIn write (ws ++ ws') s s' ↔
    StopsIn write ws s s' ∨ StopsIn write ws' (ws.foldl write s) s' := by
  induction ws generalizing s with
  | nil => simp [not_stopsIn_nil]
  | cons w ws ih => rw [List.cons_append, stopsIn_cons, ih, stopsIn_cons, or_assoc, List.foldl_cons]

/-- A run with one write stops before it. -/
theorem stopsIn_singleton : StopsIn write [w] s s' ↔ s' = s := by
  rw [stopsIn_cons, or_iff_left not_stopsIn_nil]

/-- A run can stop at once. -/
theorem stopsIn_self (h : ws ≠ []) : StopsIn write ws s s :=
  ⟨0, List.length_pos_iff.2 h, rfl⟩

theorem foldl_inv {I : σ → Prop} (hs : I s) (hwrite : ∀ s, ∀ w ∈ ws, I s → I (write s w)) :
    I (ws.foldl write s) := by
  induction ws generalizing s with
  | nil => exact hs
  | cons w ws ih =>
    exact ih (hwrite s w (.head _) hs) fun s w' hw' => hwrite s w' (.tail _ hw')

/-- **What every write keeps** holds wherever the run stops. -/
theorem StopsIn.inv {I : σ → Prop} (h : StopsIn write ws s s') (hs : I s)
    (hwrite : ∀ s, ∀ w ∈ ws, I s → I (write s w)) : I s' := by
  obtain ⟨k, _, rfl⟩ := h
  exact foldl_inv hs fun s w hw => hwrite s w (List.mem_of_mem_take hw)

/-! ## Parts of a run -/

/-- Some first writes of `ws` are done, or all of them. -/
def Partly (write : σ → W → σ) (ws : List W) (s s' : σ) : Prop :=
  ∃ k, s' = (ws.take k).foldl write s

namespace Partly

theorem refl : Partly write ws s s := ⟨0, rfl⟩

theorem append_left (h : Partly write ws s s') : Partly write (ws ++ ws') s s' := by
  obtain ⟨k, rfl⟩ := h
  refine ⟨min k ws.length, ?_⟩
  rw [List.take_append_of_le_length (Nat.min_le_right _ _), ← List.take_take, List.take_length]

theorem append_right (h : Partly write ws' (ws.foldl write s) s') :
    Partly write (ws ++ ws') s s' := by
  obtain ⟨k, rfl⟩ := h
  exact ⟨ws.length + k, by rw [List.take_length_add_append, List.foldl_append]⟩

/-- With a write left to do the run has stopped. -/
theorem stopsIn (h : Partly write ws s s') (hne : ws' ≠ []) : StopsIn write (ws ++ ws') s s' := by
  obtain ⟨k, rfl⟩ := h
  refine ⟨min k ws.length, ?_, ?_⟩
  · have hpos := List.length_pos_iff.2 hne
    rw [List.length_append]
    omega
  · rw [List.take_append_of_le_length (Nat.min_le_right _ _), ← List.take_take, List.take_length]

end Partly
