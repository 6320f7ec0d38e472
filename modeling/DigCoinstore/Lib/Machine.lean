import Mathlib.Tactic.Common

/-!
# Machines with answers

A machine takes one call after the other: a call changes the state and gives an answer, and the log
of a run lists the calls with their answers. Related states of two machines have the same logs when
every legal call keeps the relation and is answered alike (`Simulation.log_eq`). Calls that leave
the state alone can be struck from a run without a change to the rest of its log (`log_kept`).
-/

/-- **A machine**: a call changes the state and gives an answer. -/
structure Machine (σ C A : Type*) where
  step : σ → C → σ × A

namespace Machine

variable {σ τ C A : Type*} (M : Machine σ C A)

/-- The state after some calls. -/
def run (s : σ) (calls : List C) : σ := calls.foldl (fun s c => (M.step s c).1) s

/-- The calls with their answers. -/
def log (s : σ) : List C → List (C × A)
  | [] => []
  | c :: calls => (c, (M.step s c).2) :: log (M.step s c).1 calls

/-- Each call is allowed in the state it meets. -/
def Legal (allowed : σ → C → Prop) (s : σ) : List C → Prop
  | [] => True
  | c :: calls => allowed s c ∧ Legal allowed (M.step s c).1 calls

theorem map_fst_log (s : σ) (calls : List C) : (M.log s calls).map (·.1) = calls := by
  induction calls generalizing s with
  | nil => rfl
  | cons c calls ih => rw [log, List.map_cons, ih]

@[simp] theorem run_nil (s : σ) : M.run s [] = s := rfl

@[simp] theorem run_cons (s : σ) (c : C) (calls : List C) :
    M.run s (c :: calls) = M.run (M.step s c).1 calls := rfl

theorem run_append (s : σ) (calls calls' : List C) :
    M.run s (calls ++ calls') = M.run (M.run s calls) calls' := List.foldl_append

theorem legal_append {allowed : σ → C → Prop} {s : σ} {calls calls' : List C} :
    M.Legal allowed s (calls ++ calls') ↔
      M.Legal allowed s calls ∧ M.Legal allowed (M.run s calls) calls' := by
  induction calls generalizing s with
  | nil => simp [Legal]
  | cons c calls ih => rw [List.cons_append, Legal, ih, Legal, run_cons, and_assoc]

variable {M}

/-- Calls that are allowed everywhere. -/
theorem legal_of_forall {allowed : σ → C → Prop} {s : σ} {calls : List C}
    (h : ∀ c ∈ calls, ∀ t, allowed t c) : M.Legal allowed s calls := by
  induction calls generalizing s with
  | nil => trivial
  | cons c calls ih => exact ⟨h c (.head _) s, ih fun c' hc' => h c' (.tail _ hc')⟩

/-! ## Invariants -/

/-- What every allowed call keeps, a legal run keeps. -/
theorem Legal.inv {allowed : σ → C → Prop} {I : σ → Prop}
    (hstep : ∀ {s c}, I s → allowed s c → I (M.step s c).1) {s : σ} {calls : List C} (hs : I s)
    (h : M.Legal allowed s calls) : I (M.run s calls) := by
  induction calls generalizing s with
  | nil => exact hs
  | cons c calls ih => exact ih (hstep hs h.1) h.2

/-- **Where something came from**: if one step brings `Q` in only by a call with `P`, a run that ends
with `Q` started with it or has such a call. -/
theorem exists_origin {P : σ → C → Prop} {Q : σ → Prop}
    (hstep : ∀ s c, Q (M.step s c).1 → Q s ∨ P s c) {s : σ} {calls : List C}
    (h : Q (M.run s calls)) :
    Q s ∨ ∃ before c after, calls = before ++ c :: after ∧ P (M.run s before) c := by
  induction calls generalizing s with
  | nil => exact .inl h
  | cons c calls ih =>
    rcases ih h with hnext | ⟨before, c', after, rfl, hbefore⟩
    · exact (hstep s c hnext).imp_right fun hs => ⟨[], c, calls, rfl, hs⟩
    · exact .inr ⟨c :: before, c', after, rfl, hbefore⟩

/-! ## Simulation -/

/-- **Allowed calls keep the relation** and are answered alike. -/
structure Simulation (M : Machine σ C A) (N : Machine τ C A) (allowed : τ → C → Prop)
    (R : σ → τ → Prop) : Prop where
  step : ∀ {s t c}, R s t → allowed t c →
    (M.step s c).2 = (N.step t c).2 ∧ R (M.step s c).1 (N.step t c).1

namespace Simulation

variable {N : Machine τ C A} {allowed : τ → C → Prop} {R : σ → τ → Prop}

/-- **A legal run** is answered alike and ends in related states; the induction is on the calls. -/
theorem log_eq (h : Simulation M N allowed R) {s : σ} {t : τ} (hR : R s t) {calls : List C}
    (hlegal : N.Legal allowed t calls) :
    M.log s calls = N.log t calls ∧ R (M.run s calls) (N.run t calls) := by
  induction calls generalizing s t with
  | nil => exact ⟨rfl, hR⟩
  | cons c calls ih =>
    obtain ⟨hc, hrest⟩ := hlegal
    obtain ⟨hanswer, hnext⟩ := h.step hR hc
    obtain ⟨hlog, hrun⟩ := ih hnext hrest
    exact ⟨by rw [log, log, hanswer, hlog], hrun⟩

/-- Two states that are related to one state are not told apart. -/
theorem log_congr (h : Simulation M N allowed R) {s s' : σ} {t : τ} (hR : R s t) (hR' : R s' t)
    {calls : List C} (hlegal : N.Legal allowed t calls) : M.log s calls = M.log s' calls :=
  (h.log_eq hR hlegal).1.trans (h.log_eq hR' hlegal).1.symm

end Simulation

/-! ## Lost calls -/

/-- The calls that are not lost, with their answers. -/
def answered {D : Type*} (call : D → C) (lost : A → Bool) (entries : List (D × A)) : List (C × A) :=
  (entries.filter fun entry => !lost entry.2).map fun entry => (call entry.1, entry.2)

theorem mem_answered {D : Type*} {M : Machine σ D A} {call : D → C} {lost : A → Bool} {s : σ}
    {ds : List D} {c : C} (h : c ∈ (answered call lost (M.log s ds)).map (·.1)) :
    ∃ d ∈ ds, call d = c := by
  rw [answered, List.map_map] at h
  obtain ⟨entry, hentry, rfl⟩ := List.mem_map.1 h
  have hd := List.mem_map_of_mem (f := Prod.fst) (List.mem_filter.1 hentry).1
  rw [map_fst_log] at hd
  exact ⟨entry.1, hd, rfl⟩

/-- **A call is lost or goes through**: a lost one keeps the relation to the same state, another one
is a call of the second machine. -/
structure LossySimulation {D : Type*} (M : Machine σ D A) (N : Machine τ C A) (call : D → C)
    (lost : A → Bool) (allowed : D → Prop) (R : σ → τ → Prop) : Prop where
  step : ∀ {s t d}, R s t → allowed d →
    (lost (M.step s d).2 = true ∧ R (M.step s d).1 t) ∨
      lost (M.step s d).2 = false ∧ (M.step s d).2 = (N.step t (call d)).2 ∧
        R (M.step s d).1 (N.step t (call d)).1

/-- **The calls that go through**, run alone, are answered alike. -/
theorem LossySimulation.log_eq {D : Type*} {M : Machine σ D A} {N : Machine τ C A} {call : D → C}
    {lost : A → Bool} {allowed : D → Prop} {R : σ → τ → Prop}
    (h : LossySimulation M N call lost allowed R) {s : σ} {t : τ} (hR : R s t) {ds : List D}
    (hds : ∀ d ∈ ds, allowed d) :
    N.log t ((answered call lost (M.log s ds)).map (·.1)) = answered call lost (M.log s ds) := by
  induction ds generalizing s t with
  | nil => rfl
  | cons d ds ih =>
    have hrest : ∀ d' ∈ ds, allowed d' := fun d' hd' => hds d' (.tail _ hd')
    rcases h.step hR (hds d (.head _)) with ⟨hlost, hnext⟩ | ⟨hkept, hanswer, hnext⟩
    · have hlog : answered call lost (M.log s (d :: ds)) =
          answered call lost (M.log (M.step s d).1 ds) := by
        rw [answered, log, List.filter_cons_of_neg (by simp [hlost]), answered]
      rw [hlog]
      exact ih hnext hrest
    · have hlog : answered call lost (M.log s (d :: ds)) =
          (call d, (M.step s d).2) :: answered call lost (M.log (M.step s d).1 ds) := by
        rw [answered, log, List.filter_cons_of_pos (by simp [hkept]), List.map_cons, answered]
      rw [hlog, List.map_cons, log, ih hnext hrest, hanswer]

/-! ## Silent calls -/

/-- A call whose entry is not kept leaves the state alone. -/
def SilentOutside (M : Machine σ C A) (keep : C × A → Bool) : Prop :=
  ∀ s c, keep (c, (M.step s c).2) = false → (M.step s c).1 = s

/-- The calls of a run whose entries are kept. -/
def kept (M : Machine σ C A) (keep : C × A → Bool) (s : σ) (calls : List C) : List C :=
  ((M.log s calls).filter keep).map (·.1)

section kept

variable {keep : C × A → Bool} {s : σ} {c : C} {calls : List C}

theorem kept_cons_pos (hc : keep (c, (M.step s c).2) = true) :
    M.kept keep s (c :: calls) = c :: M.kept keep (M.step s c).1 calls := by
  rw [kept, log, List.filter_cons, if_pos hc, List.map_cons, kept]

theorem kept_cons_neg (hc : keep (c, (M.step s c).2) = false) :
    M.kept keep s (c :: calls) = M.kept keep (M.step s c).1 calls := by
  rw [kept, log, List.filter_cons, if_neg (by simp [hc]), kept]

end kept

namespace SilentOutside

variable {keep : C × A → Bool} (h : M.SilentOutside keep)
include h

/-- **Striking silent calls** changes no other answer. -/
theorem log_kept (s : σ) (calls : List C) :
    M.log s (M.kept keep s calls) = (M.log s calls).filter keep := by
  induction calls generalizing s with
  | nil => rfl
  | cons c calls ih =>
    cases hc : keep (c, (M.step s c).2) with
    | true => rw [kept_cons_pos hc, log, ih, log, List.filter_cons, if_pos hc]
    | false =>
      rw [kept_cons_neg hc, log, List.filter_cons, if_neg (by simp [hc]), h s c hc, ih]

theorem legal_kept {allowed : σ → C → Prop} {s : σ} {calls : List C}
    (hlegal : M.Legal allowed s calls) : M.Legal allowed s (M.kept keep s calls) := by
  induction calls generalizing s with
  | nil => exact hlegal
  | cons c calls ih =>
    obtain ⟨hallowed, hrest⟩ := hlegal
    cases hc : keep (c, (M.step s c).2) with
    | true =>
      rw [kept_cons_pos hc]
      exact ⟨hallowed, ih hrest⟩
    | false =>
      rw [kept_cons_neg hc, h s c hc]
      rw [h s c hc] at hrest
      exact ih hrest

end SilentOutside

end Machine
