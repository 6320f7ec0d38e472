import Mathlib.Data.List.Basic
import Mathlib.Tactic.Common

/-!
# Batches of fallible updates

`Op.batch` checks all items against the state it starts from and then applies them; `Op.each` makes
one call after the other. They agree on a list exactly if none of the items accepted at the start
spoils a later one (`Op.Law.batch_eq_each_iff`).
-/

namespace Batch

/-- An update of a state by one item, which may be refused. -/
structure Op (σ α ε : Type) where
  accepts : σ → α → Bool
  apply : σ → α → σ
  error : α → ε

namespace Op

variable {σ α ε : Type} (op : Op σ α ε)

/-- One call. -/
def single (s : σ) (a : α) : Except ε σ :=
  if op.accepts s a then .ok (op.apply s a) else .error (op.error a)

/-- One call for each item, up to the first that is refused. -/
def each (s : σ) (l : List α) : Except ε σ := l.foldlM op.single s

/-- Check all items, then apply them. -/
def batch (s : σ) (l : List α) : Except ε σ :=
  match l.find? fun a => !op.accepts s a with
  | some a => .error (op.error a)
  | none => .ok (l.foldl op.apply s)

/-- **`spoils a b`**: once `a` is applied, `b` is refused. The error of an item tells whether the
item is accepted. -/
structure Law (spoils : α → α → Prop) : Prop where
  accepts_apply : ∀ {s a}, op.accepts s a = true → ∀ b,
    (op.accepts (op.apply s a) b = true ↔ op.accepts s b = true ∧ ¬ spoils a b)
  error_ne : ∀ {s a b}, op.accepts s a = true → op.accepts s b = false → op.error a ≠ op.error b

variable {op} {spoils : α → α → Prop} {s s' : σ} {a : α} {l done : List α}

theorem single_of_accepts (h : op.accepts s a = true) : op.single s a = .ok (op.apply s a) :=
  if_pos h

theorem single_of_refuses (h : op.accepts s a = false) : op.single s a = .error (op.error a) :=
  if_neg (by simp [h])

theorem each_cons_of_accepts (h : op.accepts s a = true) :
    op.each s (a :: l) = op.each (op.apply s a) l := by
  rw [each, List.foldlM_cons, single_of_accepts h]
  rfl

theorem each_cons_of_refuses (h : op.accepts s a = false) :
    op.each s (a :: l) = .error (op.error a) := by
  rw [each, List.foldlM_cons, single_of_refuses h]
  rfl

/-- `s'` accepts what `s` accepts and no item of `done` spoils. -/
def After (op : Op σ α ε) (spoils : α → α → Prop) (s : σ) (done : List α) (s' : σ) : Prop :=
  ∀ b, op.accepts s' b = true ↔ op.accepts s b = true ∧ ∀ a ∈ done, ¬ spoils a b

theorem After.start (s : σ) : op.After spoils s [] s := fun b => by simp

namespace Law

variable (h : op.Law spoils)
include h

theorem after_apply (hs : op.After spoils s done s') (ha : op.accepts s' a = true) :
    op.After spoils s (a :: done) (op.apply s' a) := by
  intro b
  rw [h.accepts_apply ha b, hs b, List.forall_mem_cons, and_assoc, and_comm (b := ¬ spoils a b)]

/-- Calls none of which spoils a later one end like the batch. -/
theorem each_eq_of_clear : ∀ (l : List α) {done : List α} {s' : σ}, op.After spoils s done s' →
    (∀ a ∈ done, ∀ b ∈ l.takeWhile (op.accepts s), ¬ spoils a b) →
    (l.takeWhile (op.accepts s)).Pairwise (fun a b => ¬ spoils a b) →
    op.each s' l = match l.find? fun a => !op.accepts s a with
      | some a => .error (op.error a)
      | none => .ok (l.foldl op.apply s')
  | [], _, _, _, _, _ => rfl
  | b :: l, done, s', hs, hdone, hpair => by
    by_cases hb : op.accepts s b = true
    · rw [List.takeWhile_cons_of_pos hb] at hdone hpair
      obtain ⟨hlater, hpair⟩ := List.pairwise_cons.1 hpair
      have hb' : op.accepts s' b = true := (hs b).2 ⟨hb, fun a ha => hdone a ha b (.head _)⟩
      have hnext : ∀ a ∈ b :: done, ∀ c ∈ l.takeWhile (op.accepts s), ¬ spoils a c := by
        intro a ha c hc
        rcases List.mem_cons.1 ha with rfl | ha
        · exact hlater c hc
        · exact hdone a ha c (.tail _ hc)
      rw [each_cons_of_accepts hb', each_eq_of_clear l (h.after_apply hs hb') hnext hpair,
        List.find?_cons_of_neg (by simp [hb]), List.foldl_cons]
    · have hb' : op.accepts s' b = false := by
        rw [Bool.eq_false_iff]
        exact fun hacc => hb ((hs b).1 hacc).1
      rw [each_cons_of_refuses hb', List.find?_cons_of_pos (by simpa using hb)]

/-- Calls of which one spoils a later one end with the error of an item that was accepted at the
start. -/
theorem each_eq_of_spoiled : ∀ (l : List α) {done : List α} {s' : σ}, op.After spoils s done s' →
    ¬ ((∀ a ∈ done, ∀ b ∈ l.takeWhile (op.accepts s), ¬ spoils a b) ∧
      (l.takeWhile (op.accepts s)).Pairwise fun a b => ¬ spoils a b) →
    ∃ b, op.accepts s b = true ∧ op.each s' l = .error (op.error b)
  | [], _, _, _, hspoiled => absurd ⟨fun _ _ _ hb => (nomatch hb), .nil⟩ hspoiled
  | b :: l, done, s', hs, hspoiled => by
    by_cases hb : op.accepts s b = true
    · by_cases hb' : op.accepts s' b = true
      · rw [each_cons_of_accepts hb']
        refine each_eq_of_spoiled l (h.after_apply hs hb') fun hclear => hspoiled ?_
        rw [List.takeWhile_cons_of_pos hb, List.pairwise_cons]
        refine ⟨fun a ha c hc => ?_, hclear.1 b (.head _), hclear.2⟩
        rcases List.mem_cons.1 hc with rfl | hc
        · exact ((hs c).1 hb').2 a ha
        · exact hclear.1 a (.tail _ ha) c hc
      · exact ⟨b, hb, each_cons_of_refuses (Bool.eq_false_iff.2 hb')⟩
    · refine absurd ?_ hspoiled
      rw [List.takeWhile_cons_of_neg hb]
      exact ⟨fun _ _ _ hc => (nomatch hc), .nil⟩

/-- **When a batch does what its items do one at a time**: no item accepted at the start, before the
first refused one, spoils a later one of these. -/
theorem batch_eq_each_iff (s : σ) (l : List α) : op.batch s l = op.each s l ↔
    (l.takeWhile (op.accepts s)).Pairwise fun a b => ¬ spoils a b := by
  constructor
  · intro heq
    by_contra hspoiled
    obtain ⟨b, hb, heach⟩ := h.each_eq_of_spoiled l (.start s) fun hclear => hspoiled hclear.2
    rw [heach, batch] at heq
    split at heq
    · next a hfind =>
      have ha : op.accepts s a = false := by simpa using List.find?_some hfind
      exact h.error_ne hb ha (Except.error.inj heq).symm
    · cases heq
  · intro hpair
    exact (h.each_eq_of_clear l (.start s) (fun _ ha => nomatch ha) hpair).symm

end Law

end Op

end Batch
