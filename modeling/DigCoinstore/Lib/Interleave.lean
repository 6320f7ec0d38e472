import Mathlib.Data.Multiset.AddSub
import Mathlib.Logic.Relation

/-!
# Calls that interleave

A call of a shared object is a program of atomic operations (`Prog`): the object answers each one,
and the answer decides what the call does next; an operation that fails ends the call with its
error. The calls in flight form a pool, and a step of the pool is the next operation of one of
them, any of them, performed or failed (`Step`). What every performed operation keeps holds once
all calls have returned without an error (`Reaches.inv`); a call can also go on alone while the
others wait (`Leads`), up to its end and after it the next one (`Reaches.run_all`).
-/

namespace Interleave

variable {Op : Type} {Reply : Op → Type} {ε α σ : Type}

/-- **A call** that returns `r`, or goes on with an operation and what follows its answer. -/
inductive Prog (Op : Type) (Reply : Op → Type) (ε α : Type) where
  | ret (r : Except ε α)
  | op (o : Op) (next : Reply o → Prog Op Reply ε α)

/-- The call alone on the object. -/
def Prog.run (exec : σ → (o : Op) → σ × Except ε (Reply o)) :
    Prog Op Reply ε α → σ → σ × Except ε α
  | .ret r, s => (s, r)
  | .op o next, s =>
    match exec s o with
    | (s', .error e) => (s', .error e)
    | (s', .ok reply) => (next reply).run exec s'

/-- The call with its result passed on to `f`. -/
def Prog.map {β : Type} (f : α → β) : Prog Op Reply ε α → Prog Op Reply ε β
  | .ret r => .ret (r.map f)
  | .op o next => .op o fun reply => (next reply).map f

/-- Every operation that the call can come to satisfies `p`. -/
inductive Prog.Only (p : Op → Prop) : Prog Op Reply ε α → Prop
  | ret (r : Except ε α) : Prog.Only p (.ret r)
  | op {o : Op} {next : Reply o → Prog Op Reply ε α} : p o → (∀ reply, Prog.Only p (next reply)) →
    Prog.Only p (.op o next)

theorem Prog.Only.map {β : Type} {p : Op → Prop} (f : α → β) {t : Prog Op Reply ε α}
    (h : t.Only p) : (t.map f).Only p := by
  induction h with
  | ret r => exact .ret _
  | op ho _ ih => exact .op ho ih

variable {exec : σ → (o : Op) → σ × Except ε (Reply o)}

/-- **One call of the pool** has its next operation performed, or failed by the object. -/
inductive Step (exec : σ → (o : Op) → σ × Except ε (Reply o)) :
    σ × Multiset (Prog Op Reply ε α) → σ × Multiset (Prog Op Reply ε α) → Prop
  | perform {s s' : σ} {o : Op} {reply : Reply o} {next : Reply o → Prog Op Reply ε α}
      {ts : Multiset (Prog Op Reply ε α)} : exec s o = (s', .ok reply) →
      Step exec (s, .op o next ::ₘ ts) (s', next reply ::ₘ ts)
  | fail {s : σ} {o : Op} {next : Reply o → Prog Op Reply ε α}
      {ts : Multiset (Prog Op Reply ε α)} (e : ε) :
      Step exec (s, .op o next ::ₘ ts) (s, .ret (.error e) ::ₘ ts)

/-- A run of the pool. -/
abbrev Reaches (exec : σ → (o : Op) → σ × Except ε (Reply o)) :
    σ × Multiset (Prog Op Reply ε α) → σ × Multiset (Prog Op Reply ε α) → Prop :=
  Relation.ReflTransGen (Step exec)

/-- All calls have returned, none with an error. -/
def AllOk (ts : Multiset (Prog Op Reply ε α)) : Prop := ∀ t ∈ ts, ∃ a, t = .ret (.ok a)

theorem allOk_zero : AllOk (0 : Multiset (Prog Op Reply ε α)) := fun _ ht =>
  absurd ht (Multiset.notMem_zero _)

theorem allOk_cons {t : Prog Op Reply ε α} {ts : Multiset (Prog Op Reply ε α)} :
    AllOk (t ::ₘ ts) ↔ (∃ a, t = .ret (.ok a)) ∧ AllOk ts := Multiset.forall_mem_cons

/-! ## Invariants -/

/-- A call that has failed is not called back. -/
theorem Step.failed {p q : σ × Multiset (Prog Op Reply ε α)} (h : Step exec p q) {e : ε}
    (hmem : .ret (.error e) ∈ p.2) : .ret (.error e) ∈ q.2 := by
  cases h with
  | perform _ =>
    rcases Multiset.mem_cons.1 hmem with heq | hmem
    · cases heq
    · exact Multiset.mem_cons_of_mem hmem
  | fail _ =>
    rcases Multiset.mem_cons.1 hmem with heq | hmem
    · cases heq
    · exact Multiset.mem_cons_of_mem hmem

theorem Reaches.failed {p q : σ × Multiset (Prog Op Reply ε α)} (h : Reaches exec p q) {e : ε}
    (hmem : .ret (.error e) ∈ p.2) : .ret (.error e) ∈ q.2 := by
  induction h with
  | refl => exact hmem
  | tail _ hstep ih => exact hstep.failed ih

theorem AllOk.not_failed {ts : Multiset (Prog Op Reply ε α)} (h : AllOk ts) {e : ε} :
    .ret (.error e) ∉ ts := by
  intro hmem
  obtain ⟨a, ha⟩ := h _ hmem
  cases ha

/-- **What every performed operation keeps** holds once all calls have returned without an
error. -/
theorem Reaches.inv {I : σ → Multiset (Prog Op Reply ε α) → Prop}
    (hperform : ∀ {s s' : σ} {o : Op} {reply : Reply o} {next : Reply o → Prog Op Reply ε α}
      {ts : Multiset (Prog Op Reply ε α)}, I s (.op o next ::ₘ ts) → exec s o = (s', .ok reply) →
      I s' (next reply ::ₘ ts))
    {p q : σ × Multiset (Prog Op Reply ε α)} (hp : I p.1 p.2) (h : Reaches exec p q)
    (hq : AllOk q.2) : I q.1 q.2 := by
  have hrun : I q.1 q.2 ∨ ∃ e, .ret (.error e) ∈ q.2 := by
    clear hq
    induction h with
    | refl => exact .inl hp
    | tail _ hstep ih =>
      rcases ih with hI | ⟨e, he⟩
      · cases hstep with
        | perform hexec => exact .inl (hperform hI hexec)
        | fail e => exact .inr ⟨e, Multiset.mem_cons_self _ _⟩
      · exact .inr ⟨e, hstep.failed he⟩
  rcases hrun with hI | ⟨e, he⟩
  · exact hI
  · exact absurd he hq.not_failed

/-! ## Runs of one call -/

/-- **The call goes from `t` to `t'`** while the others wait. -/
def Leads (exec : σ → (o : Op) → σ × Except ε (Reply o)) (s : σ) (t : Prog Op Reply ε α) (s' : σ)
    (t' : Prog Op Reply ε α) : Prop :=
  ∀ ts, Reaches exec (s, t ::ₘ ts) (s', t' ::ₘ ts)

namespace Leads

variable {s s₁ s₂ : σ} {t t₁ t₂ : Prog Op Reply ε α}

theorem refl : Leads exec s t s t := fun _ => .refl

theorem trans (h : Leads exec s t s₁ t₁) (h' : Leads exec s₁ t₁ s₂ t₂) : Leads exec s t s₂ t₂ :=
  fun ts => (h ts).trans (h' ts)

/-- Its next operation and what follows. -/
theorem op {o : Op} {reply : Reply o} {next : Reply o → Prog Op Reply ε α}
    (hexec : exec s o = (s₁, .ok reply)) (h : Leads exec s₁ (next reply) s₂ t) :
    Leads exec s (.op o next) s₂ t :=
  fun ts => .head (.perform hexec) (h ts)

/-- A call that is run alone. -/
theorem of_run {a : α} : ∀ {t : Prog Op Reply ε α} {s : σ}, t.run exec s = (s₁, .ok a) →
    Leads exec s t s₁ (.ret (.ok a))
  | .ret r, s, h => by
    obtain ⟨rfl, rfl⟩ := Prod.mk.inj h
    exact .refl
  | .op o next, s, h => by
    rw [Prog.run] at h
    split at h
    · cases h
    · next s' reply hexec => exact .op hexec (of_run h)

/-- The call behind another one. -/
theorem second (h : Leads exec s t s₁ t₁) (u : Prog Op Reply ε α)
    (ts : Multiset (Prog Op Reply ε α)) :
    Reaches exec (s, u ::ₘ t ::ₘ ts) (s₁, u ::ₘ t₁ ::ₘ ts) := by
  rw [Multiset.cons_swap u t, Multiset.cons_swap u t₁]
  exact h _

end Leads

/-- The call can be run to its end from every state with `I`, and ends in one. -/
def Completes (exec : σ → (o : Op) → σ × Except ε (Reply o)) (I : σ → Prop)
    (t : Prog Op Reply ε α) : Prop :=
  ∀ s, I s → ∃ s' a, Leads exec s t s' (.ret (.ok a)) ∧ I s'

/-- **All of several calls**, one after the other. -/
theorem Reaches.run_all {I : σ → Prop} {ts : Multiset (Prog Op Reply ε α)}
    (us : Multiset (Prog Op Reply ε α)) (hts : ∀ t ∈ ts, Completes exec I t) {s : σ} (hs : I s) :
    ∃ s' ts', Reaches exec (s, ts + us) (s', ts' + us) ∧ AllOk ts' ∧ I s' := by
  induction ts using Multiset.induction generalizing s us with
  | empty => exact ⟨s, 0, .refl, allOk_zero, hs⟩
  | cons t ts ih =>
    obtain ⟨ht, hts⟩ := Multiset.forall_mem_cons.1 hts
    obtain ⟨s₁, a, hlead, hs₁⟩ := ht s hs
    obtain ⟨s₂, ts', hreach, hok, hs₂⟩ := ih (.ret (.ok a) ::ₘ us) hts hs₁
    refine ⟨s₂, .ret (.ok a) ::ₘ ts', ?_, allOk_cons.2 ⟨⟨a, rfl⟩, hok⟩, hs₂⟩
    rw [Multiset.add_cons, Multiset.add_cons] at hreach
    rw [Multiset.cons_add, Multiset.cons_add]
    exact (hlead (ts + us)).trans hreach

end Interleave
