import DigCoinstore.ConcurrentHints
import DigCoinstore.Sample

/-!
# Retrying `add_hint`

`add_hint` writes the forward row and then the reverse row, and looks at the forward row alone to
tell a stored pair. A backend that fails between the two writes leaves a pair in one table, and the
next attempt takes it for stored. So the call is safe to repeat exactly when the pair was stored
before or the first attempt that comes to the reverse row also writes it (`addHint_retry_iff`).
-/

namespace DigCoinstore

/-- Which backend calls of one attempt fail. -/
abbrev Faults := BackendOp → Option StorageError

namespace Faults

variable (p : HintPair) (f : Faults)

/-- The forward row is looked up and written. -/
def reachesReverse : Bool :=
  (f (.get .hints (forwardKey p))).isNone && (f (.put .hints (forwardKey p) [])).isNone

def failsReverse : Bool := (f (.put .hintsByValue (reverseKey p) [])).isSome

end Faults

variable [Chia]

namespace CoinStore

/-- The store on a backend that fails these calls. -/
def withFaults (s : CoinStore) (f : Faults) : CoinStore :=
  { s with backend := { s.backend with faults := f } }

/-- **The call made again until it returns `Ok`**: what each attempt leaves and returns. -/
def addHintAttempts (coinId : CoinId) (hint : Bytes) :
    List Faults → CoinStore → List (CoinStore × Res Unit)
  | [], _ => []
  | f :: attempts, s =>
    let outcome := (s.withFaults f).addHint coinId hint
    match outcome.2 with
    | .ok () => [outcome]
    | .error _ => outcome :: addHintAttempts coinId hint attempts outcome.1

/-- An attempt that fails keeps the tables mirrored, one that returns `Ok` leaves both rows. -/
def AttemptSafe (p : HintPair) (outcome : CoinStore × Res Unit) : Prop :=
  (∀ e, outcome.2 = .error e → HintsPaired outcome.1.backend.tables) ∧
    (outcome.2 = .ok () →
      outcome.1.backend.hasForward p = true ∧ outcome.1.backend.hasReverse p = true)

/-! ## One attempt -/

variable {s : CoinStore} {coinId : CoinId} {hint : Bytes} {f : Faults}

/-- **How an attempt ends**: it leaves the tables, or it writes one row or both. -/
inductive AttemptOutcome (s : CoinStore) (p : HintPair) (f : Faults) : CoinStore × Res Unit → Prop
  | found {s' : CoinStore} : s'.backend.tables = s.backend.tables → s.backend.hasForward p = true →
    AttemptOutcome s p f (s', .ok ())
  | blocked {s' : CoinStore} {e : Exit} : s'.backend.tables = s.backend.tables →
    s.backend.hasForward p = true ∨ f.reachesReverse p = false →
    AttemptOutcome s p f (s', .error e)
  | torn {s' : CoinStore} {e : Exit} : s.backend.hasForward p = false → f.reachesReverse p = true →
    f.failsReverse p = true → s'.backend.tables = s.backend.tables.put .hints (forwardKey p) [] →
    AttemptOutcome s p f (s', .error e)
  | written {s' : CoinStore} : s.backend.hasForward p = false → f.reachesReverse p = true →
    f.failsReverse p = false → s'.backend.tables =
      (s.backend.tables.put .hints (forwardKey p) []).put .hintsByValue (reverseKey p) [] →
    AttemptOutcome s p f (s', .ok ())

omit [Chia] in
theorem addHint_attempt (s : CoinStore) (coinId : CoinId) (f : Faults) (hpos : 0 < hint.length)
    (hmax : hint.length ≤ maxHintLength) :
    AttemptOutcome s (coinId, hint) f ((s.withFaults f).addHint coinId hint) := by
  have hvalid : validateHint hint = .ok .store := by
    rcases validateHint_cases hint with ⟨hnil, -⟩ | ⟨hlen, -⟩ | ⟨-, -, hvalid⟩
    · simp [hnil] at hpos
    · omega
    · exact hvalid
  simp only [addHint, hvalid, addHintRows, Backend.get, withFaults]
  cases hget : f (.get .hints (coinId.bytes ++ hint)) with
  | some e => exact .blocked rfl (.inr (by simp [Faults.reachesReverse, forwardKey, hget]))
  | none =>
    cases hrow : (s.backend.tables .hints)[coinId.bytes ++ hint]? with
    | some v => exact .found rfl (by simp [Backend.hasForward, forwardKey, hrow])
    | none =>
      have hmissing : s.backend.hasForward (coinId, hint) = false := by
        simp [Backend.hasForward, forwardKey, hrow]
      simp only [orStorage_ok, Backend.put]
      cases hput : f (.put .hints (coinId.bytes ++ hint) []) with
      | some e => exact .blocked rfl (.inr (by simp [Faults.reachesReverse, forwardKey, hput]))
      | none =>
        have hreach : f.reachesReverse (coinId, hint) = true := by
          simp [Faults.reachesReverse, forwardKey, hget, hput]
        dsimp only
        cases hrev : f (.put .hintsByValue (hint ++ coinId.bytes) []) with
        | some e =>
          have hfails : f.failsReverse (coinId, hint) = true := by
            simp [Faults.failsReverse, reverseKey, hrev]
          exact .torn hmissing hreach hfails rfl
        | none =>
          have hwrites : f.failsReverse (coinId, hint) = false := by
            simp [Faults.failsReverse, reverseKey, hrev]
          exact .written hmissing hreach hwrites rfl

/-! ## All attempts -/

omit [Chia] in
/-- An attempt that leaves the tables is safe. -/
theorem AttemptSafe.same {s' : CoinStore} {p : HintPair} {r : Res Unit}
    (hpaired : HintsPaired s.backend.tables) (htables : s'.backend.tables = s.backend.tables)
    (hok : r = .ok () → s.backend.hasForward p = true) : AttemptSafe p (s', r) := by
  have hpaired' : HintsPaired s'.backend.tables := htables ▸ hpaired
  refine ⟨fun _ _ => hpaired', fun hr => ?_⟩
  have hforward : s'.backend.hasForward p = true := by
    rw [Backend.hasForward, htables]
    exact hok hr
  exact ⟨hforward, hpaired'.hasForward_eq p ▸ hforward⟩

omit [Chia] in
/-- **`add_hint` is safe to repeat** exactly when the pair was stored before or the first attempt
that comes to the reverse row writes it. -/
theorem addHint_retry_iff (hpaired : HintsPaired s.backend.tables) (hpos : 0 < hint.length)
    (hmax : hint.length ≤ maxHintLength) (attempts : List Faults) :
    (∀ outcome ∈ addHintAttempts coinId hint attempts s, AttemptSafe (coinId, hint) outcome) ↔
      s.backend.hasForward (coinId, hint) = true ∨
        ∀ f, attempts.find? (Faults.reachesReverse (coinId, hint)) = some f →
          f.failsReverse (coinId, hint) = false := by
  induction attempts generalizing s with
  | nil => simp [addHintAttempts]
  | cons f attempts ih =>
    have hattempt := addHint_attempt s coinId f hpos hmax
    rw [addHintAttempts]
    generalize (s.withFaults f).addHint coinId hint = outcome at hattempt
    cases hattempt with
    | found htables hforward =>
      refine iff_of_true (fun o ho => ?_) (.inl hforward)
      obtain rfl := List.mem_singleton.1 ho
      exact .same hpaired htables fun _ => hforward
    | @blocked s' e htables hblocked =>
      have hsafe : AttemptSafe (coinId, hint) (s', .error e) :=
        .same hpaired htables fun hr => by cases hr
      have hforward : s'.backend.hasForward (coinId, hint) = s.backend.hasForward (coinId, hint) := by
        rw [Backend.hasForward, Backend.hasForward, htables]
      have hrest := ih (s := s') (htables ▸ hpaired)
      rw [hforward] at hrest
      simp only [List.forall_mem_cons, hsafe, true_and]
      rw [hrest]
      rcases hblocked with hstored | hunreached
      · exact iff_of_true (.inl hstored) (.inl hstored)
      · rw [List.find?_cons_of_neg (by simp [hunreached])]
    | @torn s' e hmissing hreach hfails htables =>
      -- the forward row is there and the reverse row is not
      refine iff_of_false (fun hall => ?_) fun h => ?_
      · have hpaired' := (hall _ (.head _)).1 e rfl
        have hforward : s'.backend.hasForward (coinId, hint) = true := by
          simp [Backend.hasForward, htables, Tables.put_get]
        have hreverse : s'.backend.hasReverse (coinId, hint) = s.backend.hasReverse (coinId, hint) := by
          simp [Backend.hasReverse, htables, Tables.put_get]
        rw [hpaired'.hasForward_eq (coinId, hint), hreverse,
          ← hpaired.hasForward_eq (coinId, hint), hmissing] at hforward
        cases hforward
      · rcases h with hstored | hfirst
        · rw [hmissing] at hstored
          cases hstored
        · have hok := hfirst f (List.find?_cons_of_pos hreach)
          rw [hfails] at hok
          cases hok
    | written hmissing hreach hwrites htables =>
      refine iff_of_true (fun o ho => ?_) (.inr fun g hg => ?_)
      · obtain rfl := List.mem_singleton.1 ho
        refine ⟨fun e he => by (cases he), fun _ => ?_⟩
        simp [Backend.hasForward, Backend.hasReverse, htables, Tables.put_get]
      · rw [List.find?_cons_of_pos hreach] at hg
        rwa [← Option.some.inj hg]

end CoinStore

end DigCoinstore

namespace DigCoinstore

open Sample

/-- Every write to the reverse table fails. -/
def reverseDown : Faults := fun op =>
  match op with
  | .put .hintsByValue _ _ => some .mapFull
  | _ => none

/-- Nothing fails. -/
def allUp : Faults := fun _ => none

/-- Every write to the forward table fails. -/
def forwardDown : Faults := fun op =>
  match op with
  | .put .hints _ _ => some .mapFull
  | _ => none

/-- The first attempt writes neither row, the second both. -/
theorem addHint_retry_iff_opened :
    (∀ outcome ∈ opened.addHintAttempts (ofNum 1) [7] [forwardDown, allUp],
      CoinStore.AttemptSafe (ofNum 1, [7]) outcome) ↔
      opened.backend.hasForward (ofNum 1, [7]) = true ∨
        ∀ f, [forwardDown, allUp].find? (Faults.reachesReverse (ofNum 1, [7])) = some f →
          f.failsReverse (ofNum 1, [7]) = false :=
  CoinStore.addHint_retry_iff HintsPaired.empty (by decide) (by decide) [forwardDown, allUp]

/-- After an attempt that could not write the reverse row. -/
def tornHint : CoinStore × Res Unit := (opened.withFaults reverseDown).addHint (ofNum 1) [7]

/-- After the next attempt, which meets no failure. -/
def retriedHint : CoinStore × Res Unit := (tornHint.1.withFaults allUp).addHint (ofNum 1) [7]

/-- The first attempt leaves the forward row alone, the second returns `Ok` without the reverse
row. -/
theorem addHint_retry_fails : HintsPaired opened.backend.tables ∧
    (∃ e, opened.addHintAttempts (ofNum 1) [7] [reverseDown, allUp] =
      [(tornHint.1, .error e), (retriedHint.1, .ok ())]) ∧
    ¬ HintsPaired tornHint.1.backend.tables ∧
    retriedHint.1.backend.hasForward (ofNum 1, [7]) = true ∧
    retriedHint.1.backend.hasReverse (ofNum 1, [7]) = false := by
  obtain ⟨htorn, hretried, hforward, hreverse, hforward', hreverse'⟩ :
      tornHint.2.toOption = none ∧ retriedHint.2.toOption = some () ∧
      tornHint.1.backend.hasForward (ofNum 1, [7]) = true ∧
      tornHint.1.backend.hasReverse (ofNum 1, [7]) = false ∧
      retriedHint.1.backend.hasForward (ofNum 1, [7]) = true ∧
      retriedHint.1.backend.hasReverse (ofNum 1, [7]) = false := by decide
  obtain ⟨e, he⟩ : ∃ e, tornHint.2 = .error e := by
    cases hres : tornHint.2 with
    | error e => exact ⟨e, rfl⟩
    | ok u => rw [hres] at htorn; cases htorn
  have hok := Res.eq_ok_of_toOption hretried
  refine ⟨HintsPaired.empty, ⟨e, ?_⟩, fun hpaired => ?_, hforward', hreverse'⟩
  · have hfirst : (opened.withFaults reverseDown).addHint (ofNum 1) [7] = (tornHint.1, .error e) :=
      Prod.ext rfl he
    have hsecond : (tornHint.1.withFaults allUp).addHint (ofNum 1) [7] = (retriedHint.1, .ok ()) :=
      Prod.ext rfl hok
    rw [CoinStore.addHintAttempts, hfirst]
    dsimp only
    rw [CoinStore.addHintAttempts, hsecond]
  · rw [hpaired.hasForward_eq, hreverse] at hforward
    cases hforward

end DigCoinstore
