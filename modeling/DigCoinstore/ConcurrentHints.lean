import DigCoinstore.HintCalls
import DigCoinstore.HintMirror
import DigCoinstore.Lib.TwoRows

/-!
# Hint calls that interleave

Each hint call keeps the two tables together when it runs alone, but writes them one after the
other. For one pair of a coin id and a hint, every call in flight is a party of `TwoRows`
(`Sees`), so the tables agree after every run in which a coin that gets a hint has no removal to
fear: none of its hints is removed, or they are removed once and the hint was there before. In
every other case there is a run after which the reverse table holds a pair that the forward table
does not (`exists_torn_run`): the removal falls between the two writes of the insertion.
-/

namespace DigCoinstore

open Interleave TwoRows

/-- The two hint tables of a backend hold the same pairs. -/
def Backend.HintsAgree (b : Backend) : Prop := ∀ (id : CoinId) (hint : Bytes),
  id.bytes ++ hint ∈ b.tables .hints ↔ hint ++ id.bytes ∈ b.tables .hintsByValue

/-- How often the calls remove the hints of a coin. -/
def removals (calls : Multiset HintCall) (id : CoinId) : ℕ :=
  (calls.map fun call => call.coinIds.count id).sum

theorem validateHint_cases (hint : Bytes) :
    hint = [] ∧ validateHint hint = .ok .skip ∨
    maxHintLength < hint.length ∧ validateHint hint = err (.hintTooLong hint.length maxHintLength) ∨
    0 < hint.length ∧ hint.length ≤ maxHintLength ∧ validateHint hint = .ok .store := by
  unfold validateHint
  rcases hint with _ | ⟨byte, hint⟩
  · exact .inl ⟨rfl, rfl⟩
  · rw [List.isEmpty_cons, if_neg (by simp)]
    split
    · next hlen => exact .inr (.inl ⟨hlen, rfl⟩)
    · next hlen => exact .inr (.inr ⟨by simp, Nat.not_lt.1 hlen, rfl⟩)

/-! ## The rows of one pair -/

namespace Backend

def hasForward (b : Backend) (p : HintPair) : Bool := (b.tables .hints)[forwardKey p]?.isSome

def hasReverse (b : Backend) (p : HintPair) : Bool := (b.tables .hintsByValue)[reverseKey p]?.isSome

theorem hintsAgree_iff {b : Backend} :
    b.HintsAgree ↔ ∀ p, b.hasForward p = b.hasReverse p := by
  refine ⟨fun h p => ?_, fun h id hint => ?_⟩
  · have hp := h p.1 p.2
    rwa [Std.ExtTreeMap.mem_iff_isSome_getElem?, Std.ExtTreeMap.mem_iff_isSome_getElem?,
      ← Bool.eq_iff_iff] at hp
  · rw [Std.ExtTreeMap.mem_iff_isSome_getElem?, Std.ExtTreeMap.mem_iff_isSome_getElem?,
      ← Bool.eq_iff_iff]
    exact h (id, hint)

section
variable {b : Backend} (h : b.Healthy)
include h

theorem exec_get (cf : ColumnFamily) (key : Bytes) :
    b.exec (.get cf key) = (b, .ok (b.tables cf)[key]?) := by
  rw [exec, get_of_healthy h, orStorage_ok]

theorem exec_put (cf : ColumnFamily) (key value : Bytes) :
    b.exec (.put cf key value) = ({ b with tables := b.tables.put cf key value }, .ok ()) := by
  rw [exec, put_of_healthy h, orStorage_ok]

theorem exec_delete (cf : ColumnFamily) (key : Bytes) :
    b.exec (.delete cf key) = ({ b with tables := b.tables.delete cf key }, .ok ()) := by
  rw [exec, delete_of_healthy h, orStorage_ok]

theorem exec_prefixScan (cf : ColumnFamily) (pre : Bytes) :
    b.exec (.prefixScan cf pre) =
      (b, .ok ((b.tables cf).toList.filter fun kv => pre.isPrefixOf kv.1)) := by
  rw [exec, prefixScan_of_healthy h, orStorage_ok]

/-- No call makes the engine fail. -/
theorem exec_healthy {op : BackendOp} {b' : Backend} {r : Res op.Reply}
    (hexec : b.exec op = (b', r)) : b'.Healthy := by
  cases op with
  | get cf key =>
    rw [exec_get h] at hexec
    exact (Prod.mk.inj hexec).1 ▸ h
  | put cf key value =>
    rw [exec_put h] at hexec
    exact (Prod.mk.inj hexec).1 ▸ h
  | delete cf key =>
    rw [exec_delete h] at hexec
    exact (Prod.mk.inj hexec).1 ▸ h
  | batchWrite batch =>
    rw [exec, batchWrite_of_healthy h] at hexec
    exact (Prod.mk.inj hexec).1 ▸ h
  | prefixScan cf pre =>
    rw [exec_prefixScan h] at hexec
    exact (Prod.mk.inj hexec).1 ▸ h

end

section
variable (b : Backend) (p : HintPair) (cf : ColumnFamily) (key value : Bytes)

theorem hasForward_put : hasForward { b with tables := b.tables.put cf key value } p =
    (decide (cf = .hints ∧ key = forwardKey p) || b.hasForward p) := by
  rw [hasForward, Tables.put_get]
  split
  · next heq => simp [heq]
  · next hne => simp only [hne, decide_false, Bool.false_or]; rfl

theorem hasReverse_put : hasReverse { b with tables := b.tables.put cf key value } p =
    (decide (cf = .hintsByValue ∧ key = reverseKey p) || b.hasReverse p) := by
  rw [hasReverse, Tables.put_get]
  split
  · next heq => simp [heq]
  · next hne => simp only [hne, decide_false, Bool.false_or]; rfl

theorem hasForward_delete : hasForward { b with tables := b.tables.delete cf key } p =
    (!decide (cf = .hints ∧ key = forwardKey p) && b.hasForward p) := by
  rw [hasForward, Tables.delete_get]
  split
  · next heq => simp [heq]
  · next hne => simp only [hne, decide_false, Bool.not_false, Bool.true_and]; rfl

theorem hasReverse_delete : hasReverse { b with tables := b.tables.delete cf key } p =
    (!decide (cf = .hintsByValue ∧ key = reverseKey p) && b.hasReverse p) := by
  rw [hasReverse, Tables.delete_get]
  split
  · next heq => simp [heq]
  · next hne => simp only [hne, decide_false, Bool.not_false, Bool.true_and]; rfl

end

end Backend

/-- Mirrored tables hold both rows of a pair or none. -/
theorem HintsPaired.hasForward_eq {b : Backend} (h : HintsPaired b.tables) (p : HintPair) :
    b.hasForward p = b.hasReverse p := by
  obtain ⟨members, h⟩ := h
  have hf := h.forward.get_key forwardKey_injective p
  have hr := h.reverse.get_key reverseKey_injective p
  exact hf.trans hr.symm

theorem HintsPaired.agree {b : Backend} (h : HintsPaired b.tables) : b.HintsAgree :=
  Backend.hintsAgree_iff.2 h.hasForward_eq

/-! ## Calls and one pair -/

/-- The call writes no row of `p`. -/
def Spares (p : HintPair) : BackendOp → Prop
  | .put cf key _ | .delete cf key =>
    ¬ (cf = .hints ∧ key = forwardKey p) ∧ ¬ (cf = .hintsByValue ∧ key = reverseKey p)
  | .batchWrite _ => False
  | _ => True

/-- A scan answers every row once, and only rows under its prefix. -/
def Possible : (op : BackendOp) → op.Reply → Prop
  | .prefixScan _ pre, entries => (entries.map (·.1)).Nodup ∧ ∀ key ∈ entries.map (·.1), pre <+: key
  | _, _ => True

/-- **The program removes `p` at most `n` times**, the reverse row first, and does nothing else to
the rows of `p`. -/
inductive Removes (p : HintPair) : ℕ → HintProg → Prop
  | ret {n : ℕ} (r : Res HintResult) : Removes p n (.ret r)
  | spare {n : ℕ} {op : BackendOp} {next : op.Reply → HintProg} : Spares p op →
      (∀ reply, Possible op reply → Removes p n (next reply)) → Removes p n (.op op next)
  | remove {n : ℕ} {next : Unit → HintProg} : (∀ reply, Removes p n (next reply)) →
      Removes p (n + 1) (.op (.delete .hintsByValue (reverseKey p)) fun _ =>
        .op (.delete .hints (forwardKey p)) next)

/-- **What a call in flight is for the pair `p`.** -/
inductive Sees (p : HintPair) : HintProg → Party → Prop
  | idle {n : ℕ} {prog : HintProg} : Removes p n prog → Sees p prog (.idle n)
  | check : Sees p (checkHintProg p.1 p.2) .check
  | forward : Sees p (writeHintProg p.1 p.2) .forward
  | reverse : Sees p (writeReverseProg p.1 p.2) .reverse
  | clear {n : ℕ} {next : Unit → HintProg} : (∀ reply, Removes p n (next reply)) →
      Sees p (.op (.delete .hints (forwardKey p)) next) (.clear n)

section
variable {p q : HintPair}

theorem spares_putForward (h : q ≠ p) (value : Bytes) :
    Spares p (.put .hints (forwardKey q) value) :=
  ⟨fun heq => h (forwardKey_injective heq.2), fun heq => absurd heq.1 (by decide)⟩

theorem spares_putReverse (h : q ≠ p) (value : Bytes) :
    Spares p (.put .hintsByValue (reverseKey q) value) :=
  ⟨fun heq => absurd heq.1 (by decide), fun heq => h (reverseKey_injective heq.2)⟩

theorem spares_deleteForward (h : q ≠ p) : Spares p (.delete .hints (forwardKey q)) :=
  ⟨fun heq => h (forwardKey_injective heq.2), fun heq => absurd heq.1 (by decide)⟩

theorem spares_deleteReverse (h : q ≠ p) : Spares p (.delete .hintsByValue (reverseKey q)) :=
  ⟨fun heq => absurd heq.1 (by decide), fun heq => h (reverseKey_injective heq.2)⟩

end

namespace Removes

variable {p : HintPair}

theorem mono {n m : ℕ} {prog : HintProg} (h : Removes p n prog) (hnm : n ≤ m) :
    Removes p m prog := by
  induction h generalizing m with
  | ret r => exact .ret r
  | spare hspare _ ih => exact .spare hspare fun reply hreply => ih reply hreply hnm
  | remove _ ih =>
    obtain ⟨m, rfl⟩ := Nat.exists_eq_add_of_le' (Nat.one_le_of_lt hnm)
    exact .remove fun reply => ih reply (Nat.le_of_succ_le_succ hnm)

/-- An insertion of another pair. -/
theorem checkHintProg {q : HintPair} (h : q ≠ p) : Removes p 0 (checkHintProg q.1 q.2) := by
  refine .spare trivial fun found _ => ?_
  cases found with
  | some value => exact .ret _
  | none =>
    refine .spare (spares_putForward h []) fun _ _ => ?_
    exact .spare (spares_putReverse h []) fun _ _ => .ret _

/-- The rows of one coin: `p` as often as it is among them. -/
theorem removeRowsProg {id : CoinId} {next : ℕ → HintProg} {m : ℕ}
    (hnext : ∀ removed, Removes p m (next removed)) :
    ∀ (keys : List Bytes) (removed : ℕ), (∀ key ∈ keys, id.bytes <+: key) →
    Removes p (keys.count (forwardKey p) + m) (removeRowsProg id next keys removed)
  | [], removed, _ => by simpa [DigCoinstore.removeRowsProg] using hnext removed
  | key :: keys, removed, hpre => by
    have ih := fun removed' =>
      removeRowsProg hnext keys removed' fun key' hkey' => hpre key' (.tail _ hkey')
    obtain ⟨hint, hkey⟩ := hpre key (.head _)
    have hdrop : key.drop 32 ++ id.bytes = reverseKey (id, hint) := by
      rw [← hkey, List.drop_left' id.length_bytes]
      rfl
    have hkey : key = forwardKey (id, hint) := hkey.symm
    rw [DigCoinstore.removeRowsProg, hdrop, hkey]
    by_cases hshort : (forwardKey (id, hint)).length ≤ 32
    · rw [if_pos hshort]
      exact (ih removed).mono (Nat.add_le_add_right List.count_le_count_cons _)
    · rw [if_neg hshort]
      by_cases hq : (id, hint) = p
      · rw [hq, List.count_cons_self, Nat.add_right_comm]
        exact .remove fun _ => ih _
      · rw [List.count_cons_of_ne fun heq => hq (forwardKey_injective heq)]
        exact .spare (spares_deleteReverse hq) fun _ _ =>
          .spare (spares_deleteForward hq) fun _ _ => ih _

/-- **A removal** removes `p` once for each time its coin is listed. -/
theorem removeHintsProg : ∀ (coinIds : List CoinId) (removed : ℕ),
    Removes p (coinIds.count p.1) (removeHintsProg coinIds removed)
  | [], _ => .ret _
  | id :: coinIds, removed => by
    refine .spare trivial fun entries hposs => ?_
    obtain ⟨hnodup, hpre⟩ := hposs
    refine (removeRowsProg (removeHintsProg coinIds) _ removed hpre).mono ?_
    rw [List.count_cons, Nat.add_comm]
    refine Nat.add_le_add_left ?_ _
    by_cases hid : id = p.1
    · rw [hid, beq_self_eq_true, if_pos rfl]
      exact List.nodup_iff_count_le_one.1 hnodup _
    · -- no key of another coin is the key of `p`
      refine (Nat.le_of_eq (List.count_eq_zero.2 fun hmem => hid ?_)).trans (Nat.zero_le _)
      have hstart : id.bytes <+: p.1.bytes :=
        List.prefix_of_prefix_length_le (hpre _ hmem) (List.prefix_append p.1.bytes p.2) (by simp)
      exact Bytes32.ext (hstart.eq_of_length (by simp))

end Removes

/-! ## The calls as parties -/

/-- What a call is for `p` before its first operation. -/
def HintCall.party (p : HintPair) : HintCall → Party
  | .addHint coinId hint =>
    if (coinId, hint) = p ∧ 0 < hint.length ∧ hint.length ≤ maxHintLength then .check else .idle 0
  | .removeHintsForCoins coinIds => .idle (coinIds.count p.1)

theorem HintCall.sees (p : HintPair) : ∀ call : HintCall, Sees p call.prog (call.party p)
  | .removeHintsForCoins coinIds => .idle (.removeHintsProg coinIds 0)
  | .addHint coinId hint => by
    rw [HintCall.prog, HintCall.party, addHintProg]
    rcases validateHint_cases hint with ⟨hnil, hvalid⟩ | ⟨hlen, hvalid⟩ | ⟨hpos, hlen, hvalid⟩
    · rw [hvalid, if_neg (by simp [hnil])]
      exact .idle (.ret _)
    · rw [hvalid, if_neg (by omega)]
      exact .idle (.ret _)
    · rw [hvalid]
      by_cases hq : (coinId, hint) = p
      · rw [if_pos ⟨hq, hpos, hlen⟩, ← hq]
        exact .check
      · rw [if_neg fun h => hq h.1]
        exact .idle (.checkHintProg hq)

section
variable {p : HintPair} {b b' : Backend} (hb : b.Healthy)
include hb

theorem Spares.rows {op : BackendOp} {r : Res op.Reply} (h : Spares p op)
    (hexec : b.exec op = (b', r)) :
    b'.hasForward p = b.hasForward p ∧ b'.hasReverse p = b.hasReverse p := by
  cases op with
  | get cf key =>
    rw [Backend.exec_get hb] at hexec
    obtain ⟨rfl, _⟩ := Prod.mk.inj hexec
    exact ⟨rfl, rfl⟩
  | put cf key value =>
    rw [Backend.exec_put hb] at hexec
    obtain ⟨rfl, _⟩ := Prod.mk.inj hexec
    rw [Backend.hasForward_put, Backend.hasReverse_put, decide_eq_false h.1, decide_eq_false h.2]
    exact ⟨rfl, rfl⟩
  | delete cf key =>
    rw [Backend.exec_delete hb] at hexec
    obtain ⟨rfl, _⟩ := Prod.mk.inj hexec
    rw [Backend.hasForward_delete, Backend.hasReverse_delete, decide_eq_false h.1,
      decide_eq_false h.2]
    exact ⟨rfl, rfl⟩
  | batchWrite batch => exact h.elim
  | prefixScan cf pre =>
    rw [Backend.exec_prefixScan hb] at hexec
    obtain ⟨rfl, _⟩ := Prod.mk.inj hexec
    exact ⟨rfl, rfl⟩

theorem possible_exec {op : BackendOp} {reply : op.Reply} (hexec : b.exec op = (b', .ok reply)) :
    Possible op reply := by
  cases op with
  | prefixScan cf pre =>
    rw [Backend.exec_prefixScan hb] at hexec
    obtain ⟨_, hreply⟩ := Prod.mk.inj hexec
    obtain rfl := Except.ok.inj hreply
    refine ⟨?_, fun key hkey => ?_⟩
    · exact (OrdMap.nodup_keys (b.tables cf)).sublist (List.filter_sublist.map _)
    · obtain ⟨kv, hkv, rfl⟩ := List.mem_map.1 hkey
      exact List.isPrefixOf_iff_prefix.1 (List.mem_filter.1 hkv).2
  | _ => trivial

/-- **An operation of a call is a move of the party.** -/
theorem Sees.perform {op : BackendOp} {next : op.Reply → HintProg} {reply : op.Reply} {v : Party}
    (h : Sees p (.op op next) v) (hexec : b.exec op = (b', .ok reply)) :
    ∃ v', Sees p (next reply) v' ∧
      Move (b.hasForward p) (b.hasReverse p) v (b'.hasForward p) (b'.hasReverse p) v' := by
  generalize hprog : (Prog.op op next : HintProg) = prog at h
  cases h with
  | idle hidle =>
    cases hidle with
    | ret r => cases hprog
    | spare hspare hnext =>
      cases hprog
      obtain ⟨hf, hr⟩ := hspare.rows hb hexec
      rw [hf, hr]
      exact ⟨_, .idle (hnext reply (possible_exec hb hexec)), .rest (Nat.le_refl _)⟩
    | remove hnext =>
      cases hprog
      rw [Backend.exec_delete hb] at hexec
      obtain ⟨rfl, _⟩ := Prod.mk.inj hexec
      rw [Backend.hasForward_delete, Backend.hasReverse_delete, decide_eq_false (by simp),
        decide_eq_true ⟨rfl, rfl⟩]
      exact ⟨_, .clear hnext, .deleteReverse⟩
  | check =>
    cases hprog
    rw [Backend.exec_get hb] at hexec
    obtain ⟨rfl, hreply⟩ := Prod.mk.inj hexec
    obtain rfl := Except.ok.inj hreply
    cases hfound : (b.tables .hints)[forwardKey p]? with
    | some value =>
      have hf : b.hasForward p = true := by rw [Backend.hasForward, hfound, Option.isSome_some]
      rw [hf, show (b.tables .hints)[p.1.bytes ++ p.2]? = _ from hfound]
      exact ⟨_, .idle (.ret _), .found⟩
    | none =>
      have hf : b.hasForward p = false := by rw [Backend.hasForward, hfound, Option.isSome_none]
      rw [hf, show (b.tables .hints)[p.1.bytes ++ p.2]? = _ from hfound]
      exact ⟨_, .forward, .missing⟩
  | forward =>
    cases hprog
    rw [Backend.exec_put hb] at hexec
    obtain ⟨rfl, _⟩ := Prod.mk.inj hexec
    rw [Backend.hasForward_put, Backend.hasReverse_put, decide_eq_true ⟨rfl, rfl⟩,
      decide_eq_false (by simp)]
    exact ⟨_, .reverse, .writeForward⟩
  | reverse =>
    cases hprog
    rw [Backend.exec_put hb] at hexec
    obtain ⟨rfl, _⟩ := Prod.mk.inj hexec
    rw [Backend.hasForward_put, Backend.hasReverse_put, decide_eq_false (by simp),
      decide_eq_true ⟨rfl, rfl⟩]
    exact ⟨_, .idle (.ret _), .writeReverse⟩
  | clear hnext =>
    cases hprog
    rw [Backend.exec_delete hb] at hexec
    obtain ⟨rfl, _⟩ := Prod.mk.inj hexec
    rw [Backend.hasForward_delete, Backend.hasReverse_delete, decide_eq_true ⟨rfl, rfl⟩,
      decide_eq_false (by simp)]
    exact ⟨_, .idle (hnext reply), .deleteForward⟩

end

/-! ## Runs that keep the tables together -/

/-- Every pair is safe. -/
def HintsSafe (b : Backend) (progs : Multiset HintProg) : Prop :=
  b.Healthy ∧ ∀ p, ∃ parties, Multiset.Rel (Sees p) progs parties ∧
    Safe (b.hasForward p) (b.hasReverse p) parties

namespace HintsSafe

variable {b b' : Backend} {progs : Multiset HintProg}

theorem perform {op : BackendOp} {reply : op.Reply} {next : op.Reply → HintProg}
    (h : HintsSafe b (.op op next ::ₘ progs)) (hexec : b.exec op = (b', .ok reply)) :
    HintsSafe b' (next reply ::ₘ progs) := by
  refine ⟨Backend.exec_healthy h.1 hexec, fun p => ?_⟩
  obtain ⟨parties, hrel, hsafe⟩ := h.2 p
  obtain ⟨v, rest, hv, hrest, rfl⟩ := Multiset.rel_cons_left.1 hrel
  obtain ⟨v', hv', hmove⟩ := hv.perform h.1 hexec
  exact ⟨v' ::ₘ rest, hrest.cons hv', hsafe.move hmove⟩

/-- Calls that have returned are idle. -/
theorem agree (h : HintsSafe b progs) (hok : AllOk progs) : b.HintsAgree := by
  refine Backend.hintsAgree_iff.2 fun p => ?_
  obtain ⟨parties, hrel, hsafe⟩ := h.2 p
  refine hsafe.agree fun v hv => ?_
  obtain ⟨prog, hprog, hsees⟩ := Multiset.exists_mem_of_rel_of_mem (Multiset.rel_flip.2 hrel) hv
  obtain ⟨result, rfl⟩ := hok prog hprog
  cases hsees with
  | idle _ => exact ⟨_, rfl⟩

end HintsSafe

theorem HintCall.left_party (p : HintPair) (call : HintCall) :
    (call.party p).left = call.coinIds.count p.1 := by
  cases call with
  | addHint coinId hint =>
    rw [HintCall.party]
    split <;> rfl
  | removeHintsForCoins coinIds => rfl

theorem left_parties (p : HintPair) (calls : Multiset HintCall) :
    left (calls.map (HintCall.party p)) = removals calls p.1 := by
  rw [left, removals, Multiset.map_map]
  exact congrArg Multiset.sum (Multiset.map_congr rfl fun call _ => call.left_party p)

/-- **No removal comes between**: none of the hints of a coin that gets a hint is removed, or they
are removed once and the hint was there before. -/
def HintsUncontended (b : Backend) (calls : Multiset HintCall) : Prop :=
  ∀ (id : CoinId) (hint : Bytes), .addHint id hint ∈ calls → hint ≠ [] →
    removals calls id = 0 ∨ removals calls id = 1 ∧ id.bytes ++ hint ∈ b.tables .hints

theorem HintsUncontended.safe {b : Backend} {calls : Multiset HintCall}
    (h : HintsUncontended b calls) (hb : b.Healthy) (hagree : b.HintsAgree) :
    HintsSafe b (calls.map HintCall.prog) := by
  refine ⟨hb, fun p => ⟨calls.map (HintCall.party p), ?_, ?_⟩⟩
  · exact Multiset.rel_map.2 (Multiset.rel_refl_of_refl_on fun call _ => call.sees p)
  · have hparty : ∀ v ∈ calls.map (HintCall.party p), v = .check ∨ ∃ n, v = .idle n := by
      intro v hv
      obtain ⟨call, _, rfl⟩ := Multiset.mem_map.1 hv
      cases call with
      | addHint coinId hint =>
        rw [HintCall.party]
        split
        · exact .inl rfl
        · exact .inr ⟨0, rfl⟩
      | removeHintsForCoins coinIds => exact .inr ⟨_, rfl⟩
    have hsame := Backend.hintsAgree_iff.1 hagree p
    refine ⟨fun hr => hsame.trans hr, fun hf => .inl (hsame.symm.trans hf), fun hmem => ?_,
      fun hmem => ?_, fun hmem => ?_, fun n hmem => ?_⟩
    · obtain ⟨call, hcall, hcheck⟩ := Multiset.mem_map.1 hmem
      cases call with
      | removeHintsForCoins coinIds => cases hcheck
      | addHint coinId hint =>
        rw [HintCall.party] at hcheck
        split at hcheck
        · next hp =>
          obtain ⟨rfl, hpos, _⟩ := hp
          rw [left_parties]
          refine (h coinId hint hcall (List.length_pos_iff.1 hpos)).imp_right fun hone => ?_
          exact ⟨Std.ExtTreeMap.mem_iff_isSome_getElem?.1 hone.2, hone.1⟩
        · cases hcheck
    · exact absurd (hparty _ hmem) (by simp)
    · exact absurd (hparty _ hmem) (by simp)
    · exact absurd (hparty _ hmem) (by simp)

/-! ## Runs that tear the tables -/

/-- The inner loop alone: none of its rows is left. -/
theorem removeRowsProg_leads (id : CoinId) (next : ℕ → HintProg) : ∀ (keys : List Bytes)
    (removed : ℕ) {b : Backend}, b.Healthy → ∃ b' removed', b'.Healthy ∧
      (∀ p : HintPair, p.2 ≠ [] → b'.hasForward p = true →
        b.hasForward p = true ∧ forwardKey p ∉ keys) ∧
      Leads Backend.exec b (removeRowsProg id next keys removed) b' (next removed')
  | [], removed, b, hb => ⟨b, removed, hb, fun _ _ hf => ⟨hf, List.not_mem_nil⟩, .refl⟩
  | key :: keys, removed, b, hb => by
    rw [removeRowsProg]
    by_cases hshort : key.length ≤ 32
    · obtain ⟨b', removed', hb', hgone, hleads⟩ := removeRowsProg_leads id next keys removed hb
      rw [if_pos hshort]
      refine ⟨b', removed', hb', fun p hp hf => ⟨(hgone p hp hf).1, fun hmem => ?_⟩, hleads⟩
      rcases List.mem_cons.1 hmem with hkey | hmem
      · have hpos := List.length_pos_iff.2 hp
        rw [← hkey, forwardKey, List.length_append, Bytes32.length_bytes] at hshort
        omega
      · exact (hgone p hp hf).2 hmem
    · have hrev := Backend.exec_delete hb .hintsByValue (key.drop 32 ++ id.bytes)
      have hb₁ := Backend.exec_healthy hb hrev
      have hfwd := Backend.exec_delete hb₁ .hints key
      have hb₂ := Backend.exec_healthy hb₁ hfwd
      obtain ⟨b', removed', hb', hgone, hleads⟩ :=
        removeRowsProg_leads id next keys (removed + 1) hb₂
      rw [if_neg hshort]
      refine ⟨b', removed', hb', fun p hp hf => ?_, .op hrev (.op hfwd hleads)⟩
      obtain ⟨hf₂, hnot⟩ := hgone p hp hf
      rw [Backend.hasForward_delete, Backend.hasForward_delete] at hf₂
      obtain ⟨hkey, hf₁⟩ := Bool.and_eq_true_iff.1 hf₂
      refine ⟨(Bool.and_eq_true_iff.1 hf₁).2, fun hmem => ?_⟩
      rcases List.mem_cons.1 hmem with heq | hmem
      · rw [decide_eq_true ⟨rfl, heq.symm⟩] at hkey
        cases hkey
      · exact hnot hmem

/-- **A removal alone**, up to some of its coins: none of their hints is left. -/
theorem removeHintsProg_leads (rest : List CoinId) : ∀ (coinIds : List CoinId) (removed : ℕ)
    {b : Backend}, b.Healthy → ∃ b' removed', b'.Healthy ∧
      (∀ p : HintPair, p.2 ≠ [] → b'.hasForward p = true →
        b.hasForward p = true ∧ p.1 ∉ coinIds) ∧
      Leads Backend.exec b (removeHintsProg (coinIds ++ rest) removed) b'
        (removeHintsProg rest removed')
  | [], removed, b, hb => ⟨b, removed, hb, fun _ _ hf => ⟨hf, List.not_mem_nil⟩, .refl⟩
  | id :: coinIds, removed, b, hb => by
    have hscan := Backend.exec_prefixScan hb .hints id.bytes
    obtain ⟨b₁, removed₁, hb₁, hgone₁, hleads₁⟩ := removeRowsProg_leads id
      (removeHintsProg (coinIds ++ rest))
      (((b.tables .hints).toList.filter fun kv => id.bytes.isPrefixOf kv.1).map (·.1)) removed hb
    obtain ⟨b₂, removed₂, hb₂, hgone₂, hleads₂⟩ :=
      removeHintsProg_leads rest coinIds removed₁ hb₁
    refine ⟨b₂, removed₂, hb₂, fun p hp hf => ?_, (Leads.op hscan hleads₁).trans hleads₂⟩
    obtain ⟨hf₁, hnot₂⟩ := hgone₂ p hp hf
    obtain ⟨hf₀, hnot₁⟩ := hgone₁ p hp hf₁
    refine ⟨hf₀, fun hmem => ?_⟩
    rcases List.mem_cons.1 hmem with hid | hmem
    · obtain ⟨value, hvalue⟩ := Option.isSome_iff_exists.1 hf₀
      refine hnot₁ (List.mem_map.2 ⟨(forwardKey p, value), List.mem_filter.2 ⟨?_, ?_⟩, rfl⟩)
      · exact OrdMap.mem_toList.2 hvalue
      · exact List.isPrefixOf_iff_prefix.2 (hid ▸ List.prefix_append _ _)
    · exact hnot₂ hmem

/-- A call whose hint fits can be run to its end. -/
theorem HintCall.completes {call : HintCall}
    (hfit : ∀ id hint, call = .addHint id hint → hint.length ≤ maxHintLength) :
    Completes Backend.exec Backend.Healthy call.prog := by
  intro b hb
  cases call with
  | removeHintsForCoins coinIds =>
    obtain ⟨b', removed', hb', _, hleads⟩ := removeHintsProg_leads [] coinIds 0 hb
    rw [List.append_nil] at hleads
    exact ⟨b', _, hleads, hb'⟩
  | addHint id hint =>
    rw [HintCall.prog, addHintProg]
    rcases validateHint_cases hint with ⟨_, hvalid⟩ | ⟨hlen, _⟩ | ⟨_, _, hvalid⟩
    · rw [hvalid]
      exact ⟨b, _, .refl, hb⟩
    · exact absurd hlen (Nat.not_lt.2 (hfit id hint rfl))
    · rw [hvalid]
      have hget := Backend.exec_get hb .hints (id.bytes ++ hint)
      cases hfound : (b.tables .hints)[id.bytes ++ hint]? with
      | some value =>
        rw [hfound] at hget
        exact ⟨b, _, .op hget .refl, hb⟩
      | none =>
        rw [hfound] at hget
        have hput := Backend.exec_put hb .hints (id.bytes ++ hint) []
        have hb₁ := Backend.exec_healthy hb hput
        have hput₁ := Backend.exec_put hb₁ .hintsByValue (hint ++ id.bytes) []
        exact ⟨_, _, .op hget (.op hput (.op hput₁ .refl)), Backend.exec_healthy hb₁ hput₁⟩

/-- **A removal overtakes an insertion** that has not looked yet: it runs between its two writes. -/
theorem removal_overtakes {p : HintPair} (hp : p.2 ≠ []) {b : Backend} (hb : b.Healthy)
    (hmissing : b.hasForward p = false) {coinIds : List CoinId} (hid : p.1 ∈ coinIds)
    (removed : ℕ) {others : Multiset HintProg}
    (hothers : ∀ prog ∈ others, Completes Backend.exec Backend.Healthy prog) :
    ∃ b' progs, Reaches Backend.exec
        (b, removeHintsProg coinIds removed ::ₘ checkHintProg p.1 p.2 ::ₘ others) (b', progs) ∧
      AllOk progs ∧ b'.hasForward p = false ∧ b'.hasReverse p = true := by
  -- the insertion finds nothing and writes the forward row
  have hget : b.exec (.get .hints (p.1.bytes ++ p.2)) = (b, .ok none) := by
    rw [Backend.exec_get hb, show (b.tables .hints)[p.1.bytes ++ p.2]? = none from
      Option.not_isSome_iff_eq_none.1 (Bool.eq_false_iff.1 hmissing)]
  have hput := Backend.exec_put hb .hints (p.1.bytes ++ p.2) []
  have hb₁ := Backend.exec_healthy hb hput
  have hinsert : Leads Backend.exec b (checkHintProg p.1 p.2) _ (writeReverseProg p.1 p.2) :=
    .op hget (.op hput .refl)
  -- the other calls run, and then the removal
  obtain ⟨b₂, others', hrun₂, hok, hb₂⟩ := Reaches.run_all
    (removeHintsProg coinIds removed ::ₘ writeReverseProg p.1 p.2 ::ₘ 0) hothers hb₁
  obtain ⟨b₃, removed', hb₃, hgone, hremove⟩ := removeHintsProg_leads [] coinIds removed hb₂
  rw [List.append_nil] at hremove
  have hf₃ : b₃.hasForward p = false := by
    rw [← Bool.not_eq_true]
    exact fun hf => (hgone p hp hf).2 hid
  -- the insertion writes the reverse row
  have hput₃ := Backend.exec_put hb₃ .hintsByValue (p.2 ++ p.1.bytes) []
  have hlast : Leads Backend.exec b₃ (writeReverseProg p.1 p.2) _ (.ret (.ok .added)) :=
    .op hput₃ .refl
  refine ⟨{ b₃ with tables := b₃.tables.put .hintsByValue (p.2 ++ p.1.bytes) [] },
    .ret (.ok (.removed removed')) ::ₘ .ret (.ok .added) ::ₘ others', ?_, ?_, ?_, ?_⟩
  · refine (hinsert.second _ _).trans (Relation.ReflTransGen.trans ?_ (hlast.second _ _))
    rw [Multiset.add_cons, Multiset.add_cons, Multiset.add_zero, Multiset.add_cons,
      Multiset.add_cons, Multiset.add_zero] at hrun₂
    exact hrun₂.trans (hremove _)
  · exact allOk_cons.2 ⟨⟨_, rfl⟩, allOk_cons.2 ⟨⟨_, rfl⟩, hok⟩⟩
  · rw [Backend.hasForward_put, hf₃, decide_eq_false (by simp)]
    rfl
  · rw [Backend.hasReverse_put, decide_eq_true ⟨rfl, rfl⟩]
    rfl

/-! The calls that remove the hints of a coin. -/

theorem removals_cons (call : HintCall) (calls : Multiset HintCall) (id : CoinId) :
    removals (call ::ₘ calls) id = call.coinIds.count id + removals calls id := by
  rw [removals, removals, Multiset.map_cons, Multiset.sum_cons]

/-- One of the calls, if there is any. -/
theorem exists_removal {calls : Multiset HintCall} {id : CoinId} (h : removals calls id ≠ 0) :
    ∃ coinIds rest, calls = .removeHintsForCoins coinIds ::ₘ rest ∧ id ∈ coinIds := by
  induction calls using Multiset.induction with
  | empty => exact absurd rfl h
  | cons call calls ih =>
    by_cases hid : id ∈ call.coinIds
    · cases call with
      | addHint _ _ => cases hid
      | removeHintsForCoins coinIds => exact ⟨coinIds, calls, rfl, hid⟩
    · rw [removals_cons, List.count_eq_zero.2 hid, Nat.zero_add] at h
      obtain ⟨coinIds, rest, rfl, hmem⟩ := ih h
      exact ⟨coinIds, call ::ₘ rest, Multiset.cons_swap _ _ _, hmem⟩

/-- A removal still to come, with the pair gone: there was none, or one that was removed before. -/
theorem exists_removal_left {p : HintPair} (hp : p.2 ≠ []) {b : Backend} (hb : b.Healthy)
    {calls : Multiset HintCall}
    (hcalls : ∀ call ∈ calls, Completes Backend.exec Backend.Healthy call.prog)
    (hsome : removals calls p.1 ≠ 0) (hmore : b.hasForward p = true → removals calls p.1 ≠ 1)
    (prog : HintProg) :
    ∃ b' coinIds removed others, Reaches Backend.exec (b, prog ::ₘ calls.map HintCall.prog)
        (b', removeHintsProg coinIds removed ::ₘ prog ::ₘ others) ∧
      b'.Healthy ∧ b'.hasForward p = false ∧ p.1 ∈ coinIds ∧
      ∀ other ∈ others, Completes Backend.exec Backend.Healthy other := by
  obtain ⟨coinIds, rest, rfl, hid⟩ := exists_removal hsome
  obtain ⟨hfirst, hrest⟩ := Multiset.forall_mem_cons.1 hcalls
  have hothers : ∀ other ∈ rest.map HintCall.prog,
      Completes Backend.exec Backend.Healthy other := by
    intro other hother
    obtain ⟨call, hcall, rfl⟩ := Multiset.mem_map.1 hother
    exact hrest call hcall
  rw [Multiset.map_cons, Multiset.cons_swap]
  by_cases hf : b.hasForward p = true
  · obtain ⟨front, back, hsplit, hfront⟩ := List.eq_append_cons_of_mem hid
    by_cases hback : p.1 ∈ back
    · -- the coin is listed again: the call goes on behind its first occurrence
      obtain ⟨b', removed, hb', hgone, hleads⟩ := removeHintsProg_leads back (front ++ [p.1]) 0 hb
      rw [List.append_assoc, List.singleton_append, ← hsplit] at hleads
      refine ⟨b', back, removed, _, hleads _, hb', Bool.eq_false_iff.2 fun hf' => ?_, hback,
        hothers⟩
      exact (hgone p hp hf').2 (List.mem_append_right _ (List.mem_singleton_self _))
    · -- another call removes the hints of the coin again
      have hone : coinIds.count p.1 = 1 := by
        rw [hsplit, List.count_append, List.count_cons_self, List.count_eq_zero.2 hfront,
          List.count_eq_zero.2 hback]
      have hmore := hmore hf
      rw [removals_cons, HintCall.coinIds, hone] at hmore
      have hagain : removals rest p.1 ≠ 0 := fun hnone => hmore (by rw [hnone])
      obtain ⟨coinIds', rest', rfl, hid'⟩ := exists_removal hagain
      obtain ⟨b', removed, hb', hgone, hleads⟩ := removeHintsProg_leads [] coinIds 0 hb
      rw [List.append_nil] at hleads
      refine ⟨b', coinIds', 0, .ret (.ok (.removed removed)) ::ₘ rest'.map HintCall.prog, ?_, hb',
        Bool.eq_false_iff.2 fun hf' => (hgone p hp hf').2 hid, hid', ?_⟩
      · rw [Multiset.map_cons, Multiset.cons_swap prog, Multiset.cons_swap prog,
          Multiset.cons_swap (HintCall.prog _)]
        exact hleads.second _ _
      · refine Multiset.forall_mem_cons.2 ⟨fun b hb => ⟨b, _, .refl, hb⟩, fun other hother => ?_⟩
        exact hothers other (by rw [Multiset.map_cons]; exact Multiset.mem_cons_of_mem hother)
  · exact ⟨b, coinIds, 0, rest.map HintCall.prog, .refl, hb, Bool.eq_false_iff.2 hf, hid, hothers⟩

/-- **Contended hints are torn by some run.** -/
theorem exists_torn_run {b : Backend} (hb : b.Healthy) {calls : Multiset HintCall}
    (hfit : ∀ id hint, .addHint id hint ∈ calls → hint.length ≤ maxHintLength)
    (h : ¬ HintsUncontended b calls) :
    ∃ b' progs, HintRun b calls b' progs ∧ AllOk progs ∧ ¬ b'.HintsAgree := by
  simp only [HintsUncontended, not_forall, not_or, not_and] at h
  obtain ⟨id, hint, hadd, hne, hsome, hmore⟩ := h
  have hcompletes : ∀ call ∈ calls, Completes Backend.exec Backend.Healthy call.prog :=
    fun call hcall => HintCall.completes fun id hint heq => hfit id hint (heq ▸ hcall)
  have hlen := hfit id hint hadd
  obtain ⟨rest, rfl⟩ := Multiset.exists_cons_of_mem hadd
  rw [removals_cons, HintCall.coinIds, List.count_nil, Nat.zero_add] at hsome hmore
  obtain ⟨b₁, coinIds, removed, others, hrun₁, hb₁, hf₁, hid, hothers⟩ :=
    exists_removal_left (p := (id, hint)) hne hb (Multiset.forall_mem_cons.1 hcompletes).2 hsome
      (fun hf hone => hmore hone (Std.ExtTreeMap.mem_iff_isSome_getElem?.2 hf))
      (checkHintProg id hint)
  obtain ⟨b₂, progs, hrun₂, hok, hf₂, hr₂⟩ :=
    removal_overtakes (p := (id, hint)) hne hb₁ hf₁ hid removed hothers
  refine ⟨b₂, progs, ?_, hok, fun hagree => ?_⟩
  · have hprog : (HintCall.addHint id hint).prog = checkHintProg id hint := by
      rw [HintCall.prog, addHintProg]
      rcases validateHint_cases hint with ⟨hnil, _⟩ | ⟨hlong, _⟩ | ⟨_, _, hvalid⟩
      · exact absurd hnil hne
      · exact absurd hlong (Nat.not_lt.2 hlen)
      · rw [hvalid]
    rw [HintRun, Multiset.map_cons, hprog]
    exact hrun₁.trans hrun₂
  · have hsame := Backend.hintsAgree_iff.1 hagree (id, hint)
    rw [hf₂, hr₂] at hsame
    cases hsame

variable [Chia]

/-- **Concurrent hint calls** on a store of any run keep the two tables together, whatever the
order of their operations, exactly when no removal can come between the operations of an
insertion, or some call cannot return without an error at all. -/
theorem Operated.hints_interleaved_iff {s : CoinStore} (h : Operated s)
    (calls : Multiset HintCall) :
    (∀ b progs, HintRun s.backend calls b progs → AllOk progs → b.HintsAgree) ↔
      (∃ id hint, .addHint id hint ∈ calls ∧ maxHintLength < hint.length) ∨
        HintsUncontended s.backend calls := by
  obtain ⟨hb, hpaired⟩ := h.hintsOk
  constructor
  · intro hall
    by_contra hnot
    obtain ⟨hfit, hcont⟩ := not_or.1 hnot
    have hfit : ∀ id hint, .addHint id hint ∈ calls → hint.length ≤ maxHintLength :=
      fun id hint hadd => Nat.not_lt.1 fun hlong => hfit ⟨id, hint, hadd, hlong⟩
    obtain ⟨b, progs, hrun, hok, htorn⟩ := exists_torn_run hb hfit hcont
    exact htorn (hall b progs hrun hok)
  · rintro (⟨id, hint, hadd, hlong⟩ | huncont) b progs hrun hok
    · have hprog : .ret (err (.hintTooLong hint.length maxHintLength)) ∈
          calls.map HintCall.prog := by
        refine Multiset.mem_map.2 ⟨_, hadd, ?_⟩
        rw [HintCall.prog, addHintProg]
        rcases validateHint_cases hint with ⟨rfl, _⟩ | ⟨_, hvalid⟩ | ⟨_, hlen, _⟩
        · cases hlong
        · rw [hvalid]
          rfl
        · exact absurd hlen (Nat.not_le.2 hlong)
      exact absurd (Reaches.failed hrun hprog) hok.not_failed
    · have hstart := huncont.safe hb hpaired.agree
      exact (Reaches.inv (I := HintsSafe) HintsSafe.perform hstart hrun hok).agree hok

end DigCoinstore

namespace DigCoinstore

open Interleave Sample

/-- Two insertions of one hint of coin 1 and a removal of the hints of coin 2. -/
def peaceful : Multiset HintCall :=
  {.addHint (ofNum 1) [5, 6], .addHint (ofNum 1) [5, 6], .removeHintsForCoins [ofNum 2]}

theorem hints_interleaved_peaceful : Operated genesis ∧ ∀ b progs,
    HintRun genesis.backend peaceful b progs → AllOk progs → b.HintsAgree := by
  refine ⟨operated_genesis, (operated_genesis.hints_interleaved_iff peaceful).2 (.inr ?_)⟩
  refine fun id hint hadd _ => .inl ?_
  have hid : id = ofNum 1 := by
    simp only [peaceful, Multiset.insert_eq_cons, Multiset.mem_cons, Multiset.mem_singleton,
      HintCall.addHint.injEq, reduceCtorEq, or_false, or_self] at hadd
    exact hadd.1
  rw [hid]
  decide

/-- A removal of the hints of coin 1 between the two writes of a hint for it. -/
theorem removal_tears_hints : Operated genesis ∧ ∃ b progs,
    HintRun genesis.backend {.removeHintsForCoins [ofNum 1], .addHint (ofNum 1) [5, 6]} b progs ∧
      AllOk progs ∧ [5, 6] ++ (ofNum 1).bytes ∈ b.tables .hintsByValue ∧
      (ofNum 1).bytes ++ [5, 6] ∉ b.tables .hints := by
  have hmissing : genesis.backend.hasForward (ofNum 1, [5, 6]) = false := by decide +kernel
  obtain ⟨b, progs, hrun, hok, hf, hr⟩ := removal_overtakes (p := (ofNum 1, [5, 6]))
    (List.cons_ne_nil _ _) operated_genesis.hintsOk.1 hmissing (List.mem_singleton_self _) 0
    (fun _ hnone => absurd hnone (Multiset.notMem_zero _))
  refine ⟨operated_genesis, b, progs, hrun, hok, Std.ExtTreeMap.mem_iff_isSome_getElem?.2 hr, ?_⟩
  rw [Std.ExtTreeMap.mem_iff_isSome_getElem?]
  exact Bool.eq_false_iff.1 hf

end DigCoinstore
