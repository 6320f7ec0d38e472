import DigCoinstore.Hints
import DigCoinstore.Lib.Interleave

/-!
# Hint calls, one backend call at a time

`addHintProg` and `removeHintsProg` are `add_hint` and `remove_hints_for_coins` as programs of
backend calls, so that several of them can be in flight on one store (`HintCall.prog`). Run alone
they are the calls of `Hints`, on any backend, also one that fails calls (`run_addHintProg`,
`run_removeHintsProg`).
-/

namespace DigCoinstore

open Interleave

/-- The answer to a backend call. -/
abbrev BackendOp.Reply : BackendOp → Type
  | .get _ _ => Option Bytes
  | .prefixScan _ _ => List KvPair
  | _ => Unit

/-- One backend call; its error goes to the caller by `?`. -/
def Backend.exec (b : Backend) : (op : BackendOp) → Backend × Res op.Reply
  | .get cf key => (b, orStorage (b.get cf key))
  | .put cf key value => ((b.put cf key value).1, orStorage (b.put cf key value).2)
  | .delete cf key => ((b.delete cf key).1, orStorage (b.delete cf key).2)
  | .batchWrite batch => ((b.batchWrite batch).1, orStorage (b.batchWrite batch).2)
  | .prefixScan cf pre => (b, orStorage (b.prefixScan cf pre))

inductive HintResult where
  | added
  | removed (count : Nat)
deriving DecidableEq

abbrev HintProg := Prog BackendOp BackendOp.Reply Exit HintResult

/-! `add_hint` from its last write on, from its first write on, from its look on, and all of it. -/

def writeReverseProg (coinId : CoinId) (hint : Bytes) : HintProg :=
  .op (.put .hintsByValue (hint ++ coinId.bytes) []) fun _ => .ret (.ok .added)

def writeHintProg (coinId : CoinId) (hint : Bytes) : HintProg :=
  .op (.put .hints (coinId.bytes ++ hint) []) fun _ => writeReverseProg coinId hint

def checkHintProg (coinId : CoinId) (hint : Bytes) : HintProg :=
  .op (.get .hints (coinId.bytes ++ hint)) fun (found : Option Bytes) =>
    match found with
    | some _ => .ret (.ok .added)
    | none => writeHintProg coinId hint

def addHintProg (coinId : CoinId) (hint : Bytes) : HintProg :=
  match validateHint hint with
  | .error e => .ret (.error e)
  | .ok .skip => .ret (.ok .added)
  | .ok .store => checkHintProg coinId hint

/-- The inner loop of `remove_hints_for_coins`, over the forward keys of a coin, and `next`. -/
def removeRowsProg (coinId : CoinId) (next : Nat → HintProg) : List Bytes → Nat → HintProg
  | [], removed => next removed
  | fwdKey :: fwdKeys, removed =>
    if fwdKey.length ≤ 32 then removeRowsProg coinId next fwdKeys removed
    else
      .op (.delete .hintsByValue (fwdKey.drop 32 ++ coinId.bytes)) fun _ =>
        .op (.delete .hints fwdKey) fun _ => removeRowsProg coinId next fwdKeys (removed + 1)

def removeHintsProg : List CoinId → Nat → HintProg
  | [], removed => .ret (.ok (.removed removed))
  | coinId :: coinIds, removed =>
    .op (.prefixScan .hints coinId.bytes) fun (entries : List KvPair) =>
      removeRowsProg coinId (removeHintsProg coinIds) (entries.map (·.1)) removed

/-! ## The calls alone -/

section
variable (b : Backend) (cf : ColumnFamily) (key value : Bytes)

theorem run_get (next : Option Bytes → HintProg) :
    Prog.run Backend.exec (.op (.get cf key) next) b =
      match orStorage (b.get cf key) with
      | .error e => (b, .error e)
      | .ok found => (next found).run Backend.exec b := by
  rw [Prog.run.eq_def]
  simp only [Backend.exec]
  rcases b.get cf key with e | found <;> rfl

theorem run_prefixScan (next : List KvPair → HintProg) :
    Prog.run Backend.exec (.op (.prefixScan cf key) next) b =
      match orStorage (b.prefixScan cf key) with
      | .error e => (b, .error e)
      | .ok entries => (next entries).run Backend.exec b := by
  rw [Prog.run.eq_def]
  simp only [Backend.exec]
  rcases b.prefixScan cf key with e | entries <;> rfl

theorem run_put (next : Unit → HintProg) :
    Prog.run Backend.exec (.op (.put cf key value) next) b =
      match b.put cf key value with
      | (b', .error e) => (b', orStorage (.error e))
      | (b', .ok u) => (next u).run Backend.exec b' := by
  rw [Prog.run.eq_def]
  simp only [Backend.exec]
  rcases b.put cf key value with ⟨b', e | u⟩ <;> rfl

theorem run_delete (next : Unit → HintProg) :
    Prog.run Backend.exec (.op (.delete cf key) next) b =
      match b.delete cf key with
      | (b', .error e) => (b', orStorage (.error e))
      | (b', .ok u) => (next u).run Backend.exec b' := by
  rw [Prog.run.eq_def]
  simp only [Backend.exec]
  rcases b.delete cf key with ⟨b', e | u⟩ <;> rfl

end

/-- **Alone the program is `add_hint`.** -/
theorem run_addHintProg (s : CoinStore) (coinId : CoinId) (hint : Bytes) :
    (addHintProg coinId hint).run Backend.exec s.backend =
      ((s.addHint coinId hint).1.backend, (s.addHint coinId hint).2.map fun _ => .added) := by
  unfold addHintProg CoinStore.addHint
  rcases validateHint hint with e | _ | _
  · rfl
  · rfl
  · simp only [checkHintProg, run_get, addHintRows]
    rcases orStorage (s.backend.get .hints (coinId.bytes ++ hint)) with e | _ | v
    · rfl
    · change (writeHintProg coinId hint).run Backend.exec s.backend = _
      rw [writeHintProg, run_put]
      rcases s.backend.put .hints (coinId.bytes ++ hint) [] with ⟨b', e | u⟩
      · rfl
      · simp only [writeReverseProg, run_put]
        rcases b'.put .hintsByValue (hint ++ coinId.bytes) [] with ⟨b'', e | u⟩ <;> rfl
    · rfl

/-- The inner loop alone, then `next`. -/
theorem run_removeRowsProg (coinId : CoinId) (next : Nat → HintProg) :
    ∀ (fwdKeys : List Bytes) (b : Backend) (removed : Nat),
    (removeRowsProg coinId next fwdKeys removed).run Backend.exec b =
      match forBackend (removeHintRow coinId) fwdKeys b removed with
      | (b', .error e) => (b', .error e)
      | (b', .ok removed') => (next removed').run Backend.exec b'
  | [], _, _ => rfl
  | fwdKey :: fwdKeys, b, removed => by
    rw [removeRowsProg, forBackend, removeHintRow]
    split
    · exact run_removeRowsProg coinId next fwdKeys b removed
    · rw [run_delete]
      rcases b.delete .hintsByValue (fwdKey.drop 32 ++ coinId.bytes) with ⟨b₁, e | u⟩
      · rfl
      · simp only [run_delete]
        rcases b₁.delete .hints fwdKey with ⟨b₂, e | u⟩
        · rfl
        · exact run_removeRowsProg coinId next fwdKeys b₂ (removed + 1)

theorem run_removeHintsProg_from : ∀ (coinIds : List CoinId) (b : Backend) (removed : Nat),
    (removeHintsProg coinIds removed).run Backend.exec b =
      ((forBackend removeHintsForCoin coinIds b removed).1,
        (forBackend removeHintsForCoin coinIds b removed).2.map .removed)
  | [], _, _ => rfl
  | coinId :: coinIds, b, removed => by
    rw [removeHintsProg, forBackend, removeHintsForCoin, run_prefixScan]
    rcases orStorage (b.prefixScan .hints coinId.bytes) with e | entries
    · rfl
    · simp only [run_removeRowsProg]
      generalize forBackend (removeHintRow coinId) _ b removed = rows
      rcases rows with ⟨b', e | removed'⟩
      · rfl
      · exact run_removeHintsProg_from coinIds b' removed'

/-- **Alone the program is `remove_hints_for_coins`.** -/
theorem run_removeHintsProg (s : CoinStore) (coinIds : List CoinId) :
    (removeHintsProg coinIds 0).run Backend.exec s.backend =
      ((s.removeHintsForCoins coinIds).1.backend,
        (s.removeHintsForCoins coinIds).2.map .removed) :=
  run_removeHintsProg_from coinIds s.backend 0

/-! ## Calls in flight -/

/-- A hint call with its arguments. -/
inductive HintCall where
  | addHint (coinId : CoinId) (hint : Bytes)
  | removeHintsForCoins (coinIds : List CoinId)
deriving DecidableEq

namespace HintCall

def prog : HintCall → HintProg
  | .addHint coinId hint => addHintProg coinId hint
  | .removeHintsForCoins coinIds => removeHintsProg coinIds 0

/-- The coins whose hints the call removes. -/
def coinIds : HintCall → List CoinId
  | .addHint _ _ => []
  | .removeHintsForCoins coinIds => coinIds

end HintCall

/-- **A run of hint calls** on one backend, the operations of the calls in any order. -/
abbrev HintRun (b : Backend) (calls : Multiset HintCall) (b' : Backend)
    (progs : Multiset HintProg) : Prop :=
  Reaches Backend.exec (b, calls.map HintCall.prog) (b', progs)

end DigCoinstore
