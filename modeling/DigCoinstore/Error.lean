import DigCoinstore.Types

/-!
# Errors (`error.rs`, `storage/mod.rs`, `merkle/mod.rs`)

A call ends with a value or with an `Exit`: an error value, or a panic. The modelled build has
overflow checks on, so that an overflow of integer arithmetic is a panic, and debug assertions off.
-/

namespace DigCoinstore

/-- Errors of a storage backend. -/
inductive StorageError where
  | unknownColumnFamily (cf : String)
  | backendError (msg : String)
  | mapFull
  | serializationError (msg : String)
deriving DecidableEq

def StorageError.toString : StorageError → String
  | .unknownColumnFamily cf => "unknown column family: " ++ cf
  | .backendError msg => "backend error: " ++ msg
  | .mapFull => "LMDB map full: increase lmdb_map_size and reopen the environment"
  | .serializationError msg => "serialization error: " ++ msg

/-- Errors of the sparse Merkle tree. -/
inductive MerkleError where
  | keyAlreadyExists (key : Bytes32)
  | keyNotFound (key : Bytes32)
  | persistedRootMissing
  | invalidPersistedRootLength (length : Nat)
  | persistedRootMismatch (disk recomputed : Bytes32)
  | storage (msg : String)
  | proofRequiresCleanTree
deriving DecidableEq

def MerkleError.toString [Chia] : MerkleError → String
  | .keyAlreadyExists key => "key already exists: " ++ Chia.display key
  | .keyNotFound key => "key not found: " ++ Chia.display key
  | .persistedRootMissing => "persisted merkle state root missing from metadata column family"
  | .invalidPersistedRootLength length =>
    "persisted merkle state root has invalid length: " ++ length.repr ++ " bytes (expected 32)"
  | .persistedRootMismatch disk recomputed =>
    "persisted merkle root mismatch: disk=" ++ Chia.debug disk ++ " recomputed=" ++
      Chia.debug recomputed
  | .storage msg => "storage error during merkle load: " ++ msg
  | .proofRequiresCleanTree =>
    "cannot generate coin proof while tree is dirty; call root() after mutations"

/-- Errors of the store. -/
inductive CoinStoreError where
  | heightMismatch (expected got : UInt64)
  | parentHashMismatch (expected got : Bytes32)
  | stateRootMismatch (expected computed : Bytes32)
  | coinNotFound (id : CoinId)
  | coinAlreadyExists (id : CoinId)
  | doubleSpend (id : CoinId)
  | invalidRewardCoinCount (expected : String) (got : Nat)
  | hintTooLong (length max : Nat)
  | genesisAlreadyInitialized
  | notInitialized
  | rollbackAboveTip (target : Int64) (current : UInt64)
  | puzzleHashBatchTooLarge (size max : Nat)
  | storageError (msg : String)
  | serializationError (msg : String)
  | deserializationError (msg : String)
deriving DecidableEq

/-- How a call ends without a value. The modelled build has overflow checks on and debug assertions
off: arithmetic panics on overflow, a `debug_assert!` does not. -/
inductive Exit where
  | error (e : CoinStoreError)
  | panic (msg : String)
deriving DecidableEq

/-- What a call returns. -/
abbrev Res := Except Exit

/-- The call returns the error. -/
def err {α : Type} (e : CoinStoreError) : Res α := .error (.error e)

/-- `?` on a backend call: `From<StorageError> for CoinStoreError`. -/
def orStorage {α : Type} (r : Except StorageError α) : Res α :=
  r.mapError fun e => .error (.storageError e.toString)

/-- `map_err` on a backend call, with a prefix for the text. -/
def orStorageWith {α : Type} (pre : String) (r : Except StorageError α) : Res α :=
  r.mapError fun e => .error (.storageError (pre ++ e.toString))

/-- `map_err` on a tree operation, with a prefix for the text. -/
def orMerkle [Chia] {α : Type} (pre : String) (r : Except MerkleError α) : Res α :=
  r.mapError fun e => .error (.storageError (pre ++ e.toString))

/-- `a + b` on `u64`. -/
def checkedAdd (a b : UInt64) : Res UInt64 :=
  if a.toNat + b.toNat < 2 ^ 64 then .ok (a + b) else .error (.panic "attempt to add with overflow")

/-- `a - b` on `i64`. -/
def checkedSub (a b : Int64) : Res Int64 :=
  if -2 ^ 63 ≤ a.toInt - b.toInt ∧ a.toInt - b.toInt < 2 ^ 63 then .ok (a - b)
  else .error (.panic "attempt to subtract with overflow")

section
variable {α β : Type}

@[simp] theorem Res.ok_bind (a : α) (f : α → Res β) : ((.ok a : Res α) >>= f) = f a := rfl
@[simp] theorem Res.error_bind (e : Exit) (f : α → Res β) : ((.error e : Res α) >>= f) = .error e := rfl
@[simp] theorem Res.pure_eq (a : α) : (pure a : Res α) = .ok a := rfl

/-- A bind succeeds when both parts do. -/
theorem Res.bind_eq_ok {x : Res α} {f : α → Res β} {b : β} :
    (x >>= f) = .ok b ↔ ∃ a, x = .ok a ∧ f a = .ok b := by
  cases x <;> simp

/-- A check succeeds when it passes. -/
theorem Res.check_eq_ok {p : Prop} [Decidable p] {e : CoinStoreError} {x : Res α} {a : α} :
    (if p then err e else x) = .ok a ↔ ¬ p ∧ x = .ok a := by
  split <;> simp_all [err]

theorem Res.eq_ok_of_toOption {x : Res α} {a : α} (h : x.toOption = some a) : x = .ok a := by
  cases x with
  | error e => cases h
  | ok a' => exact congrArg Except.ok (Option.some.inj h)

/-- A loop whose body succeeds and keeps an invariant succeeds and keeps it. -/
theorem Res.foldlM_spec {I : α → Prop} {f : α → β → Res α}
    (hf : ∀ a b, I a → ∃ a', f a b = .ok a' ∧ I a') :
    ∀ (l : List β) {a : α}, I a → ∃ a', l.foldlM f a = .ok a' ∧ I a'
  | [], a, ha => ⟨a, rfl, ha⟩
  | b :: l, a, ha => by
    obtain ⟨a', hok, ha'⟩ := hf a b ha
    rw [List.foldlM_cons, hok, Res.ok_bind]
    exact foldlM_spec hf l ha'

/-- What every successful step of a loop keeps, a successful loop keeps. -/
theorem Res.foldlM_inv {I : α → Prop} {f : α → β → Res α}
    (hf : ∀ a b a', I a → f a b = .ok a' → I a') :
    ∀ (l : List β) {a a' : α}, I a → l.foldlM f a = .ok a' → I a'
  | [], a, a', ha, h => by
    obtain rfl := Except.ok.inj h
    exact ha
  | b :: l, a, a', ha, h => by
    obtain ⟨a₁, hb, hrest⟩ := Res.bind_eq_ok.1 (List.foldlM_cons.symm.trans h)
    exact foldlM_inv hf l (hf a b a₁ ha hb) hrest

/-- A loop whose steps add what they meet to a set adds all of it. -/
theorem Res.foldlM_adds {γ : Type*} {I : α → Prop} {f : α → β → Res α} {H : α → γ → Prop}
    {Q : β → γ → Prop}
    (hf : ∀ a b a', I a → f a b = .ok a' → I a' ∧ ∀ c, H a' c ↔ H a c ∨ Q b c) :
    ∀ (l : List β) {a a' : α}, I a → l.foldlM f a = .ok a' →
      I a' ∧ ∀ c, H a' c ↔ H a c ∨ ∃ b ∈ l, Q b c
  | [], a, a', ha, h => by
    obtain rfl := Except.ok.inj h
    exact ⟨ha, by simp⟩
  | b :: l, a, a', ha, h => by
    obtain ⟨a₁, hb, hrest⟩ := Res.bind_eq_ok.1 (List.foldlM_cons.symm.trans h)
    obtain ⟨ha₁, hstep⟩ := hf a b a₁ ha hb
    obtain ⟨ha', hloop⟩ := foldlM_adds hf l ha₁ hrest
    refine ⟨ha', fun c => ?_⟩
    rw [hloop, hstep, or_assoc]
    simp

@[simp] theorem orStorage_ok (a : α) : orStorage (.ok a) = .ok a := rfl
@[simp] theorem orStorage_error (e : StorageError) :
    orStorage (.error e : Except StorageError α) = .error (.error (.storageError e.toString)) := rfl
@[simp] theorem orStorageWith_ok (pre : String) (a : α) : orStorageWith pre (.ok a) = .ok a := rfl
@[simp] theorem orMerkle_ok [Chia] (pre : String) (a : α) : orMerkle pre (.ok a) = .ok a := rfl
@[simp] theorem orMerkle_error [Chia] (pre : String) (e : MerkleError) :
    orMerkle pre (.error e : Except MerkleError α) =
      .error (.error (.storageError (pre ++ e.toString))) := rfl

theorem checkedAdd_eq_ok {a b c : UInt64} :
    checkedAdd a b = .ok c ↔ a.toNat + b.toNat < 2 ^ 64 ∧ c = a + b := by
  unfold checkedAdd
  split <;> simp_all [eq_comm]

end

end DigCoinstore
