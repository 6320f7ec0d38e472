import DigCoinstore.Durability
import DigCoinstore.Sample

/-!
# A failed commit

The three calls that commit change the tree in memory before they write. When the write fails, the
call reports it, but the leaves it changed stay changed and a retry trips over them: a failed
commit leaves no trace exactly when the call changes no leaf (`Reachable.failed_commit_iff`).
-/

namespace DigCoinstore

/-! ## A backend that fails to commit -/

namespace Backend

/-- Every batch write fails, with nothing written. -/
def failWrites (b : Backend) (e : StorageError) : Backend :=
  { b with
    faults := fun op => match op with
      | .batchWrite _ => some e
      | _ => none }

/-- The backend works again. -/
def mended (b : Backend) : Backend := { b with faults := fun _ => none }

variable {b : Backend} (h : b.Healthy) (e : StorageError)
include h

theorem mended_failWrites : (b.failWrites e).mended = b := by
  have hfaults : b.faults = fun _ => none := h
  rw [mended, failWrites, ← hfaults]

theorem get_failWrites (cf : ColumnFamily) (key : Bytes) :
    (b.failWrites e).get cf key = b.get cf key := by
  rw [get_of_healthy h]
  rfl

theorem prefixScan_failWrites (cf : ColumnFamily) (pre : Bytes) :
    (b.failWrites e).prefixScan cf pre = b.prefixScan cf pre := by
  rw [prefixScan_of_healthy h]
  rfl

end Backend

variable [Chia]

namespace CoinStore

def failWrites (s : CoinStore) (e : StorageError) : CoinStore :=
  { s with backend := s.backend.failWrites e }

def mended (s : CoinStore) : CoinStore := { s with backend := s.backend.mended }

section
variable (s : CoinStore) (e : StorageError)
omit [Chia]

@[simp] theorem failWrites_merkleTree : (s.failWrites e).merkleTree = s.merkleTree := rfl
@[simp] theorem failWrites_height : (s.failWrites e).height = s.height := rfl
@[simp] theorem failWrites_initialized : (s.failWrites e).initialized = s.initialized := rfl
@[simp] theorem failWrites_batchWrite (batch : WriteBatch) :
    (s.failWrites e).backend.batchWrite batch = ((s.failWrites e).backend, .error e) := rfl

end

/-! ## The calls that commit -/

inductive Operation where
  | initGenesis (coins : List (Coin × Bool)) (timestamp : UInt64)
  | applyBlock (block : BlockData)
  | rollbackToBlock (target : Int64)

inductive OperationResult where
  | genesis (stateRoot : Bytes32)
  | block (result : ApplyBlockResult)
  | rollback (result : RollbackResult)

namespace Operation

def run : Operation → CoinStore → CoinStore × Res OperationResult
  | .initGenesis coins timestamp, s =>
    ((s.initGenesis coins timestamp).1, (s.initGenesis coins timestamp).2.map .genesis)
  | .applyBlock block, s => ((s.applyBlock block).1, (s.applyBlock block).2.map .block)
  | .rollbackToBlock target, s =>
    ((s.rollbackToBlock target).1, (s.rollbackToBlock target).2.map .rollback)

/-- The call meets the failure: it ends otherwise than on a working backend. -/
def MeetsFailure (op : Operation) (s : CoinStore) (e : StorageError) : Prop :=
  (op.run (s.failWrites e)).2 ≠ (op.run s).2

/-- **The failure leaves no trace**: the call ends with an error and the answers are as before, and
the same call on the mended backend ends as if nothing had happened. -/
structure LeavesNoTrace (op : Operation) (s : CoinStore) (e : StorageError) : Prop where
  error : ∃ e', (op.run (s.failWrites e)).2 = err e'
  view : s.SameView (op.run (s.failWrites e)).1
  retry : (op.run (op.run (s.failWrites e)).1.mended).2 = (op.run s).2
  retryView : (op.run s).1.SameView (op.run (op.run (s.failWrites e)).1.mended).1

/-- The call changes no leaf of the tree. -/
def TouchesNoLeaf (s : CoinStore) : Operation → Prop
  | .initGenesis coins _ => coins = []
  | .applyBlock _ => False
  | .rollbackToBlock target => s.height ≤ effectiveTarget target

end Operation

/-! ## Reads do not fail -/

section
variable {s : CoinStore} (h : s.backend.Healthy) (e : StorageError)
include h

theorem removalRecord_failWrites : (s.failWrites e).removalRecord = s.removalRecord := by
  funext id
  simp only [removalRecord, failWrites, Backend.get_failWrites h]

omit [Chia] in
theorem checkAddition_failWrites : (s.failWrites e).checkAddition = s.checkAddition := by
  funext ids id
  simp only [checkAddition, failWrites, Backend.get_failWrites h]

theorem validateBlock_failWrites (block : BlockData) :
    (s.failWrites e).validateBlock block = s.validateBlock block := by
  simp only [validateBlock, removalRecord_failWrites h, checkAddition_failWrites h]
  rfl

theorem rebuildMerkleTree_failWrites :
    rebuildMerkleTree (s.failWrites e).backend = rebuildMerkleTree s.backend := by
  simp only [rebuildMerkleTree, failWrites, Backend.prefixScan_failWrites h]

omit [Chia] in
theorem getCoinRecord_failWrites : (s.failWrites e).getCoinRecord = s.getCoinRecord := by
  funext id
  simp only [getCoinRecord, failWrites, Backend.get_failWrites h]

theorem stageRollback_failWrites (target : UInt64) :
    (s.failWrites e).stageRollback target = s.stageRollback target := by
  have hdelete : (s.failWrites e).deleteConfirmed = s.deleteConfirmed := by
    funext acc entry
    simp only [deleteConfirmed, getCoinRecord_failWrites h]
  have hunspend : (s.failWrites e).unspendEntry = s.unspendEntry := by
    funext acc entry
    simp only [unspendEntry, getCoinRecord_failWrites h]
  have hhints : (s.failWrites e).deleteHints = s.deleteHints := by
    funext acc id
    simp only [deleteHints, failWrites, Backend.prefixScan_failWrites h]
  have hscan : (s.failWrites e).scanAbove = s.scanAbove := by
    funext cf target body acc
    simp only [scanAbove, failWrites, Backend.prefixScan_failWrites h]
  simp only [stageRollback, hdelete, hunspend, hhints, hscan]

end

/-! ## Where the failure is met -/

/-- A rollback that passes its checks and lies below the tip. -/
theorem rollbackToBlock_below {s : CoinStore} {target : Int64} (hinit : s.initialized = true)
    (habove : ¬ s.height.toInt64 < target)
    (hkeep : ¬ (s.height ≤ effectiveTarget target ∧ 0 ≤ target)) :
    s.rollbackToBlock target = match s.stageRollback (effectiveTarget target) with
      | .error e => (s, .error e)
      | .ok acc =>
        match orMerkle "Merkle remove during rollback: "
            (s.merkleTree.batchRemove acc.merkleRemovals) with
        | .error e => (s, .error e)
        | .ok tree =>
          match orMerkle "Merkle update during rollback: " (tree.batchUpdate acc.merkleUpdates) with
          | .error e => ({ s with merkleTree := tree }, .error e)
          | .ok tree => commitRollback { s with merkleTree := tree } (effectiveTarget target) acc := by
  rw [rollbackToBlock, if_neg (by simp [hinit]), if_neg habove, if_neg hkeep]
  cases s.stageRollback (effectiveTarget target) with
  | error e => rfl
  | ok acc =>
    dsimp only
    rewrite [SparseMerkleTree.remove_guard]
    cases orMerkle "Merkle remove during rollback: "
      (s.merkleTree.batchRemove acc.merkleRemovals) with
    | error e => rfl
    | ok tree =>
      dsimp only
      rewrite [SparseMerkleTree.update_guard]
      rfl

section
variable {s : CoinStore} (h : s.backend.Healthy) (e : StorageError)
include h

theorem initGenesis_failWrites (coins : List (Coin × Bool)) (timestamp : UInt64) :
    ((s.failWrites e).initGenesis coins timestamp).2 = (s.initGenesis coins timestamp).2 ∨
      ∃ tree root, s.initialized = false ∧
        s.merkleTree.batchInsert ((coins.map (genesisRecord timestamp)).map merkleEntry) = .ok tree ∧
        (s.initGenesis coins timestamp).2 = .ok root ∧
        (s.failWrites e).initGenesis coins timestamp =
          ({ s.failWrites e with merkleTree := tree.root.2 }, err (.storageError e.toString)) := by
  have hguard := SparseMerkleTree.insert_guard s.merkleTree "Merkle insert error: "
    ((coins.map (genesisRecord timestamp)).map merkleEntry)
  cases hinit : s.initialized with
  | true =>
    left
    simp only [initGenesis, failWrites_initialized, hinit, if_true]
  | false =>
    cases hins : s.merkleTree.batchInsert ((coins.map (genesisRecord timestamp)).map merkleEntry) with
    | error e' =>
      left
      replace hguard := hguard.trans (congrArg (orMerkle _) hins)
      simp only [initGenesis, failWrites_initialized, failWrites_merkleTree, hinit, hguard,
        orMerkle_error, Bool.false_eq_true, if_false]
    | ok tree =>
      right
      replace hguard := hguard.trans (congrArg (orMerkle _) hins)
      refine ⟨tree, tree.root.1, rfl, rfl, ?_, ?_⟩
      · simp only [initGenesis, hinit, hguard, orMerkle_ok, Bool.false_eq_true, if_false,
          Backend.batchWrite_of_healthy h]
      · simp only [initGenesis, failWrites_initialized, failWrites_merkleTree, hinit, hguard,
          orMerkle_ok, Bool.false_eq_true, if_false, failWrites_batchWrite]
        rfl

theorem applyBlock_failWrites (block : BlockData) :
    ((s.failWrites e).applyBlock block).2 = (s.applyBlock block).2 ∨
      ∃ removed inserted tree result, s.validateBlock block = .ok removed ∧
        s.merkleTree.batchInsert ((createdRecords block).map merkleEntry) = .ok inserted ∧
        inserted.batchUpdate ((removed.map (·.spend block.height)).map merkleEntry) = .ok tree ∧
        (s.applyBlock block).2 = .ok result ∧
        (s.failWrites e).applyBlock block =
          ({ s.failWrites e with merkleTree := tree.root.2 }, err (.storageError e.toString)) := by
  have hvalid := validateBlock_failWrites h e block
  cases hval : s.validateBlock block with
  | error e' =>
    left
    simp only [applyBlock, hvalid, hval]
  | ok removed =>
    have hinsert := SparseMerkleTree.insert_guard s.merkleTree "Merkle insert: "
      ((createdRecords block).map merkleEntry)
    cases hins : s.merkleTree.batchInsert ((createdRecords block).map merkleEntry) with
    | error e' =>
      left
      replace hinsert := hinsert.trans (congrArg (orMerkle _) hins)
      simp only [applyBlock, hvalid, hval, failWrites_merkleTree, hinsert, orMerkle_error]
    | ok inserted =>
      replace hinsert := hinsert.trans (congrArg (orMerkle _) hins)
      have hupdate := SparseMerkleTree.update_guard inserted "Merkle update: "
        ((removed.map (·.spend block.height)).map merkleEntry)
      cases hupd : inserted.batchUpdate ((removed.map (·.spend block.height)).map merkleEntry) with
      | error e' =>
        left
        replace hupdate := hupdate.trans (congrArg (orMerkle _) hupd)
        simp only [applyBlock, hvalid, hval, failWrites_merkleTree, hinsert, orMerkle_ok, hupdate,
          orMerkle_error]
      | ok tree =>
        replace hupdate := hupdate.trans (congrArg (orMerkle _) hupd)
        by_cases hexp : ∀ r, block.expectedStateRoot = some r → r = tree.root.1
        · right
          have hverify : ∀ s' : CoinStore,
              verifyStateRoot s' block.expectedStateRoot tree.root.1 = (s', .ok ()) := fun s' => by
            cases he : block.expectedStateRoot with
            | none => rfl
            | some r => simp [verifyStateRoot, hexp r he]
          refine ⟨removed, inserted, tree, {
            stateRoot := tree.root.1
            coinsCreated := (createdRecords block).length
            coinsSpent := (removed.map (·.spend block.height)).length
            height := block.height }, rfl, rfl, hupd, ?_, ?_⟩
          · simp only [applyBlock, hval, hinsert, orMerkle_ok, hupdate, hverify, commitBlock,
              Backend.batchWrite_of_healthy h]
          · simp only [applyBlock, hvalid, hval, failWrites_merkleTree, hinsert, orMerkle_ok, hupdate,
              hverify, commitBlock, failWrites_batchWrite]
            rfl
        · left
          push Not at hexp
          obtain ⟨r, he, hne⟩ := hexp
          have hrebuild := rebuildMerkleTree_failWrites h e
          simp only [applyBlock, hvalid, hval, failWrites_merkleTree, hinsert, orMerkle_ok, hupdate,
            he, verifyStateRoot, if_pos hne.symm, hrebuild]
          cases rebuildMerkleTree s.backend <;> rfl

theorem rollbackToBlock_failWrites (target : Int64) :
    ((s.failWrites e).rollbackToBlock target).2 = (s.rollbackToBlock target).2 ∨
      ∃ acc removed tree result, s.stageRollback (effectiveTarget target) = .ok acc ∧
        s.merkleTree.batchRemove acc.merkleRemovals = .ok removed ∧
        removed.batchUpdate acc.merkleUpdates = .ok tree ∧
        (s.rollbackToBlock target).2 = .ok result ∧
        (s.failWrites e).rollbackToBlock target =
          ({ s.failWrites e with merkleTree := tree }, err (.storageError e.toString)) ∧
        s.initialized = true ∧ ¬ s.height.toInt64 < target ∧
        ¬ (s.height ≤ effectiveTarget target ∧ 0 ≤ target) := by
  have hstage := stageRollback_failWrites h e (effectiveTarget target)
  cases hinit : s.initialized with
  | false =>
    left
    simp [rollbackToBlock, hinit, err]
  | true =>
    by_cases habove : s.height.toInt64 < target
    · left
      simp [rollbackToBlock, hinit, habove, err]
    · by_cases hkeep : s.height ≤ effectiveTarget target ∧ 0 ≤ target
      · left
        simp [rollbackToBlock, hinit, habove, hkeep]
      · rw [rollbackToBlock_below hinit habove hkeep,
          (rollbackToBlock_below hinit habove hkeep : (s.failWrites e).rollbackToBlock target = _), hstage,
          failWrites_merkleTree]
        cases hst : s.stageRollback (effectiveTarget target) with
        | error e' => exact .inl rfl
        | ok acc =>
          cases hrem : s.merkleTree.batchRemove acc.merkleRemovals with
          | error e' =>
            left
            simp only [hrem, orMerkle_error]
          | ok removed =>
            cases hupd : removed.batchUpdate acc.merkleUpdates with
            | error e' =>
              left
              simp only [hrem, orMerkle_ok, hupd, orMerkle_error]
            | ok tree =>
              right
              refine ⟨acc, removed, tree, {
                modifiedCoins := acc.modifiedCoins
                coinsDeleted := acc.coinsDeleted
                coinsUnspent := acc.coinsUnspent
                newHeight := effectiveTarget target }, rfl, hrem, hupd, ?_, ?_, rfl, habove, hkeep⟩
              · simp only [hrem, orMerkle_ok, hupd, commitRollback, Backend.batchWrite_of_healthy h]
              · simp only [hrem, orMerkle_ok, hupd, commitRollback, failWrites_batchWrite]
                rfl

end

/-! ## What a failure leaves -/

omit [Chia] in
theorem mended_withTree {s : CoinStore} (h : s.backend.Healthy) (e : StorageError)
    (tree : SparseMerkleTree) :
    ({ s.failWrites e with merkleTree := tree } : CoinStore).mended = { s with merkleTree := tree } := by
  simp only [mended, failWrites, Backend.mended_failWrites h]

namespace Represents

variable {S : Scope} {s : CoinStore} {m : Coinset} {e : StorageError}

theorem initGenesis_noTrace_iff (h : s.Represents S m) {coins : List (Coin × Bool)}
    {timestamp : UInt64} (hmet : (Operation.initGenesis coins timestamp).MeetsFailure s e) :
    (Operation.initGenesis coins timestamp).LeavesNoTrace s e ↔ coins = [] := by
  obtain ⟨tree, root, hinit, hins, hok, hfail⟩ :=
    (initGenesis_failWrites h.healthy e coins timestamp).resolve_left fun hsame =>
      hmet (congrArg (Except.map OperationResult.genesis) hsame)
  have hmend : ((Operation.initGenesis coins timestamp).run (s.failWrites e)).1.mended =
      { s with merkleTree := tree.root.2 } := by
    rw [Operation.run, hfail]
    exact mended_withTree h.healthy e tree.root.2
  constructor
  · intro hno
    by_contra hne
    obtain ⟨c, rest, rfl⟩ := List.exists_cons_of_ne_nil hne
    -- the leaf of the first coin is in the tree
    obtain ⟨_, hleaves, _⟩ := SparseMerkleTree.batchInsert_spec h.coherent hins
    obtain ⟨err', hagain⟩ : ∃ err', tree.root.2.batchInsert
        (((c :: rest).map (genesisRecord timestamp)).map merkleEntry) = .error err' := by
      refine SparseMerkleTree.batchInsert_known (List.mem_cons_self) ?_
      rw [SparseMerkleTree.root_leaves, hleaves]
      exact OrdMap.getElem?_insertAll_ne_none _ _ (.inr (by simp))
    have hguard := (SparseMerkleTree.insert_guard tree.root.2 "Merkle insert error: "
      (((c :: rest).map (genesisRecord timestamp)).map merkleEntry)).trans
        (congrArg (orMerkle _) hagain)
    have hretry := hno.retry
    rw [hmend, Operation.run, Operation.run, hok] at hretry
    simp only [initGenesis, hinit, hguard, orMerkle_error, Bool.false_eq_true, if_false] at hretry
    cases hretry
  · rintro rfl
    obtain rfl : s.merkleTree = tree := (SparseMerkleTree.batchInsert_eq_ok.1 hins).2
    have hsame : ({ s with merkleTree := s.merkleTree.root.2 } : CoinStore).initGenesis [] timestamp =
        s.initGenesis [] timestamp := by
      simp only [initGenesis, hinit, List.map_nil, List.isEmpty_nil, if_true,
        SparseMerkleTree.root_root]
      rfl
    have hroot : s.merkleTree.root.2.root.1 = s.merkleTree.root.1 := by
      rw [SparseMerkleTree.root_root]
    exact {
      error := ⟨.storageError e.toString, by rw [Operation.run, hfail]; rfl⟩
      view := by
        rw [Operation.run, hfail]
        exact ⟨rfl, rfl, rfl, hroot, fun _ => rfl⟩
      retry := by rw [hmend, Operation.run, Operation.run, hsame]
      retryView := by
        rw [hmend, Operation.run, Operation.run, hsame]
        exact .refl _ }

theorem applyBlock_trace (h : s.Represents S m) {block : BlockData}
    (hmet : (Operation.applyBlock block).MeetsFailure s e) :
    ¬ (Operation.applyBlock block).LeavesNoTrace s e := by
  obtain ⟨removed, inserted, tree, result, hval, hins, hupd, hok, hfail⟩ :=
    (applyBlock_failWrites h.healthy e block).resolve_left fun hsame =>
      hmet (congrArg (Except.map OperationResult.block) hsame)
  intro hno
  -- a block has coinbase coins, and the leaf of the first one is in the tree
  obtain ⟨c, hc⟩ := List.exists_mem_of_length_pos
    (Nat.lt_of_lt_of_le Nat.two_pos (h.validateBlock_eq_ok.1 hval).2.2.2.2.1)
  have hmem : merkleEntry (coinbaseRecord block c) ∈ (createdRecords block).map merkleEntry :=
    List.mem_map_of_mem (List.mem_append_left _ (List.mem_map_of_mem hc))
  obtain ⟨_, hleaves, hcoh⟩ := SparseMerkleTree.batchInsert_spec h.coherent hins
  obtain ⟨_, hleaves', _⟩ := SparseMerkleTree.batchUpdate_spec hcoh hupd
  obtain ⟨err', hagain⟩ : ∃ err', tree.root.2.batchInsert ((createdRecords block).map merkleEntry) =
      .error err' := by
    refine SparseMerkleTree.batchInsert_known hmem ?_
    rw [SparseMerkleTree.root_leaves, hleaves', hleaves]
    exact OrdMap.getElem?_insertAll_ne_none _ _ (.inl (OrdMap.getElem?_insertAll_ne_none _ _
      (.inr (List.mem_map_of_mem hmem))))
  have hguard := (SparseMerkleTree.insert_guard tree.root.2 "Merkle insert: "
    ((createdRecords block).map merkleEntry)).trans (congrArg (orMerkle _) hagain)
  have hval' : ({ s with merkleTree := tree.root.2 } : CoinStore).validateBlock block = .ok removed := hval
  have hmend : ((Operation.applyBlock block).run (s.failWrites e)).1.mended =
      { s with merkleTree := tree.root.2 } := by
    rw [Operation.run, hfail]
    exact mended_withTree h.healthy e tree.root.2
  have hretry := hno.retry
  rw [hmend, Operation.run, Operation.run, hok] at hretry
  simp only [applyBlock, hval', hguard, orMerkle_error] at hretry
  cases hretry

/-- At or above the tip there is nothing to delete or to un-spend. -/
theorem nothing_above (h : s.Represents S m) {target : UInt64} (hle : s.height ≤ target)
    {del rev : List (CoinId × CoinRecord)} (hD : Deleted m target del) (hR : Revived m target rev) :
    del = [] ∧ rev = [] := by
  have hle' := UInt64.le_iff_toNat_le.1 hle
  constructor
  · refine List.eq_nil_iff_forall_not_mem.2 fun x hx => ?_
    obtain ⟨hm, hlt⟩ := (hD.mem x.1 x.2).1 hx
    have := h.lives.confirmed_le hm
    have := UInt64.lt_iff_toNat_lt.1 hlt
    omega
  · refine List.eq_nil_iff_forall_not_mem.2 fun x hx => ?_
    obtain ⟨hm, _, sh, hs, hlt⟩ := (hR.mem x.1 x.2).1 hx
    have := (h.lives.spent hm hs).2
    have := UInt64.lt_iff_toNat_lt.1 hlt
    omega

theorem rollbackToBlock_noTrace_iff (h : s.Represents S m) {target : Int64}
    (hmet : (Operation.rollbackToBlock target).MeetsFailure s e) :
    (Operation.rollbackToBlock target).LeavesNoTrace s e ↔ s.height ≤ effectiveTarget target := by
  obtain ⟨acc, removed, tree, result, hstage, hrem, hupd, hok, hfail, hinit, habove, hkeep⟩ :=
    (rollbackToBlock_failWrites h.healthy e target).resolve_left fun hsame =>
      hmet (congrArg (Except.map OperationResult.rollback) hsame)
  obtain ⟨acc', del, rev, hstage', hD, hR, _, _, _, hremovals, hupdates, _⟩ :=
    h.stageRollback_spec (effectiveTarget target)
  obtain rfl := Except.ok.inj (hstage.symm.trans hstage')
  have hmend : ((Operation.rollbackToBlock target).run (s.failWrites e)).1.mended =
      { s with merkleTree := tree } := by
    rw [Operation.run, hfail]
    exact mended_withTree h.healthy e tree
  constructor
  · intro hno
    by_contra hlt
    -- the tip has a coin, and its leaf is gone from the tree
    have hlt' := UInt64.lt_iff_toNat_lt.1 (UInt64.not_le.1 hlt)
    obtain ⟨id, rec, hm, hconf⟩ := h.filled s.height (by omega) le_rfl
    have hid : id ∈ acc.merkleRemovals := by
      rw [hremovals]
      exact List.mem_map.2 ⟨(id, rec), (hD.mem id rec).2 ⟨hm, hconf ▸ UInt64.not_le.1 hlt⟩, rfl⟩
    obtain ⟨err', hagain⟩ := SparseMerkleTree.batchRemove_again h.coherent hrem hupd hid
    have hretry := hno.retry
    rw [hmend, Operation.run, Operation.run, hok,
      (rollbackToBlock_below hinit habove hkeep :
        ({ s with merkleTree := tree } : CoinStore).rollbackToBlock target = _)] at hretry
    have hstage'' : ({ s with merkleTree := tree } : CoinStore).stageRollback (effectiveTarget target) =
        .ok acc := hstage
    simp only [hstage'', hagain, orMerkle_error] at hretry
    cases hretry
  · intro hle
    obtain ⟨rfl, rfl⟩ := h.nothing_above hle hD hR
    rw [hremovals] at hrem
    rw [hupdates] at hupd
    obtain rfl : s.merkleTree = removed := (SparseMerkleTree.batchRemove_eq_ok.1 hrem).2
    obtain rfl : s.merkleTree = tree := (SparseMerkleTree.batchUpdate_eq_ok.1 hupd).2
    exact {
      error := ⟨.storageError e.toString, by rw [Operation.run, hfail]; rfl⟩
      view := by
        rw [Operation.run, hfail]
        exact ⟨rfl, rfl, rfl, rfl, fun _ => rfl⟩
      retry := by rw [hmend]
      retryView := by
        rw [hmend]
        exact .refl _ }

end Represents

end CoinStore

/-- **When a failed commit leaves no trace**: a call that meets the failure does so exactly if it
changes no leaf. -/
theorem Reachable.failed_commit_iff {U : Set Coin} {P : BlockData → Prop} {s : CoinStore}
    (h : Reachable U P s) (op : CoinStore.Operation) (e : StorageError) (hmet : op.MeetsFailure s e) :
    op.LeavesNoTrace s e ↔ op.TouchesNoLeaf s := by
  obtain ⟨m, hm, _⟩ := h.life
  cases op with
  | initGenesis coins timestamp => exact hm.initGenesis_noTrace_iff hmet
  | applyBlock block => exact iff_of_false (hm.applyBlock_trace hmet) id
  | rollbackToBlock target => exact hm.rollbackToBlock_noTrace_iff hmet

end DigCoinstore

namespace DigCoinstore

open Sample

theorem applyBlock_meetsFailure : (CoinStore.Operation.applyBlock blockOne).MeetsFailure genesis .mapFull := by
  intro h
  obtain ⟨hfailed, hok⟩ :
      ((CoinStore.Operation.applyBlock blockOne).run (genesis.failWrites .mapFull)).2.isOk = false ∧
      ((CoinStore.Operation.applyBlock blockOne).run genesis).2.isOk = true := by decide +kernel
  rw [h, hok] at hfailed
  cases hfailed

theorem failed_commit_genesis :
    (CoinStore.Operation.applyBlock blockOne).LeavesNoTrace genesis .mapFull ↔
      (CoinStore.Operation.applyBlock blockOne).TouchesNoLeaf genesis :=
  reachable_genesis.failed_commit_iff _ _ applyBlock_meetsFailure

/-- A block that is accepted on a working backend leaves a trace when its commit fails. -/
theorem failed_block_leaves_trace : Reachable coins BlockData.Honest genesis ∧
    (CoinStore.Operation.applyBlock blockOne).MeetsFailure genesis .mapFull ∧
    ¬ (CoinStore.Operation.applyBlock blockOne).LeavesNoTrace genesis .mapFull := by
  obtain ⟨m, hm, _⟩ := reachable_genesis.life
  exact ⟨reachable_genesis, applyBlock_meetsFailure, hm.applyBlock_trace applyBlock_meetsFailure⟩

end DigCoinstore
