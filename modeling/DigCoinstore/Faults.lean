import DigCoinstore.Lib.Flaky
import DigCoinstore.FailedCommit
import DigCoinstore.HintRetry
import DigCoinstore.LedgerRefinement
import DigCoinstore.TreeCover

/-!
# Calls on a failing backend

A call that reads and then commits once is all or nothing: on a backend that fails any of its
operations it ends as on a working one, or it reports the failure and has written nothing
(`CoinStore.step_withFaults`). The tree in memory may be another one then, but not the tables.
-/

namespace DigCoinstore

/-- The failures of a backend, as calls report them. -/
def Exit.IsStorage (e : Exit) : Prop := ∃ msg, e = .error (.storageError msg)

/-! ## A failing backend -/

namespace Backend

/-- The same tables in an engine that fails some operations. -/
def withFaults (b : Backend) (f : Faults) : Backend := { b with faults := f }

variable {b : Backend} (h : b.Healthy) (f : Faults)
include h

theorem mended_withFaults : (b.withFaults f).mended = b := by
  have hfaults : b.faults = fun _ => none := h
  rw [mended, withFaults, ← hfaults]

theorem get_withFaults (cf : ColumnFamily) (key : Bytes) :
    Flaky Exit.IsStorage (orStorage ((b.withFaults f).get cf key)) (orStorage (b.get cf key)) := by
  rw [get_of_healthy h, get]
  cases hf : (b.withFaults f).faults (.get cf key) with
  | none => exact .refl _
  | some e => exact .failed ⟨_, rfl⟩ _

theorem prefixScan_withFaults (cf : ColumnFamily) (pre : Bytes) :
    Flaky Exit.IsStorage (orStorage ((b.withFaults f).prefixScan cf pre))
      (orStorage (b.prefixScan cf pre)) := by
  rw [prefixScan_of_healthy h, prefixScan]
  cases hf : (b.withFaults f).faults (.prefixScan cf pre) with
  | none => exact .refl _
  | some e => exact .failed ⟨_, rfl⟩ _

theorem prefixScanWith_withFaults (text : String) (cf : ColumnFamily) (pre : Bytes) :
    Flaky Exit.IsStorage (orStorageWith text ((b.withFaults f).prefixScan cf pre))
      (orStorageWith text (b.prefixScan cf pre)) := by
  rw [prefixScan_of_healthy h, prefixScan]
  cases hf : (b.withFaults f).faults (.prefixScan cf pre) with
  | none => exact .refl _
  | some e => exact .failed ⟨_, rfl⟩ _

/-- A batch is written as a whole, or not at all. -/
theorem batchWrite_withFaults (batch : WriteBatch) :
    (∃ e, (b.withFaults f).batchWrite batch = (b.withFaults f, .error e)) ∨
      (b.withFaults f).batchWrite batch = ((b.batchWrite batch).1.withFaults f, (b.batchWrite batch).2) := by
  rw [batchWrite_of_healthy h, batchWrite]
  cases hf : (b.withFaults f).faults (.batchWrite batch) with
  | none => exact .inr rfl
  | some e => exact .inl ⟨e, rfl⟩

end Backend

variable [Chia]

namespace CoinStore

section fields
variable (s : CoinStore) (f : Faults)
omit [Chia]

@[simp] theorem withFaults_initialized : (s.withFaults f).initialized = s.initialized := rfl
@[simp] theorem withFaults_height : (s.withFaults f).height = s.height := rfl
@[simp] theorem withFaults_timestamp : (s.withFaults f).timestamp = s.timestamp := rfl
@[simp] theorem withFaults_merkleTree : (s.withFaults f).merkleTree = s.merkleTree := rfl
@[simp] theorem withFaults_backend : (s.withFaults f).backend = s.backend.withFaults f := rfl

theorem mended_withFaults {s : CoinStore} (h : s.backend.Healthy) (f : Faults) :
    (s.withFaults f).mended = s := by
  rw [mended, withFaults_backend, Backend.mended_withFaults h]
  rfl

end fields

/-! ## Reads -/

section reads
variable {s : CoinStore} (h : s.backend.Healthy) (f : Faults)
include h

omit [Chia] in
theorem getCoinRecord_withFaults (id : CoinId) :
    Flaky Exit.IsStorage ((s.withFaults f).getCoinRecord id) (s.getCoinRecord id) :=
  (Backend.get_withFaults h f _ _).bind fun _ => .refl _

theorem removalRecord_withFaults (id : CoinId) :
    Flaky Exit.IsStorage ((s.withFaults f).removalRecord id) (s.removalRecord id) :=
  (Backend.get_withFaults h f _ _).bind fun _ => .refl _

omit [Chia] in
theorem checkAddition_withFaults (ids : Finset Bytes32) (id : CoinId) :
    Flaky Exit.IsStorage ((s.withFaults f).checkAddition ids id) (s.checkAddition ids id) :=
  .ite (.refl _) ((Backend.get_withFaults h f _ _).bind fun _ => .refl _)

theorem validateBlock_withFaults (block : BlockData) :
    Flaky Exit.IsStorage ((s.withFaults f).validateBlock block) (s.validateBlock block) := by
  refine .ite (.refl _) (.bind (.refl _) fun next => .ite (.refl _) (.ite (.refl _) (.ite (.refl _) ?_)))
  refine .bind (.mapM (removalRecord_withFaults h f) _) fun removed => ?_
  refine .bind (.foldlM (fun ids (a : CoinAddition) => checkAddition_withFaults h f ids a.coinId) _ _)
    fun ids => ?_
  exact .bind (.foldlM (fun ids (c : Coin) => checkAddition_withFaults h f ids (Chia.coinId c)) _ _)
    fun _ => .refl _

theorem rebuildMerkleTree_withFaults :
    Flaky Exit.IsStorage (rebuildMerkleTree (s.withFaults f).backend) (rebuildMerkleTree s.backend) :=
  (Backend.prefixScan_withFaults h f _ _).bind fun _ => .refl _

theorem rebuildUnspentIds_withFaults : Flaky Exit.IsStorage
    (rebuildUnspentIdsFromBackend (s.withFaults f).backend) (rebuildUnspentIdsFromBackend s.backend) :=
  (Backend.prefixScanWith_withFaults h f _ _ _).bind fun _ => .refl _

theorem stageRollback_withFaults (target : UInt64) :
    Flaky Exit.IsStorage ((s.withFaults f).stageRollback target) (s.stageRollback target) := by
  have hdelete : ∀ acc entry, Flaky Exit.IsStorage ((s.withFaults f).deleteConfirmed acc entry)
      (s.deleteConfirmed acc entry) := fun acc entry =>
    .ite (.refl _) (.bind (.refl _) fun id => (getCoinRecord_withFaults h f id).bind fun _ => .refl _)
  have hhints : ∀ acc id, Flaky Exit.IsStorage ((s.withFaults f).deleteHints acc id)
      (s.deleteHints acc id) := fun acc id =>
    (Backend.prefixScan_withFaults h f _ _).bind fun _ => .refl _
  have hunspend : ∀ acc entry, Flaky Exit.IsStorage ((s.withFaults f).unspendEntry acc entry)
      (s.unspendEntry acc entry) := fun acc entry => by
    refine .ite (.refl _) (.bind (.refl _) fun id => .ite (.refl _) ?_)
    refine (getCoinRecord_withFaults h f id).bind fun r => ?_
    cases r with
    | none => exact .refl _
    | some rec => exact (getCoinRecord_withFaults h f _).bind fun _ => .refl _
  have hscan : ∀ cf (body body' : RollbackAcc → KvPair → Res RollbackAcc) acc,
      (∀ acc entry, Flaky Exit.IsStorage (body acc entry) (body' acc entry)) →
      Flaky Exit.IsStorage ((s.withFaults f).scanAbove cf target body acc)
        (s.scanAbove cf target body' acc) := fun cf body body' acc hbody =>
    .foldlM (fun acc _ => (Backend.prefixScan_withFaults h f _ _).bind fun entries =>
      .foldlM hbody entries acc) _ _
  exact (hscan _ _ _ _ hdelete).bind fun acc =>
    (Flaky.foldlM hhints _ acc).bind fun acc => hscan _ _ _ _ hunspend

theorem snapshot_withFaults :
    Flaky Exit.IsStorage (s.withFaults f).snapshot s.snapshot :=
  .ite (.refl _) ((Backend.prefixScanWith_withFaults h f _ _ _).bind fun _ => .refl _)

omit [Chia] in
theorem loadSnapshot_withFaults (height : UInt64) :
    Flaky Exit.IsStorage ((s.withFaults f).loadSnapshot height) (s.loadSnapshot height) :=
  (Backend.get_withFaults h f _ _).bind fun _ => .refl _

omit [Chia] in
theorem getCoinRecords_withFaults (coinIds : List CoinId) :
    Flaky Exit.IsStorage ((s.withFaults f).getCoinRecords coinIds) (s.getCoinRecords coinIds) :=
  .foldlM (fun _ id => (getCoinRecord_withFaults h f id).bind fun _ => .refl _) _ _

omit [Chia] in
theorem pushIndexed_withFaults (cf : ColumnFamily) (start : Nat) (keep : CoinRecord → Bool)
    (results : List CoinRecord) (pre : Bytes) :
    Flaky Exit.IsStorage ((s.withFaults f).pushIndexed cf start keep results pre)
      (s.pushIndexed cf start keep results pre) := by
  refine (Backend.prefixScan_withFaults h f _ _).bind fun entries => .foldlM (fun acc entry => ?_) _ _
  exact .ite (.refl _) (.bind (.refl _) fun id => (getCoinRecord_withFaults h f id).bind fun _ => .refl _)

omit [Chia] in
theorem getCoinsRemovedAtHeight_withFaults (height : UInt64) : Flaky Exit.IsStorage
    ((s.withFaults f).getCoinsRemovedAtHeight height) (s.getCoinsRemovedAtHeight height) :=
  .ite (.refl _) (pushIndexed_withFaults h f _ _ _ _ _)

theorem withConfig_withFaults (config : CoinStoreConfig) : Flaky Exit.IsStorage
    (withConfig config (s.withFaults f).backend)
    ((withConfig config s.backend).map (·.withFaults f)) := by
  refine (Backend.get_withFaults h f _ _).bind_map fun initialized => ?_
  refine (Backend.get_withFaults h f _ _).bind_map fun height => ?_
  refine (Backend.get_withFaults h f _ _).bind_map fun tipHash => .bind_map (.refl _) fun tipHash => ?_
  refine (Backend.get_withFaults h f _ _).bind_map fun timestamp => ?_
  -- the trees and then the unspent sets of the two branches
  refine .ite_map ((rebuildMerkleTree_withFaults h f).bind_map fun tree => ?_)
    (.bind_map (.refl _) fun tree => ?_)
  · exact .ite_map ((rebuildUnspentIds_withFaults h f).bind_map fun ids => .refl _)
      (.bind_map (.refl _) fun ids => .refl _)
  · exact .ite_map ((rebuildUnspentIds_withFaults h f).bind_map fun ids => .refl _)
      (.bind_map (.refl _) fun ids => .refl _)

end reads

/-! ## Calls that commit once -/

/-- **All or nothing**: the call ends as on the working backend, or with the failure and nothing
written. -/
def AllOrNothing {α : Type} (s : CoinStore) (f : Faults) (out out' : CoinStore × Res α) : Prop :=
  out = (out'.1.withFaults f, out'.2) ∨
    (∃ e, Exit.IsStorage e ∧ out.2 = .error e) ∧ out.1.backend = s.backend.withFaults f ∧
      out.1.config = s.config

omit [Chia] in
/-- A call that only reads. -/
theorem AllOrNothing.of_reads {α : Type} {s : CoinStore} {f : Faults} {x y : Res α}
    (hxy : Flaky Exit.IsStorage x y) : AllOrNothing s f (s.withFaults f, x) (s, y) := by
  rcases hxy with rfl | ⟨e, he, rfl⟩
  · exact .inl rfl
  · exact .inr ⟨⟨e, he, rfl⟩, rfl, rfl⟩

section commits
variable {s : CoinStore} (h : s.backend.Healthy) (f : Faults)
include h

theorem initGenesis_withFaults (coins : List (Coin × Bool)) (timestamp : UInt64) :
    AllOrNothing s f ((s.withFaults f).initGenesis coins timestamp) (s.initGenesis coins timestamp) := by
  unfold initGenesis
  simp only [withFaults_initialized, withFaults_merkleTree, SparseMerkleTree.insert_guard]
  split
  · exact .inl rfl
  · cases orMerkle "Merkle insert error: "
        (s.merkleTree.batchInsert ((coins.map (genesisRecord timestamp)).map merkleEntry)) with
    | error e => exact .inl rfl
    | ok tree =>
      dsimp only
      rcases Backend.batchWrite_withFaults h f (stageTip
        (((coins.map (genesisRecord timestamp)).foldl stageGenesisCoin .new).put .metadata
          metaInitialized [1]) 0 .zero timestamp) with ⟨e, hfail⟩ | hsame
      · rw [withFaults_backend, hfail]
        exact .inr ⟨⟨_, ⟨_, rfl⟩, rfl⟩, rfl, rfl⟩
      · rw [withFaults_backend, hsame, Backend.batchWrite_of_healthy h]
        exact .inl rfl

omit [Chia] in
theorem commitBlock_withFaults [Chia] (block : BlockData) (batch : WriteBatch)
    (result : ApplyBlockResult) : AllOrNothing s f ((s.withFaults f).commitBlock block batch result)
      (s.commitBlock block batch result) := by
  unfold commitBlock
  rcases Backend.batchWrite_withFaults h f (stageTip batch block.height block.blockHash
    block.timestamp) with ⟨e, hfail⟩ | hsame
  · rw [withFaults_backend, hfail]
    exact .inr ⟨⟨_, ⟨_, rfl⟩, rfl⟩, rfl, rfl⟩
  · rw [withFaults_backend, hsame, Backend.batchWrite_of_healthy h]
    exact .inl rfl

theorem verifyStateRoot_withFaults (expected : Option Bytes32) (root : Bytes32) :
    AllOrNothing s f (verifyStateRoot (s.withFaults f) expected root)
      (verifyStateRoot s expected root) := by
  unfold verifyStateRoot
  cases expected with
  | none => exact .inl rfl
  | some r =>
    dsimp only
    split
    · rcases rebuildMerkleTree_withFaults h f with hsame | ⟨e, he, hfail⟩
      · rw [hsame]
        cases rebuildMerkleTree s.backend with
        | error e => exact .inl rfl
        | ok tree => exact .inl rfl
      · rw [hfail]
        exact .inr ⟨⟨e, he, rfl⟩, rfl, rfl⟩
    · exact .inl rfl

/-- The end of a block: its root is checked, then it is committed. -/
theorem verified_withFaults (block : BlockData) (batch : WriteBatch) (result : ApplyBlockResult)
    (root : Bytes32) :
    AllOrNothing s f
      (match verifyStateRoot (s.withFaults f) block.expectedStateRoot root with
        | (s, .error e) => (s, .error e)
        | (s, .ok ()) => s.commitBlock block batch result)
      (match verifyStateRoot s block.expectedStateRoot root with
        | (s, .error e) => (s, .error e)
        | (s, .ok ()) => s.commitBlock block batch result) := by
  have hverify := verifyStateRoot_withFaults h f block.expectedStateRoot root
  rcases hverify with hsame | ⟨⟨e, he, hfail⟩, hbackend, hconfig⟩
  · rw [hsame]
    rcases hout : verifyStateRoot s block.expectedStateRoot root with ⟨s', e | ok⟩
    · exact .inl rfl
    · obtain rfl := verifyStateRoot_ok hout
      exact commitBlock_withFaults h f block batch result
  · generalize verifyStateRoot (s.withFaults f) block.expectedStateRoot root = out at *
    obtain ⟨s', r⟩ := out
    obtain rfl : r = .error e := hfail
    exact .inr ⟨⟨e, he, rfl⟩, hbackend, hconfig⟩

theorem applyBlock_withFaults (block : BlockData) :
    AllOrNothing s f ((s.withFaults f).applyBlock block) (s.applyBlock block) := by
  unfold applyBlock
  rcases validateBlock_withFaults h f block with hsame | ⟨e, he, hfail⟩
  · rw [hsame]
    cases s.validateBlock block with
    | error e => exact .inl rfl
    | ok removed =>
      simp only [withFaults_merkleTree, SparseMerkleTree.insert_guard, SparseMerkleTree.update_guard]
      cases orMerkle "Merkle insert: "
          (s.merkleTree.batchInsert ((createdRecords block).map merkleEntry)) with
      | error e => exact .inl rfl
      | ok tree =>
        dsimp only
        cases orMerkle "Merkle update: "
            (tree.batchUpdate ((removed.map (·.spend block.height)).map merkleEntry)) with
        | error e => exact .inl rfl
        | ok tree =>
          dsimp only
          exact verified_withFaults (s := { s with merkleTree := tree.root.2 }) h f _ _ _ _
  · rw [hfail]
    exact .inr ⟨⟨e, he, rfl⟩, rfl, rfl⟩

theorem commitRollback_withFaults (target : UInt64) (acc : RollbackAcc) :
    AllOrNothing s f (commitRollback (s.withFaults f) target acc) (commitRollback s target acc) := by
  unfold commitRollback
  rcases Backend.batchWrite_withFaults h f (stageTip acc.batch target .zero s.timestamp) with
    ⟨e, hfail⟩ | hsame
  · rw [withFaults_backend, withFaults_timestamp, hfail]
    exact .inr ⟨⟨_, ⟨_, rfl⟩, rfl⟩, rfl, rfl⟩
  · rw [withFaults_backend, withFaults_timestamp, hsame, Backend.batchWrite_of_healthy h]
    exact .inl rfl

theorem rollbackToBlock_withFaults (target : Int64) :
    AllOrNothing s f ((s.withFaults f).rollbackToBlock target) (s.rollbackToBlock target) := by
  unfold rollbackToBlock
  simp only [withFaults_initialized, withFaults_height, withFaults_merkleTree,
    SparseMerkleTree.remove_guard, SparseMerkleTree.update_guard]
  split
  · exact .inl rfl
  · split
    · exact .inl rfl
    · split
      · exact .inl rfl
      · rcases stageRollback_withFaults h f (effectiveTarget target) with hsame | ⟨e, he, hfail⟩
        · rw [hsame]
          cases s.stageRollback (effectiveTarget target) with
          | error e => exact .inl rfl
          | ok acc =>
            dsimp only
            cases orMerkle "Merkle remove during rollback: "
                (s.merkleTree.batchRemove acc.merkleRemovals) with
            | error e => exact .inl rfl
            | ok tree =>
              dsimp only
              cases orMerkle "Merkle update during rollback: "
                  (tree.batchUpdate acc.merkleUpdates) with
              | error e => exact .inl rfl
              | ok tree =>
                exact commitRollback_withFaults (s := { s with merkleTree := tree }) h f _ _
        · rw [hfail]
          exact .inr ⟨⟨e, he, rfl⟩, rfl, rfl⟩

theorem rollbackNBlocks_withFaults (n : UInt64) :
    AllOrNothing s f ((s.withFaults f).rollbackNBlocks n) (s.rollbackNBlocks n) := by
  unfold rollbackNBlocks
  cases hinit : s.initialized with
  | false =>
    rw [withFaults_initialized, hinit]
    exact .inl rfl
  | true =>
    rw [withFaults_initialized, withFaults_height, hinit]
    cases checkedSub s.height.toInt64 n.toInt64 with
    | error e => exact .inl rfl
    | ok target => exact rollbackToBlock_withFaults h f target

end commits

end CoinStore

/-- The calls that write at most once. -/
def Call.writesOnce : Call → Bool
  | .addHint _ _ | .removeHintsForCoins _ | .saveSnapshot _ | .restore _ | .stats
  | .availableSnapshotHeights | .loadLatestSnapshot => false
  | _ => true

namespace CoinStore

omit [Chia] in
theorem AllOrNothing.answer {α : Type} {s : CoinStore} {f : Faults} {out out' : CoinStore × Res α}
    (h : AllOrNothing s f out out') {c : Res α → Answer}
    (hfailed : ∀ e, (c (.error e)).failed = true) :
    (out.1, c out.2) = (out'.1.withFaults f, c out'.2) ∨
      (c out.2).failed = true ∧ out.1.backend = s.backend.withFaults f ∧
        out.1.config = s.config := by
  rcases h with rfl | ⟨⟨e, -, herr⟩, hbackend, hconfig⟩
  · exact .inl rfl
  · rw [herr]
    exact .inr ⟨hfailed e, hbackend, hconfig⟩

/-- **Any call that writes at most once** is all or nothing. -/
theorem step_withFaults {s : CoinStore} (h : s.backend.Healthy) (f : Faults) {call : Call}
    (hcall : call.writesOnce = true) :
    (s.withFaults f).step call = ((s.step call).1.withFaults f, (s.step call).2) ∨
      ((s.withFaults f).step call).2.failed = true ∧
      ((s.withFaults f).step call).1.backend = s.backend.withFaults f ∧
      ((s.withFaults f).step call).1.config = s.config := by
  cases call with
  | initGenesis coins timestamp =>
    exact (initGenesis_withFaults h f coins timestamp).answer (c := .root) fun _ => rfl
  | applyBlock block => exact (applyBlock_withFaults h f block).answer (c := .block) fun _ => rfl
  | rollbackToBlock target =>
    exact (rollbackToBlock_withFaults h f target).answer (c := .rollback) fun _ => rfl
  | rollbackNBlocks n =>
    exact (rollbackNBlocks_withFaults h f n).answer (c := .rollback) fun _ => rfl
  | reopen config =>
    simp only [step]
    rcases withConfig_withFaults h f config with hsame | ⟨e, -, hfail⟩
    · rw [hsame]
      cases withConfig config s.backend with
      | ok s' => exact .inl rfl
      | error e => exact .inl rfl
    · rw [hfail]
      exact .inr ⟨rfl, rfl, rfl⟩
  | snapshot =>
    exact (AllOrNothing.of_reads (snapshot_withFaults h f)).answer (c := .snapshot) fun _ => rfl
  | stateRoot | isUnspent => exact .inl rfl
  | getCoinRecord id =>
    exact (AllOrNothing.of_reads (getCoinRecord_withFaults h f id)).answer (c := .record)
      fun _ => rfl
  | getCoinRecords ids =>
    exact (AllOrNothing.of_reads (getCoinRecords_withFaults h f ids)).answer (c := .records)
      fun _ => rfl
  | getCoinsAddedAtHeight height =>
    exact (AllOrNothing.of_reads (pushIndexed_withFaults h f _ _ _ _ _)).answer (c := .records)
      fun _ => rfl
  | getCoinsRemovedAtHeight height =>
    exact (AllOrNothing.of_reads (getCoinsRemovedAtHeight_withFaults h f height)).answer
      (c := .records) fun _ => rfl
  | loadSnapshot height =>
    exact (AllOrNothing.of_reads (loadSnapshot_withFaults h f height)).answer (c := .checkpoint)
      fun _ => rfl
  | _ => cases hcall

/-! ## Runs on a failing backend -/

/-- The process starts again on the tables, with a backend that works. -/
def restart (s : CoinStore) : CoinStore :=
  match withConfig s.config s.backend.mended with
  | .ok s' => s'
  | .error _ => s.mended

/-- A call, and the operations that the backend fails during it. A call that fails is followed by a
restart. -/
def failingMachine : Machine CoinStore (Faults × Call) Answer where
  step s faulty :=
    let (s', answer) := (s.withFaults faulty.1).step faulty.2
    (if answer.failed then s'.restart else s'.mended, answer)

/-- A restart keeps the ledger. -/
theorem Tracks.restart {s s' : CoinStore} {l : Ledger} (h : s.Tracks l) {f : Faults}
    (hbackend : s'.backend = s.backend.withFaults f) (hconfig : s'.config = s.config) :
    s'.restart.Tracks l := by
  obtain ⟨reopened, hopen, hreopened⟩ := h.reopen_step s.config
  rw [CoinStore.restart, hbackend, hconfig, Backend.mended_withFaults h.healthy, hopen]
  rw [h.maxSnapshots] at hreopened
  exact hreopened

theorem failingSimulation : Machine.LossySimulation failingMachine Ledger.machine Prod.snd
    Answer.failed (fun faulty => faulty.2.writesOnce = true ∧ ∀ l : Ledger, l.Promises faulty.2)
    Tracks where
  step {s l faulty} := by
    obtain ⟨f, call⟩ := faulty
    rintro h ⟨honce, hcall⟩
    obtain ⟨hanswer, hnext⟩ := h.step (hcall l)
    have hout := step_withFaults h.healthy f honce
    simp only [failingMachine]
    generalize (s.withFaults f).step call = out at hout
    rcases hout with rfl | ⟨hfailed, hbackend, hconfig⟩
    · cases hfailed : (s.step call).2.failed with
      | true =>
        -- the call fails on a working backend too, and leaves the ledger as it is
        have hsilent : (l.step call).1 = l :=
          l.step_silent call (.inr (hanswer ▸ hfailed))
        rw [hsilent] at hnext
        exact .inl ⟨rfl, hnext.restart rfl rfl⟩
      | false =>
        refine .inr ⟨rfl, hanswer, ?_⟩
        rw [if_neg Bool.false_ne_true, mended_withFaults hnext.healthy]
        exact hnext
    · refine .inl ⟨hfailed, ?_⟩
      rw [if_pos hfailed]
      exact h.restart hbackend hconfig

end CoinStore

/-- **Failures are invisible**: over any run of calls that write at most once, whichever operations
the backend fails and with a restart after each failed call, the calls that do not fail are answered
as by a store that is given these alone and whose backend works. -/
theorem Ledger.failing_log_eq {config : CoinStoreConfig} {s : CoinStore}
    (hopen : CoinStore.withConfig config .fresh = .ok s) {calls : List (Faults × Call)}
    (honce : ∀ call ∈ calls, call.2.writesOnce = true)
    (hclaims : ∀ f block, (f, .applyBlock block) ∈ calls → block.ClaimsItsCoins) :
    let answered := Machine.answered Prod.snd Answer.failed (CoinStore.failingMachine.log s calls)
    CoinStore.machine.log s (answered.map (·.1)) = answered := by
  have hpromise : ∀ faulty ∈ calls, ∀ l : Ledger, l.Promises faulty.2 := by
    rintro ⟨f, call⟩ hmem l
    have hwrites := honce _ hmem
    cases call with
    | applyBlock block => exact hclaims f block hmem
    | saveSnapshot | restore => cases hwrites
    | _ => trivial
  obtain rfl := Except.ok.inj (hopen.symm.trans (CoinStore.withConfig_fresh_eq config))
  have hlog := CoinStore.failingSimulation.log_eq (.tracks_blank config)
    fun faulty hmem => ⟨honce faulty hmem, hpromise faulty hmem⟩
  have hlegal : machine.Legal Allows (.blank config) ((Machine.answered Prod.snd Answer.failed
      (CoinStore.failingMachine.log (.blank config) calls)).map (·.1)) :=
    Machine.legal_of_forall fun call hmem l => by
      obtain ⟨faulty, hfaulty, rfl⟩ := Machine.mem_answered hmem
      exact .inl (hpromise faulty hfaulty l)
  exact (run_tracks hopen hlegal).1.trans hlog

end DigCoinstore

namespace DigCoinstore.Ledger

open Sample

/-- The commit of the block fails once. -/
def failingCalls : List (Faults × Call) :=
  [(Backend.fresh.faults, .initGenesis [(coin 1, false), (coin 2, false)] 10),
    ((Backend.fresh.failWrites .mapFull).faults, .applyBlock blockOne),
    (Backend.fresh.faults, .applyBlock blockOne)]

theorem failing_log_eq_sample :
    let answered := Machine.answered Prod.snd Answer.failed
      (CoinStore.failingMachine.log opened failingCalls)
    CoinStore.machine.log opened (answered.map (·.1)) = answered := by
  refine failing_log_eq (CoinStore.withConfig_fresh_eq _) (fun call hmem => ?_) fun f block hmem => ?_
  · simp only [failingCalls, List.mem_cons, List.not_mem_nil, or_false] at hmem
    rcases hmem with rfl | rfl | rfl <;> rfl
  · simp only [failingCalls, List.mem_cons, List.not_mem_nil, or_false, Prod.mk.injEq, reduceCtorEq,
      and_false, false_or, Call.applyBlock.injEq] at hmem
    obtain rfl : block = blockOne := by rcases hmem with ⟨_, rfl⟩ | ⟨_, rfl⟩ <;> rfl
    exact blockOne_fits.1.claimsItsCoins

example : (CoinStore.failingMachine.log opened failingCalls).map (·.2.failed) =
    [false, true, false] := by decide +kernel

end DigCoinstore.Ledger
