import DigCoinstore.Checkpoints
import DigCoinstore.ConcurrentHints

/-!
# Saves that interleave

`save_snapshot` takes the store by a shared reference, so several saves can be in flight at once,
with hint calls between them: each one scans the coins, writes its row, scans the checkpoints and
deletes those of the smallest heights, one backend call after the other (`saveSnapshotProg`). A save
may find the checkpoints half pruned by another one, or write a row again that another one has
pruned. However the calls interleave, the checkpoints are in the end those that one save alone
leaves (`Checkpointed.saves_interleaved`).
-/

namespace DigCoinstore

open Interleave

/-! ## The calls -/

abbrev SaveProg := Prog BackendOp BackendOp.Reply Exit Unit

def deleteCheckpointsProg : List UInt64 → SaveProg
  | [] => .ret (.ok ())
  | height :: heights =>
    .op (.delete .stateSnapshots (snapshotKey height)) fun _ => deleteCheckpointsProg heights

/-- `prune_snapshots_to_limit` -/
def pruneSnapshotsProg (maxSnapshots : Nat) : SaveProg :=
  if maxSnapshots = 0 then .ret (.ok ())
  else
    .op (.prefixScan .stateSnapshots []) fun (entries : List KvPair) =>
      if entries.length ≤ maxSnapshots then .ret (.ok ())
      else
        match sortedHeights entries with
        | .error e => .ret (.error e)
        | .ok heights => deleteCheckpointsProg (heights.take (entries.length - maxSnapshots))

variable [Chia]

namespace CoinStore

variable (s : CoinStore)

/-- The snapshot over the rows of a scan. -/
def snapshotOf (entries : List KvPair) : Res CoinStoreSnapshot := do
  let coins := scanCoins entries
  let totalValue ← unspentValue coins
  return {
    height := s.height
    blockHash := s.tipHash
    stateRoot := s.merkleTree.rootObserved
    timestamp := s.timestamp
    coins
    hints := []
    totalCoins := UInt64.ofNat coins.size
    totalValue }

/-- The write of a save, and what follows. -/
def writeSnapshotProg (snap : CoinStoreSnapshot) (entries : List (CoinId × CoinRecord)) : SaveProg :=
  .op (.put .stateSnapshots (snapshotKey s.height) (encodeCoinStoreSnapshot snap entries)) fun _ =>
    pruneSnapshotsProg s.config.maxSnapshots

/-- `save_snapshot` -/
def saveSnapshotProg (entries : List (CoinId × CoinRecord)) : SaveProg :=
  if !s.initialized then .ret (err .notInitialized)
  else
    .op (.prefixScan .coinRecords []) fun (rows : List KvPair) =>
      match s.snapshotOf rows with
      | .error e => .ret (.error e)
      | .ok snap => s.writeSnapshotProg snap entries

theorem snapshot_eq_snapshotOf (hb : s.backend.Healthy) (hinit : s.initialized = true) :
    s.snapshot = s.snapshotOf (s.backend.tables .coinRecords).toList := by
  rw [snapshot, if_neg (by simp [hinit]), Backend.prefixScan_all hb, orStorageWith_ok, Res.ok_bind,
    snapshotOf]

end CoinStore

/-! ## A call alone -/

omit [Chia] in
theorem Backend.exec_scanAll {b : Backend} (hb : b.Healthy) (cf : ColumnFamily) :
    b.exec (.prefixScan cf []) = (b, .ok (b.tables cf).toList) := by
  rw [exec, prefixScan_all hb, orStorage_ok]

omit [Chia] in
theorem run_op {b b' : Backend} {op : BackendOp} {reply : op.Reply} (next : op.Reply → SaveProg)
    (hexec : b.exec op = (b', .ok reply)) :
    Prog.run Backend.exec (.op op next) b = (next reply).run Backend.exec b' := by
  rw [Prog.run.eq_def]
  simp only [hexec]

omit [Chia] in
theorem run_deleteCheckpointsProg : ∀ (heights : List UInt64) {b : Backend}, b.Healthy →
    (deleteCheckpointsProg heights).run Backend.exec b =
      forBackend (deleteKey .stateSnapshots) (heights.map snapshotKey) b ()
  | [], _, _ => rfl
  | height :: heights, b, hb => by
    have hb' : ({ b with tables := b.tables.delete .stateSnapshots (snapshotKey height) } :
      Backend).Healthy := hb
    rw [deleteCheckpointsProg, run_op _ (Backend.exec_delete hb _ _),
      run_deleteCheckpointsProg heights hb', List.map_cons, forBackend, deleteKey,
      Backend.delete_of_healthy hb]
    rfl

omit [Chia] in
theorem run_pruneSnapshotsProg {b : Backend} (hb : b.Healthy) (maxSnapshots : Nat) :
    (pruneSnapshotsProg maxSnapshots).run Backend.exec b = pruneSnapshotsToLimit b maxSnapshots := by
  rw [pruneSnapshotsProg, pruneSnapshotsToLimit, Backend.prefixScan_all hb, orStorage_ok]
  split
  · rfl
  · rw [run_op _ (Backend.exec_scanAll hb _)]
    dsimp only
    split
    · rfl
    · cases sortedHeights (b.tables .stateSnapshots).toList with
      | error e => rfl
      | ok heights => exact run_deleteCheckpointsProg _ hb

/-- **Alone the program is `save_snapshot`.** -/
theorem run_saveSnapshotProg {s : CoinStore} (hb : s.backend.Healthy)
    (entries : List (CoinId × CoinRecord)) :
    (s.saveSnapshotProg entries).run Backend.exec s.backend =
      ((s.saveSnapshot entries).1.backend, (s.saveSnapshot entries).2) := by
  cases hinit : s.initialized with
  | false =>
    rw [CoinStore.saveSnapshotProg, CoinStore.saveSnapshot, hinit]
    rfl
  | true =>
    have hsnapshot := s.snapshot_eq_snapshotOf hb hinit
    rw [CoinStore.saveSnapshotProg, if_neg (by simp [hinit]), run_op _ (Backend.exec_scanAll hb _),
      ← hsnapshot]
    cases hsnap : s.snapshot with
    | error e =>
      rw [CoinStore.saveSnapshot, hsnap, hinit]
      rfl
    | ok snap =>
      have hb' : (s.withCheckpoint snap entries).Healthy := hb
      rw [CoinStore.saveSnapshot_eq hb hinit hsnap]
      dsimp only
      rw [CoinStore.writeSnapshotProg, run_op _ (Backend.exec_put hb _ _ _)]
      exact run_pruneSnapshotsProg hb' _

/-! ## Calls in flight -/

/-- The operation writes hints at most. -/
def BackendOp.OnHints : BackendOp → Prop
  | .put cf _ _ | .delete cf _ => cf ∈ CoinStore.hintFamilies
  | .batchWrite _ => False
  | _ => True

omit [Chia] in
theorem removeRowsProg_only {coinId : CoinId} {next : Nat → HintProg}
    (hnext : ∀ removed, (next removed).Only BackendOp.OnHints) :
    ∀ (fwdKeys : List Bytes) (removed : Nat),
      (removeRowsProg coinId next fwdKeys removed).Only BackendOp.OnHints
  | [], removed => hnext removed
  | fwdKey :: fwdKeys, removed => by
    rw [removeRowsProg]
    split
    · exact removeRowsProg_only hnext fwdKeys removed
    · exact .op (by simp [BackendOp.OnHints, CoinStore.hintFamilies]) fun _ =>
        .op (by simp [BackendOp.OnHints, CoinStore.hintFamilies]) fun _ =>
          removeRowsProg_only hnext fwdKeys (removed + 1)

omit [Chia] in
theorem removeHintsProg_only : ∀ (coinIds : List CoinId) (removed : Nat),
    (removeHintsProg coinIds removed).Only BackendOp.OnHints
  | [], _ => .ret _
  | _ :: coinIds, removed =>
    .op trivial fun _ => removeRowsProg_only (removeHintsProg_only coinIds) _ removed

omit [Chia] in
theorem HintCall.prog_only : ∀ call : HintCall, call.prog.Only BackendOp.OnHints
  | .removeHintsForCoins coinIds => removeHintsProg_only coinIds 0
  | .addHint coinId hint => by
    show (addHintProg coinId hint).Only BackendOp.OnHints
    unfold addHintProg
    split
    · exact .ret _
    · exact .ret _
    · refine .op trivial fun found => ?_
      cases found with
      | some v => exact .ret _
      | none =>
        exact .op (by simp [BackendOp.OnHints, CoinStore.hintFamilies]) fun _ =>
          .op (by simp [BackendOp.OnHints, CoinStore.hintFamilies]) fun _ => .ret _

/-- A call through a shared reference to the store. -/
inductive SharedCall where
  | hint (call : HintCall)
  | saveSnapshot (entries : List (CoinId × CoinRecord))

def CoinStore.sharedProg (s : CoinStore) : SharedCall → SaveProg
  | .hint call => call.prog.map fun _ => ()
  | .saveSnapshot entries => s.saveSnapshotProg entries

/-- **A run of calls** on one store, their operations in any order. -/
abbrev SharedRun (s : CoinStore) (calls : Multiset SharedCall) (b : Backend)
    (progs : Multiset SaveProg) : Prop :=
  Reaches Backend.exec (s.backend, calls.map s.sharedProg) (b, progs)

/-! ## What a run leaves -/

/-- The row of a checkpoint. -/
def Backend.checkpoint (b : Backend) (height : UInt64) : Option Bytes :=
  (b.tables .stateSnapshots)[snapshotKey height]?

def Backend.putCheckpoint (b : Backend) (height : UInt64) (value : Bytes) : Backend :=
  { b with tables := b.tables.put .stateSnapshots (snapshotKey height) value }

def Backend.deleteCheckpoint (b : Backend) (height : UInt64) : Backend :=
  { b with tables := b.tables.delete .stateSnapshots (snapshotKey height) }

section
omit [Chia]
variable (b : Backend)

theorem Backend.putCheckpoint_other {cf : ColumnFamily} (hcf : cf ≠ .stateSnapshots)
    (height : UInt64) (value : Bytes) : (b.putCheckpoint height value).tables cf = b.tables cf :=
  Function.update_of_ne hcf _ _

theorem Backend.deleteCheckpoint_other {cf : ColumnFamily} (hcf : cf ≠ .stateSnapshots)
    (height : UInt64) : (b.deleteCheckpoint height).tables cf = b.tables cf :=
  Function.update_of_ne hcf _ _

theorem Backend.checkpoint_put (height height' : UInt64) (value : Bytes) :
    (b.putCheckpoint height' value).checkpoint height =
      if height' = height then some value else b.checkpoint height := by
  rw [checkpoint, putCheckpoint, Tables.put_get]
  simp only [true_and, snapshotKey_injective.eq_iff]
  rfl

theorem Backend.checkpoint_delete (height height' : UInt64) :
    (b.deleteCheckpoint height').checkpoint height =
      if height' = height then none else b.checkpoint height := by
  rw [checkpoint, deleteCheckpoint, Tables.delete_get]
  simp only [true_and, snapshotKey_injective.eq_iff]
  rfl

end

namespace CoinStore

variable (s : CoinStore) (heights : List UInt64) (lists : Set (List (CoinId × CoinRecord)))

/-- `heights` are those of the checkpoints and of the tip. -/
structure TipAndCheckpoints : Prop where
  nodup : heights.Nodup
  mem : ∀ height, height ∈ heights ↔ height = s.height ∨ (s.backend.checkpoint height).isSome = true

/-- The heights to prune once the tip has a checkpoint. -/
def doomed : List UInt64 :=
  if s.config.maxSnapshots = 0 then []
  else Retention.dropped UInt64.toNat heights s.config.maxSnapshots

/-- The row of the tip is one that a save writes, if it is to be kept. -/
def TipSaved (b : Backend) : Prop :=
  ∃ snap, s.snapshot = .ok snap ∧ (s.height ∈ s.doomed heights ∨ ∃ entries ∈ lists,
    b.checkpoint s.height = some (encodeCoinStoreSnapshot snap entries))

/-- **What stays of the rows**: the coins, and each checkpoint that is not doomed. -/
structure SavingRows (b : Backend) : Prop where
  healthy : b.Healthy
  coins : b.tables .coinRecords = s.backend.tables .coinRecords
  keys : CheckpointKeys b.tables
  other : ∀ height, height ≠ s.height → b.checkpoint height = s.backend.checkpoint height ∨
    height ∈ s.doomed heights ∧ b.checkpoint height = none

/-- How far a call is: it has not written yet, or not yet looked for what to prune, or it is about
to delete some heights, or it has no checkpoint to write or to delete. -/
inductive SaveStage where
  | waiting
  | written
  | deleting (rest : List UInt64)
  | idle

/-- The call is still to see that the height is pruned. -/
def SaveStage.Prunes (height : UInt64) : SaveStage → Prop
  | .waiting | .written => True
  | .deleting rest => height ∈ rest
  | .idle => False

/-- The call is at this stage. -/
inductive AtStage (b : Backend) : SaveProg → SaveStage → Prop
  | save {entries : List (CoinId × CoinRecord)} : entries ∈ lists →
    AtStage b (s.saveSnapshotProg entries) .waiting
  | write {snap : CoinStoreSnapshot} {entries : List (CoinId × CoinRecord)} :
    s.snapshot = .ok snap → entries ∈ lists → AtStage b (s.writeSnapshotProg snap entries) .waiting
  | failed (e : Exit) : AtStage b (.ret (.error e)) .waiting
  | prune : s.TipSaved heights lists b →
    AtStage b (pruneSnapshotsProg s.config.maxSnapshots) .written
  | delete {rest : List UInt64} : rest ⊆ s.doomed heights →
    AtStage b (deleteCheckpointsProg rest) (.deleting rest)
  | idle {prog : SaveProg} : prog.Only BackendOp.OnHints → AtStage b prog .idle

variable {s heights lists} {b b' : Backend} {prog : SaveProg} {stage : SaveStage}

theorem AtStage.mono (h : s.AtStage heights lists b prog stage)
    (hsaved : s.TipSaved heights lists b → s.TipSaved heights lists b') :
    s.AtStage heights lists b' prog stage := by
  cases h with
  | save hlist => exact .save hlist
  | write hsnap hlist => exact .write hsnap hlist
  | failed e => exact .failed e
  | prune h => exact .prune (hsaved h)
  | delete hrest => exact .delete hrest
  | idle honly => exact .idle honly

/-- A call that has returned without an error has pruned what it was to prune. -/
theorem AtStage.returned {u : Unit} (h : s.AtStage heights lists b (.ret (.ok u)) stage) :
    stage ≠ .waiting ∧ ∀ height ∈ s.doomed heights, ¬ stage.Prunes height := by
  generalize hprog : (.ret (.ok u) : SaveProg) = prog at h
  cases h with
  | save _ =>
    rw [saveSnapshotProg] at hprog
    split at hprog <;> cases hprog
  | write _ _ => cases hprog
  | failed e => cases hprog
  | prune _ =>
    refine ⟨nofun, fun height hheight => ?_⟩
    rw [pruneSnapshotsProg] at hprog
    split at hprog
    · next hzero =>
      rw [doomed, if_pos hzero] at hheight
      cases hheight
    · cases hprog
  | @delete rest _ =>
    refine ⟨nofun, fun height _ => ?_⟩
    cases rest with
    | nil => exact List.not_mem_nil
    | cons height' rest => cases hprog
  | idle _ => exact ⟨nofun, fun _ _ => id⟩

/-! ## One operation -/

/-- What a call finds to prune, be it half pruned, is what is left of the doomed heights. -/
theorem SavingRows.found (hrows : s.SavingRows heights b) (ht : s.TipAndCheckpoints heights)
    (htip : s.TipSaved heights lists b) (hmax : s.config.maxSnapshots ≠ 0) :
    ∃ found, CheckpointHeights b.tables found ∧ ∀ height ∈ found,
      (height ∈ Retention.dropped UInt64.toNat found s.config.maxSnapshots ↔
        height ∈ s.doomed heights) := by
  obtain ⟨found, hfound⟩ := hrows.keys.heights
  have hmem : ∀ height, height ∈ found ↔ (b.checkpoint height).isSome = true := hfound.mem
  refine ⟨found, hfound, fun height hheight => ?_⟩
  rw [doomed, if_neg hmax]
  refine Retention.mem_dropped_of_partial toNat_injective ht.nodup hfound.nodup
    (fun a ha => ?_) (fun a ha hkept => ?_) hheight
  · rw [ht.mem]
    refine or_iff_not_imp_left.2 fun hne => ?_
    have hsome := (hmem a).1 ha
    rcases hrows.other a hne with heq | ⟨-, hnone⟩
    · rwa [heq] at hsome
    · rw [hnone] at hsome
      cases hsome
  · have hkept : a ∉ s.doomed heights := by rwa [doomed, if_neg hmax]
    rw [hmem]
    by_cases hne : a = s.height
    · subst hne
      obtain ⟨snap, -, hrow⟩ := htip
      obtain ⟨entries, -, hrow⟩ := hrow.resolve_left hkept
      rw [hrow]
      rfl
    · rcases hrows.other a hne with heq | ⟨hdoomed, -⟩
      · rw [heq]
        exact ((ht.mem a).1 ha).resolve_left hne
      · exact absurd hdoomed hkept

/-- **What one operation of a call does**: the call is at a stage again, and nothing gets lost. -/
structure Advances (s : CoinStore) (heights : List UInt64)
    (lists : Set (List (CoinId × CoinRecord))) (b : Backend) (stage : SaveStage) (b' : Backend)
    (prog' : SaveProg) (stage' : SaveStage) : Prop where
  at' : s.AtStage heights lists b' prog' stage'
  rows : s.SavingRows heights b'
  saved : s.TipSaved heights lists b → s.TipSaved heights lists b'
  waiting : stage = .waiting → stage' = .waiting ∨ s.TipSaved heights lists b'
  pruned : ∀ height ∈ s.doomed heights, stage.Prunes height ∨ b.checkpoint height = none →
    stage'.Prunes height ∨ b'.checkpoint height = none

/-- A scan of the coins. -/
theorem SavingRows.scan (hrows : s.SavingRows heights b) (hb : s.backend.Healthy)
    (hinit : s.initialized = true) {entries : List (CoinId × CoinRecord)} (hlist : entries ∈ lists) :
    s.Advances heights lists b .waiting b
      (match s.snapshotOf (b.tables .coinRecords).toList with
        | .error e => .ret (.error e)
        | .ok snap => s.writeSnapshotProg snap entries) .waiting where
  at' := by
    rw [hrows.coins, ← s.snapshot_eq_snapshotOf hb hinit]
    cases hsnap : s.snapshot with
    | error e => exact .failed e
    | ok snap => exact .write hsnap hlist
  rows := hrows
  saved := id
  waiting _ := .inl rfl
  pruned _ _ := id

/-- A write of the row of the tip. -/
theorem SavingRows.write (hrows : s.SavingRows heights b) {snap : CoinStoreSnapshot}
    {entries : List (CoinId × CoinRecord)} (hsnap : s.snapshot = .ok snap) (hlist : entries ∈ lists) :
    s.Advances heights lists b .waiting
      (b.putCheckpoint s.height (encodeCoinStoreSnapshot snap entries))
      (pruneSnapshotsProg s.config.maxSnapshots) .written := by
  have hsaved : s.TipSaved heights lists
      (b.putCheckpoint s.height (encodeCoinStoreSnapshot snap entries)) := by
    refine ⟨snap, hsnap, .inr ⟨entries, hlist, ?_⟩⟩
    rw [Backend.checkpoint_put, if_pos rfl]
  refine ⟨.prune hsaved, ⟨hrows.healthy, ?_, hrows.keys.put _ _, fun height hne => ?_⟩,
    fun _ => hsaved, fun _ => .inr hsaved, fun _ _ _ => .inl trivial⟩
  · rw [Backend.putCheckpoint_other _ (by decide), hrows.coins]
  · rw [Backend.checkpoint_put, if_neg (Ne.symm hne)]
    exact hrows.other height hne

/-- A scan of the checkpoints. -/
theorem SavingRows.prune (hrows : s.SavingRows heights b) (ht : s.TipAndCheckpoints heights)
    (htip : s.TipSaved heights lists b) (hmax : s.config.maxSnapshots ≠ 0) :
    ∃ found stage', CheckpointHeights b.tables found ∧ s.Advances heights lists b .written b
      (if found.length ≤ s.config.maxSnapshots then .ret (.ok ())
      else deleteCheckpointsProg (Retention.dropped UInt64.toNat found s.config.maxSnapshots))
      stage' := by
  obtain ⟨found, hfound, hdropped⟩ := hrows.found ht htip hmax
  refine ⟨found, ?_⟩
  have hmem : ∀ height, height ∈ found ↔ (b.checkpoint height).isSome = true := hfound.mem
  have hrest : ∀ height ∈ s.doomed heights,
      height ∈ Retention.dropped UInt64.toNat found s.config.maxSnapshots ∨
        b.checkpoint height = none := fun height hheight => by
    by_cases hin : height ∈ found
    · exact .inl ((hdropped height hin).2 hheight)
    · rw [hmem, Bool.not_eq_true, Option.isSome_eq_false_iff, Option.isNone_iff_eq_none] at hin
      exact .inr hin
  have hwaiting : SaveStage.written ≠ .waiting := by
    intro heq
    cases heq
  split
  · next hle =>
    have hnone : Retention.dropped UInt64.toNat found s.config.maxSnapshots = [] := by
      rw [Retention.dropped, Nat.sub_eq_zero_of_le hle, List.take_zero]
    refine ⟨.idle, hfound, .idle (.ret _), hrows, id, fun heq => absurd heq hwaiting,
      fun height hheight _ => .inr ?_⟩
    refine (hrest height hheight).resolve_left ?_
    rw [hnone]
    exact List.not_mem_nil
  · refine ⟨.deleting (Retention.dropped UInt64.toNat found s.config.maxSnapshots), hfound,
      .delete fun height hheight => ?_, hrows, id, fun heq => absurd heq hwaiting,
      fun height hheight _ => hrest height hheight⟩
    refine (hdropped height ?_).1 hheight
    exact (Retention.sorted_perm _ found).mem_iff.1 (List.mem_of_mem_take hheight)

/-- A deletion. -/
theorem SavingRows.delete (hrows : s.SavingRows heights b) {height : UInt64} {rest : List UInt64}
    (hrest : height :: rest ⊆ s.doomed heights) :
    s.Advances heights lists b (.deleting (height :: rest)) (b.deleteCheckpoint height)
      (deleteCheckpointsProg rest) (.deleting rest) where
  at' := .delete fun height' hheight' => hrest (.tail _ hheight')
  rows := by
    refine ⟨hrows.healthy, ?_, ?_, fun height' hne => ?_⟩
    · rw [Backend.deleteCheckpoint_other _ (by decide), hrows.coins]
    · exact hrows.keys.deleteAll [snapshotKey height]
    · rw [Backend.checkpoint_delete]
      split
      · next heq => exact .inr ⟨heq ▸ hrest (.head _), rfl⟩
      · exact hrows.other height' hne
  saved := by
    rintro ⟨snap, hsnap, hdoomed | ⟨entries, hlist, hrow⟩⟩
    · exact ⟨snap, hsnap, .inl hdoomed⟩
    · by_cases heq : height = s.height
      · exact ⟨snap, hsnap, .inl (heq ▸ hrest (.head _))⟩
      · refine ⟨snap, hsnap, .inr ⟨entries, hlist, ?_⟩⟩
        rw [Backend.checkpoint_delete, if_neg heq, hrow]
  waiting := nofun
  pruned height' _ hpruned := by
    rw [Backend.checkpoint_delete]
    rcases hpruned with hmem | hnone
    · rcases List.mem_cons.1 hmem with rfl | hmem
      · exact .inr (if_pos rfl)
      · exact .inl hmem
    · rw [hnone, ite_self]
      exact .inr rfl

/-- An operation of a hint call. -/
theorem SavingRows.hint (hrows : s.SavingRows heights b) {op : BackendOp} (hop : op.OnHints)
    {reply : op.Reply} (hexec : b.exec op = (b', .ok reply)) {next : SaveProg}
    (hnext : next.Only BackendOp.OnHints) : s.Advances heights lists b .idle b' next .idle := by
  have hother : b'.Healthy ∧ ∀ cf, cf ∉ hintFamilies → b'.tables cf = b.tables cf := by
    refine ⟨Backend.exec_healthy hrows.healthy hexec, fun cf hcf => ?_⟩
    cases op with
    | get cf' key =>
      rw [Backend.exec_get hrows.healthy] at hexec
      rw [← (Prod.mk.inj hexec).1]
    | prefixScan cf' pre =>
      rw [Backend.exec_prefixScan hrows.healthy] at hexec
      rw [← (Prod.mk.inj hexec).1]
    | put cf' key value =>
      rw [Backend.exec_put hrows.healthy] at hexec
      rw [← (Prod.mk.inj hexec).1]
      have hne : cf ≠ cf' := fun heq => hcf (heq ▸ hop)
      exact Function.update_of_ne hne _ _
    | delete cf' key =>
      rw [Backend.exec_delete hrows.healthy] at hexec
      rw [← (Prod.mk.inj hexec).1]
      have hne : cf ≠ cf' := fun heq => hcf (heq ▸ hop)
      exact Function.update_of_ne hne _ _
    | batchWrite batch => exact hop.elim
  have hrow : ∀ height, b'.checkpoint height = b.checkpoint height := fun height => by
    rw [Backend.checkpoint, hother.2 .stateSnapshots (by decide)]
    rfl
  refine ⟨.idle hnext, ⟨hother.1, ?_, hrows.keys.congr (hother.2 .stateSnapshots (by decide)),
    fun height hne => ?_⟩, fun hsaved => ?_, nofun, fun height _ hpruned => ?_⟩
  · rw [hother.2 .coinRecords (by decide), hrows.coins]
  · rw [hrow]
    exact hrows.other height hne
  · rwa [TipSaved, hrow]
  · rwa [hrow]

/-- **Every operation of every call advances it.** -/
theorem AtStage.step (ht : s.TipAndCheckpoints heights) (hb : s.backend.Healthy)
    (hrows : s.SavingRows heights b) {op : BackendOp} {next : op.Reply → SaveProg}
    (h : s.AtStage heights lists b (.op op next) stage) {reply : op.Reply}
    (hexec : b.exec op = (b', .ok reply)) :
    ∃ stage', s.Advances heights lists b stage b' (next reply) stage' := by
  generalize hprog : (.op op next : SaveProg) = prog at h
  cases h with
  | @save entries hlist =>
    rw [saveSnapshotProg] at hprog
    split at hprog
    · cases hprog
    · next hinit =>
      cases hprog
      rw [Backend.exec_scanAll hrows.healthy] at hexec
      obtain ⟨rfl, hreply⟩ := Prod.mk.inj hexec
      obtain rfl := Except.ok.inj hreply
      exact ⟨_, hrows.scan hb (by simpa using hinit) hlist⟩
  | write hsnap hlist =>
    cases hprog
    rw [Backend.exec_put hrows.healthy] at hexec
    obtain ⟨rfl, -⟩ := Prod.mk.inj hexec
    exact ⟨_, hrows.write hsnap hlist⟩
  | failed e => cases hprog
  | prune htip =>
    rw [pruneSnapshotsProg] at hprog
    split at hprog
    · cases hprog
    · next hmax =>
      cases hprog
      rw [Backend.exec_scanAll hrows.healthy] at hexec
      obtain ⟨rfl, hreply⟩ := Prod.mk.inj hexec
      obtain rfl := Except.ok.inj hreply
      obtain ⟨found, stage', hfound, hadvances⟩ := hrows.prune ht htip hmax
      refine ⟨stage', ?_⟩
      dsimp only
      rw [← hfound.length, hfound.sorted]
      exact hadvances
  | @delete rest hrest =>
    cases rest with
    | nil => cases hprog
    | cons height rest =>
      cases hprog
      rw [Backend.exec_delete hrows.healthy] at hexec
      obtain ⟨rfl, -⟩ := Prod.mk.inj hexec
      exact ⟨_, hrows.delete hrest⟩
  | idle honly =>
    subst hprog
    cases honly with
    | op hop hnext => exact ⟨_, hrows.hint hop hexec (hnext reply)⟩

/-! ## A run -/

/-- **The invariant of a run**: every call is at a stage, and what is still to be written or pruned
some call is still to write or prune. -/
structure SavesSafe (s : CoinStore) (heights : List UInt64)
    (lists : Set (List (CoinId × CoinRecord))) (b : Backend) (progs : Multiset SaveProg) : Prop where
  rows : s.SavingRows heights b
  stages : ∀ prog ∈ progs, ∃ stage, s.AtStage heights lists b prog stage
  saved : (∃ prog ∈ progs, s.AtStage heights lists b prog .waiting) ∨ s.TipSaved heights lists b
  pruned : ∀ height ∈ s.doomed heights, b.checkpoint height = none ∨
    ∃ prog ∈ progs, ∃ stage, s.AtStage heights lists b prog stage ∧ stage.Prunes height

theorem SavesSafe.perform (ht : s.TipAndCheckpoints heights) (hb : s.backend.Healthy)
    {op : BackendOp} {reply : op.Reply} {next : op.Reply → SaveProg} {progs : Multiset SaveProg}
    (h : s.SavesSafe heights lists b (.op op next ::ₘ progs)) (hexec : b.exec op = (b', .ok reply)) :
    s.SavesSafe heights lists b' (next reply ::ₘ progs) := by
  have hstep : ∀ {stage}, s.AtStage heights lists b (.op op next) stage →
      ∃ stage', s.Advances heights lists b stage b' (next reply) stage' :=
    fun hat => hat.step ht hb h.rows hexec
  obtain ⟨stage₀, hat₀⟩ := h.stages _ (Multiset.mem_cons_self _ _)
  obtain ⟨stage₁, hadv₁⟩ := hstep hat₀
  have hrest : ∀ {prog stage}, s.AtStage heights lists b prog stage →
      s.AtStage heights lists b' prog stage := fun hat => hat.mono hadv₁.saved
  refine ⟨hadv₁.rows, ?_, ?_, fun height hheight => ?_⟩
  · refine Multiset.forall_mem_cons.2 ⟨⟨stage₁, hadv₁.at'⟩, fun prog hprog => ?_⟩
    obtain ⟨stage, hat⟩ := h.stages prog (Multiset.mem_cons_of_mem hprog)
    exact ⟨stage, hrest hat⟩
  · rcases h.saved with ⟨prog, hprog, hat⟩ | hsaved
    · rcases Multiset.mem_cons.1 hprog with rfl | hprog
      · obtain ⟨stage', hadv⟩ := hstep hat
        rcases hadv.waiting rfl with rfl | hsaved
        · exact .inl ⟨_, Multiset.mem_cons_self _ _, hadv.at'⟩
        · exact .inr hsaved
      · exact .inl ⟨prog, Multiset.mem_cons_of_mem hprog, hrest hat⟩
    · exact .inr (hadv₁.saved hsaved)
  · have hnext : ∀ {stage}, s.AtStage heights lists b (.op op next) stage →
        stage.Prunes height ∨ b.checkpoint height = none → b'.checkpoint height = none ∨
          ∃ prog ∈ next reply ::ₘ progs, ∃ stage,
            s.AtStage heights lists b' prog stage ∧ stage.Prunes height := fun hat hpruned => by
      obtain ⟨stage', hadv⟩ := hstep hat
      rcases hadv.pruned height hheight hpruned with hprunes | hnone
      · exact .inr ⟨_, Multiset.mem_cons_self _ _, stage', hadv.at', hprunes⟩
      · exact .inl hnone
    rcases h.pruned height hheight with hnone | ⟨prog, hprog, stage, hat, hprunes⟩
    · exact hnext hat₀ (.inr hnone)
    · rcases Multiset.mem_cons.1 hprog with rfl | hprog
      · exact hnext hat (.inl hprunes)
      · exact .inr ⟨prog, Multiset.mem_cons_of_mem hprog, stage, hrest hat, hprunes⟩

/-- When all calls have returned, the tip is saved and the doomed heights are pruned. -/
theorem SavesSafe.ends {progs : Multiset SaveProg} (h : s.SavesSafe heights lists b progs)
    (hok : AllOk progs) : s.SavingRows heights b ∧ s.TipSaved heights lists b ∧
      ∀ height ∈ s.doomed heights, b.checkpoint height = none := by
  have hreturned : ∀ prog ∈ progs, ∀ {stage}, s.AtStage heights lists b prog stage →
      stage ≠ .waiting ∧ ∀ height ∈ s.doomed heights, ¬ stage.Prunes height := by
    intro prog hprog stage hat
    obtain ⟨u, rfl⟩ := hok prog hprog
    exact hat.returned
  refine ⟨h.rows, h.saved.resolve_left ?_, fun height hheight => (h.pruned height hheight).resolve_right ?_⟩
  · rintro ⟨prog, hprog, hat⟩
    exact (hreturned prog hprog hat).1 rfl
  · rintro ⟨prog, hprog, stage, hat, hprunes⟩
    exact (hreturned prog hprog hat).2 height hheight hprunes

/-- The calls at the start of a run. -/
theorem SavesSafe.starts (hs : s.CheckpointsOk) {calls : Multiset SharedCall}
    {entries : List (CoinId × CoinRecord)} (hsave : .saveSnapshot entries ∈ calls) :
    s.SavesSafe heights {entries | .saveSnapshot entries ∈ calls} s.backend
      (calls.map s.sharedProg) := by
  have hfirst : s.AtStage heights {entries | .saveSnapshot entries ∈ calls} s.backend
      (s.sharedProg (.saveSnapshot entries)) .waiting := .save hsave
  have hmem := Multiset.mem_map_of_mem s.sharedProg hsave
  refine ⟨⟨hs.healthy, rfl, hs.keys, fun _ _ => .inl rfl⟩, fun prog hprog => ?_,
    .inl ⟨_, hmem, hfirst⟩, fun height _ => .inr ⟨_, hmem, _, hfirst, trivial⟩⟩
  obtain ⟨call, hcall, rfl⟩ := Multiset.mem_map.1 hprog
  cases call with
  | hint call => exact ⟨.idle, .idle (call.prog_only.map _)⟩
  | saveSnapshot entries => exact ⟨.waiting, .save hcall⟩

/-- **What is loaded after a run of calls**: the snapshot of the store under its height, what was
stored before under the others, and nothing under a doomed height. -/
structure SavesEnd (s : CoinStore) (heights : List UInt64) (b : Backend) : Prop where
  healthy : b.Healthy
  keys : CheckpointKeys b.tables
  stored : ∀ height, (b.checkpoint height).isSome = true ↔
    height ∉ s.doomed heights ∧ height ∈ heights
  loads : ∃ snap, s.snapshot = .ok snap ∧ ∀ height,
    ({ s with backend := b } : CoinStore).loadSnapshot height =
      if height ∈ s.doomed heights then .ok none
      else if height = s.height then .ok (some snap) else s.loadSnapshot height

omit [Chia] in
theorem loadSnapshot_congr (hb : s.backend.Healthy) (hb' : b.Healthy) {height : UInt64}
    (hrow : b.checkpoint height = s.backend.checkpoint height) :
    ({ s with backend := b } : CoinStore).loadSnapshot height = s.loadSnapshot height := by
  rw [Backend.checkpoint, Backend.checkpoint] at hrow
  simp only [loadSnapshot, Backend.get_of_healthy hb, Backend.get_of_healthy hb', hrow]

/-- **Every run ends so.** -/
theorem CheckpointsOk.savesEnd (hs : s.CheckpointsOk) (ht : s.TipAndCheckpoints heights)
    {calls : Multiset SharedCall} (hiter : ∀ entries, .saveSnapshot entries ∈ calls →
      ∀ snap, s.snapshot = .ok snap → snap.Iterates entries)
    {progs : Multiset SaveProg} (hrun : SharedRun s calls b progs) (hok : AllOk progs)
    {entries : List (CoinId × CoinRecord)} (hsave : .saveSnapshot entries ∈ calls) :
    s.SavesEnd heights b := by
  have hsafe := Reaches.inv
    (I := s.SavesSafe heights {entries | .saveSnapshot entries ∈ calls})
    (fun hsafe hexec => hsafe.perform ht hs.healthy hexec) (.starts hs hsave) hrun hok
  obtain ⟨hrows, ⟨snap, hsnap, htip⟩, hpruned⟩ := hsafe.ends hok
  refine ⟨hrows.healthy, hrows.keys, fun height => ?_, snap, hsnap, fun height => ?_⟩
  · rw [ht.mem]
    by_cases hdoomed : height ∈ s.doomed heights
    · rw [hpruned height hdoomed]
      exact iff_of_false (by simp) fun hnot => hnot.1 hdoomed
    · rw [and_iff_right hdoomed]
      by_cases heq : height = s.height
      · subst heq
        obtain ⟨entries', -, hrow⟩ := htip.resolve_left hdoomed
        rw [hrow]
        exact iff_of_true rfl (.inl rfl)
      · rw [or_iff_right heq, ((hrows.other height heq).resolve_right fun h => hdoomed h.1)]
  · split
    · next hdoomed =>
      have hnone := hpruned height hdoomed
      rw [Backend.checkpoint] at hnone
      rw [loadSnapshot, Backend.get_of_healthy hrows.healthy, hnone]
      rfl
    · next hdoomed =>
      split
      · next heq =>
        subst heq
        obtain ⟨entries', hlist, hrow⟩ := htip.resolve_left hdoomed
        have hget : (b.tables .stateSnapshots)[snapshotKey s.height]? =
            if True then some (encodeCoinStoreSnapshot snap entries') else none := by
          rw [if_pos trivial]
          exact hrow
        have hload := loadSnapshot_eq (s := { s with backend := b }) hrows.healthy
          (hiter entries' hlist snap hsnap) hget
        rwa [if_pos trivial] at hload
      · next heq =>
        exact loadSnapshot_congr hs.healthy hrows.healthy
          ((hrows.other height heq).resolve_right fun h => hdoomed h.1)

/-- Two such ends answer alike. -/
theorem SavesEnd.agree (h : s.SavesEnd heights b) (h' : s.SavesEnd heights b') :
    (∀ height, ({ s with backend := b } : CoinStore).loadSnapshot height =
      ({ s with backend := b' } : CoinStore).loadSnapshot height) ∧
    ({ s with backend := b } : CoinStore).availableSnapshotHeights =
      ({ s with backend := b' } : CoinStore).availableSnapshotHeights := by
  obtain ⟨snap, hsnap, hload⟩ := h.loads
  obtain ⟨snap', hsnap', hload'⟩ := h'.loads
  obtain rfl := Except.ok.inj (hsnap.symm.trans hsnap')
  obtain ⟨found, hfound⟩ := h.keys.heights
  obtain ⟨found', hfound'⟩ := h'.keys.heights
  refine ⟨fun height => (hload height).trans (hload' height).symm, ?_⟩
  rw [availableSnapshotHeights_eq h.healthy hfound, availableSnapshotHeights_eq h'.healthy hfound']
  refine congrArg Except.ok (Retention.sorted_congr toNat_injective
    ((List.perm_ext_iff_of_nodup hfound.nodup hfound'.nodup).2 fun height => ?_))
  rw [hfound.mem, hfound'.mem]
  exact (h.stored height).trans (h'.stored height).symm

/-- A save alone succeeds when there is a snapshot. -/
theorem CheckpointsOk.save_ok (hs : s.CheckpointsOk) {snap : CoinStoreSnapshot}
    (hsnap : s.snapshot = .ok snap) (entries : List (CoinId × CoinRecord)) :
    (s.saveSnapshot entries).2 = .ok () := by
  have hinit : s.initialized = true := by simpa using (Res.check_eq_ok.1 hsnap).1
  rcases Nat.eq_zero_or_pos s.config.maxSnapshots with hzero | hmax
  · rw [saveSnapshot_eq hs.healthy hinit hsnap, hzero, pruneSnapshotsToLimit, if_pos rfl]
  · obtain ⟨s', hrun⟩ := hs.saveSnapshot_ok hmax hinit hsnap entries
    rw [hrun]

end CoinStore

/-- **Concurrent saves are one save**: in whatever order the operations of several saves and hint
calls are performed, once all have returned without an error the checkpoints are those that one of
the saves alone leaves. -/
theorem Checkpointed.saves_interleaved {s : CoinStore} (h : Checkpointed s)
    {calls : Multiset SharedCall} (hiter : ∀ entries, .saveSnapshot entries ∈ calls →
      ∀ snap, s.snapshot = .ok snap → snap.Iterates entries)
    {b : Backend} {progs : Multiset SaveProg} (hrun : SharedRun s calls b progs) (hok : AllOk progs)
    {entries : List (CoinId × CoinRecord)} (hsave : .saveSnapshot entries ∈ calls) :
    (s.saveSnapshot entries).2 = .ok () ∧
      (∀ height, ({ s with backend := b } : CoinStore).loadSnapshot height =
        (s.saveSnapshot entries).1.loadSnapshot height) ∧
      ({ s with backend := b } : CoinStore).availableSnapshotHeights =
        (s.saveSnapshot entries).1.availableSnapshotHeights := by
  have hs := h.checkpointsOk
  obtain ⟨heights, hheights⟩ := (hs.keys.put s.height []).heights
  have ht : s.TipAndCheckpoints heights := by
    refine ⟨hheights.nodup, fun height => ?_⟩
    rw [hheights.mem]
    have hrow := s.backend.checkpoint_put height s.height []
    rw [Backend.checkpoint, Backend.putCheckpoint] at hrow
    rw [hrow]
    by_cases heq : s.height = height
    · simp [heq]
    · rw [if_neg heq, or_iff_right (Ne.symm heq)]
  have hend := hs.savesEnd ht hiter hrun hok hsave
  obtain ⟨snap, hsnap, -⟩ := hend.loads
  have hsaved := hs.save_ok hsnap entries
  -- one save alone is such a run too
  have halone := run_saveSnapshotProg hs.healthy entries
  rw [hsaved] at halone
  have hreach : SharedRun s {.saveSnapshot entries} (s.saveSnapshot entries).1.backend
      {.ret (.ok ())} := Leads.of_run halone 0
  have hend' := hs.savesEnd ht (fun entries' hmem => by
    rw [Multiset.mem_singleton] at hmem
    cases hmem
    exact hiter entries hsave) hreach (fun prog hprog => ⟨(), Multiset.mem_singleton.1 hprog⟩)
    (Multiset.mem_singleton_self _)
  have hsame : ({ s with backend := (s.saveSnapshot entries).1.backend } : CoinStore) =
      (s.saveSnapshot entries).1 := by
    have hinit : s.initialized = true := by simpa using (Res.check_eq_ok.1 hsnap).1
    rw [CoinStore.saveSnapshot_eq hs.healthy hinit hsnap]
  obtain ⟨hload, havailable⟩ := hend.agree hend'
  rw [hsame] at havailable
  refine ⟨hsaved, fun height => ?_, havailable⟩
  rw [hload height, hsame]

end DigCoinstore

namespace DigCoinstore

open Interleave Sample

/-- A run of two saves: the second one is run from start to end between the scan of the first one
and its write. -/
theorem CoinStore.CheckpointsOk.overtaken_save {s : CoinStore} (hs : s.CheckpointsOk)
    {snap : CoinStoreSnapshot} (hsnap : s.snapshot = .ok snap) (hmax : 0 < s.config.maxSnapshots)
    (entries : List (CoinId × CoinRecord)) : ∃ b, SharedRun s
      (Multiset.replicate 2 (.saveSnapshot entries)) b {.ret (.ok ()), .ret (.ok ())} := by
  have hinit : s.initialized = true := by simpa using (Res.check_eq_ok.1 hsnap).1
  have hs₁ := hs.saveSnapshot entries
  have hscan : Leads Backend.exec s.backend (s.saveSnapshotProg entries) s.backend
      (s.writeSnapshotProg snap entries) := by
    rw [saveSnapshotProg, if_neg (by simp [hinit])]
    refine .op (Backend.exec_scanAll hs.healthy .coinRecords) ?_
    rw [← s.snapshot_eq_snapshotOf hs.healthy hinit, hsnap]
    exact .refl
  have halone := run_saveSnapshotProg hs.healthy entries
  rw [hs.save_ok hsnap entries] at halone
  -- the first call writes its row again, over that of the second
  have hb : ((s.saveSnapshot entries).1.backend.putCheckpoint s.height
    (encodeCoinStoreSnapshot snap entries)).Healthy := hs₁.healthy
  obtain ⟨heights, hh⟩ := (hs₁.keys.put s.height (encodeCoinStoreSnapshot snap entries)).heights
  obtain ⟨b, hprune, -⟩ := pruneSnapshotsToLimit_run hb hh hmax
  have hwrite : (s.writeSnapshotProg snap entries).run Backend.exec
      (s.saveSnapshot entries).1.backend = (b, .ok ()) := by
    rw [writeSnapshotProg, run_op _ (Backend.exec_put hs₁.healthy _ _ _)]
    exact (run_pruneSnapshotsProg hb _).trans hprune
  refine ⟨b, ?_⟩
  rw [SharedRun, Multiset.map_replicate]
  exact ((hscan _).trans ((Leads.of_run halone).second _ 0)).trans (Leads.of_run hwrite _)

/-- Two saves at height 0, where the only checkpoint is that of height 1. -/
theorem saves_interleaved_rewound : ∃ b progs,
    SharedRun rewound (Multiset.replicate 2 (.saveSnapshot (snapshotEntries rewound))) b progs ∧
      AllOk progs ∧ (rewound.saveSnapshot (snapshotEntries rewound)).2 = .ok () ∧
      (∀ height, ({ rewound with backend := b } : CoinStore).loadSnapshot height =
        (rewound.saveSnapshot (snapshotEntries rewound)).1.loadSnapshot height) ∧
      ({ rewound with backend := b } : CoinStore).availableSnapshotHeights =
        (rewound.saveSnapshot (snapshotEntries rewound)).1.availableSnapshotHeights := by
  obtain ⟨-, hlen, -, hok, -, hmax, -⟩ := rewound_facts
  obtain ⟨snap, hsnap⟩ : ∃ snap, rewound.snapshot = .ok snap := by
    cases hsnap : rewound.snapshot with
    | error e => rw [hsnap] at hok; cases hok
    | ok snap => exact ⟨snap, rfl⟩
  obtain ⟨b, hrun⟩ := checkpointed_rewound.checkpointsOk.overtaken_save hsnap
    (by rw [hmax]; decide) (snapshotEntries rewound)
  have hdone : AllOk ({.ret (.ok ()), .ret (.ok ())} : Multiset SaveProg) := fun prog hprog => by
    refine ⟨(), ?_⟩
    simpa using hprog
  refine ⟨b, _, hrun, hdone, checkpointed_rewound.saves_interleaved (fun entries hmem => ?_) hrun
    hdone (Multiset.mem_replicate.2 ⟨by decide, rfl⟩)⟩
  rw [SharedCall.saveSnapshot.inj (Multiset.eq_of_mem_replicate hmem)]
  exact iterates_snapshotEntries hlen

end DigCoinstore
