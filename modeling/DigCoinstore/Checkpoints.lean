import DigCoinstore.CoinStore.Checkpoint
import DigCoinstore.Invariant
import DigCoinstore.CallFacts
import DigCoinstore.Lib.Retention
import DigCoinstore.Sample

/-!
# Stored checkpoints

Only `save_snapshot` writes checkpoints and only a restore drops all of them, so every row lies
under the key of a height (`Checkpointed.checkpointsOk`). Pruning keeps the greatest heights, and a
rollback lowers the height of the next checkpoint: the one just written is pruned at once when
enough greater heights are stored (`saveSnapshot_spec`).
-/

namespace DigCoinstore

/-! ## Rows -/

/-- Every checkpoint is stored under the key of a height. -/
def CheckpointKeys (t : Tables) : Prop :=
  ∀ k v : Bytes, (t .stateSnapshots)[k]? = some v → ∃ height, snapshotKey height = k

namespace CheckpointKeys

variable {t t' : Tables}

theorem congr (h : CheckpointKeys t) (heq : t' .stateSnapshots = t .stateSnapshots) :
    CheckpointKeys t' := by
  intro k v hget
  rw [heq] at hget
  exact h k v hget

theorem put (h : CheckpointKeys t) (height : UInt64) (payload : Bytes) :
    CheckpointKeys (t.put .stateSnapshots (snapshotKey height) payload) := by
  intro k v hget
  rw [Tables.put_get] at hget
  split at hget
  · next heq => exact ⟨height, heq.2⟩
  · exact h k v hget

theorem deleteAll (h : CheckpointKeys t) (keys : List Bytes) :
    CheckpointKeys (keys.foldl (fun t k => t.delete .stateSnapshots k) t) := by
  intro k v hget
  rw [foldl_delete_get] at hget
  split at hget
  · cases hget
  · exact h k v hget

end CheckpointKeys

/-- `heights` lists the heights of the checkpoints. -/
structure CheckpointHeights (t : Tables) (heights : List UInt64) : Prop where
  nodup : heights.Nodup
  length : heights.length = (t .stateSnapshots).toList.length
  sorted : sortedHeights (t .stateSnapshots).toList = .ok (Retention.sorted UInt64.toNat heights)
  mem : ∀ height, height ∈ heights ↔ ((t .stateSnapshots)[snapshotKey height]?).isSome = true

theorem toNat_injective : Function.Injective UInt64.toNat := fun _ _ h => UInt64.toNat_inj.1 h

theorem sorted_heights (heights : List UInt64) :
    heights.mergeSort = Retention.sorted UInt64.toNat heights := by
  refine congrArg (heights.mergeSort ·) (funext fun a => funext fun b => ?_)
  exact decide_eq_decide.2 UInt64.le_iff_toNat_le

/-- Each checkpoint has a height of its own. -/
theorem CheckpointKeys.heights {t : Tables} (h : CheckpointKeys t) :
    ∃ heights, CheckpointHeights t heights := by
  obtain ⟨heights, hmap, -⟩ := List.exists_map_eq (f := snapshotKey) (P := fun _ => True)
    ((t .stateSnapshots).toList.map (·.1)) fun k hk => by
      obtain ⟨kv, hkv, rfl⟩ := List.mem_map.1 hk
      obtain ⟨height, hheight⟩ := h _ _ (OrdMap.mem_toList.1 hkv)
      exact ⟨height, trivial, hheight⟩
  refine ⟨heights, ?_, ?_, ?_, fun height => ?_⟩
  · have hkeys := OrdMap.nodup_keys (t .stateSnapshots)
    rw [← hmap] at hkeys
    exact hkeys.of_map _
  · simpa using congrArg List.length hmap
  · have hread : ((t .stateSnapshots).toList.map (·.1)).mapM heightFromSnapshotKey = .ok heights := by
      rw [← hmap, List.mapM_map]
      exact (mapM_eq_ok (g := id) heights fun height _ =>
        heightFromSnapshotKey_snapshotKey height).trans (by rw [List.map_id])
    rw [List.mapM_map] at hread
    have hread' : (t .stateSnapshots).toList.mapM (fun kv => heightFromSnapshotKey kv.1) =
        .ok heights := hread
    rw [sortedHeights, hread', ← sorted_heights]
    rfl
  · rw [← List.mem_map_of_injective snapshotKey_injective, hmap, List.mem_map,
      Option.isSome_iff_exists]
    constructor
    · rintro ⟨kv, hkv, heq⟩
      exact ⟨kv.2, heq ▸ OrdMap.mem_toList.1 hkv⟩
    · rintro ⟨v, hv⟩
      exact ⟨(_, v), OrdMap.mem_toList.2 hv, rfl⟩

/-! ## Pruning -/

/-- The checkpoints above a height. -/
def heightsAbove (heights : List UInt64) (height : UInt64) : List UInt64 :=
  heights.filter (height < ·)

theorem heightsAbove_eq (heights : List UInt64) (height : UInt64) :
    heightsAbove heights height = heights.filter (height.toNat < UInt64.toNat ·) :=
  List.filter_congr fun _ _ => decide_eq_decide.2 UInt64.lt_iff_toNat_lt

section prune
variable {b : Backend} {heights : List UInt64} {maxSnapshots : Nat}

/-- Pruning deletes the heights that are too many. -/
theorem pruneSnapshotsToLimit_run (hb : b.Healthy) (hh : CheckpointHeights b.tables heights)
    (hmax : 0 < maxSnapshots) : ∃ b', pruneSnapshotsToLimit b maxSnapshots = (b', .ok ()) ∧
      b'.Holds () (((Retention.dropped UInt64.toNat heights maxSnapshots).map snapshotKey).foldl
        (fun t k => t.delete .stateSnapshots k) b.tables) := by
  unfold pruneSnapshotsToLimit
  rw [if_neg (Nat.pos_iff_ne_zero.1 hmax), Backend.prefixScan_all hb, orStorage_ok]
  dsimp only
  split
  · next hle =>
    have hnone : heights.length - maxSnapshots = 0 := by
      have := hh.length
      omega
    refine ⟨b, rfl, hb, ?_⟩
    rw [Retention.dropped, hnone]
    rfl
  · rw [hh.sorted, ← hh.length]
    exact deleteKeys_run hb .stateSnapshots _

/-- **What pruning keeps.** -/
theorem pruneSnapshotsToLimit_spec (hb : b.Healthy) (hk : CheckpointKeys b.tables)
    (hh : CheckpointHeights b.tables heights) (hmax : 0 < maxSnapshots) :
    ∃ b', pruneSnapshotsToLimit b maxSnapshots = (b', .ok ()) ∧ b'.Healthy ∧
      (∀ cf, cf ≠ .stateSnapshots → b'.tables cf = b.tables cf) ∧
      (∃ kept, CheckpointHeights b'.tables kept ∧ kept.length ≤ maxSnapshots) ∧
      ∀ height ∈ heights, (b'.tables .stateSnapshots)[snapshotKey height]? =
        if (heightsAbove heights height).length < maxSnapshots
          then (b.tables .stateSnapshots)[snapshotKey height]? else none := by
  obtain ⟨b', hrun, hb', ht⟩ := pruneSnapshotsToLimit_run hb hh hmax
  have hget : ∀ height, (b'.tables .stateSnapshots)[snapshotKey height]? =
      if height ∈ Retention.dropped UInt64.toNat heights maxSnapshots then none
        else (b.tables .stateSnapshots)[snapshotKey height]? := fun height => by
    rw [ht, foldl_delete_get]
    simp only [List.mem_map_of_injective snapshotKey_injective, true_and]
  refine ⟨b', hrun, hb', fun cf hcf => ?_, ?_, fun height hheight => ?_⟩
  · refine Std.ExtTreeMap.ext_getElem? fun k => ?_
    rw [ht, foldl_delete_get, if_neg fun h => hcf h.1.symm]
  · obtain ⟨kept, hkept⟩ := CheckpointKeys.heights (t := b'.tables) (by rw [ht]; exact hk.deleteAll _)
    have hmem : ∀ height ∈ kept, height ∈ heights ∧
        height ∉ Retention.dropped UInt64.toNat heights maxSnapshots := fun height hheight => by
      have hsome := (hkept.mem height).1 hheight
      rw [hget] at hsome
      split at hsome
      · cases hsome
      · next hdrop => exact ⟨(hh.mem height).2 hsome, hdrop⟩
    exact ⟨kept, hkept, Retention.length_kept_le _ hkept.nodup hmem⟩
  · rw [hget, heightsAbove_eq]
    have hiff := Retention.mem_dropped_iff toNat_injective hh.nodup hheight maxSnapshots
    split
    · next hdrop => rw [if_neg (Nat.not_lt.2 (hiff.1 hdrop))]
    · next hdrop => rw [if_pos (Nat.not_le.1 fun hle => hdrop (hiff.2 hle))]

end prune

/-! ## Saving -/

variable [Chia]

namespace CoinStore

variable {s s' : CoinStore} {entries : List (CoinId × CoinRecord)}

/-- The backend with one more checkpoint. -/
def withCheckpoint (s : CoinStore) (snap : CoinStoreSnapshot)
    (entries : List (CoinId × CoinRecord)) : Backend :=
  { s.backend with tables :=
      s.backend.tables.put .stateSnapshots (snapshotKey s.height) (encodeCoinStoreSnapshot snap entries) }

/-- On a backend without failures the row is written, then the limit is applied. -/
theorem saveSnapshot_eq (hb : s.backend.Healthy) {snap : CoinStoreSnapshot}
    (hinit : s.initialized = true) (hsnap : s.snapshot = .ok snap) : s.saveSnapshot entries =
      ({ s with backend := (pruneSnapshotsToLimit (s.withCheckpoint snap entries) s.config.maxSnapshots).1 },
        (pruneSnapshotsToLimit (s.withCheckpoint snap entries) s.config.maxSnapshots).2) := by
  rw [saveSnapshot, hinit, Bool.not_true, if_neg Bool.false_ne_true, hsnap]
  simp only [Backend.put_of_healthy hb]
  rfl

/-- Without a snapshot nothing is written. -/
theorem saveSnapshot_cases (s : CoinStore) (entries : List (CoinId × CoinRecord)) :
    ((s.saveSnapshot entries).1 = s ∧ ∃ e, (s.saveSnapshot entries).2 = .error e) ∨
      s.initialized = true ∧ ∃ snap, s.snapshot = .ok snap := by
  cases hinit : s.initialized with
  | false =>
    refine .inl ?_
    rw [saveSnapshot, hinit]
    exact ⟨rfl, _, rfl⟩
  | true =>
    cases hsnap : s.snapshot with
    | ok snap => exact .inr ⟨rfl, snap, rfl⟩
    | error e =>
      refine .inl ?_
      rw [saveSnapshot, hinit, hsnap]
      exact ⟨rfl, _, rfl⟩

/-! ## Runs with checkpoints -/

/-- No call fails, and every checkpoint is stored under its height. -/
structure CheckpointsOk (s : CoinStore) : Prop where
  healthy : s.backend.Healthy
  keys : CheckpointKeys s.backend.tables

namespace CheckpointsOk

omit [Chia] in
theorem same (h : s.CheckpointsOk) (hbackend : s'.backend = s.backend) : s'.CheckpointsOk :=
  ⟨hbackend ▸ h.healthy, hbackend ▸ h.keys⟩

omit [Chia] in
/-- A batch of coins, hints and metadata. -/
theorem wrote (h : s.CheckpointsOk) {batch : WriteBatch}
    (hops : ∀ op ∈ batch.ops, (Tables.opCf op).OfState)
    (hbackend : s'.backend = s.backend.wrote batch) : s'.CheckpointsOk where
  healthy := by
    rw [hbackend]
    exact h.healthy
  keys := by
    rw [hbackend]
    refine h.keys.congr (Tables.applyOps_other _ _ fun hmem => ?_)
    obtain ⟨op, hop, hcf⟩ := List.mem_map.1 hmem
    have hstate := hops op hop
    simp [hcf, ColumnFamily.OfState, coinFamilies, hintFamilies] at hstate

omit [Chia] in
theorem hintsOnly (h : s.CheckpointsOk) (hbackend : s'.backend.HintsOnly s.backend.tables) :
    s'.CheckpointsOk :=
  ⟨hbackend.1, h.keys.congr (hbackend.2 .stateSnapshots (by decide))⟩

theorem saveSnapshot (h : s.CheckpointsOk) (entries : List (CoinId × CoinRecord)) :
    (s.saveSnapshot entries).1.CheckpointsOk := by
  rcases s.saveSnapshot_cases entries with ⟨heq, -⟩ | ⟨hinit, snap, hsnap⟩
  · rwa [heq]
  · rw [saveSnapshot_eq h.healthy hinit hsnap]
    have hb : (s.withCheckpoint snap entries).Healthy := h.healthy
    have hk : CheckpointKeys (s.withCheckpoint snap entries).tables := h.keys.put _ _
    obtain ⟨heights, hh⟩ := hk.heights
    rcases Nat.eq_zero_or_pos s.config.maxSnapshots with hzero | hmax
    · rw [hzero, pruneSnapshotsToLimit, if_pos rfl]
      exact ⟨hb, hk⟩
    · obtain ⟨b', hrun, hb', ht⟩ := pruneSnapshotsToLimit_run hb hh hmax
      rw [hrun]
      refine ⟨hb', ?_⟩
      rw [ht]
      exact hk.deleteAll _

theorem initGenesis (h : s.CheckpointsOk) (coins : List (Coin × Bool)) (timestamp : UInt64) :
    (s.initGenesis coins timestamp).1.CheckpointsOk := by
  rcases initGenesis_writes h.healthy coins timestamp with ⟨heq, -⟩ | heq
  · exact h.same heq
  · exact h.wrote (genesisBatch_ofState _ _) heq

theorem applyBlock (h : s.CheckpointsOk) (block : BlockData) :
    (s.applyBlock block).1.CheckpointsOk := by
  obtain ⟨-, ⟨heq, -⟩ | ⟨removed, -, heq, -⟩⟩ := applyBlock_writes h.healthy block
  · exact h.same heq
  · exact h.wrote (stageTip_ofState (stageBlock_ofState _ _ _) _ _ _) heq

theorem rollbackToBlock (h : s.CheckpointsOk) (target : Int64) :
    (s.rollbackToBlock target).1.CheckpointsOk := by
  obtain ⟨-, heq | ⟨acc, hstage, heq⟩⟩ := rollbackToBlock_writes h.healthy target
  · exact h.same heq
  · exact h.wrote (stageTip_ofState (stageRollback_ofState h.healthy hstage) _ _ _) heq

theorem rollbackNBlocks (h : s.CheckpointsOk) (n : UInt64) :
    (s.rollbackNBlocks n).1.CheckpointsOk := by
  rcases rollbackNBlocks_cases s n with heq | ⟨target, heq⟩
  · rwa [heq]
  · rw [heq]
    exact h.rollbackToBlock target

/-- A restore leaves no checkpoint. -/
theorem restore (h : s.CheckpointsOk) (snap : CoinStoreSnapshot) :
    (s.restore snap).1.CheckpointsOk := by
  rcases restore_writes h.healthy snap with heq | ⟨tree, backend, heq, hb, ht⟩
  · rwa [heq]
  · rw [heq]
    refine ⟨hb, fun k v hget => ?_⟩
    have hnone : snapshotTables snap .stateSnapshots = ∅ := by
      rw [snapshotTables, stageTip_other _ (by decide), Tables.put, Function.update_of_ne (by decide),
        applyOps_stageAll_other ops_stageSnapshotHint fun hint => ?_,
        applyOps_stageAll_other ops_stageCreation fun rec => ?_]
      · rfl
      · cases hs : rec.spentHeight <;> simp [stageCreation, appendCoinRecordToBatch, hs, Tables.opCf]
      · simp [stageSnapshotHint, Tables.opCf]
    rw [restored, ht, hnone, Std.ExtTreeMap.getElem?_empty] at hget
    cases hget

theorem reopen {b : Backend} {config : CoinStoreConfig} (hb : b.Healthy) (hk : CheckpointKeys b.tables)
    (hopen : withConfig config b = .ok s) : s.CheckpointsOk := by
  obtain ⟨rfl, -⟩ := withConfig_reads hb hopen
  exact ⟨hb, hk⟩

theorem call (hcall : OtherCall s s') (h : s.CheckpointsOk) : s'.CheckpointsOk := by
  cases hcall with
  | initGenesis => exact h.initGenesis _ _
  | applyBlock => exact h.applyBlock _
  | reopen hopen => exact .reopen h.healthy h.keys hopen
  | stateRoot => exact h.same rfl
  | addHint =>
    unfold CoinStore.addHint
    split
    · exact h
    · exact h
    · exact h.hintsOnly (addHintRows_inv ⟨h.healthy, fun _ _ => rfl⟩ _ _)
  | removeHintsForCoins =>
    refine h.hintsOnly (forBackend_inv _ s.backend 0 (fun b n id _ hb => ?_)
      ⟨h.healthy, fun _ _ => rfl⟩)
    exact removeHintsForCoin_inv s.backend.tables b n id hb

end CheckpointsOk

end CoinStore

/-- **The states of a run** of blocks, rollbacks, restores, hint calls and saved checkpoints. -/
inductive Checkpointed : CoinStore → Prop
  | new {config : CoinStoreConfig} {s : CoinStore} :
    CoinStore.withConfig config .fresh = .ok s → Checkpointed s
  | call {s s' : CoinStore} : Checkpointed s → CoinStore.OtherCall s s' → Checkpointed s'
  | rollbackToBlock {s : CoinStore} {target : Int64} :
    Checkpointed s → Checkpointed (s.rollbackToBlock target).1
  | rollbackNBlocks {s : CoinStore} {n : UInt64} :
    Checkpointed s → Checkpointed (s.rollbackNBlocks n).1
  | restore {s : CoinStore} {snapshot : CoinStoreSnapshot} :
    Checkpointed s → Checkpointed (s.restore snapshot).1
  | saveSnapshot {s : CoinStore} {entries : List (CoinId × CoinRecord)} :
    Checkpointed s → (∀ snap, s.snapshot = .ok snap → snap.Iterates entries) →
      Checkpointed (s.saveSnapshot entries).1

theorem Checkpointed.checkpointsOk {s : CoinStore} (h : Checkpointed s) : s.CheckpointsOk := by
  induction h with
  | new hopen =>
    refine .reopen Backend.healthy_fresh (fun k v hget => ?_) hopen
    simp [Backend.fresh, Tables.empty] at hget
  | call _ hcall ih => exact .call hcall ih
  | rollbackToBlock _ ih => exact ih.rollbackToBlock _
  | rollbackNBlocks _ ih => exact ih.rollbackNBlocks _
  | restore _ ih => exact ih.restore _
  | saveSnapshot _ _ ih => exact ih.saveSnapshot _

/-! ## Loading -/

namespace CoinStore

variable {s s' : CoinStore}

omit [Chia] in
theorem availableSnapshotHeights_eq (hb : s.backend.Healthy) {heights : List UInt64}
    (h : CheckpointHeights s.backend.tables heights) :
    s.availableSnapshotHeights = .ok (Retention.sorted UInt64.toNat heights) := by
  rw [availableSnapshotHeights, Backend.prefixScan_all hb]
  exact h.sorted

/-- A snapshot does not read the checkpoints. -/
theorem snapshot_congr (hb : s.backend.Healthy) {b : Backend} (hb' : b.Healthy)
    (hrows : b.tables .coinRecords = s.backend.tables .coinRecords) :
    ({ s with backend := b } : CoinStore).snapshot = s.snapshot := by
  simp only [snapshot, Backend.prefixScan_all hb, Backend.prefixScan_all hb', hrows]

omit [Chia] in
/-- The stored form of a checkpoint is read back. -/
theorem loadSnapshot_eq (hb : s.backend.Healthy) {snap : CoinStoreSnapshot}
    {entries : List (CoinId × CoinRecord)} (hiter : snap.Iterates entries) {height : UInt64}
    {kept : Prop} [Decidable kept]
    (hget : (s.backend.tables .stateSnapshots)[snapshotKey height]? =
      if kept then some (encodeCoinStoreSnapshot snap entries) else none) :
    s.loadSnapshot height = .ok (if kept then some snap else none) := by
  rw [loadSnapshot, Backend.get_of_healthy hb, hget]
  split <;> simp [decodeStorage_encode hiter]

/-- **What is loaded** after a save, and how many checkpoints are left. -/
theorem CheckpointsOk.saveSnapshot_spec (h : s.CheckpointsOk)
    {entries : List (CoinId × CoinRecord)} (hmax : 0 < s.config.maxSnapshots)
    (hiter : ∀ snap, s.snapshot = .ok snap → snap.Iterates entries)
    (hsave : s.saveSnapshot entries = (s', .ok ())) : ∃ snap heights kept,
      s'.snapshot = .ok snap ∧ s.availableSnapshotHeights = .ok heights ∧
      s'.availableSnapshotHeights = .ok kept ∧ kept.length ≤ s.config.maxSnapshots ∧
      s'.loadSnapshot s'.height = .ok
        (if (heightsAbove heights s.height).length < s.config.maxSnapshots then some snap else none) := by
  rcases s.saveSnapshot_cases entries with ⟨-, e, he⟩ | ⟨hinit, snap, hsnap⟩
  · rw [hsave] at he
    cases he
  · have hb : (s.withCheckpoint snap entries).Healthy := h.healthy
    have hk : CheckpointKeys (s.withCheckpoint snap entries).tables := h.keys.put _ _
    obtain ⟨before, hbefore⟩ := h.keys.heights
    obtain ⟨heights, hh⟩ := hk.heights
    obtain ⟨b', hrun, hb', hother, ⟨kept, hkept, hle⟩, hget⟩ :=
      pruneSnapshotsToLimit_spec hb hk hh hmax
    rw [saveSnapshot_eq h.healthy hinit hsnap, hrun] at hsave
    obtain rfl := (Prod.mk.inj hsave).1
    have hmem : ∀ height, height ∈ heights ↔ s.height = height ∨ height ∈ before := fun height => by
      rw [hh.mem, hbefore.mem, withCheckpoint, Tables.put_get]
      by_cases heq : s.height = height
      · simp [heq]
      · simp [heq, snapshotKey_injective.eq_iff]
    -- the new row is not above itself
    have habove : (heightsAbove heights s.height).length =
        (heightsAbove (Retention.sorted UInt64.toNat before) s.height).length := by
      have hperm := Retention.sorted_perm UInt64.toNat before
      refine ((List.perm_ext_iff_of_nodup (hh.nodup.filter _)
        ((hperm.nodup_iff.2 hbefore.nodup).filter _)).2 fun height => ?_).length_eq
      rw [List.mem_filter, List.mem_filter, hmem, hperm.mem_iff, decide_eq_true_eq]
      constructor
      · rintro ⟨rfl | hheight, hlt⟩
        · exact absurd hlt (UInt64.lt_irrefl _)
        · exact ⟨hheight, hlt⟩
      · exact fun ⟨hheight, hlt⟩ => ⟨.inr hheight, hlt⟩
    refine ⟨snap, _, _, ?_, availableSnapshotHeights_eq h.healthy hbefore,
      availableSnapshotHeights_eq hb' hkept, ?_, ?_⟩
    · rw [snapshot_congr h.healthy hb' (hother _ (by decide)), hsnap]
    · rwa [(Retention.sorted_perm UInt64.toNat kept).length_eq]
    · refine loadSnapshot_eq hb' (hiter snap hsnap) ?_
      rw [hget _ ((hmem _).2 (.inl rfl)), habove]
      simp [withCheckpoint, Tables.put_get]

/-- A save fails only where the snapshot does. -/
theorem CheckpointsOk.saveSnapshot_ok (h : s.CheckpointsOk) (hmax : 0 < s.config.maxSnapshots)
    (hinit : s.initialized = true) {snap : CoinStoreSnapshot} (hsnap : s.snapshot = .ok snap)
    (entries : List (CoinId × CoinRecord)) : ∃ s', s.saveSnapshot entries = (s', .ok ()) := by
  have hk : CheckpointKeys (s.withCheckpoint snap entries).tables := h.keys.put _ _
  obtain ⟨heights, hh⟩ := hk.heights
  have hb : (s.withCheckpoint snap entries).Healthy := h.healthy
  obtain ⟨b', hrun, -⟩ := pruneSnapshotsToLimit_run hb hh hmax
  rw [saveSnapshot_eq h.healthy hinit hsnap, hrun]
  exact ⟨_, rfl⟩

/-- **The saved checkpoint is the one loaded**, and no more than the limit are kept. -/
structure Retained (s s' : CoinStore) : Prop where
  loads : ∃ snap, s'.snapshot = .ok snap ∧ s'.loadSnapshot s'.height = .ok (some snap)
  bounded : ∃ kept, s'.availableSnapshotHeights = .ok kept ∧ kept.length ≤ s.config.maxSnapshots

/-- A save is kept exactly when fewer checkpoints than the limit lie above it. -/
theorem CheckpointsOk.retained_iff (h : s.CheckpointsOk) {entries : List (CoinId × CoinRecord)}
    (hmax : 0 < s.config.maxSnapshots)
    (hiter : ∀ snap, s.snapshot = .ok snap → snap.Iterates entries)
    (hsave : s.saveSnapshot entries = (s', .ok ())) {heights : List UInt64}
    (hheights : s.availableSnapshotHeights = .ok heights) :
    Retained s s' ↔ (heightsAbove heights s.height).length < s.config.maxSnapshots := by
  obtain ⟨snap, heights', kept, hsnap, hbefore, hafter, hle, hload⟩ :=
    h.saveSnapshot_spec hmax hiter hsave
  obtain rfl := Except.ok.inj (hbefore.symm.trans hheights)
  constructor
  · rintro ⟨⟨snap', -, hload'⟩, -⟩
    rw [hload] at hload'
    by_contra hnot
    rw [if_neg hnot] at hload'
    cases Except.ok.inj hload'
  · intro hlt
    rw [if_pos hlt] at hload
    exact ⟨⟨snap, hsnap, hload⟩, kept, hafter, hle⟩

end CoinStore

/-- **A saved checkpoint can be loaded** exactly when fewer stored checkpoints than the limit lie
above the current height. -/
theorem Checkpointed.saved_loads_iff {s s' : CoinStore} {entries : List (CoinId × CoinRecord)}
    (h : Checkpointed s) (hmax : 1 ≤ s.config.maxSnapshots)
    (hiter : ∀ snap, s.snapshot = .ok snap → snap.Iterates entries)
    (hsave : s.saveSnapshot entries = (s', .ok ())) :
    ∃ heights, s.availableSnapshotHeights = .ok heights ∧ (CoinStore.Retained s s' ↔
      (heightsAbove heights s.height).length < s.config.maxSnapshots) := by
  obtain ⟨heights, hheights⟩ := h.checkpointsOk.keys.heights
  have hread := CoinStore.availableSnapshotHeights_eq h.checkpointsOk.healthy hheights
  exact ⟨_, hread, h.checkpointsOk.retained_iff hmax hiter hsave hread⟩

end DigCoinstore

namespace DigCoinstore

open Sample

/-- The coins of the snapshot of a store. -/
def snapshotEntries (s : CoinStore) : List (CoinId × CoinRecord) :=
  match s.snapshot with
  | .ok snap => snap.coins.toList
  | .error _ => []

theorem iterates_snapshotEntries {s : CoinStore} (hlen : (snapshotEntries s).length < 2 ^ 64) :
    ∀ snap, s.snapshot = .ok snap → snap.Iterates (snapshotEntries s) := by
  intro snap hsnap
  have heq : snapshotEntries s = snap.coins.toList := by rw [snapshotEntries, hsnap]
  rw [heq] at hlen ⊢
  exact ⟨.refl _, hlen, by rw [CoinStore.snapshot_hints hsnap]; decide⟩

/-- A checkpoint at height 1. -/
def saved : CoinStore :=
  let rewarded := (emptyGenesis.applyBlock rewardBlock).1
  (rewarded.saveSnapshot (snapshotEntries rewarded)).1

/-- The tip is back at the genesis, the checkpoint of height 1 is still there. -/
def rewound : CoinStore := (saved.rollbackToBlock 0).1

theorem rewound_facts : (snapshotEntries (emptyGenesis.applyBlock rewardBlock).1).length < 2 ^ 64 ∧
    (snapshotEntries rewound).length < 2 ^ 64 ∧ rewound.initialized = true ∧
    rewound.snapshot.isOk = true ∧ rewound.height = 0 ∧ rewound.config.maxSnapshots = 1 ∧
    rewound.availableSnapshotHeights.toOption = some [1] := by
  decide +kernel

theorem checkpointed_rewound : Checkpointed rewound := by
  have hgenesis : Checkpointed emptyGenesis :=
    (Checkpointed.new (CoinStore.withConfig_fresh_eq { maxSnapshots := 1 })).call .initGenesis
  exact ((hgenesis.call .applyBlock).saveSnapshot
    (iterates_snapshotEntries rewound_facts.1)).rollbackToBlock

theorem rewound_saved : ∃ s', rewound.saveSnapshot (snapshotEntries rewound) = (s', .ok ()) ∧
    s'.height = 0 := by
  obtain ⟨-, -, hinit, hok, hheight, hmax, -⟩ := rewound_facts
  have hcheck := checkpointed_rewound.checkpointsOk
  obtain ⟨snap, hsnap⟩ : ∃ snap, rewound.snapshot = .ok snap := by
    cases hsnap : rewound.snapshot with
    | error e => rw [hsnap] at hok; cases hok
    | ok snap => exact ⟨snap, rfl⟩
  obtain ⟨s', hsave⟩ := hcheck.saveSnapshot_ok (by rw [hmax]; decide) hinit hsnap
    (snapshotEntries rewound)
  refine ⟨s', hsave, ?_⟩
  rw [CoinStore.saveSnapshot_eq hcheck.healthy hinit hsnap] at hsave
  rw [← (Prod.mk.inj hsave).1, ← hheight]

/-- The only checkpoint above is that of height 1. -/
theorem saved_loads_iff_rewound : ∃ s', rewound.saveSnapshot (snapshotEntries rewound) = (s', .ok ()) ∧
    ∃ heights, rewound.availableSnapshotHeights = .ok heights ∧ (CoinStore.Retained rewound s' ↔
      (heightsAbove heights rewound.height).length < rewound.config.maxSnapshots) := by
  obtain ⟨-, hlen, -, -, -, hmax, -⟩ := rewound_facts
  obtain ⟨s', hsave, -⟩ := rewound_saved
  exact ⟨s', hsave, checkpointed_rewound.saved_loads_iff (by rw [hmax])
    (iterates_snapshotEntries hlen) hsave⟩

/-- The checkpoint of height 0 is written and pruned at once. -/
theorem saved_loads_fails : Checkpointed rewound ∧ 1 ≤ rewound.config.maxSnapshots ∧
    (∀ snap, rewound.snapshot = .ok snap → snap.Iterates (snapshotEntries rewound)) ∧
    ∃ s', rewound.saveSnapshot (snapshotEntries rewound) = (s', .ok ()) ∧ s'.height = 0 ∧
      s'.loadSnapshot 0 = .ok none ∧ ¬ CoinStore.Retained rewound s' := by
  obtain ⟨-, hlen, -, -, hheight, hmax, havailable⟩ := rewound_facts
  obtain ⟨s', hsave, hheight'⟩ := rewound_saved
  have hpos : 0 < rewound.config.maxSnapshots := by rw [hmax]; decide
  have hiter := iterates_snapshotEntries hlen
  obtain ⟨snap, heights, kept, -, hbefore, -, -, hload⟩ :=
    checkpointed_rewound.checkpointsOk.saveSnapshot_spec hpos hiter hsave
  obtain rfl := Except.ok.inj (hbefore.symm.trans (Res.eq_ok_of_toOption havailable))
  have habove : ¬ (heightsAbove [1] rewound.height).length < rewound.config.maxSnapshots := by
    rw [hheight, hmax]
    decide
  rw [if_neg habove] at hload
  refine ⟨checkpointed_rewound, hpos, hiter, s', hsave, hheight', hheight' ▸ hload, ?_⟩
  rintro ⟨⟨snap', -, hload'⟩, -⟩
  rw [hload] at hload'
  cases Except.ok.inj hload'

end DigCoinstore
