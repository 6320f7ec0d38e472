import DigCoinstore.LedgerSim

/-!
# Snapshots and checkpoints of the ledger

A store in the state of a ledger takes the ledger's snapshot, saves it with the ledger's checkpoints
and is brought to the state of any ledger whose snapshot it restores (`saveSnapshot_step`,
`restore_step`).
-/

namespace DigCoinstore

variable [Chia]

/-! ## The stored checkpoints -/

namespace CheckpointsHeld

variable {b : Backend} {t : Tables} {checkpoints : OrdMap.Map UInt64 CoinStoreSnapshot}

omit [Chia] in
theorem isSome_iff (h : CheckpointsHeld t checkpoints) (height : UInt64) :
    ((t .stateSnapshots)[snapshotKey height]?).isSome = (checkpoints[height]?).isSome := by
  have hrow := congrArg Option.isSome (h.rows height)
  rwa [Option.isSome_map, Option.isSome_map] at hrow

omit [Chia] in
theorem heights_perm (h : CheckpointsHeld t checkpoints) {heights : List UInt64}
    (hh : CheckpointHeights t heights) : heights.Perm checkpoints.keys := by
  rw [← Std.ExtTreeMap.map_fst_toList_eq_keys]
  refine (List.perm_ext_iff_of_nodup hh.nodup (OrdMap.nodup_keys checkpoints)).2 fun height => ?_
  rw [hh.mem, h.isSome_iff, List.mem_map, Option.isSome_iff_exists]
  constructor
  · rintro ⟨snap, hsnap⟩
    exact ⟨(height, snap), OrdMap.mem_toList.2 hsnap, rfl⟩
  · rintro ⟨⟨height, snap⟩, hmem, rfl⟩
    exact ⟨snap, OrdMap.mem_toList.1 hmem⟩

omit [Chia] in
theorem insert (h : CheckpointsHeld t checkpoints) (height : UInt64) {payload : Bytes}
    {snap : CoinStoreSnapshot} (hdec : decodeCoinStoreSnapshotStorage payload = some snap) :
    CheckpointsHeld (t.put .stateSnapshots (snapshotKey height) payload)
      (checkpoints.insert height snap) := by
  refine ⟨h.keys.put height payload, fun height' => ?_⟩
  rw [Tables.put_get, OrdMap.getElem?_insert]
  by_cases heq : height = height'
  · rw [if_pos ⟨rfl, congrArg snapshotKey heq⟩, if_pos heq, Option.map_some, hdec, Option.map_some]
  · rw [if_neg fun hk => heq (snapshotKey_injective hk.2), if_neg heq, h.rows]

omit [Chia] in
/-- **Pruning** keeps the checkpoints of the greatest heights. -/
theorem prune (h : CheckpointsHeld b.tables checkpoints) (hb : b.Healthy) (maxSnapshots : Nat) :
    ∃ b', pruneSnapshotsToLimit b maxSnapshots = (b', .ok ()) ∧ b'.Healthy ∧
      (∀ cf, cf ≠ .stateSnapshots → b'.tables cf = b.tables cf) ∧
      CheckpointsHeld b'.tables (Ledger.keepGreatest checkpoints maxSnapshots) := by
  rcases Nat.eq_zero_or_pos maxSnapshots with rfl | hmax
  · exact ⟨b, rfl, hb, fun _ _ => rfl, h⟩
  · obtain ⟨heights, hh⟩ := h.keys.heights
    obtain ⟨b', hrun, hb', ht⟩ := pruneSnapshotsToLimit_run hb hh hmax
    refine ⟨b', hrun, hb', fun cf hcf => ?_, ?_, fun height => ?_⟩
    · refine Std.ExtTreeMap.ext_getElem? fun k => ?_
      rw [ht, foldl_delete_get, if_neg fun heq => hcf heq.1.symm]
    · rw [ht]
      exact h.keys.deleteAll _
    · have habove : (heightsAbove heights height).length =
          (heightsAbove checkpoints.keys height).length :=
        ((h.heights_perm hh).filter _).length_eq
      rw [ht, foldl_delete_get, Ledger.keepGreatest, if_neg (Nat.pos_iff_ne_zero.1 hmax),
        Std.ExtTreeMap.getElem?_filter']
      simp only [List.mem_map_of_injective snapshotKey_injective, true_and]
      by_cases hmem : height ∈ heights
      · have hdropped := Retention.mem_dropped_iff toNat_injective hh.nodup hmem maxSnapshots
        rw [← heightsAbove_eq, habove] at hdropped
        by_cases hkept : (heightsAbove checkpoints.keys height).length < maxSnapshots
        · rw [if_neg fun hdrop => absurd (hdropped.1 hdrop) (Nat.not_le.2 hkept), h.rows]
          cases checkpoints[height]? <;> simp [hkept]
        · rw [if_pos (hdropped.2 (Nat.not_lt.1 hkept))]
          cases checkpoints[height]? <;> simp [hkept]
      · -- a height that is not stored is in neither
        have hnone : checkpoints[height]? = none := by
          rw [← Option.not_isSome_iff_eq_none, ← h.isSome_iff, ← hh.mem]
          exact hmem
        have hrow : (b.tables .stateSnapshots)[snapshotKey height]? = none := by
          rw [← Option.not_isSome_iff_eq_none, ← hh.mem]
          exact hmem
        rw [hnone, hrow, ite_self]
        rfl

end CheckpointsHeld

namespace CoinStore.Tracks

variable {s s₀ : CoinStore} {l l₀ : Ledger}

theorem withCheckpoints (h : s.Tracks l) {b : Backend}
    {checkpoints : OrdMap.Map UInt64 CoinStoreSnapshot} (hb : b.Healthy)
    (hother : ∀ cf, cf ≠ .stateSnapshots → b.tables cf = s.backend.tables cf)
    (hheld : CheckpointsHeld b.tables checkpoints) :
    ({ s with backend := b } : CoinStore).Tracks { l with checkpoints } where
  represents := {
    healthy := hb
    rows := h.represents.rows.congr fun cf hcf => hother cf fun heq => by
      have hcoin := Scope.life.sub_coin cf hcf
      simp [heq, coinFamilies] at hcoin
    leaves := h.represents.leaves
    coherent := h.represents.coherent
    tip := by
      obtain ⟨h1, h2, h3, h4⟩ := h.represents.tip
      have hmeta := hother .metadata (by decide)
      constructor <;> rw [hmeta] <;> assumption
    ids := h.represents.ids
    coins := h.represents.coins
    lives := h.represents.lives
    filled := h.represents.filled
    blank := h.represents.blank }
  unspent := h.unspent
  initialized := h.initialized
  height := h.height
  tipHash := h.tipHash
  timestamp := h.timestamp
  hints := by
    obtain ⟨members, htables, hmem⟩ := h.hints
    exact ⟨members, htables.congr (hother .hints (by decide)) (hother .hintsByValue (by decide)), hmem⟩
  checkpoints := hheld
  maxSnapshots := h.maxSnapshots

/-- **The snapshot** is that of the ledger, also when it cannot be taken. -/
theorem snapshot_eq (h : s.Tracks l) : s.snapshot = l.snapshot := by
  have hscan : s.backend.prefixScan .coinRecords [] = .ok (s.backend.tables .coinRecords).toList :=
    Backend.prefixScan_all h.healthy _
  have hcoins : scanCoins (s.backend.tables .coinRecords).toList = l.coins :=
    Std.ExtTreeMap.ext_getElem? h.represents.coinRows.scanCoins_get
  rw [snapshot, Ledger.snapshot, h.initialized, hscan, orStorageWith_ok, Res.ok_bind, hcoins,
    h.rootObserved_eq, h.height, h.tipHash, h.timestamp]

theorem saveSnapshot_step (h : s.Tracks l) {entries : List (CoinId × CoinRecord)}
    (hiter : ∀ snap, l.snapshot = .ok snap → snap.Iterates entries) :
    (s.saveSnapshot entries).2 = l.saveSnapshot.2 ∧
      (s.saveSnapshot entries).1.Tracks l.saveSnapshot.1 := by
  cases hsnap : l.snapshot with
  | error e =>
    rw [Ledger.saveSnapshot, hsnap, saveSnapshot, h.snapshot_eq, hsnap]
    cases hinit : s.initialized with
    | true => exact ⟨rfl, h⟩
    | false =>
      rw [Ledger.snapshot, ← h.initialized, hinit] at hsnap
      have herr : err .notInitialized = (.error e : Res CoinStoreSnapshot) := hsnap
      obtain rfl := Except.error.inj herr
      exact ⟨rfl, h⟩
  | ok snap =>
    have hssnap : s.snapshot = .ok snap := h.snapshot_eq.trans hsnap
    obtain ⟨hinit, -⟩ := h.represents.snapshot_eq_ok hssnap
    have hheld : CheckpointsHeld (s.withCheckpoint snap entries).tables
        (l.checkpoints.insert l.height snap) := by
      rw [withCheckpoint, h.height]
      exact h.checkpoints.insert l.height (decodeStorage_encode (hiter snap hsnap))
    obtain ⟨b', hrun, hb', hother, hheld'⟩ := hheld.prune (b := s.withCheckpoint snap entries)
      h.healthy s.config.maxSnapshots
    rw [saveSnapshot_eq h.healthy hinit hssnap, hrun, Ledger.saveSnapshot, hsnap]
    refine ⟨rfl, h.withCheckpoints hb' (fun cf hcf => ?_) ?_⟩
    · rw [hother cf hcf]
      exact Function.update_of_ne hcf _ _
    · rw [← h.maxSnapshots]
      exact hheld'

/-! ## Reopening and restoring -/

omit [Chia] in
theorem withConfig_config [Chia] {config : CoinStoreConfig} {b : Backend} (hb : b.Healthy)
    (h : withConfig config b = .ok s) : s.config = config := by
  unfold withConfig at h
  simp only [Backend.get_of_healthy hb, orStorage_ok, Res.ok_bind] at h
  obtain ⟨tipHash, _, h⟩ := Res.bind_eq_ok.1 h
  split at h
  · obtain ⟨tree, _, h⟩ := Res.bind_eq_ok.1 h
    obtain ⟨ids, _, h⟩ := Res.bind_eq_ok.1 h
    obtain rfl := Except.ok.inj h
    rfl
  · obtain rfl := Except.ok.inj h
    rfl

/-- **A restart** loses nothing of the ledger. -/
theorem reopen_step (h : s.Tracks l) (config : CoinStoreConfig) :
    ∃ s', withConfig config s.backend = .ok s' ∧
      s'.Tracks { l with maxSnapshots := config.maxSnapshots } := by
  obtain ⟨s', hopen, hs', hu', hinit, hheight, hhash, htime⟩ := h.represents.withConfig_spec config
  obtain ⟨hbackend, -⟩ := withConfig_reads h.healthy hopen
  exact ⟨s', hopen, {
    represents := hs'
    unspent := hu'
    initialized := hinit.trans h.initialized
    height := hheight.trans h.height
    tipHash := hhash.trans h.tipHash
    timestamp := htime.trans h.timestamp
    hints := by rw [hbackend]; exact h.hints
    checkpoints := by rw [hbackend]; exact h.checkpoints
    maxSnapshots := by rw [withConfig_config h.healthy hopen] }⟩

/-- A snapshot without hints has rows of coins and metadata only. -/
theorem snapshotTables_other {snap : CoinStoreSnapshot} (hhints : snap.hints = [])
    {cf : ColumnFamily} (hcoin : cf ∉ coinFamilies) (hmeta : cf ≠ .metadata) :
    snapshotTables snap cf = Tables.empty cf := by
  rw [snapshotTables, stageTip_other _ hmeta, Tables.put, Function.update_of_ne hmeta, hhints]
  show Tables.empty.applyOps (snap.records.foldl stageCreation .new).ops cf = _
  refine Tables.applyOps_other _ _ fun hmem => ?_
  obtain ⟨op, hop, rfl⟩ := List.mem_map.1 hmem
  exact hcoin (stageCreations_cfs snap.records op hop)

/-- **A restore** brings the store to the state of the ledger that was captured. -/
theorem restore_step (h : s.Tracks l) (hsource : s₀.Tracks l₀) {snap : CoinStoreSnapshot}
    (hsnap : l₀.snapshot = .ok snap) :
    (s.restore snap).2 = .ok () ∧ (s.restore snap).1.Tracks (l.restore snap) := by
  have hssnap : s₀.snapshot = .ok snap := hsource.snapshot_eq.trans hsnap
  obtain ⟨-, hcoins, hheight, hhash, htime, -, hhints, -⟩ := hsource.represents.snapshot_eq_ok hssnap
  obtain ⟨s', hrun, hs', hu', hinit', hheight', hhash', htime'⟩ :=
    hsource.represents.restore_spec hssnap h.healthy
  have hset : (l.restore snap).coinset = l₀.coinset := hcoins
  obtain ⟨tree, hcheck⟩ := @check_of_restore _ s snap (by rw [hrun])
  obtain ⟨backend, hrestored, -, htables⟩ := restore_of_check hcheck h.healthy
  have hother : ∀ {cf}, cf ∉ coinFamilies → cf ≠ .metadata → s'.backend.tables cf = Tables.empty cf :=
    fun hcoin hmeta => by
      rw [← snapshotTables_other hhints hcoin hmeta, ← htables,
        (Prod.mk.inj (hrun.symm.trans hrestored)).1, restored]
  rw [hrun]
  refine ⟨rfl, ?_⟩
  exact {
    represents := by rw [hset]; exact hs'
    unspent := by rw [hset]; exact hu'
    initialized := by
      rw [(Prod.mk.inj (hrun.symm.trans hrestored)).1]
      rfl
    height := hheight'.trans hheight.symm
    tipHash := hhash'.trans hhash.symm
    timestamp := htime'.trans htime.symm
    hints := by
      rw [Ledger.restore, hhints, List.map_nil, List.toFinset_nil, Finset.coe_empty]
      obtain ⟨members, hm, hmem⟩ := HintsHeld.empty
      exact ⟨members, hm.congr (hother (by decide) (by decide)) (hother (by decide) (by decide)), hmem⟩
    checkpoints := by
      have hempty : s'.backend.tables .stateSnapshots = Tables.empty .stateSnapshots :=
        hother (by decide) (by decide)
      refine ⟨fun k v hget => ?_, fun height => ?_⟩
      · rw [hempty] at hget
        simp [Tables.empty] at hget
      · rw [hempty]
        simp [Tables.empty, Ledger.restore]
    maxSnapshots := by
      rw [(Prod.mk.inj (hrun.symm.trans hrestored)).1]
      exact h.maxSnapshots }

end CoinStore.Tracks

end DigCoinstore
