import DigCoinstore.LedgerCheckpoints

/-!
# The store refines the ledger

Every call that a ledger allows keeps `Tracks` and is answered by the store as by the ledger
(`CoinStore.simulation`). So no run of calls tells the two apart, whatever the tables, the tree and
its cache went through (`Ledger.store_log_eq`); questions and failed calls can be struck from a run
(`Ledger.struck_log_eq`), a restart is not noticed (`Ledger.restart_log_eq`), and a replica is not
told from its source (`Ledger.replica_log_eq`).
-/

namespace DigCoinstore

variable [Chia]

namespace CoinStore.Tracks

variable {s : CoinStore} {l : Ledger}

/-! ## Questions about the coins -/

omit [Chia] in
theorem coins_get [Chia] (_ : s.Tracks l) (id : CoinId) : l.coins[id]? = l.coinset id := rfl

theorem getCoinRecords_eq (h : s.Tracks l) (coinIds : List CoinId) :
    s.getCoinRecords coinIds = .ok (coinIds.filterMap (l.coins[·]?)) := by
  unfold getCoinRecords
  refine (foldlM_appends (f := fun coinId => (l.coins[coinId]?).toList) (fun results coinId => ?_)
    coinIds []).trans ?_
  · rw [h.getCoinRecord_eq, Res.ok_bind]
    cases l.coins[coinId]? <;> simp
  · rw [List.nil_append, List.filterMap_eq_flatMap_toList]

theorem getCoinsAddedAtHeight_eq (h : s.Tracks l) (height : UInt64) :
    s.getCoinsAddedAtHeight height = .ok (l.recordsWhere (·.confirmedHeight = height)) := by
  have hlen : (FixedInt.toBeBytes height).length = 8 := by simp
  have hscan := h.represents.pushIndexed_ordered h.coins_get .coinByConfirmedHeight (by decide)
    (by simp [Scope.life, lifeFamilies]) (FixedInt.toBeBytes height) (by rw [hlen]; rfl)
    (fun _ => true) []
  rw [hlen] at hscan
  rw [getCoinsAddedAtHeight, hscan, List.nil_append, Ledger.recordsWhere]
  simp [indexHead, FixedInt.toBeBytes_inj]

theorem getCoinsRemovedAtHeight_eq (h : s.Tracks l) (height : UInt64) :
    s.getCoinsRemovedAtHeight height = .ok (l.getCoinsRemovedAtHeight height) := by
  have hlen : (FixedInt.toBeBytes height).length = 8 := by simp
  have hscan := h.represents.pushIndexed_ordered h.coins_get .coinBySpentHeight (by decide)
    (by simp [Scope.life, lifeFamilies]) (FixedInt.toBeBytes height) (by rw [hlen]; rfl)
    (fun _ => true) []
  rw [hlen] at hscan
  rw [getCoinsRemovedAtHeight, Ledger.getCoinsRemovedAtHeight]
  split
  · rfl
  · rw [hscan, List.nil_append, Ledger.recordsWhere]
    simp [indexHead, FixedInt.toBeBytes_inj]

theorem tally_eq (h : s.Tracks l) : s.tally = l.tally := by
  have hscan := h.represents.scanRecords h.coins_get
  rw [tally, Ledger.tally, hscan]
  cases hinit : s.initialized with
  | false =>
    have hempty : ∀ id : CoinId, l.coins[id]? = none :=
      fun id => congrFun (h.represents.blank hinit).1 id
    rw [OrdMap.toList_eq_nil hempty]
    rfl
  | true =>
    rw [if_pos rfl]
    have hrows : ∀ kv ∈ l.coins.toList, Storable kv.2 := fun kv hkv =>
      h.represents.lives.storable (OrdMap.mem_toList.1 hkv)
    dsimp only
    generalize l.coins.toList = rows at hrows
    generalize (⟨0, 0, 0⟩ : Tally) = t
    induction rows generalizing t with
    | nil => rfl
    | cons kv rows ih =>
      rw [List.map_cons, List.foldl_cons, List.foldl_cons, decode_serialize (hrows kv (.head _))]
      exact ih (fun kv' hkv' => hrows kv' (.tail _ hkv')) _

/-! ## Questions about the checkpoints -/

theorem loadSnapshot_eq (h : s.Tracks l) (height : UInt64) :
    s.loadSnapshot height = .ok l.checkpoints[height]? := by
  have hrow := h.checkpoints.rows height
  rw [loadSnapshot, Backend.get_of_healthy h.healthy, orStorage_ok, Res.ok_bind]
  cases hget : (s.backend.tables .stateSnapshots)[snapshotKey height]? with
  | none =>
    rw [hget, Option.map_none] at hrow
    rw [Option.map_eq_none_iff.1 hrow.symm]
    rfl
  | some bytes =>
    rw [hget, Option.map_some] at hrow
    obtain ⟨snap, hsnap, hdec⟩ := Option.map_eq_some_iff.1 hrow.symm
    rw [hsnap]
    dsimp only
    rw [← hdec]
    rfl

theorem availableSnapshotHeights_eq (h : s.Tracks l) :
    s.availableSnapshotHeights = .ok l.checkpoints.keys := by
  obtain ⟨heights, hh⟩ := h.checkpoints.keys.heights
  rw [CoinStore.availableSnapshotHeights_eq h.healthy hh]
  have hsorted : (Retention.sorted UInt64.toNat heights).Pairwise fun a b => a.toNat ≤ b.toNat :=
    Retention.pairwise_sorted heights
  refine congrArg Except.ok (List.Perm.eq_of_pairwise (fun a b _ _ hab hba => ?_) hsorted
    (l.checkpoints.ordered_keys.imp fun {a b} hab => ?_)
    ((Retention.sorted_perm _ heights).trans (h.checkpoints.heights_perm hh)))
  · exact UInt64.toNat_inj.1 (Nat.le_antisymm hab hba)
  · exact UInt64.le_iff_toNat_le.1 (UInt64.le_of_lt (Std.compare_eq_lt.1 hab))

theorem loadLatestSnapshot_eq (h : s.Tracks l) :
    s.loadLatestSnapshot = .ok (l.checkpoints.toList.getLast?.map (·.2)) := by
  rw [loadLatestSnapshot, h.availableSnapshotHeights_eq, Res.ok_bind,
    ← Std.ExtTreeMap.map_fst_toList_eq_keys, List.getLast?_map]
  cases hlast : l.checkpoints.toList.getLast? with
  | none => rfl
  | some kv =>
    have hmem := List.mem_of_getLast? hlast
    simp only [Option.map_some]
    rw [h.loadSnapshot_eq, OrdMap.mem_toList.1 hmem]

theorem snapshotCount_eq (h : s.Tracks l) :
    cfEntryCount s.backend .stateSnapshots = l.checkpoints.size := by
  obtain ⟨heights, hh⟩ := h.checkpoints.keys.heights
  rw [cfEntryCount, Backend.prefixScan_all h.healthy]
  dsimp only
  rw [← hh.length, (h.checkpoints.heights_perm hh).length_eq, Std.ExtTreeMap.length_keys]

theorem hintCount_eq (h : s.Tracks l) :
    UInt64.ofNat (cfEntryCount s.backend .hints) = UInt64.ofNat l.hints.card := by
  obtain ⟨pairs, hnodup, hmem, hcount⟩ := countsHints h.healthy h.hints
  rw [countHints, Backend.prefixScan_all h.healthy, orStorage_ok, Res.ok_bind] at hcount
  have hcard : pairs.length = l.hints.card := by
    rw [← List.toFinset_card_of_nodup hnodup]
    congr 1
    ext p
    rw [List.mem_toFinset, hmem, findsCoin_iff h.healthy h.hints, Finset.mem_coe]
  rw [cfEntryCount, Backend.prefixScan_all h.healthy, ← hcard]
  exact Except.ok.inj hcount

theorem stats_eq (h : s.Tracks l) : s.stats = l.stats := by
  rw [stats, Ledger.stats, h.tally_eq, h.height, h.timestamp, h.tipHash, h.rootObserved_eq,
    h.hintCount_eq, h.snapshotCount_eq]

theorem stateRoot_step (h : s.Tracks l) :
    s.stateRoot.1 = Ledger.rootOf l.coins ∧ s.stateRoot.2.Tracks l where
  left := by
    show s.merkleTree.root.1 = _
    rw [SparseMerkleTree.root_fst h.represents.coherent]
    exact Ledger.fullRoot_eq_rootOf (fun _ => rfl) h.represents.treeOf
  right := {
    represents := h.represents.stateRoot_step
    unspent := h.unspent
    initialized := h.initialized
    height := h.height
    tipHash := h.tipHash
    timestamp := h.timestamp
    hints := h.hints
    checkpoints := h.checkpoints
    maxSnapshots := h.maxSnapshots }

/-! ## Every call -/

/-- **One call** of the store is one call of the ledger. -/
theorem step (h : s.Tracks l) {call : Call} (hcall : l.Promises call) :
    (s.step call).2 = (l.step call).2 ∧ (s.step call).1.Tracks (l.step call).1 := by
  cases call with
  | initGenesis coins timestamp =>
    obtain ⟨hanswer, hnext⟩ := h.initGenesis_step coins timestamp
    exact ⟨congrArg Answer.root hanswer, hnext⟩
  | applyBlock block =>
    obtain ⟨hanswer, hnext⟩ := h.applyBlock_step hcall
    exact ⟨congrArg Answer.block hanswer, hnext⟩
  | rollbackToBlock target =>
    obtain ⟨hanswer, hnext⟩ := h.rollbackToBlock_step target
    exact ⟨congrArg Answer.rollback hanswer, hnext⟩
  | rollbackNBlocks n =>
    obtain ⟨hanswer, hnext⟩ := h.rollbackNBlocks_step n
    exact ⟨congrArg Answer.rollback hanswer, hnext⟩
  | addHint coinId hint =>
    obtain ⟨hanswer, hnext⟩ := h.addHint_step coinId hint
    exact ⟨congrArg Answer.unit hanswer, hnext⟩
  | removeHintsForCoins coinIds =>
    obtain ⟨hanswer, hnext⟩ := h.removeHintsForCoins_step coinIds
    exact ⟨congrArg Answer.count hanswer, hnext⟩
  | saveSnapshot entries =>
    obtain ⟨hanswer, hnext⟩ := h.saveSnapshot_step hcall
    exact ⟨congrArg Answer.unit hanswer, hnext⟩
  | reopen config =>
    obtain ⟨s', hopen, hnext⟩ := h.reopen_step config
    rw [CoinStore.step, hopen]
    exact ⟨rfl, hnext⟩
  | restore snapshot => exact hcall.elim
  | snapshot => exact ⟨congrArg Answer.snapshot h.snapshot_eq, h⟩
  | stateRoot =>
    obtain ⟨hroot, hnext⟩ := h.stateRoot_step
    exact ⟨congrArg (fun root => Answer.root (.ok root)) hroot, hnext⟩
  | stats => exact ⟨congrArg Answer.stats h.stats_eq, h⟩
  | isUnspent coinId => exact ⟨congrArg Answer.flag (h.isUnspent_eq coinId), h⟩
  | getCoinRecord coinId => exact ⟨congrArg Answer.record (h.getCoinRecord_eq coinId), h⟩
  | getCoinRecords coinIds => exact ⟨congrArg Answer.records (h.getCoinRecords_eq coinIds), h⟩
  | getCoinsAddedAtHeight height =>
    exact ⟨congrArg Answer.records (h.getCoinsAddedAtHeight_eq height), h⟩
  | getCoinsRemovedAtHeight height =>
    exact ⟨congrArg Answer.records (h.getCoinsRemovedAtHeight_eq height), h⟩
  | loadSnapshot height => exact ⟨congrArg Answer.checkpoint (h.loadSnapshot_eq height), h⟩
  | availableSnapshotHeights => exact ⟨congrArg Answer.heights h.availableSnapshotHeights_eq, h⟩
  | loadLatestSnapshot => exact ⟨congrArg Answer.checkpoint h.loadLatestSnapshot_eq, h⟩

end CoinStore.Tracks

/-- Every ledger of a run is that of some store; the run is replayed on the store. -/
theorem Ledger.Reached.exists_store {l : Ledger} (h : l.Reached) : ∃ s : CoinStore, s.Tracks l := by
  induction h with
  | blank config => exact ⟨_, .tracks_blank config⟩
  | step _ hcall ih =>
    obtain ⟨s, hs⟩ := ih
    exact ⟨_, (hs.step hcall).2⟩
  | restore _ _ hsnap ih ih' =>
    obtain ⟨s, hs⟩ := ih
    obtain ⟨s₀, hs₀⟩ := ih'
    exact ⟨_, (hs.restore_step hs₀ hsnap).2⟩

/-- **Every reachable store has a ledger**, when its blocks claim the ids of their coins. -/
theorem Reachable.tracks {U : Set Coin} {P : BlockData → Prop} {s : CoinStore} (h : Reachable U P s)
    (hP : ∀ b, P b → b.ClaimsItsCoins) : ∃ l : Ledger, s.Tracks l := by
  induction h with
  | @new config s hopen =>
    obtain rfl := Except.ok.inj (hopen.symm.trans (CoinStore.withConfig_fresh_eq config))
    exact ⟨_, .tracks_blank config⟩
  | initGenesis _ _ ih =>
    obtain ⟨l, hl⟩ := ih
    exact ⟨_, (hl.initGenesis_step _ _).2⟩
  | applyBlock _ _ hblock ih =>
    obtain ⟨l, hl⟩ := ih
    exact ⟨_, (hl.applyBlock_step (hP _ hblock)).2⟩
  | rollbackToBlock _ ih =>
    obtain ⟨l, hl⟩ := ih
    exact ⟨_, (hl.rollbackToBlock_step _).2⟩
  | rollbackNBlocks _ ih =>
    obtain ⟨l, hl⟩ := ih
    exact ⟨_, (hl.rollbackNBlocks_step _).2⟩
  | restore _ _ hsnap ih ih' =>
    obtain ⟨l, hl⟩ := ih
    obtain ⟨l', hl'⟩ := ih'
    exact ⟨_, (hl.restore_step hl' (hl'.snapshot_eq.symm.trans hsnap)).2⟩
  | reopen _ hopen ih =>
    obtain ⟨l, hl⟩ := ih
    obtain ⟨s', hopen', hl'⟩ := hl.reopen_step _
    obtain rfl := Except.ok.inj (hopen.symm.trans hopen')
    exact ⟨_, hl'⟩
  | stateRoot _ ih =>
    obtain ⟨l, hl⟩ := ih
    exact ⟨_, hl.stateRoot_step.2⟩
  | addHint _ ih =>
    obtain ⟨l, hl⟩ := ih
    exact ⟨_, (hl.addHint_step _ _).2⟩
  | removeHintsForCoins _ ih =>
    obtain ⟨l, hl⟩ := ih
    exact ⟨_, (hl.removeHintsForCoins_step _).2⟩

/-- **The simulation.** -/
theorem CoinStore.simulation :
    Machine.Simulation CoinStore.machine Ledger.machine Ledger.Allows CoinStore.Tracks where
  step {s l call} h hallows := by
    rcases hallows with hcall | ⟨source, snapshot, rfl, hsource, hsnap⟩
    · exact h.step hcall
    · obtain ⟨s₀, hs₀⟩ := hsource.exists_store
      obtain ⟨hanswer, hnext⟩ := h.restore_step hs₀ hsnap
      exact ⟨congrArg Answer.unit hanswer, hnext⟩

namespace Ledger

variable {config : CoinStoreConfig} {s : CoinStore} {calls calls' : List Call}

/-- The answers and the last state of a legal run. -/
theorem run_tracks (hopen : CoinStore.withConfig config .fresh = .ok s)
    (hlegal : machine.Legal Allows (.blank config) calls) :
    CoinStore.machine.log s calls = machine.log (.blank config) calls ∧
      (CoinStore.machine.run s calls).Tracks (machine.run (.blank config) calls) := by
  obtain rfl := Except.ok.inj (hopen.symm.trans (CoinStore.withConfig_fresh_eq config))
  exact CoinStore.simulation.log_eq (.tracks_blank config) hlegal

/-- **A store answers every run of calls as the ledger does.** -/
theorem store_log_eq (hopen : CoinStore.withConfig config .fresh = .ok s)
    (hlegal : machine.Legal Allows (.blank config) calls) :
    CoinStore.machine.log s calls = machine.log (.blank config) calls :=
  (run_tracks hopen hlegal).1

/-! ## Silent calls -/

section failed

variable (l : Ledger)

theorem initGenesis_failed {coins : List (Coin × Bool)} {timestamp : UInt64}
    (h : (l.initGenesis coins timestamp).2.isOk = false) : (l.initGenesis coins timestamp).1 = l := by
  unfold initGenesis at h ⊢
  split
  · rfl
  · next hinit =>
    rw [if_neg hinit] at h
    cases h

theorem applyBlock_failed {block : BlockData} (h : (l.applyBlock block).2.isOk = false) :
    (l.applyBlock block).1 = l := by
  unfold applyBlock at h ⊢
  cases hval : l.validate block with
  | error e => rfl
  | ok removed =>
    rw [hval] at h
    dsimp only at h ⊢
    cases hroot : block.expectedStateRoot.filter (· ≠ rootOf (l.coinsAfter block removed)) with
    | some expected => rfl
    | none =>
      rw [hroot] at h
      cases h

omit [Chia] in
theorem rollbackToBlock_failed {target : Int64} (h : (l.rollbackToBlock target).2.isOk = false) :
    (l.rollbackToBlock target).1 = l := by
  unfold rollbackToBlock at h ⊢
  split
  · rfl
  · next hinit =>
    split
    · rfl
    · next habove =>
      split
      · rfl
      · next hkeep =>
        rw [if_neg hinit, if_neg habove, if_neg hkeep] at h
        cases h

omit [Chia] in
theorem rollbackNBlocks_failed {n : UInt64} (h : (l.rollbackNBlocks n).2.isOk = false) :
    (l.rollbackNBlocks n).1 = l := by
  unfold rollbackNBlocks at h ⊢
  split
  · rfl
  · next hinit =>
    rw [if_neg hinit] at h
    cases hsub : checkedSub l.height.toInt64 n.toInt64 with
    | error e => rfl
    | ok target =>
      rw [hsub] at h
      exact l.rollbackToBlock_failed h

omit [Chia] in
theorem addHint_failed {coinId : CoinId} {hint : Bytes} (h : (l.addHint coinId hint).2.isOk = false) :
    (l.addHint coinId hint).1 = l := by
  unfold addHint at h ⊢
  cases hvalid : validateHint hint with
  | error e => rfl
  | ok action =>
    rw [hvalid] at h
    cases action <;> cases h

theorem saveSnapshot_failed (h : l.saveSnapshot.2.isOk = false) : l.saveSnapshot.1 = l := by
  unfold saveSnapshot at h ⊢
  cases hsnap : l.snapshot with
  | error e => rfl
  | ok snap =>
    rw [hsnap] at h
    cases h

/-- **A call that only asks, or that fails**, leaves the ledger as it is. -/
theorem step_silent (call : Call) (h : call.asks = true ∨ (l.step call).2.failed = true) :
    (l.step call).1 = l := by
  have hfailed : call.asks = false → (l.step call).2.failed = true := fun hasks =>
    h.resolve_left (by simp [hasks])
  cases call with
  | initGenesis => exact l.initGenesis_failed (by simpa [step, Answer.failed] using hfailed rfl)
  | applyBlock => exact l.applyBlock_failed (by simpa [step, Answer.failed] using hfailed rfl)
  | rollbackToBlock => exact l.rollbackToBlock_failed (by simpa [step, Answer.failed] using hfailed rfl)
  | rollbackNBlocks => exact l.rollbackNBlocks_failed (by simpa [step, Answer.failed] using hfailed rfl)
  | addHint => exact l.addHint_failed (by simpa [step, Answer.failed] using hfailed rfl)
  | saveSnapshot => exact l.saveSnapshot_failed (by simpa [step, Answer.failed] using hfailed rfl)
  | removeHintsForCoins | reopen | restore => cases hfailed rfl
  | _ => rfl

end failed

/-- **Questions and failed calls can be struck from a run**: whichever of them are left out, the
other calls are answered as before. -/
theorem struck_log_eq (hopen : CoinStore.withConfig config .fresh = .ok s)
    (hlegal : machine.Legal Allows (.blank config) calls) (keep : Call × Answer → Bool)
    (hkeep : ∀ entry, keep entry = false → entry.1.asks = true ∨ entry.2.failed = true) :
    CoinStore.machine.log s (CoinStore.machine.kept keep s calls) =
      (CoinStore.machine.log s calls).filter keep := by
  have hsilent : machine.SilentOutside keep := fun l call hc => l.step_silent call (hkeep _ hc)
  have hkept : CoinStore.machine.kept keep s calls = machine.kept keep (.blank config) calls := by
    rw [Machine.kept, (run_tracks hopen hlegal).1, Machine.kept]
  rw [hkept, (run_tracks hopen (hsilent.legal_kept hlegal)).1, (run_tracks hopen hlegal).1,
    hsilent.log_kept]

/-! ## Restarts and replicas -/

/-- **A restart is not noticed**: the store opened on the tables of another one answers every later
run as that one would have. -/
theorem restart_log_eq (hopen : CoinStore.withConfig config .fresh = .ok s)
    (hlegal : machine.Legal Allows (.blank config) (calls ++ calls')) :
    ∃ s', CoinStore.withConfig (CoinStore.machine.run s calls).config
        (CoinStore.machine.run s calls).backend = .ok s' ∧
      CoinStore.machine.log s' calls' = CoinStore.machine.log (CoinStore.machine.run s calls) calls' := by
  obtain ⟨hbefore, hafter⟩ := machine.legal_append.1 hlegal
  have htracks := (run_tracks hopen hbefore).2
  obtain ⟨s', hreopen, htracks'⟩ := htracks.reopen_step (CoinStore.machine.run s calls).config
  rw [htracks.maxSnapshots] at htracks'
  exact ⟨s', hreopen, CoinStore.simulation.log_congr htracks' htracks hafter⟩

/-- The coins and the tip agree. -/
structure SameCoins (l l' : Ledger) : Prop where
  coins : l'.coins = l.coins
  height : l'.height = l.height
  tipHash : l'.tipHash = l.tipHash
  timestamp : l'.timestamp = l.timestamp
  initialized : l'.initialized = l.initialized

namespace SameCoins

variable {l l' : Ledger}

theorem applyBlock (h : l.SameCoins l') (block : BlockData) :
    (l'.applyBlock block).2 = (l.applyBlock block).2 ∧
      (l.applyBlock block).1.SameCoins (l'.applyBlock block).1 := by
  have hval : l'.validate block = l.validate block := by
    rw [validate, validate, h.initialized, h.height, h.tipHash]
    have hrem : l'.removal = l.removal := funext fun id => by rw [removal, removal, h.coins]
    have hclaim : l'.claim = l.claim := funext fun ids => funext fun id => by
      rw [claim, claim, h.coins]
    rw [hrem, hclaim]
  have hcoins : l'.coinsAfter block = l.coinsAfter block := funext fun removed => by
    rw [coinsAfter, coinsAfter, h.coins]
  rw [Ledger.applyBlock, Ledger.applyBlock, hval, hcoins]
  cases l.validate block with
  | error e => exact ⟨rfl, h⟩
  | ok removed =>
    dsimp only
    cases block.expectedStateRoot.filter (· ≠ rootOf (l.coinsAfter block removed)) with
    | some expected => exact ⟨rfl, h⟩
    | none => exact ⟨rfl, rfl, rfl, rfl, rfl, h.initialized⟩

omit [Chia] in
theorem rollbackToBlock (h : l.SameCoins l') (target : Int64) :
    (l'.rollbackToBlock target).2 = (l.rollbackToBlock target).2 ∧
      (l.rollbackToBlock target).1.SameCoins (l'.rollbackToBlock target).1 := by
  rw [Ledger.rollbackToBlock, Ledger.rollbackToBlock, h.initialized, h.height]
  split
  · exact ⟨rfl, h⟩
  · split
    · exact ⟨rfl, h⟩
    · split
      · exact ⟨rfl, h⟩
      · refine ⟨by rw [cutTo, cutTo, h.coins], ?_, rfl, rfl, h.timestamp, h.initialized⟩
        have hset : l'.coinset = l.coinset := funext fun id => by
          show l'.coins[id]? = l.coins[id]?
          rw [h.coins]
        show l'.coins.filterMap _ = l.coins.filterMap _
        rw [hset, h.coins]

theorem snapshot (h : l.SameCoins l') : l'.snapshot = l.snapshot := by
  rw [Ledger.snapshot, Ledger.snapshot, h.coins, h.height, h.tipHash, h.timestamp, h.initialized]

/-- A call about coins does not tell them apart. -/
theorem step (h : l.SameCoins l') {call : Call} (hcall : call.seesCoins = true) :
    (l'.step call).2 = (l.step call).2 ∧ (l.step call).1.SameCoins (l'.step call).1 := by
  cases call with
  | initGenesis coins timestamp =>
    simp only [Ledger.step, Ledger.initGenesis, h.initialized]
    split
    · exact ⟨rfl, h⟩
    · exact ⟨rfl, rfl, rfl, rfl, rfl, rfl⟩
  | applyBlock block =>
    obtain ⟨hanswer, hnext⟩ := h.applyBlock block
    exact ⟨congrArg Answer.block hanswer, hnext⟩
  | rollbackToBlock target =>
    obtain ⟨hanswer, hnext⟩ := h.rollbackToBlock target
    exact ⟨congrArg Answer.rollback hanswer, hnext⟩
  | rollbackNBlocks n =>
    simp only [Ledger.step, Ledger.rollbackNBlocks, h.initialized, h.height]
    split
    · exact ⟨rfl, h⟩
    · cases checkedSub l.height.toInt64 n.toInt64 with
      | error e => exact ⟨rfl, h⟩
      | ok target =>
        obtain ⟨hanswer, hnext⟩ := h.rollbackToBlock target
        exact ⟨congrArg Answer.rollback hanswer, hnext⟩
  | addHint coinId hint =>
    simp only [Ledger.step, Ledger.addHint]
    split
    · exact ⟨rfl, h⟩
    · exact ⟨rfl, h⟩
    · exact ⟨rfl, h.coins, h.height, h.tipHash, h.timestamp, h.initialized⟩
  | saveSnapshot entries =>
    simp only [Ledger.step, Ledger.saveSnapshot, h.snapshot]
    split
    · exact ⟨rfl, h⟩
    · exact ⟨rfl, h.coins, h.height, h.tipHash, h.timestamp, h.initialized⟩
  | reopen config => exact ⟨rfl, h.coins, h.height, h.tipHash, h.timestamp, h.initialized⟩
  | restore snapshot => exact ⟨rfl, rfl, rfl, rfl, rfl, rfl⟩
  | snapshot => exact ⟨congrArg Answer.snapshot h.snapshot, h⟩
  | removeHintsForCoins | stats | loadSnapshot | availableSnapshotHeights | loadLatestSnapshot =>
    cases hcall
  | _ => exact ⟨by simp only [Ledger.step, Ledger.isUnspent, recordsWhere,
      Ledger.getCoinsRemovedAtHeight, h.coins], h⟩

end SameCoins

/-- The calls about coins that are allowed. -/
def AllowsCoins (l : Ledger) (call : Call) : Prop := l.Allows call ∧ call.seesCoins = true

/-- A store with the coins and the tip of a ledger answers the calls about coins as the ledger. -/
theorem coinSimulation : Machine.Simulation CoinStore.machine machine
    AllowsCoins (fun s l => ∃ l', s.Tracks l' ∧ l.SameCoins l') where
  step {s l call} := by
    rintro ⟨l', htracks, hsame⟩ ⟨hallows, hcall⟩
    have hallows' : l'.Allows call := by
      refine hallows.imp_left fun hpromise => ?_
      cases call with
      | saveSnapshot entries => exact fun snap hsnap => hpromise snap (hsame.snapshot ▸ hsnap)
      | _ => exact hpromise
    obtain ⟨hanswer, hnext⟩ := CoinStore.simulation.step htracks hallows'
    obtain ⟨hanswer', hnext'⟩ := hsame.step hcall
    exact ⟨hanswer.trans hanswer', _, hnext, hnext'⟩

/-- A store restored from the snapshot of another one has its coins and its tip. -/
theorem restored_log_eq {s s' : CoinStore} {l l' : Ledger} (hsource : s.Tracks l)
    (htarget : s'.Tracks l') {snap : CoinStoreSnapshot} (hsnap : s.snapshot = .ok snap) :
    ∃ replica, s'.restore snap = (replica, .ok ()) ∧
      ∀ later, machine.Legal AllowsCoins l later →
        CoinStore.machine.log replica later = CoinStore.machine.log s later := by
  obtain ⟨hok, hreplica⟩ := htarget.restore_step hsource (hsource.snapshot_eq.symm.trans hsnap)
  have hsame : l.SameCoins (l'.restore snap) := by
    obtain ⟨hinit, hcoins, hheight, hhash, htime, -⟩ := hsource.represents.snapshot_eq_ok hsnap
    exact ⟨Std.ExtTreeMap.ext_getElem? fun id => congrFun hcoins id, hheight.trans hsource.height,
      hhash.trans hsource.tipHash, htime.trans hsource.timestamp,
      hinit.symm.trans hsource.initialized⟩
  exact ⟨_, Prod.ext rfl hok, fun later hlater => coinSimulation.log_congr ⟨_, hreplica, hsame⟩
    ⟨_, hsource, rfl, rfl, rfl, rfl, rfl⟩ hlater⟩

/-- **A replica is not told from its source**: a store restored from a snapshot of another one
answers every later run of calls about coins as that one would. -/
theorem replica_log_eq {config' : CoinStoreConfig} {s' : CoinStore}
    (hopen : CoinStore.withConfig config .fresh = .ok s)
    (hopen' : CoinStore.withConfig config' .fresh = .ok s')
    (hlegal : machine.Legal Allows (.blank config) calls)
    (hlegal' : machine.Legal Allows (.blank config') calls')
    {snap : CoinStoreSnapshot} (hsnap : (CoinStore.machine.run s calls).snapshot = .ok snap) :
    ∃ replica, (CoinStore.machine.run s' calls').restore snap = (replica, .ok ()) ∧
      ∀ later, machine.Legal AllowsCoins (machine.run (.blank config) calls) later →
        CoinStore.machine.log replica later =
          CoinStore.machine.log (CoinStore.machine.run s calls) later :=
  restored_log_eq (run_tracks hopen hlegal).2 (run_tracks hopen' hlegal').2 hsnap

end Ledger

end DigCoinstore

/-! ## A run -/

namespace DigCoinstore.Ledger

open Sample

/-- Genesis and a block. -/
def sampleCalls : List Call :=
  [.initGenesis [(coin 1, false), (coin 2, false)] 10, .applyBlock blockOne]

/-- A question, the block once more, and a rollback. -/
def laterCalls : List Call := [.stateRoot, .applyBlock blockOne, .rollbackToBlock 0]

theorem legal_sampleCalls (l : Ledger) : machine.Legal Allows l sampleCalls :=
  ⟨.inl trivial, .inl blockOne_fits.1.claimsItsCoins, trivial⟩

theorem legal_laterCalls (l : Ledger) :
    machine.Legal AllowsCoins l laterCalls :=
  ⟨⟨.inl trivial, rfl⟩, ⟨.inl blockOne_fits.1.claimsItsCoins, rfl⟩, ⟨.inl trivial, rfl⟩, trivial⟩

theorem legal_allCalls (l : Ledger) : machine.Legal Allows l (sampleCalls ++ laterCalls) :=
  machine.legal_append.2 ⟨legal_sampleCalls l, .inl trivial,
    .inl blockOne_fits.1.claimsItsCoins, .inl trivial, trivial⟩

theorem run_sampleCalls : CoinStore.machine.run opened sampleCalls = afterOne := by
  have hgenesis : ∀ (s : CoinStore) coins timestamp,
      (CoinStore.machine.step s (.initGenesis coins timestamp)).1 = (s.initGenesis coins timestamp).1 :=
    fun _ _ _ => rfl
  have happly : ∀ (s : CoinStore) block,
      (CoinStore.machine.step s (.applyBlock block)).1 = (s.applyBlock block).1 := fun _ _ => rfl
  rw [sampleCalls, Machine.run_cons, Machine.run_cons, Machine.run_nil, hgenesis, happly, afterOne,
    genesis]

theorem store_log_eq_sample : CoinStore.machine.log opened (sampleCalls ++ laterCalls) =
    machine.log (.blank { maxSnapshots := 1 }) (sampleCalls ++ laterCalls) :=
  store_log_eq (CoinStore.withConfig_fresh_eq _) (legal_allCalls _)

theorem struck_log_eq_sample :
    let keep : Call × Answer → Bool := fun entry => !(entry.1.asks || entry.2.failed)
    CoinStore.machine.log opened (CoinStore.machine.kept keep opened (sampleCalls ++ laterCalls)) =
      (CoinStore.machine.log opened (sampleCalls ++ laterCalls)).filter keep :=
  struck_log_eq (CoinStore.withConfig_fresh_eq _) (legal_allCalls _) _ fun entry h => by
    cases hasks : entry.1.asks with
    | true => exact .inl rfl
    | false => exact .inr (by simpa [hasks] using h)

theorem restart_log_eq_sample :
    ∃ s', CoinStore.withConfig afterOne.config afterOne.backend = .ok s' ∧
      CoinStore.machine.log s' laterCalls = CoinStore.machine.log afterOne laterCalls := by
  rw [← run_sampleCalls]
  exact restart_log_eq (CoinStore.withConfig_fresh_eq _) (legal_allCalls _)

theorem replica_log_eq_sample :
    ∃ snap replica, afterOne.snapshot = .ok snap ∧ opened.restore snap = (replica, .ok ()) ∧
      CoinStore.machine.log replica laterCalls = CoinStore.machine.log afterOne laterCalls := by
  obtain ⟨snap, hsnap⟩ : ∃ snap, afterOne.snapshot = .ok snap := by
    cases hsnap : afterOne.snapshot with
    | ok snap => exact ⟨snap, rfl⟩
    | error e =>
      have hok : afterOne.snapshot.isOk = true := by decide +kernel
      rw [hsnap] at hok
      cases hok
  rw [← run_sampleCalls] at hsnap ⊢
  have hblank : machine.Legal Allows (.blank opened.config) [] := trivial
  obtain ⟨replica, hrestore, hlog⟩ := replica_log_eq (CoinStore.withConfig_fresh_eq _)
    (CoinStore.withConfig_fresh_eq opened.config) (legal_sampleCalls _) hblank hsnap
  exact ⟨snap, replica, hsnap, hrestore, hlog _ (legal_laterCalls _)⟩

end DigCoinstore.Ledger
