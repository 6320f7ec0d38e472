import DigCoinstore.LedgerRefinement

/-!
# Checkpoints over runs

A checkpoint is the snapshot of a state that the run has passed, so that restoring it goes back to
that state (`Ledger.checkpoint_origin`). The retained heights are those of the checkpoints that can
be loaded, in order and no more than the limit (`Ledger.checkpoint_heights`), and one of them is
dropped only when the limit is filled by greater ones (`Ledger.checkpoint_kept`).
-/

namespace DigCoinstore

/-! ## What pruning keeps -/

section prune
variable {checkpoints : OrdMap.Map UInt64 CoinStoreSnapshot} {n : Nat} {height : UInt64}

theorem mem_keys_iff : height ∈ checkpoints.keys ↔ ∃ snap, checkpoints[height]? = some snap := by
  rw [Std.ExtTreeMap.mem_keys, Std.ExtTreeMap.mem_iff_isSome_getElem?, Option.isSome_iff_exists]

/-- More heights, more of them above. -/
theorem heightsAbove_mono {heights heights' : List UInt64} (hnd : heights.Nodup)
    (hsub : heights ⊆ heights') (height : UInt64) :
    (heightsAbove heights height).length ≤ (heightsAbove heights' height).length :=
  ((hnd.filter _).subperm fun _ ha =>
    List.mem_filter.2 ⟨hsub (List.mem_filter.1 ha).1, (List.mem_filter.1 ha).2⟩).length_le

namespace Ledger

theorem keepGreatest_get (hn : 0 < n) : (keepGreatest checkpoints n)[height]? =
    if (heightsAbove checkpoints.keys height).length < n then checkpoints[height]? else none := by
  rw [keepGreatest, if_neg (Nat.pos_iff_ne_zero.1 hn), Std.ExtTreeMap.getElem?_filter']
  split
  · next hlt => cases checkpoints[height]? <;> simp [hlt]
  · next hlt => cases checkpoints[height]? <;> simp [hlt]

theorem mem_keys_keepGreatest (hn : 0 < n) : height ∈ (keepGreatest checkpoints n).keys ↔
    height ∈ checkpoints.keys ∧ (heightsAbove checkpoints.keys height).length < n := by
  rw [mem_keys_iff, keepGreatest_get hn, mem_keys_iff]
  split
  · next hlt => exact ⟨fun h => ⟨h, hlt⟩, fun h => h.1⟩
  · next hlt => exact ⟨fun ⟨_, h⟩ => (nomatch h), fun h => absurd h.2 hlt⟩

/-- As many as the limit allows. -/
theorem length_keepGreatest (hn : 0 < n) :
    (keepGreatest checkpoints n).keys.length = min n checkpoints.keys.length := by
  have hkept : ∀ height, height ∈ (keepGreatest checkpoints n).keys ↔
      height ∈ checkpoints.keys ∧ height ∉ Retention.dropped UInt64.toNat checkpoints.keys n := by
    intro height
    rw [mem_keys_keepGreatest hn]
    refine and_congr_right fun hmem => ?_
    rw [Retention.mem_dropped_iff toNat_injective Std.ExtTreeMap.nodup_keys hmem, Nat.not_le,
      heightsAbove_eq]
  exact Retention.length_kept_eq n Std.ExtTreeMap.nodup_keys Std.ExtTreeMap.nodup_keys hkept

/-- `n` greater heights are retained. -/
def Superseded (checkpoints : OrdMap.Map UInt64 CoinStoreSnapshot) (n : Nat) (height : UInt64) : Prop :=
  n ≤ (heightsAbove checkpoints.keys height).length

/-- The last entry is that of the greatest height. -/
theorem latest_iff (snap : CoinStoreSnapshot) :
    checkpoints.toList.getLast? = some (height, snap) ↔
      checkpoints[height]? = some snap ∧ ∀ height' ∈ checkpoints.keys, height' ≤ height := by
  have hgreatest : ∀ {kv}, checkpoints.toList.getLast? = some kv →
      checkpoints[kv.1]? = some kv.2 ∧ ∀ height' ∈ checkpoints.keys, height' ≤ kv.1 := by
    intro kv hlast
    obtain ⟨init, hinit⟩ := List.getLast?_eq_some_iff.1 hlast
    refine ⟨OrdMap.mem_toList.1 (hinit ▸ List.mem_append_right _ (.head _)), fun height' hmem => ?_⟩
    obtain ⟨snap', hget⟩ := mem_keys_iff.1 hmem
    have hmem' : (height', snap') ∈ init ++ [kv] := hinit ▸ OrdMap.mem_toList.2 hget
    have hordered : checkpoints.toList.Pairwise fun a b => compare a.1 b.1 = .lt :=
      Std.ExtTreeMap.ordered_keys_toList
    rw [hinit, List.pairwise_append] at hordered
    rcases List.mem_append.1 hmem' with hold | hlast
    · exact UInt64.le_of_lt (Std.compare_eq_lt.1 (hordered.2.2 _ hold _ (.head _)))
    · obtain rfl := List.mem_singleton.1 hlast
      exact UInt64.le_refl _
  constructor
  · exact fun hlast => hgreatest hlast
  · rintro ⟨hget, habove⟩
    have hne : checkpoints.toList ≠ [] := List.ne_nil_of_mem (OrdMap.mem_toList.2 hget)
    have hlast := List.getLast?_eq_some_getLast hne
    obtain ⟨hget', habove'⟩ := hgreatest hlast
    have hheight : (checkpoints.toList.getLast hne).1 = height := UInt64.le_antisymm
      (habove _ (mem_keys_iff.2 ⟨_, hget'⟩)) (habove' _ (mem_keys_iff.2 ⟨_, hget⟩))
    rw [hheight, hget] at hget'
    rw [hlast, Option.some.inj hget', ← hheight]

/-- What has been superseded stays so: pruning keeps only greater heights then. -/
theorem Superseded.keepGreatest (hn : 0 < n) (h : Superseded checkpoints n height) :
    Superseded (keepGreatest checkpoints n) n height := by
  have hall : heightsAbove (Ledger.keepGreatest checkpoints n).keys height =
      (Ledger.keepGreatest checkpoints n).keys := by
    refine List.filter_eq_self.2 fun kept hkept => ?_
    obtain ⟨hmem, hlt⟩ := (mem_keys_keepGreatest hn).1 hkept
    refine decide_eq_true (UInt64.not_le.1 fun hle => ?_)
    -- at most as many lie above `kept` as above `height`, were it the greater one
    have hsub : heightsAbove checkpoints.keys height ⊆ heightsAbove checkpoints.keys kept :=
      fun a ha => List.mem_filter.2 ⟨(List.mem_filter.1 ha).1,
        decide_eq_true (UInt64.lt_of_le_of_lt hle (of_decide_eq_true (List.mem_filter.1 ha).2))⟩
    have hlen := ((Std.ExtTreeMap.nodup_keys.filter _).subperm hsub).length_le
    exact absurd (h.trans hlen) (Nat.not_le.2 hlt)
  have hlen : (heightsAbove checkpoints.keys height).length ≤ checkpoints.keys.length :=
    List.length_filter_le ..
  rw [Superseded, hall, length_keepGreatest hn]
  exact Nat.le_min.2 ⟨le_rfl, h.trans hlen⟩

theorem Superseded.insert (h : Superseded checkpoints n height) (height' : UInt64)
    (snap : CoinStoreSnapshot) : Superseded (checkpoints.insert height' snap) n height := by
  refine h.trans (heightsAbove_mono Std.ExtTreeMap.nodup_keys (fun a ha => ?_) height)
  obtain ⟨snap', hget⟩ := mem_keys_iff.1 ha
  rw [mem_keys_iff, OrdMap.getElem?_insert]
  split
  · exact ⟨_, rfl⟩
  · exact ⟨_, hget⟩

end Ledger

end prune

/-! ## One call -/

variable [Chia]

namespace Ledger

variable {l : Ledger} {call : Call} {height : UInt64} {snap : CoinStoreSnapshot} {n : Nat}

omit [Chia] in
theorem rollbackToBlock_checkpoints (l : Ledger) (target : Int64) :
    (l.rollbackToBlock target).1.checkpoints = l.checkpoints ∧
      (l.rollbackToBlock target).1.maxSnapshots = l.maxSnapshots := by
  unfold rollbackToBlock
  split
  · exact ⟨rfl, rfl⟩
  · split
    · exact ⟨rfl, rfl⟩
    · split <;> exact ⟨rfl, rfl⟩

/-- What a call does to the checkpoints. -/
theorem step_checkpoints (l : Ledger) (call : Call) :
    ((l.step call).1.checkpoints = l.checkpoints ∧ (l.step call).1.maxSnapshots = l.maxSnapshots) ∨
    (∃ entries snap, call = .saveSnapshot entries ∧ l.snapshot = .ok snap ∧
      (l.step call).1 = { l with
        checkpoints := keepGreatest (l.checkpoints.insert l.height snap) l.maxSnapshots }) ∨
    (∃ snap, call = .restore snap ∧ (l.step call).1 = l.restore snap) ∨
    ∃ config, call = .reopen config ∧
      (l.step call).1 = { l with maxSnapshots := config.maxSnapshots } := by
  cases call with
  | saveSnapshot entries =>
    cases hsnap : l.snapshot with
    | error e =>
      refine .inl ?_
      rw [step, saveSnapshot, hsnap]
      exact ⟨rfl, rfl⟩
    | ok snap =>
      refine .inr (.inl ⟨entries, snap, rfl, rfl, ?_⟩)
      rw [step, saveSnapshot, hsnap]
      rfl
  | restore snap => exact .inr (.inr (.inl ⟨snap, rfl, rfl⟩))
  | reopen config => exact .inr (.inr (.inr ⟨config, rfl, rfl⟩))
  | initGenesis coins timestamp =>
    left
    simp only [step, initGenesis]
    split <;> exact ⟨rfl, rfl⟩
  | applyBlock block =>
    left
    simp only [step, applyBlock]
    split
    · exact ⟨rfl, rfl⟩
    · split <;> exact ⟨rfl, rfl⟩
  | rollbackToBlock target => exact .inl (rollbackToBlock_checkpoints l target)
  | rollbackNBlocks n =>
    left
    simp only [step, rollbackNBlocks]
    split
    · exact ⟨rfl, rfl⟩
    · split
      · exact ⟨rfl, rfl⟩
      · exact rollbackToBlock_checkpoints l _
  | addHint coinId hint =>
    left
    simp only [step, addHint]
    split <;> exact ⟨rfl, rfl⟩
  | _ => exact .inl ⟨rfl, rfl⟩

theorem snapshot_height (hsnap : l.snapshot = .ok snap) : snap.height = l.height := by
  unfold snapshot at hsnap
  split at hsnap
  · cases hsnap
  · obtain ⟨_, _, hok⟩ := Res.bind_eq_ok.1 hsnap
    obtain rfl := Except.ok.inj hok
    rfl

/-- The call saves `snap`, at the height of the tip. -/
def Saves (l : Ledger) (height : UInt64) (snap : CoinStoreSnapshot) (call : Call) : Prop :=
  (∃ entries, call = .saveSnapshot entries) ∧ l.height = height ∧ l.snapshot = .ok snap

/-- A checkpoint is new only if the ledger is captured. -/
theorem step_checkpoint_origin (l : Ledger) (call : Call)
    (h : (l.step call).1.checkpoints[height]? = some snap) :
    l.checkpoints[height]? = some snap ∨ l.Saves height snap call := by
  rcases l.step_checkpoints call with ⟨hsame, -⟩ | ⟨entries, captured, rfl, hsnap, hnext⟩ |
    ⟨restored, rfl, hnext⟩ | ⟨config, rfl, hnext⟩
  · rw [hsame] at h
    exact .inl h
  · rw [hnext] at h
    have hinsert : (l.checkpoints.insert l.height captured)[height]? = some snap := by
      rcases Nat.eq_zero_or_pos l.maxSnapshots with hzero | hpos
      · rwa [keepGreatest, if_pos hzero] at h
      · dsimp only at h
        rw [keepGreatest_get hpos] at h
        split at h
        · exact h
        · cases h
    rw [OrdMap.getElem?_insert] at hinsert
    split at hinsert
    · next heq => exact .inr ⟨⟨entries, rfl⟩, heq, by rw [hsnap, Option.some.inj hinsert]⟩
    · exact .inl hinsert
  · rw [hnext] at h
    simp [restore] at h
  · rw [hnext] at h
    exact .inl h

end Ledger

/-- A reopen sets a positive limit of at most `n`. -/
def Call.KeepsLimit (n : Nat) : Call → Prop
  | .reopen config => 0 < config.maxSnapshots ∧ config.maxSnapshots ≤ n
  | _ => True

/-- A reopen leaves the limit at `n`. -/
def Call.SameLimit (n : Nat) : Call → Prop
  | .reopen config => config.maxSnapshots = n
  | _ => True

omit [Chia] in
theorem Call.SameLimit.keepsLimit {n : Nat} {call : Call} (hn : 0 < n) (h : call.SameLimit n) :
    call.KeepsLimit n := by
  cases call with
  | reopen config => exact ⟨h.symm ▸ hn, Nat.le_of_eq h⟩
  | _ => trivial

namespace Ledger

variable {l : Ledger} {call : Call} {height : UInt64} {snap : CoinStoreSnapshot} {n : Nat}

/-- At most `n` checkpoints, under a positive limit of at most `n`. -/
structure Limited (n : Nat) (l : Ledger) : Prop where
  pos : 0 < l.maxSnapshots
  limit : l.maxSnapshots ≤ n
  length_le : l.checkpoints.keys.length ≤ n

theorem Limited.step (h : l.Limited n) (hcall : call.KeepsLimit n) : (l.step call).1.Limited n := by
  rcases l.step_checkpoints call with ⟨hsame, hmax⟩ | ⟨entries, captured, rfl, -, hnext⟩ |
    ⟨restored, rfl, hnext⟩ | ⟨config, rfl, hnext⟩
  · exact ⟨hmax ▸ h.pos, hmax ▸ h.limit, hsame ▸ h.length_le⟩
  · rw [hnext]
    refine ⟨h.pos, h.limit, ?_⟩
    dsimp only
    rw [length_keepGreatest h.pos]
    exact (Nat.min_le_left ..).trans h.limit
  · rw [hnext]
    exact ⟨h.pos, h.limit, Nat.zero_le n⟩
  · rw [hnext]
    exact ⟨hcall.1, hcall.2, h.length_le⟩

/-- The limit is `n`. -/
def HasLimit (n : Nat) (l : Ledger) : Prop := l.maxSnapshots = n

theorem HasLimit.step (h : l.HasLimit n) (hcall : call.SameLimit n) : (l.step call).1.HasLimit n := by
  rcases l.step_checkpoints call with ⟨-, hmax⟩ | ⟨entries, captured, rfl, -, hnext⟩ |
    ⟨restored, rfl, hnext⟩ | ⟨config, rfl, hnext⟩
  · exact hmax.trans h
  · rw [hnext]
    exact h
  · rw [hnext]
    exact h
  · rw [hnext]
    exact hcall

/-- The height is retained, or `n` greater ones are. -/
def Holds (n : Nat) (height : UInt64) (l : Ledger) : Prop :=
  height ∈ l.checkpoints.keys ∨ Superseded l.checkpoints n height

theorem Holds.step (hn : 0 < n) (hlimit : l.HasLimit n) (h : l.Holds n height)
    (hcall : ∀ snap, call ≠ .restore snap) : (l.step call).1.Holds n height := by
  rcases l.step_checkpoints call with ⟨hsame, -⟩ | ⟨entries, captured, rfl, -, hnext⟩ |
    ⟨restored, rfl, -⟩ | ⟨config, rfl, hnext⟩
  · rw [Holds, hsame]
    exact h
  · rw [hnext, Holds, show l.maxSnapshots = n from hlimit]
    have hinsert : height ∈ (l.checkpoints.insert l.height captured).keys ∨
        Superseded (l.checkpoints.insert l.height captured) n height := by
      refine h.imp (fun hmem => ?_) fun hsup => hsup.insert _ _
      obtain ⟨snap, hget⟩ := mem_keys_iff.1 hmem
      rw [mem_keys_iff, OrdMap.getElem?_insert]
      split
      · exact ⟨_, rfl⟩
      · exact ⟨_, hget⟩
    rcases Nat.lt_or_ge
      (heightsAbove (l.checkpoints.insert l.height captured).keys height).length n with hlt | hge
    · exact .inl ((mem_keys_keepGreatest hn).2
        ⟨hinsert.resolve_right (Nat.not_le.2 hlt), hlt⟩)
    · exact .inr (Superseded.keepGreatest hn hge)
  · exact absurd rfl (hcall restored)
  · rw [hnext]
    exact h

/-! ## Runs -/

variable {config : CoinStoreConfig} {s : CoinStore} {calls calls' : List Call}

/-- A checkpoint at the end of a run was there before, or a call of the run has saved it. -/
theorem run_checkpoint_origin (h : (machine.run l calls).checkpoints[height]? = some snap) :
    l.checkpoints[height]? = some snap ∨ ∃ before call after, calls = before ++ call :: after ∧
      (machine.run l before).Saves height snap call :=
  Machine.exists_origin (M := machine) (P := fun l call => l.Saves height snap call)
    (Q := fun l => l.checkpoints[height]? = some snap) (fun l call => l.step_checkpoint_origin call) h

/-- A new store has no checkpoints. -/
theorem run_checkpoint_saved
    (h : (machine.run (.blank config) calls).checkpoints[height]? = some snap) :
    ∃ before call after, calls = before ++ call :: after ∧
      (machine.run (.blank config) before).Saves height snap call :=
  (run_checkpoint_origin h).resolve_left (by simp [blank])

/-- A checkpoint is stored under its own height. -/
theorem run_checkpoint_height
    (h : (machine.run (.blank config) calls).checkpoints[height]? = some snap) :
    snap.height = height := by
  obtain ⟨before, call, after, -, -, hheight, hsnap⟩ := run_checkpoint_saved h
  exact (snapshot_height hsnap).trans hheight

theorem run_limited (hn : 0 < config.maxSnapshots)
    (hcalls : ∀ call ∈ calls, call.KeepsLimit config.maxSnapshots) :
    (machine.run (.blank config) calls).Limited config.maxSnapshots := by
  have hlegal : machine.Legal (fun _ => Call.KeepsLimit config.maxSnapshots) (.blank config) calls :=
    Machine.legal_of_forall fun call hcall _ => hcalls call hcall
  exact hlegal.inv (I := Limited config.maxSnapshots) (fun h hcall => h.step hcall)
    ⟨hn, le_rfl, Nat.zero_le _⟩

theorem run_hasLimit (hcalls : ∀ call ∈ calls, call.SameLimit config.maxSnapshots) :
    (machine.run (.blank config) calls).HasLimit config.maxSnapshots := by
  have hlegal : machine.Legal (fun _ => Call.SameLimit config.maxSnapshots) (.blank config) calls :=
    Machine.legal_of_forall fun call hcall _ => hcalls call hcall
  exact hlegal.inv (I := HasLimit config.maxSnapshots) (fun h hcall => h.step hcall) rfl

/-- **A checkpoint comes from the run**: it is the snapshot of a state that the run has passed, and
the store that restores it answers every later run of calls about coins as that state would. -/
theorem checkpoint_origin (hopen : CoinStore.withConfig config .fresh = .ok s)
    (hlegal : machine.Legal Allows (.blank config) calls)
    (hload : (CoinStore.machine.run s calls).loadSnapshot height = .ok (some snap)) :
    ∃ before after, calls = before ++ after ∧
      (CoinStore.machine.run s before).height = height ∧
      (CoinStore.machine.run s before).snapshot = .ok snap ∧
      ∃ replica, (CoinStore.machine.run s calls).restore snap = (replica, .ok ()) ∧
        ∀ later, machine.Legal AllowsCoins (machine.run (.blank config) before) later →
          CoinStore.machine.log replica later =
            CoinStore.machine.log (CoinStore.machine.run s before) later := by
  have htracks := (run_tracks hopen hlegal).2
  rw [htracks.loadSnapshot_eq] at hload
  obtain ⟨before, call, after, rfl, -, hheight, hsnap⟩ :=
    run_checkpoint_saved (Except.ok.inj hload)
  have hbefore := (run_tracks hopen (machine.legal_append.1 hlegal).1).2
  have hssnap := hbefore.snapshot_eq.trans hsnap
  exact ⟨before, call :: after, rfl, hbefore.height.trans hheight, hssnap,
    restored_log_eq hbefore htracks hssnap⟩

/-- **The retained heights** are those of the checkpoints that can be loaded, in ascending order, and
no more than the limit; the latest checkpoint is that of the greatest height. -/
theorem checkpoint_heights (hopen : CoinStore.withConfig config .fresh = .ok s)
    (hlegal : machine.Legal Allows (.blank config) calls) :
    ∃ heights, (CoinStore.machine.run s calls).availableSnapshotHeights = .ok heights ∧
      heights.Pairwise (· < ·) ∧
      (∀ height, height ∈ heights ↔ ∃ snap, snap.height = height ∧
        (CoinStore.machine.run s calls).loadSnapshot height = .ok (some snap)) ∧
      (∀ snap, (CoinStore.machine.run s calls).loadLatestSnapshot = .ok (some snap) ↔
        (CoinStore.machine.run s calls).loadSnapshot snap.height = .ok (some snap) ∧
          ∀ height ∈ heights, height ≤ snap.height) ∧
      (0 < config.maxSnapshots → (∀ call ∈ calls, call.KeepsLimit config.maxSnapshots) →
        heights.length ≤ config.maxSnapshots) := by
  have htracks := (run_tracks hopen hlegal).2
  refine ⟨_, htracks.availableSnapshotHeights_eq, ?_, fun height => ?_, fun snap => ?_,
    fun hn hcalls => (run_limited hn hcalls).length_le⟩
  · exact Std.ExtTreeMap.ordered_keys.imp fun hlt => Std.compare_eq_lt.1 hlt
  · rw [mem_keys_iff, htracks.loadSnapshot_eq]
    exact ⟨fun ⟨snap, hget⟩ => ⟨snap, run_checkpoint_height hget, congrArg Except.ok hget⟩,
      fun ⟨snap, _, hget⟩ => ⟨snap, Except.ok.inj hget⟩⟩
  · rw [htracks.loadLatestSnapshot_eq, htracks.loadSnapshot_eq, Except.ok.injEq, Except.ok.injEq,
      ← latest_iff, Option.map_eq_some_iff]
    constructor
    · rintro ⟨⟨height, snap⟩, hlast, rfl⟩
      have hget := ((latest_iff _).1 hlast).1
      rwa [run_checkpoint_height hget]
    · exact fun hlast => ⟨_, hlast, rfl⟩

/-- **A checkpoint is dropped only for greater ones**: under a positive limit that no reopen changes,
and without a restore, a checkpoint is found as it was, or as a later save at its height made it, or
as many greater heights are retained as the limit allows. -/
theorem checkpoint_kept (hopen : CoinStore.withConfig config .fresh = .ok s)
    (hlegal : machine.Legal Allows (.blank config) (calls ++ calls')) (hn : 0 < config.maxSnapshots)
    (hlimit : ∀ call ∈ calls ++ calls', call.SameLimit config.maxSnapshots)
    (hrestore : ∀ snap, .restore snap ∉ calls')
    (hload : (CoinStore.machine.run s calls).loadSnapshot height = .ok (some snap)) :
    (∃ snap', (CoinStore.machine.run s (calls ++ calls')).loadSnapshot height = .ok (some snap') ∧
      (snap' = snap ∨ ∃ before entries after, calls' = before ++ .saveSnapshot entries :: after ∧
        (CoinStore.machine.run s (calls ++ before)).height = height ∧
        (CoinStore.machine.run s (calls ++ before)).snapshot = .ok snap')) ∨
      ∃ heights, (CoinStore.machine.run s (calls ++ calls')).availableSnapshotHeights = .ok heights ∧
        heights.length = config.maxSnapshots ∧ ∀ retained ∈ heights, height < retained := by
  have hbefore := (run_tracks hopen (machine.legal_append.1 hlegal).1).2
  have hafter := (run_tracks hopen hlegal).2
  rw [hbefore.loadSnapshot_eq] at hload
  have hget := Except.ok.inj hload
  have hlimited := run_limited hn fun call hcall => (hlimit call hcall).keepsLimit hn
  obtain ⟨-, hholds⟩ :
      (machine.run (.blank config) (calls ++ calls')).HasLimit config.maxSnapshots ∧
        (machine.run (.blank config) (calls ++ calls')).Holds config.maxSnapshots height := by
    have hlater : machine.Legal
        (fun _ call => call.SameLimit config.maxSnapshots ∧ ∀ snap, call ≠ .restore snap)
        (machine.run (.blank config) calls) calls' :=
      Machine.legal_of_forall fun call hcall _ => ⟨hlimit call (List.mem_append_right _ hcall),
        fun snap heq => hrestore snap (heq ▸ hcall)⟩
    rw [Machine.run_append]
    exact hlater.inv
      (I := fun l : Ledger => l.HasLimit config.maxSnapshots ∧ l.Holds config.maxSnapshots height)
      (fun ⟨hl, hh⟩ hcall => ⟨hl.step hcall.1, hh.step hn hl hcall.2⟩)
      ⟨run_hasLimit fun call hcall => hlimit call (List.mem_append_left _ hcall),
        .inl (mem_keys_iff.2 ⟨snap, hget⟩)⟩
  rcases hholds with hmem | hsup
  · obtain ⟨snap', hget'⟩ := mem_keys_iff.1 hmem
    refine .inl ⟨snap', (hafter.loadSnapshot_eq height).trans (congrArg Except.ok hget'), ?_⟩
    rw [Machine.run_append] at hget'
    rcases run_checkpoint_origin hget' with hold | ⟨before, call, after, rfl, hsaves⟩
    · exact .inl (Option.some.inj (hold.symm.trans hget))
    · obtain ⟨⟨entries, rfl⟩, hheight, hsnap⟩ := hsaves
      rw [← List.append_assoc] at hlegal
      have hsaved := (run_tracks hopen (machine.legal_append.1 hlegal).1).2
      rw [← Machine.run_append] at hheight hsnap
      exact .inr ⟨before, entries, after, rfl, hsaved.height.trans hheight,
        hsaved.snapshot_eq.trans hsnap⟩
  · have hle := hlimited.length_le
    have hfilter := List.length_filter_le (height < ·)
      (machine.run (.blank config) (calls ++ calls')).checkpoints.keys
    have hall : (heightsAbove (machine.run (.blank config) (calls ++ calls')).checkpoints.keys
        height).length = (machine.run (.blank config) (calls ++ calls')).checkpoints.keys.length :=
      Nat.le_antisymm hfilter (hle.trans hsup)
    refine .inr ⟨_, hafter.availableSnapshotHeights_eq, Nat.le_antisymm hle (hsup.trans hfilter),
      fun retained hmem => ?_⟩
    exact of_decide_eq_true (List.length_filter_eq_length_iff.1 hall retained hmem)

end Ledger

end DigCoinstore

/-! ## A run -/

namespace DigCoinstore.Ledger

open Sample

/-- The checkpoint of height 1. -/
def savingCalls : List Call := sampleCalls ++ [.saveSnapshot (snapshotEntries afterOne)]

/-- The tip is rolled back below it. -/
def unwindingCalls : List Call := [.rollbackToBlock 0]

theorem savingCalls_facts : (snapshotEntries afterOne).length < 2 ^ 64 ∧
    (CoinStore.machine.run opened savingCalls).availableSnapshotHeights.toOption = some [1] ∧
    (CoinStore.machine.run opened (savingCalls ++ unwindingCalls)).availableSnapshotHeights.toOption =
      some [1] := by
  decide +kernel

theorem legal_savingCalls : machine.Legal Allows (.blank opened.config) savingCalls := by
  refine machine.legal_append.2 ⟨legal_sampleCalls _, .inl fun snap hsnap => ?_, trivial⟩
  have htracks := (run_tracks (CoinStore.withConfig_fresh_eq opened.config)
    (legal_sampleCalls (.blank opened.config))).2
  rw [show CoinStore.blank opened.config = opened from rfl, run_sampleCalls] at htracks
  exact iterates_snapshotEntries savingCalls_facts.1 snap (htracks.snapshot_eq.trans hsnap)

theorem legal_unwound :
    machine.Legal Allows (.blank opened.config) (savingCalls ++ unwindingCalls) :=
  machine.legal_append.2 ⟨legal_savingCalls, .inl trivial, trivial⟩

/-- A height that is listed can be loaded. -/
theorem exists_checkpoint {calls : List Call}
    (hlegal : machine.Legal Allows (.blank opened.config) calls)
    (hheights : (CoinStore.machine.run opened calls).availableSnapshotHeights.toOption = some [1]) :
    ∃ snap, (CoinStore.machine.run opened calls).loadSnapshot 1 = .ok (some snap) := by
  have htracks := (run_tracks (CoinStore.withConfig_fresh_eq opened.config) hlegal).2
  have hkeys := htracks.availableSnapshotHeights_eq.symm.trans (Res.eq_ok_of_toOption hheights)
  have hmem : (1 : UInt64) ∈ (machine.run (.blank opened.config) calls).checkpoints.keys := by
    rw [Except.ok.inj hkeys]
    exact .head _
  obtain ⟨snap, hget⟩ := mem_keys_iff.1 hmem
  exact ⟨snap, (htracks.loadSnapshot_eq 1).trans (congrArg Except.ok hget)⟩

theorem checkpoint_origin_unwound : ∃ snap before after,
    (CoinStore.machine.run opened (savingCalls ++ unwindingCalls)).loadSnapshot 1 = .ok (some snap) ∧
    savingCalls ++ unwindingCalls = before ++ after ∧
    (CoinStore.machine.run opened before).height = 1 ∧
    (CoinStore.machine.run opened before).snapshot = .ok snap := by
  obtain ⟨snap, hload⟩ := exists_checkpoint legal_unwound savingCalls_facts.2.2
  obtain ⟨before, after, hcalls, hheight, hsnap, -⟩ :=
    checkpoint_origin (CoinStore.withConfig_fresh_eq opened.config) legal_unwound hload
  exact ⟨snap, before, after, hload, hcalls, hheight, hsnap⟩

theorem checkpoint_heights_unwound : ∃ heights,
    (CoinStore.machine.run opened (savingCalls ++ unwindingCalls)).availableSnapshotHeights =
      .ok heights ∧ heights.length ≤ 1 := by
  obtain ⟨heights, havailable, -, -, -, hle⟩ :=
    checkpoint_heights (CoinStore.withConfig_fresh_eq opened.config) legal_unwound
  refine ⟨heights, havailable, hle Nat.one_pos fun call hcall => ?_⟩
  simp only [savingCalls, sampleCalls, unwindingCalls, List.cons_append, List.nil_append,
    List.mem_cons, List.not_mem_nil, or_false] at hcall
  rcases hcall with rfl | rfl | rfl | rfl <;> exact trivial

theorem checkpoint_kept_unwound : ∃ snap,
    (CoinStore.machine.run opened savingCalls).loadSnapshot 1 = .ok (some snap) ∧
    ((∃ snap', (CoinStore.machine.run opened (savingCalls ++ unwindingCalls)).loadSnapshot 1 =
        .ok (some snap') ∧ (snap' = snap ∨ ∃ before entries after,
          unwindingCalls = before ++ .saveSnapshot entries :: after ∧
          (CoinStore.machine.run opened (savingCalls ++ before)).height = 1 ∧
          (CoinStore.machine.run opened (savingCalls ++ before)).snapshot = .ok snap')) ∨
      ∃ heights, (CoinStore.machine.run opened
          (savingCalls ++ unwindingCalls)).availableSnapshotHeights = .ok heights ∧
        heights.length = 1 ∧ ∀ retained ∈ heights, 1 < retained) := by
  obtain ⟨snap, hload⟩ := exists_checkpoint legal_savingCalls savingCalls_facts.2.1
  refine ⟨snap, hload, ?_⟩
  refine checkpoint_kept (CoinStore.withConfig_fresh_eq opened.config) legal_unwound Nat.one_pos
    (fun call hcall => ?_) (fun snap hmem => ?_) hload
  · simp only [savingCalls, sampleCalls, unwindingCalls, List.cons_append, List.nil_append,
      List.mem_cons, List.not_mem_nil, or_false] at hcall
    rcases hcall with rfl | rfl | rfl | rfl <;> exact trivial
  · simp [unwindingCalls] at hmem

end DigCoinstore.Ledger
