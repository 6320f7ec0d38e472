import DigCoinstore.History
import DigCoinstore.RoundTrip

/-!
# No coin is spent twice

In every state of a run the stored heights are those of the chain, and a spent record stays as it
is until a rollback to below its spend height or a restore, so a block that removes a spent coin
is rejected (`Reachable.no_double_spend`). A restore replaces the records by those of the
snapshot, also where these are older.
-/

namespace DigCoinstore

/-- What a rollback to `target` makes of a record spent at `spentH`: it stays, its spend is
cleared, or it is deleted with its coin. -/
inductive UnwoundTo (target spentH : UInt64) (rec : CoinRecord) : Option CoinRecord → Prop
  | kept : spentH ≤ target → UnwoundTo target spentH rec (some rec)
  | cleared {ffEligible : Bool} : target < spentH → rec.confirmedHeight ≤ target →
    UnwoundTo target spentH rec (some { rec with spentHeight := none, ffEligible })
  | deleted : target < spentH → target < rec.confirmedHeight → UnwoundTo target spentH rec none

variable [Chia]

omit [Chia] in
/-- A rollback of the coin set unwinds a spent record. -/
theorem Coinset.unwoundTo_rollback {m : Coinset} {id : CoinId} {rec : CoinRecord}
    {target spentH : UInt64} (hm : m id = some rec) (hs : rec.spentHeight = some spentH)
    (hlt : rec.confirmedHeight < spentH) :
    UnwoundTo target spentH rec (m.rollback target id) := by
  rcases UInt64.lt_or_le target rec.confirmedHeight with hconf | hconf
  · rw [rollback_of_deleted hm hconf]
    exact .deleted (UInt64.lt_trans hconf hlt) hconf
  · rcases UInt64.lt_or_le target spentH with hspent | hspent
    · rw [rollback_of_revived hm hconf hs hspent]
      exact .cleared hspent hconf
    · rw [rollback_of_kept hm hconf fun sh hsh => ?_]
      · exact .kept hspent
      · rwa [← Option.some.inj (hs.symm.trans hsh)]

namespace CoinStore

/-- **Every coin is spent at most once**; `Source` are the stores whose snapshots may be restored. -/
structure SpendsOnce (Source : CoinStore → Prop) (s : CoinStore) : Prop where
  /-- Confirmed by the tip, and spent after that and by the tip. -/
  heights : ∀ {id rec}, s.getCoinRecord id = .ok (some rec) → rec.confirmedHeight ≤ s.height ∧
    ∀ spentH, rec.spentHeight = some spentH → rec.confirmedHeight < spentH ∧ spentH ≤ s.height
  /-- A removal of a spent coin rejects the block. -/
  rejected : ∀ {block : BlockData} {id rec}, id ∈ block.removals →
    s.getCoinRecord id = .ok (some rec) → rec.isSpent = true →
    ∃ e, s.applyBlock block = (s, .error e)
  kept : ∀ {s' id rec}, OtherCall s s' → s.getCoinRecord id = .ok (some rec) →
    rec.isSpent = true → s'.getCoinRecord id = .ok (some rec)
  rollback : ∀ {target id rec spentH}, s.getCoinRecord id = .ok (some rec) →
    rec.spentHeight = some spentH →
    (∃ e, s.rollbackToBlock target = (s, .error e)) ∨
      ∃ o, (s.rollbackToBlock target).1.getCoinRecord id = .ok o ∧
        UnwoundTo (effectiveTarget target) spentH rec o
  rollbackN : ∀ n, (∃ e, s.rollbackNBlocks n = (s, .error e)) ∨
    ∃ target, s.rollbackNBlocks n = s.rollbackToBlock target
  restore : ∀ {source snap}, Source source → source.snapshot = .ok snap →
    ∀ id, (s.restore snap).1.getCoinRecord id = source.getCoinRecord id

/-! ## One call -/

namespace Represents

variable {S : Scope} {s : CoinStore} {m : Coinset} {id : CoinId} {rec : CoinRecord}

theorem applyBlock_spent (h : s.Represents S m) {block : BlockData} (hid : id ∈ block.removals)
    (hm : m id = some rec) (hspent : rec.isSpent = true) : ∃ e, s.applyBlock block = (s, .error e) := by
  have hnot : ∀ removed, ¬ s.Applicable m block removed := fun removed ha => by
    rcases ha.applied_some hm with ⟨_, hrem⟩ | ⟨hlive, _⟩
    · exact hrem hid
    · simp [CoinRecord.isSpent, hlive] at hspent
  have hout := h.applyBlock_outcome block
  generalize s.applyBlock block = out at hout ⊢
  cases hout with
  | rejected => exact ⟨_, rfl⟩
  | mismatched ha => exact absurd ha (hnot _)
  | accepted ha => exact absurd ha (hnot _)

/-- A spent record is still there after a call that is no rollback and no restore. -/
theorem spent_kept (h : s.Represents .life m) {s' : CoinStore} (hcall : OtherCall s s')
    (hm : m id = some rec) (hspent : rec.isSpent = true) : s'.getCoinRecord id = .ok (some rec) := by
  have hsame : ∀ {s' : CoinStore}, s'.Represents .life m → s'.getCoinRecord id = .ok (some rec) :=
    fun h' => by rw [h'.getCoinRecord_eq, hm]
  cases hcall with
  | initGenesis =>
    have hinit : s.initialized = true := by
      by_contra hb
      rw [(h.blank (Bool.eq_false_iff.2 hb)).1] at hm
      cases hm
    rw [initGenesis, if_pos hinit]
    exact hsame h
  | @applyBlock block =>
    have hout := h.applyBlock_outcome block
    generalize s.applyBlock block = out at hout ⊢
    cases hout with
    | rejected => exact hsame h
    | mismatched _ _ hrebuilt => exact hsame (h.withTree hrebuilt)
    | accepted ha htree =>
      have h' := h.accept_represents (fun _ _ => Set.mem_univ _) ha htree
      rcases ha.applied_some hm with ⟨hm', _⟩ | ⟨hlive, _⟩
      · rw [h'.getCoinRecord_eq, hm']
      · simp [CoinRecord.isSpent, hlive] at hspent
  | reopen hopen =>
    obtain ⟨s'', heq, h', _⟩ := h.withConfig_spec _
    obtain rfl := Except.ok.inj (hopen.symm.trans heq)
    exact hsame h'
  | stateRoot => exact hsame h.stateRoot_step
  | addHint => exact hsame (h.addHint_step _ _).1
  | removeHintsForCoins => exact hsame (h.removeHintsForCoins_step _).1

theorem rollback_spent (h : s.Represents S m) (target : Int64) {spentH : UInt64}
    (hm : m id = some rec) (hs : rec.spentHeight = some spentH) :
    (∃ e, s.rollbackToBlock target = (s, .error e)) ∨
      ∃ o, (s.rollbackToBlock target).1.getCoinRecord id = .ok o ∧
        UnwoundTo (effectiveTarget target) spentH rec o := by
  obtain ⟨hlt, hle⟩ := h.lives.spent hm hs
  have hout := h.rollbackToBlock_outcome target
  generalize s.rollbackToBlock target = out at hout ⊢
  cases hout with
  | rejected => exact .inl ⟨_, rfl⟩
  | kept _ _ _ htip =>
    refine .inr ⟨some rec, by rw [h.getCoinRecord_eq, hm], .kept ?_⟩
    exact UInt64.le_trans (UInt64.le_iff_toNat_le.2 hle) htip
  | rolledBack _ _ _ hrb =>
    refine .inr ⟨_, hrb.represents.getCoinRecord_eq id, ?_⟩
    exact Coinset.unwoundTo_rollback hm hs (UInt64.lt_iff_toNat_lt.2 hlt)

end Represents

end CoinStore

/-- **No coin is spent twice** in a run: the heights of every record are in order, a spend is
changed only by a rollback to below it or by a restore, and it bars every later spend. -/
theorem Reachable.no_double_spend {U : Set Coin} {P : BlockData → Prop} {s : CoinStore}
    (h : Reachable U P s) : s.SpendsOnce (Reachable U P) := by
  obtain ⟨m, hm, _⟩ := h.life
  have hget : ∀ {id rec}, s.getCoinRecord id = .ok (some rec) → m id = some rec := fun hrec => by
    rw [hm.getCoinRecord_eq] at hrec
    exact Except.ok.inj hrec
  refine { heights := fun hrec => ⟨?_, fun spentH hs => ?_⟩, rejected := fun hid hrec hspent => ?_,
           kept := fun hcall hrec hspent => ?_, rollback := fun hrec hs => ?_,
           rollbackN := fun n => ?_, restore := fun hsource hsnap id => ?_ }
  · exact UInt64.le_iff_toNat_le.2 (hm.lives.confirmed_le (hget hrec))
  · obtain ⟨hlt, hle⟩ := hm.lives.spent (hget hrec) hs
    exact ⟨UInt64.lt_iff_toNat_lt.2 hlt, UInt64.le_iff_toNat_le.2 hle⟩
  · exact hm.applyBlock_spent hid (hget hrec) hspent
  · exact hm.spent_kept hcall (hget hrec) hspent
  · exact hm.rollback_spent _ (hget hrec) hs
  · unfold CoinStore.rollbackNBlocks
    split
    · exact .inl ⟨_, rfl⟩
    · split
      · exact .inl ⟨_, rfl⟩
      · exact .inr ⟨_, rfl⟩
  · obtain ⟨m', hm', _⟩ := hsource.life
    obtain ⟨s', heq, hs', _⟩ := hm'.restore_spec hsnap hm.healthy
    rw [heq, hs'.getCoinRecord_eq, hm'.getCoinRecord_eq]

end DigCoinstore

namespace DigCoinstore

open Sample

theorem no_double_spend_afterOne : afterOne.SpendsOnce (Reachable coins BlockData.Honest) :=
  reachable_afterOne.no_double_spend

/-- Block one spends coin 2; the snapshot of the genesis, restored after it, brings the coin back
unspent without a rollback. -/
theorem restore_unspends : Reachable coins BlockData.Honest genesis ∧
    Reachable coins BlockData.Honest afterOne ∧
    (∃ rec, afterOne.getCoinRecord (ofNum 2) = .ok (some rec) ∧ rec.spentHeight = some 1) ∧
    ∃ snap rec, genesis.snapshot = .ok snap ∧
      (afterOne.restore snap).1.getCoinRecord (ofNum 2) = .ok (some rec) ∧
      rec.spentHeight = none := by
  have hrun : (afterOne.getCoinRecord (ofNum 2)).toOption =
        some (some ((CoinRecord.new (coin 2) 0 10 false).spend 1)) ∧
      (genesis.getCoinRecord (ofNum 2)).toOption =
        some (some (CoinRecord.new (coin 2) 0 10 false)) ∧
      genesis.initialized = true ∧ unspentTotal genesis.storedCoins < 2 ^ 64 := by decide +kernel
  obtain ⟨hspent, hlive, hinit, hsum⟩ := hrun
  obtain ⟨m, hm, _⟩ := reachable_genesis.life
  obtain ⟨snap, hsnap⟩ := hm.snapshot_ok hinit hsum
  obtain ⟨m', hm', _⟩ := reachable_afterOne.life
  obtain ⟨s', hrestore, hs', _⟩ := hm.restore_spec hsnap hm'.healthy
  refine ⟨reachable_genesis, reachable_afterOne, ⟨_, Res.eq_ok_of_toOption hspent, rfl⟩, snap,
    CoinRecord.new (coin 2) 0 10 false, hsnap, ?_, rfl⟩
  rw [hrestore, hs'.getCoinRecord_eq, ← hm.getCoinRecord_eq]
  exact Res.eq_ok_of_toOption hlive

end DigCoinstore
