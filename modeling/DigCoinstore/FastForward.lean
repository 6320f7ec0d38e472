import DigCoinstore.RoundTrip
import DigCoinstore.Sample

/-!
# Fast-forward flags after a rollback

RBK-004 asks that a coin which is un-spent become fast-forward eligible when it is no coinbase coin
and its parent, in the state after the rollback, is spent and has its puzzle hash and amount. The
code looks only whether the parent had a row before the rollback, and that gives the same flags
exactly when every such parent meets the other conditions too (`Reachable.ff_recomputed_iff`).
-/

namespace DigCoinstore

variable [Chia]

namespace CoinStore

/-- The record of a spent coin of `s` is unspent in `s'`. -/
def Unspends (s s' : CoinStore) (id : CoinId) (rec' : CoinRecord) : Prop :=
  ∃ rec, s.getCoinRecord id = .ok (some rec) ∧ rec.isSpent = true ∧
    s'.getCoinRecord id = .ok (some rec') ∧ rec'.isSpent = false

/-- RBK-004: `parent` is spent and has the puzzle hash and the amount of a coin. -/
def SpentTwin (rec parent : CoinRecord) : Prop :=
  parent.coin.puzzleHash = rec.coin.puzzleHash ∧ parent.coin.amount = rec.coin.amount ∧
    parent.isSpent = true

/-- **The flags that RBK-004 asks for**, in the state `s'` after a rollback of `s`. -/
def RecomputesFF (s s' : CoinStore) : Prop :=
  ∀ id rec, s.Unspends s' id rec → (rec.ffEligible = true ↔ rec.coinbase = false ∧
    ∃ parent, s'.getCoinRecord rec.coin.parentCoinInfo = .ok (some parent) ∧ SpentTwin rec parent)

/-- Every stored parent of a coin spent above `target` and confirmed by it is spent by `target` and
has the coin's puzzle hash and amount, and the coin is no coinbase coin. -/
def ParentsStaySpent (s : CoinStore) (target : UInt64) : Prop :=
  ∀ id rec spentH parent, s.getCoinRecord id = .ok (some rec) → rec.confirmedHeight ≤ target →
    rec.spentHeight = some spentH → target < spentH →
    s.getCoinRecord rec.coin.parentCoinInfo = .ok (some parent) →
    rec.coinbase = false ∧ SpentTwin rec parent ∧
      ∀ parentH, parent.spentHeight = some parentH → parentH ≤ target

namespace Represents

variable {S : Scope} {s s' : CoinStore} {m : Coinset} {target : UInt64} {id : CoinId}
  {rec : CoinRecord}

theorem unspends_iff (h : s.Represents S m) (h' : s'.Represents S (m.rollback target)) :
    s.Unspends s' id rec ↔ ∃ old spentH, m id = some old ∧ old.confirmedHeight ≤ target ∧
      old.spentHeight = some spentH ∧ target < spentH ∧ rec = m.revive old := by
  simp only [Unspends, h.getCoinRecord_eq, h'.getCoinRecord_eq, Except.ok.injEq]
  constructor
  · rintro ⟨old, hm, hspent, hm', hlive⟩
    obtain ⟨old', hold', hconf, ⟨rfl, _⟩ | ⟨rfl, spentH, hs, hlt⟩⟩ := Coinset.rollback_cases hm'
    · obtain rfl := Option.some.inj (hm.symm.trans hold')
      rw [hspent] at hlive
      cases hlive
    · exact ⟨old', spentH, hold', hconf, hs, hlt, rfl⟩
  · rintro ⟨old, spentH, hm, hconf, hs, hlt, rfl⟩
    refine ⟨old, hm, ?_, Coinset.rollback_of_revived hm hconf hs hlt, rfl⟩
    simp [CoinRecord.isSpent, hs]

/-- A parent is a spent twin after the rollback when it is one before and was spent by the target. -/
theorem spentTwin_rollback (h : s.Represents S m) :
    (∃ parent, m.rollback target id = some parent ∧ SpentTwin rec parent) ↔
      ∃ parent, m id = some parent ∧ SpentTwin rec parent ∧
        ∀ parentH, parent.spentHeight = some parentH → parentH ≤ target := by
  constructor
  · rintro ⟨parent, hparent, htwin⟩
    obtain ⟨old, hold, _, ⟨rfl, hle⟩ | ⟨rfl, _⟩⟩ := Coinset.rollback_cases hparent
    · exact ⟨parent, hold, htwin, hle⟩
    · cases htwin.2.2
  · rintro ⟨parent, hparent, htwin, hle⟩
    obtain ⟨parentH, hs⟩ := Option.isSome_iff_exists.1 htwin.2.2
    have hlt := (h.lives.spent hparent hs).1
    have hconf : parent.confirmedHeight ≤ target :=
      UInt64.le_trans (UInt64.le_of_lt (UInt64.lt_iff_toNat_lt.2 hlt)) (hle _ hs)
    exact ⟨parent, Coinset.rollback_of_kept hparent hconf hle, htwin⟩

/-- After a rollback that was carried out the flags are right when the parents stay spent. -/
theorem recomputesFF_iff (h : s.Represents S m) (h' : s'.Represents S (m.rollback target)) :
    s.RecomputesFF s' ↔ s.ParentsStaySpent target := by
  simp only [RecomputesFF, ParentsStaySpent, h.unspends_iff h', h.getCoinRecord_eq,
    h'.getCoinRecord_eq, Except.ok.injEq, h.spentTwin_rollback]
  constructor
  · intro hff id rec spentH parent hm hconf hs hlt hparent
    have hflag := (hff id (m.revive rec) ⟨rec, spentH, hm, hconf, hs, hlt, rfl⟩).1
      (by simp [Coinset.revive, hparent])
    obtain ⟨hcoinbase, parent', hparent', htwin, hle⟩ := hflag
    obtain rfl := Option.some.inj (hparent.symm.trans hparent')
    exact ⟨hcoinbase, htwin, hle⟩
  · rintro hstay id _ ⟨rec, spentH, hm, hconf, hs, hlt, rfl⟩
    have hflag : (m.revive rec).ffEligible = true ↔
        ∃ parent, m rec.coin.parentCoinInfo = some parent :=
      Option.isSome_iff_exists
    rw [hflag]
    constructor
    · rintro ⟨parent, hparent⟩
      obtain ⟨hcoinbase, htwin, hle⟩ := hstay id rec spentH parent hm hconf hs hlt hparent
      exact ⟨hcoinbase, parent, hparent, htwin, hle⟩
    · rintro ⟨_, parent, hparent, _⟩
      exact ⟨parent, hparent⟩

end Represents

omit [Chia] in
theorem recomputesFF_self (s : CoinStore) : s.RecomputesFF s := by
  rintro id rec ⟨old, hold, hspent, hrec, hlive⟩
  obtain rfl : old = rec := Option.some.inj (Except.ok.inj (hold.symm.trans hrec))
  rw [hspent] at hlive
  cases hlive

end CoinStore

/-- **When fast-forward flags are recomputed as RBK-004 says**: the target is refused, or every
stored parent of an un-spent coin is a spent twin of it that the rollback leaves spent, and no
coinbase coin with a stored parent is un-spent. -/
theorem Reachable.ff_recomputed_iff {U : Set Coin} {P : BlockData → Prop} {s : CoinStore}
    (h : Reachable U P s) (target : Int64) :
    s.RecomputesFF (s.rollbackToBlock target).1 ↔
      s.height.toInt64 < target ∨ s.ParentsStaySpent (CoinStore.effectiveTarget target) := by
  obtain ⟨m, hm, _⟩ := h.life
  have hout := hm.rollbackToBlock_outcome target
  generalize s.rollbackToBlock target = out at hout ⊢
  cases hout with
  | rejected hrej =>
    refine iff_of_true s.recomputesFF_self (hrej.symm.imp_right fun hblank => ?_)
    intro id rec spentH parent hrec
    rw [hm.getCoinRecord_eq, (hm.blank hblank).1] at hrec
    cases hrec
  | kept _ _ _ htip =>
    refine iff_of_true s.recomputesFF_self (.inr ?_)
    intro id rec spentH parent hrec _ hs hlt
    rw [hm.getCoinRecord_eq, Except.ok.injEq] at hrec
    have hle := UInt64.le_iff_toNat_le.2 (hm.lives.spent hrec hs).2
    exact absurd (UInt64.le_trans hle htip) (UInt64.not_le.2 hlt)
  | rolledBack _ hnot _ hrb => rw [hm.recomputesFF_iff hrb.represents, or_iff_right hnot]

end DigCoinstore

namespace DigCoinstore

open Sample

/-- Block one, spending coin 1 instead: its parent is not stored. -/
def firstSpent : CoinStore := (genesis.applyBlock { blockOne with removals := [ofNum 1] }).1

theorem reachable_firstSpent : Reachable coins BlockData.Honest firstSpent :=
  reachable_genesis.applyBlock blockOne_fits.2 blockOne_fits.1

/-- Its rollback un-spends coin 1, which is not eligible. -/
theorem ff_recomputed_firstSpent : firstSpent.RecomputesFF (firstSpent.rollbackToBlock 0).1 ∧
    ∃ rec, firstSpent.Unspends (firstSpent.rollbackToBlock 0).1 (ofNum 1) rec := by
  have hrun : (firstSpent.getCoinRecord (ofNum 1)).toOption =
        some (some ((CoinRecord.new (coin 1) 0 10 false).spend 1)) ∧
      ((firstSpent.rollbackToBlock 0).1.getCoinRecord (ofNum 1)).toOption =
        some (some (CoinRecord.new (coin 1) 0 10 false)) ∧
      ∀ kv ∈ firstSpent.storedCoins.toList, kv.2.spentHeight.isSome = true →
        firstSpent.storedCoins[kv.2.coin.parentCoinInfo]? = none := by decide +kernel
  obtain ⟨hspent, hback, horphans⟩ := hrun
  obtain ⟨m, hm, _⟩ := reachable_firstSpent.life
  have hget : ∀ id : CoinId, m id = firstSpent.storedCoins[id]? := fun id =>
    (hm.coinRows.scanCoins_get id).symm
  refine ⟨(reachable_firstSpent.ff_recomputed_iff 0).2 (.inr ?_), _, _,
    Res.eq_ok_of_toOption hspent, rfl, Res.eq_ok_of_toOption hback, rfl⟩
  intro id rec spentH parent hrec _ hs _ hparent
  rw [hm.getCoinRecord_eq, hget, Except.ok.injEq] at hrec hparent
  have hnone := horphans (id, rec) (OrdMap.mem_toList.2 hrec) (by simp [hs])
  rw [hnone] at hparent
  cases hparent

/-- Block one spends coin 2, whose parent, coin 1, is unspent and has another puzzle hash: the
rollback makes coin 2 eligible. -/
theorem ff_not_recomputed : Reachable coins BlockData.Honest afterOne ∧
    (afterOne.rollbackToBlock 0).1.getCoinRecord (ofNum 2) =
      .ok (some { CoinRecord.new (coin 2) 0 10 false with ffEligible := true }) ∧
    (afterOne.rollbackToBlock 0).1.getCoinRecord (ofNum 1) =
      .ok (some (CoinRecord.new (coin 1) 0 10 false)) ∧
    ¬ afterOne.RecomputesFF (afterOne.rollbackToBlock 0).1 := by
  have hrun : (afterOne.getCoinRecord (ofNum 2)).toOption =
        some (some ((CoinRecord.new (coin 2) 0 10 false).spend 1)) ∧
      ((afterOne.rollbackToBlock 0).1.getCoinRecord (ofNum 2)).toOption =
        some (some { CoinRecord.new (coin 2) 0 10 false with ffEligible := true }) ∧
      ((afterOne.rollbackToBlock 0).1.getCoinRecord (ofNum 1)).toOption =
        some (some (CoinRecord.new (coin 1) 0 10 false)) := by decide +kernel
  obtain ⟨hspent, hback, hparent⟩ := hrun
  replace hback := Res.eq_ok_of_toOption hback
  replace hparent := Res.eq_ok_of_toOption hparent
  refine ⟨reachable_afterOne, hback, hparent, fun hff => ?_⟩
  obtain ⟨_, parent, hget, htwin⟩ :=
    (hff _ _ ⟨_, Res.eq_ok_of_toOption hspent, rfl, hback, rfl⟩).1 rfl
  obtain rfl := Option.some.inj (Except.ok.inj (hparent.symm.trans hget))
  cases htwin.2.2

end DigCoinstore
