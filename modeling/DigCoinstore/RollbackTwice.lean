import DigCoinstore.ConcurrentHints
import DigCoinstore.LedgerRefinement
import DigCoinstore.Reorg

/-!
# Two rollbacks and one

A rollback to a height and then to a lower one ends, but for fast-forward flags, as one rollback to
the lower height: the same tip, hints, unspent ids and deletions. The flags differ exactly if the
first rollback deletes the parent of a coin that the second one revives
(`Reachable.rollback_twice`).
-/

namespace DigCoinstore

variable [Chia]

/-! ## The coin set -/

namespace Coinset

variable {m : Coinset} {t t' : UInt64}

/-- A coin that the second rollback revives has a parent that the first one deleted. -/
def LosesParent (m : Coinset) (t t' : UInt64) : Prop :=
  ∃ id rec sh parent, m id = some rec ∧ rec.confirmedHeight ≤ t' ∧ rec.spentHeight = some sh ∧
    t' < sh ∧ sh ≤ t ∧ m rec.coin.parentCoinInfo = some parent ∧ t < parent.confirmedHeight

omit [Chia] in
/-- Two rollbacks are one, which revives by the set at the time. -/
theorem rollback_rollback (ht : t' ≤ t) : (m.rollback t).rollback t' =
    Lifecycle.cut coinLife (fun rec => if ∃ sh, coinLife.death rec = some sh ∧ t.toNat < sh
      then m.revive rec else (m.rollback t).revive rec) t'.toNat m := by
  funext id
  have hbirth : ∀ rec, coinLife.birth (m.revive rec) = coinLife.birth rec := fun _ => rfl
  exact Lifecycle.cut_cut (UInt64.le_iff_toNat_le.1 ht) hbirth (fun _ => rfl) id

omit [Chia] in
theorem rollback_rollback_sameLife (ht : t' ≤ t) :
    ((m.rollback t).rollback t').SameLife (m.rollback t') := by
  intro id
  rw [rollback_rollback ht]
  refine Lifecycle.map_cut CoinRecord.life (fun rec => ?_) id
  split <;> rfl

omit [Chia] in
theorem revive_rollback_iff {rec : CoinRecord} : (m.rollback t).revive rec = m.revive rec ↔
    ∀ parent, m rec.coin.parentCoinInfo = some parent → parent.confirmedHeight ≤ t := by
  have hflag : (m.rollback t).revive rec = m.revive rec ↔
      (m.rollback t rec.coin.parentCoinInfo).isSome = (m rec.coin.parentCoinInfo).isSome := by
    simp [revive]
  rw [hflag]
  cases hp : m rec.coin.parentCoinInfo with
  | none => simp [rollback_of_none hp]
  | some parent =>
    simp only [Option.isSome_some, Option.some.injEq, forall_eq']
    constructor
    · intro hsome
      refine UInt64.not_lt.1 fun hlt => ?_
      rw [rollback_of_deleted hp hlt] at hsome
      cases hsome
    · intro hle
      rw [Option.isSome_iff_ne_none]
      intro hnone
      obtain ⟨rec', hp', hlt⟩ := rollback_lost.1 ⟨⟨parent, hp⟩, hnone⟩
      obtain rfl := Option.some.inj (hp.symm.trans hp')
      exact UInt64.not_lt.2 hle hlt

omit [Chia] in
/-- **When two rollbacks give the set of one.** -/
theorem rollback_rollback_eq_iff (ht : t' ≤ t) :
    (m.rollback t).rollback t' = m.rollback t' ↔ ¬ m.LosesParent t t' := by
  rw [rollback_rollback ht]
  refine Lifecycle.cut_eq_iff.trans ?_
  constructor
  · rintro hrevive ⟨id, rec, sh, parent, hm, hle, hs, hlt, hsh, hp, habove⟩
    have hdeath : coinLife.death rec = some sh.toNat := by simp [coinLife, hs]
    have hnot : ¬ ∃ d, coinLife.death rec = some d ∧ t.toNat < d := by
      rintro ⟨d, hd, hd'⟩
      obtain rfl := Option.some.inj (hdeath.symm.trans hd)
      exact absurd hd' (Nat.not_lt.2 (UInt64.le_iff_toNat_le.1 hsh))
    have heq := hrevive id rec hm (UInt64.le_iff_toNat_le.1 hle)
      ⟨_, hdeath, UInt64.lt_iff_toNat_lt.1 hlt⟩
    rw [if_neg hnot] at heq
    exact UInt64.not_lt.2 (revive_rollback_iff.1 heq parent hp) habove
  · rintro hnot id rec hm hle ⟨d, hd, hlt⟩
    obtain ⟨sh, hs, rfl⟩ := Option.map_eq_some_iff.1 hd
    split
    · rfl
    · next hsh =>
      refine revive_rollback_iff.2 fun parent hp => UInt64.not_lt.1 fun habove => ?_
      refine hnot ⟨id, rec, sh, parent, hm, UInt64.le_iff_toNat_le.2 hle, hs,
        UInt64.lt_iff_toNat_lt.2 hlt, UInt64.not_lt.1 fun hlate => hsh ⟨_, hd, ?_⟩, hp, habove⟩
      exact UInt64.lt_iff_toNat_lt.1 hlate

omit [Chia] in
/-- What the lower rollback deletes, the two delete between them. -/
theorem deleted_twice (ht : t' ≤ t) {id : CoinId} :
    (∃ rec, m id = some rec ∧ t' < rec.confirmedHeight) ↔
      (∃ rec, m id = some rec ∧ t < rec.confirmedHeight) ∨
        ∃ rec, m.rollback t id = some rec ∧ t' < rec.confirmedHeight := by
  constructor
  · rintro ⟨rec, hm, hlt⟩
    rcases UInt64.lt_or_le t rec.confirmedHeight with habove | hle
    · exact .inl ⟨rec, hm, habove⟩
    · by_cases hs : ∃ sh, rec.spentHeight = some sh ∧ t < sh
      · obtain ⟨sh, hs, hsh⟩ := hs
        exact .inr ⟨_, rollback_of_revived hm hle hs hsh, hlt⟩
      · refine .inr ⟨rec, rollback_of_kept hm hle fun sh hsh => ?_, hlt⟩
        exact UInt64.not_lt.1 fun hlate => hs ⟨sh, hsh, hlate⟩
  · rintro (⟨rec, hm, hlt⟩ | ⟨rec', hm', hlt⟩)
    · exact ⟨rec, hm, UInt64.lt_of_le_of_lt ht hlt⟩
    · obtain ⟨rec, hm, -, ⟨rfl, -⟩ | ⟨rfl, -⟩⟩ := rollback_cases hm'
      · exact ⟨rec', hm, hlt⟩
      · exact ⟨rec, hm, hlt⟩

end Coinset

/-! ## The ledger -/

omit [Chia] in
theorem CoinStore.effectiveTarget_mono {t t' : Int64} (ht : t' ≤ t) :
    effectiveTarget t' ≤ effectiveTarget t := by
  by_cases hneg : t' < 0
  · rw [effectiveTarget, if_pos hneg]
    exact UInt64.zero_le
  · have hnneg : 0 ≤ t'.toInt := Int64.le_iff_toInt_le.1 (Int64.not_lt.1 hneg)
    have hle := Int64.le_iff_toInt_le.1 ht
    obtain ⟨n', hn'⟩ := Int.eq_ofNat_of_zero_le hnneg
    obtain ⟨n, hn⟩ := Int.eq_ofNat_of_zero_le (hnneg.trans hle)
    rw [UInt64.le_iff_toNat_le, toNat_effectiveTarget hn', toNat_effectiveTarget hn]
    omega

namespace Ledger

/-- The same state, but for the fast-forward flags of the coins. -/
structure SameButFlags (l l' : Ledger) : Prop where
  initialized : l'.initialized = l.initialized
  height : l'.height = l.height
  tipHash : l'.tipHash = l.tipHash
  timestamp : l'.timestamp = l.timestamp
  hints : l'.hints = l.hints
  coins : l'.coinset.SameLife l.coinset

omit [Chia] in
theorem SameButFlags.refl (l : Ledger) : l.SameButFlags l :=
  ⟨rfl, rfl, rfl, rfl, rfl, fun _ => rfl⟩

variable {l l₁ l₂ : Ledger} {t t' : Int64} {r₁ r₂ : RollbackResult}

omit [Chia] in
theorem coinset_cutTo (target : UInt64) :
    (l.cutTo target).1.coinset = l.coinset.rollback target := funext fun id => by
  show (l.coins.filterMap fun id _ => l.coinset.rollback target id)[id]? = _
  rw [Std.ExtTreeMap.getElem?_filterMap']
  cases hm : l.coins[id]? with
  | none => exact (Coinset.rollback_of_none hm).symm
  | some rec => rfl

omit [Chia] in
/-- How a rollback ends: with nothing to do, or with a cut. -/
theorem rollbackToBlock_cases (h : l.rollbackToBlock t = (l₁, .ok r₁)) :
    l.initialized = true ∧ ¬ l.height.toInt64 < t ∧
      ((l.height ≤ CoinStore.effectiveTarget t ∧ 0 ≤ t) ∧ l₁ = l ∧ r₁.coinsDeleted = 0 ∧
          r₁.newHeight = l.height ∨
        ¬ (l.height ≤ CoinStore.effectiveTarget t ∧ 0 ≤ t) ∧
          l.cutTo (CoinStore.effectiveTarget t) = (l₁, .ok r₁)) := by
  rw [rollbackToBlock] at h
  split at h
  · cases h
  · next hinit =>
    split at h
    · cases h
    · next habove =>
      refine ⟨by simpa using hinit, habove, ?_⟩
      split at h
      · next hkeep =>
        obtain ⟨rfl, hr⟩ := Prod.mk.inj h
        obtain rfl := Except.ok.inj hr
        exact .inl ⟨hkeep, rfl, rfl, rfl⟩
      · next hkeep => exact .inr ⟨hkeep, h⟩

omit [Chia] in
theorem rollbackToBlock_cut (hinit : l.initialized = true) (habove : ¬ l.height.toInt64 < t)
    (hkeep : ¬ (l.height ≤ CoinStore.effectiveTarget t ∧ 0 ≤ t)) :
    l.rollbackToBlock t = l.cutTo (CoinStore.effectiveTarget t) := by
  rw [rollbackToBlock, if_neg (by simp [hinit]), if_neg habove, if_neg hkeep]

omit [Chia] in
theorem mem_deleted {target : UInt64} {id : CoinId} :
    id ∈ (l.coins.filter fun _ => isDeleted target) ↔
      ∃ rec, l.coinset id = some rec ∧ target < rec.confirmedHeight := by
  rw [Std.ExtTreeMap.mem_iff_isSome_getElem?, Std.ExtTreeMap.getElem?_filter',
    Option.isSome_iff_exists]
  simp only [Option.filter_eq_some_iff, CoinStore.Tracks.isDeleted_iff]
  rfl

omit [Chia] in
theorem mem_hints_cutTo {target : UInt64} {p : HintPair} : p ∈ (l.cutTo target).1.hints ↔
    p ∈ l.hints ∧ ¬ ∃ rec, l.coinset p.1 = some rec ∧ target < rec.confirmedHeight := by
  rw [cutTo, Finset.mem_filter, Bool.not_eq_true', ← Bool.not_eq_true, Option.any_eq_true]
  simp only [CoinStore.Tracks.isDeleted_iff]
  rfl

omit [Chia] in
/-- What a cut reports as deleted. -/
theorem coinsDeleted_cutTo {target : UInt64} (h : l.cutTo target = (l₁, .ok r₁)) :
    r₁.coinsDeleted = (l.coins.filter fun _ => isDeleted target).size := by
  rw [cutTo] at h
  obtain rfl := Except.ok.inj (Prod.mk.inj h).2
  rfl

omit [Chia] in
/-- **Two cuts and one.** -/
theorem cutTo_cutTo {target target' : UInt64} (ht : target' ≤ target) :
    (l.cutTo target').1.SameButFlags ((l.cutTo target).1.cutTo target').1 ∧
      (l.coins.filter fun _ => isDeleted target').size =
        (l.coins.filter fun _ => isDeleted target).size +
          ((l.cutTo target).1.coins.filter fun _ => isDeleted target').size := by
  constructor
  · refine ⟨rfl, rfl, rfl, rfl, ?_, ?_⟩
    · ext p
      have htwice : (∃ rec, l.coinset p.1 = some rec ∧ _) ↔ _ := Coinset.deleted_twice ht
      rw [mem_hints_cutTo, mem_hints_cutTo, mem_hints_cutTo, coinset_cutTo, htwice, not_or, and_assoc]
    · rw [coinset_cutTo, coinset_cutTo, coinset_cutTo]
      exact Coinset.rollback_rollback_sameLife ht
  · refine OrdMap.size_eq_add (fun id => ?_) fun id hdel hdel' => ?_
    · rw [mem_deleted, mem_deleted, mem_deleted, coinset_cutTo]
      exact Coinset.deleted_twice ht
    · rw [mem_deleted] at hdel hdel'
      obtain ⟨rec, hm, hlt⟩ := hdel
      rw [coinset_cutTo, Coinset.rollback_of_deleted hm hlt] at hdel'
      simp at hdel'

omit [Chia] in
/-- **Two rollbacks and one**, the second no higher than the first. -/
theorem rollbackToBlock_rollbackToBlock (hlives : l.coinset.Lives l.height) (ht : t' ≤ t)
    (h₁ : l.rollbackToBlock t = (l₁, .ok r₁)) (h₂ : l₁.rollbackToBlock t' = (l₂, .ok r₂)) :
    ∃ l₃ r₃, l.rollbackToBlock t' = (l₃, .ok r₃) ∧ l₃.SameButFlags l₂ ∧
      r₃.coinsDeleted = r₁.coinsDeleted + r₂.coinsDeleted ∧
      (l₂.coinset = l₃.coinset ↔ ¬ l.coinset.LosesParent l₁.height l₂.height) := by
  obtain ⟨hinit, habove, ⟨-, rfl, hzero, -⟩ | ⟨hcut, hl₁⟩⟩ := rollbackToBlock_cases h₁
  · -- the first does nothing, and no parent lies above the tip
    refine ⟨l₂, r₂, h₂, .refl _, by omega, iff_of_true rfl ?_⟩
    rintro ⟨_, _, _, parent, _, _, _, _, _, hp, habove⟩
    exact absurd (UInt64.lt_iff_toNat_lt.1 habove) (Nat.not_lt.2 (hlives.confirmed_le hp))
  have hle := CoinStore.effectiveTarget_mono ht
  have habove' : ¬ l.height.toInt64 < t' := fun hlt => habove (Int64.lt_of_lt_of_le hlt ht)
  have hcut' : ¬ (l.height ≤ CoinStore.effectiveTarget t' ∧ 0 ≤ t') := fun ⟨hkeep, hnneg⟩ =>
    hcut ⟨UInt64.le_trans hkeep hle, Int64.le_trans hnneg ht⟩
  have hrun := rollbackToBlock_cut hinit habove' hcut'
  obtain ⟨-, -, ⟨⟨hkeep, -⟩, rfl, hzero, -⟩ | ⟨-, hl₂⟩⟩ := rollbackToBlock_cases h₂
  · -- the second does nothing: both have one target
    have htarget : l₂.height = CoinStore.effectiveTarget t :=
      (congrArg (·.1.height) hl₁).symm
    have heq : CoinStore.effectiveTarget t' = CoinStore.effectiveTarget t :=
      UInt64.le_antisymm hle (htarget ▸ hkeep)
    refine ⟨l₂, r₁, by rw [hrun, heq, hl₁], .refl _, by omega, iff_of_true rfl ?_⟩
    rintro ⟨_, _, sh, _, _, _, _, hlt, hsh, _⟩
    exact absurd hlt (UInt64.not_lt.2 hsh)
  · obtain rfl : (l.cutTo (CoinStore.effectiveTarget t)).1 = l₁ := congrArg Prod.fst hl₁
    obtain ⟨hflags, hsize⟩ := l.cutTo_cutTo hle
    have hl₂' : ((l.cutTo (CoinStore.effectiveTarget t)).1.cutTo
        (CoinStore.effectiveTarget t')).1 = l₂ := congrArg Prod.fst hl₂
    rw [hl₂'] at hflags
    obtain ⟨r₃, hl₃⟩ : ∃ r₃, l.cutTo (CoinStore.effectiveTarget t') =
        ((l.cutTo (CoinStore.effectiveTarget t')).1, .ok r₃) := ⟨_, rfl⟩
    refine ⟨_, r₃, hrun.trans hl₃, hflags, ?_, ?_⟩
    · rw [coinsDeleted_cutTo hl₃, coinsDeleted_cutTo hl₁, coinsDeleted_cutTo hl₂, hsize]
    · rw [← hl₂', coinset_cutTo, coinset_cutTo, coinset_cutTo]
      exact Coinset.rollback_rollback_eq_iff hle

end Ledger

/-! ## The store -/

namespace CoinStore

/-- The same tip, unspent ids and hints, and the same records but for fast-forward flags. -/
structure SameButFlags (s s' : CoinStore) : Prop where
  tip : s.SameTip s'
  unspent : s'.unspentIds = s.unspentIds
  hints : ∀ p, s'.backend.hasForward p = s.backend.hasForward p
  records : ∀ id, ∃ o o', s.getCoinRecord id = .ok o ∧ s'.getCoinRecord id = .ok o' ∧
    o'.map CoinRecord.life = o.map CoinRecord.life

/-- A coin confirmed by `t'` and spent above it, by `t`, has a parent confirmed above `t`. -/
def LosesParent (s : CoinStore) (t t' : UInt64) : Prop :=
  ∃ rec ∈ s.storedRecords, ∃ parent ∈ s.storedRecords, parent.coinId = rec.coin.parentCoinInfo ∧
    rec.confirmedHeight ≤ t' ∧ t < parent.confirmedHeight ∧
      ∃ sh, rec.spentHeight = some sh ∧ t' < sh ∧ sh ≤ t

variable {S : Scope} {s s' : CoinStore} {m : Coinset} {l l' : Ledger}

theorem Represents.losesParent_iff (h : s.Represents S m) {t t' : UInt64} :
    s.LosesParent t t' ↔ m.LosesParent t t' := by
  constructor
  · rintro ⟨rec, hrec, parent, hparent, hid, hle, habove, sh, hs, hlt, hsh⟩
    have hp := h.mem_storedRecords.1 hparent
    rw [hid] at hp
    exact ⟨rec.coinId, rec, sh, parent, h.mem_storedRecords.1 hrec, hle, hs, hlt, hsh, hp, habove⟩
  · rintro ⟨id, rec, sh, parent, hm, hle, hs, hlt, hsh, hp, habove⟩
    refine ⟨rec, h.mem_storedRecords.2 ?_, parent, h.mem_storedRecords.2 ?_, h.ids hp, hle, habove,
      sh, hs, hlt, hsh⟩
    · rw [h.ids hm]
      exact hm
    · rw [h.ids hp]
      exact hp

namespace Tracks

theorem hasForward_iff (h : s.Tracks l) (p : HintPair) :
    s.backend.hasForward p = true ↔ p ∈ l.hints := by
  obtain ⟨members, htables, hmem⟩ := h.hints
  rw [htables.hasForward_iff, ← Finset.mem_coe, ← hmem]

/-- Ledgers that are the same but for flags have such stores. -/
theorem sameButFlags (h : s.Tracks l) (h' : s'.Tracks l') (hsame : l.SameButFlags l') :
    s.SameButFlags s' where
  tip := ⟨by rw [h.initialized, h'.initialized, hsame.initialized],
    by rw [h.height, h'.height, hsame.height], by rw [h.tipHash, h'.tipHash, hsame.tipHash],
    by rw [h.timestamp, h'.timestamp, hsame.timestamp]⟩
  unspent := by
    ext id
    rw [h.unspent id, h'.unspent id, Coinset.SameLife.unspent hsame.coins id]
  hints p := by
    rw [Bool.eq_iff_iff, h.hasForward_iff, h'.hasForward_iff, hsame.hints]
  records id := ⟨_, _, h.getCoinRecord_eq id, h'.getCoinRecord_eq id, hsame.coins id⟩

end Tracks

end CoinStore

/-- **Two rollbacks are one to the lower target**, but for fast-forward flags: the same tip, hints,
unspent ids and number of deletions. The records are the same exactly if the first rollback deletes
no parent of a coin that the second one revives. -/
theorem Reachable.rollback_twice {U : Set Coin} {P : BlockData → Prop} {s s₁ s₂ : CoinStore}
    (h : Reachable U P s) (hP : ∀ b, P b → b.ClaimsItsCoins) {t t' : Int64} (ht : t' ≤ t)
    {r₁ r₂ : RollbackResult} (hrun₁ : s.rollbackToBlock t = (s₁, .ok r₁))
    (hrun₂ : s₁.rollbackToBlock t' = (s₂, .ok r₂)) :
    ∃ s₃ r₃, s.rollbackToBlock t' = (s₃, .ok r₃) ∧ s₃.SameButFlags s₂ ∧
      r₃.coinsDeleted = r₁.coinsDeleted + r₂.coinsDeleted ∧
      ((∀ id, s₂.getCoinRecord id = s₃.getCoinRecord id) ↔ ¬ s.LosesParent s₁.height s₂.height) := by
  obtain ⟨l, hl⟩ := h.tracks hP
  obtain ⟨hr₁, hl₁⟩ := hl.rollbackToBlock_step t
  rw [hrun₁] at hr₁ hl₁
  obtain ⟨hr₂, hl₂⟩ := hl₁.rollbackToBlock_step t'
  rw [hrun₂] at hr₂ hl₂
  obtain ⟨l₃, r₃, hrun₃, hsame, hdeleted, hequal⟩ := Ledger.rollbackToBlock_rollbackToBlock
    (hl.height ▸ hl.represents.lives) ht (Prod.ext rfl hr₁.symm) (Prod.ext rfl hr₂.symm)
  obtain ⟨hr₃, hl₃⟩ := hl.rollbackToBlock_step t'
  rw [hrun₃] at hr₃ hl₃
  refine ⟨_, r₃, Prod.ext rfl hr₃, hl₃.sameButFlags hl₂ hsame, hdeleted, ?_⟩
  rw [hl.represents.losesParent_iff, hl₁.height, hl₂.height, ← hequal, funext_iff]
  refine forall_congr' fun id => ?_
  rw [hl₂.represents.getCoinRecord_eq, hl₃.represents.getCoinRecord_eq, Except.ok.injEq]

end DigCoinstore

namespace DigCoinstore

open Sample

theorem exists_rollback_ok {s : CoinStore} {t : Int64} (h : (s.rollbackToBlock t).2.isOk = true) :
    ∃ s' r, s.rollbackToBlock t = (s', .ok r) := by
  rcases hrun : s.rollbackToBlock t with ⟨s', e | r⟩
  · rw [hrun] at h
    cases h
  · exact ⟨s', r, rfl⟩

/-- Blocks two and one are undone one by one, or both at once. -/
theorem rollback_twice_afterTwo : ∃ s₁ r₁ s₂ r₂ s₃ r₃,
    afterTwo.rollbackToBlock 1 = (s₁, .ok r₁) ∧ s₁.rollbackToBlock 0 = (s₂, .ok r₂) ∧
      afterTwo.rollbackToBlock 0 = (s₃, .ok r₃) ∧ s₃.SameButFlags s₂ ∧
      r₃.coinsDeleted = r₁.coinsDeleted + r₂.coinsDeleted ∧
      ((∀ id, s₂.getCoinRecord id = s₃.getCoinRecord id) ↔
        ¬ afterTwo.LosesParent s₁.height s₂.height) := by
  have hreach : Reachable coins BlockData.Honest afterTwo := by
    refine reachable_afterOne.applyBlock (fun c hc => ?_) (fun a ha => nomatch ha)
    simp only [blockTwo, BlockData.coins, List.map_nil, List.append_nil, List.mem_cons,
      List.not_mem_nil, or_false] at hc
    rcases hc with rfl | rfl <;> exact coin_mem _
  have hoks : (afterTwo.rollbackToBlock 1).2.isOk = true ∧
      ((afterTwo.rollbackToBlock 1).1.rollbackToBlock 0).2.isOk = true := by decide +kernel
  obtain ⟨s₁, r₁, hrun₁⟩ := exists_rollback_ok hoks.1
  rw [hrun₁] at hoks
  obtain ⟨s₂, r₂, hrun₂⟩ := exists_rollback_ok hoks.2
  obtain ⟨s₃, r₃, hrest⟩ := hreach.rollback_twice (fun _ hb => BlockData.Honest.claimsItsCoins hb)
    (by decide) hrun₁ hrun₂
  exact ⟨s₁, r₁, s₂, r₂, s₃, r₃, hrun₁, hrun₂, hrest⟩

end DigCoinstore
