import DigCoinstore.TreeCover
import DigCoinstore.Sample

/-!
# Height arithmetic

Heights are `u64`, rollback targets `i64`, and a restored snapshot may have any height. On every
initialized store a rollback by `n` blocks ends where it should exactly when the tip and `n` both
lie below `2^63`, a target up to the tip is accepted exactly when the tip does, and a block is
judged without overflow exactly when the tip has a successor (`Operated.height_arithmetic_iff`).
-/

namespace DigCoinstore

/-! ## Calls that do not panic -/

/-- The call returns `Ok` or an error. -/
def Res.NoPanic {α : Type} (r : Res α) : Prop := ∀ msg, r ≠ .error (.panic msg)

namespace Res.NoPanic

variable {α β : Type}

theorem ok (a : α) : NoPanic (.ok a) := fun _ h => nomatch h

theorem err (e : CoinStoreError) : NoPanic (err e : Res α) := fun _ h => nomatch h

theorem orStorage (r : Except StorageError α) : NoPanic (orStorage r) := by
  cases r with
  | ok a => exact ok a
  | error e => exact fun _ h => nomatch h

theorem orMerkle [Chia] (text : String) (r : Except MerkleError α) : NoPanic (orMerkle text r) := by
  cases r with
  | ok a => exact ok a
  | error e => exact fun _ h => nomatch h

/-- An error that is passed on. -/
theorem pass {x : Res α} {e : Exit} (hx : NoPanic x) (h : x = .error e) :
    NoPanic (.error e : Res β) := fun msg heq => hx msg (h.trans (congrArg _ (Except.error.inj heq)))

theorem bind {x : Res α} {f : α → Res β} (hx : NoPanic x) (hf : ∀ a, x = .ok a → NoPanic (f a)) :
    NoPanic (x >>= f) := by
  cases x with
  | ok a => exact hf a rfl
  | error e => exact hx.pass rfl

theorem mapM {f : α → Res β} (hf : ∀ a, NoPanic (f a)) : ∀ l : List α, NoPanic (l.mapM f)
  | [] => ok []
  | a :: l => by
    rw [List.mapM_cons]
    exact (hf a).bind fun _ _ => (mapM hf l).bind fun _ _ => ok _

theorem foldlM {f : β → α → Res β} (hf : ∀ b a, NoPanic (f b a)) :
    ∀ (l : List α) (b : β), NoPanic (l.foldlM f b)
  | [], b => ok b
  | a :: l, b => by
    rw [List.foldlM_cons]
    exact (hf b a).bind fun b' _ => foldlM hf l b'

end Res.NoPanic

variable [Chia]

namespace CoinStore

variable {s s' : CoinStore}

theorem removalRecord_noPanic (s : CoinStore) (id : CoinId) : (s.removalRecord id).NoPanic := by
  unfold removalRecord
  refine (Res.NoPanic.orStorage _).bind fun o _ => ?_
  split
  · exact .err _
  · split
    · exact .err _
    · split
      · exact .err _
      · exact .ok _

omit [Chia] in
theorem checkAddition_noPanic (s : CoinStore) (ids : Finset Bytes32) (id : CoinId) :
    (s.checkAddition ids id).NoPanic := by
  unfold checkAddition
  split
  · exact .err _
  · refine (Res.NoPanic.orStorage _).bind fun o _ => ?_
    split
    · exact .err _
    · exact .ok _

/-- The checks of a block, when the tip has a successor. -/
theorem validateBlock_noPanic (hlt : s.height.toNat + 1 < 2 ^ 64) (block : BlockData) :
    (s.validateBlock block).NoPanic := by
  unfold validateBlock
  split
  · exact .err _
  · have hadd : checkedAdd s.height 1 = .ok (s.height + 1) := checkedAdd_eq_ok.2 ⟨hlt, rfl⟩
    rw [hadd, Res.ok_bind]
    split
    · exact .err _
    · split
      · exact .err _
      · split
        · exact .err _
        · refine (Res.NoPanic.mapM s.removalRecord_noPanic _).bind fun _ _ => ?_
          refine (Res.NoPanic.foldlM (fun ids (a : CoinAddition) =>
            s.checkAddition_noPanic ids a.coinId) _ _).bind fun _ _ => ?_
          refine (Res.NoPanic.foldlM (fun ids (c : Coin) =>
            s.checkAddition_noPanic ids (Chia.coinId c)) _ _).bind fun _ _ => ?_
          rw [Represents.checkHints]
          exact .ok _

/-- **A block is judged without a panic** when the tip has a successor. -/
theorem applyBlock_noPanic (hs : s.Sound) (hlt : s.height.toNat + 1 < 2 ^ 64) (block : BlockData) :
    (s.applyBlock block).2.NoPanic := by
  unfold applyBlock
  split
  · next e hvalid => exact (validateBlock_noPanic hlt block).pass hvalid
  · dsimp only
    split
    · next e hins =>
      rw [SparseMerkleTree.insert_guard] at hins
      exact (Res.NoPanic.orMerkle _ _).pass hins
    · split
      · next e hupd =>
        rw [SparseMerkleTree.update_guard] at hupd
        exact (Res.NoPanic.orMerkle _ _).pass hupd
      · split
        · next tree _ s' e hcheck =>
          -- the tree can be rebuilt from sound rows
          obtain ⟨m, hm⟩ := hs.tables.coinRows hs.healthy
          obtain ⟨rebuilt, hreb, _⟩ := hm.rebuildMerkleTree_spec
          unfold verifyStateRoot at hcheck
          split at hcheck
          · cases (Prod.mk.inj hcheck).2
          · split at hcheck
            · rw [hreb] at hcheck
              exact (Res.NoPanic.err _).pass (Prod.mk.inj hcheck).2
            · cases (Prod.mk.inj hcheck).2
        · next s' hcheck =>
          obtain rfl := verifyStateRoot_ok hcheck
          rw [commitBlock, Backend.batchWrite_of_healthy hs.healthy]
          exact .ok _

/-- The highest tip has no successor. -/
theorem applyBlock_overflow (hinit : s.initialized = true) (hmax : ¬ s.height.toNat + 1 < 2 ^ 64)
    (block : BlockData) :
    (s.applyBlock block).2 = .error (.panic "attempt to add with overflow") := by
  have hadd : checkedAdd s.height 1 = .error (.panic "attempt to add with overflow") := if_neg hmax
  have hvalid : s.validateBlock block = .error (.panic "attempt to add with overflow") := by
    rw [validateBlock, if_neg (by simp [hinit]), hadd]
    rfl
  simp only [applyBlock, hvalid]

theorem applyBlock_noPanic_iff (hs : s.Sound) (hinit : s.initialized = true) (block : BlockData) :
    (s.applyBlock block).2.NoPanic ↔ s.height.toNat + 1 < 2 ^ 64 := by
  refine ⟨fun hok => ?_, fun hlt => applyBlock_noPanic hs hlt block⟩
  by_contra hmax
  exact hok _ (applyBlock_overflow hinit hmax block)

/-! ## Where a rollback ends -/

variable {t : Int64} {n : UInt64}

omit [Chia] in
theorem effectiveTarget_toNat (t : Int64) : (effectiveTarget t).toNat = t.toInt.toNat := by
  rcases Int.lt_or_le t.toInt 0 with hneg | hnneg
  · rw [effectiveTarget, if_pos (Int64.lt_iff_toInt_lt.2 hneg), Int.toNat_of_nonpos (by omega)]
    rfl
  · obtain ⟨k, hk⟩ := Int.eq_ofNat_of_zero_le hnneg
    rw [toNat_effectiveTarget hk, hk, Int.toNat_natCast]

/-- An initialized store accepts the targets up to its tip as an `i64`. -/
theorem Covered.rollback_ok_iff (h : s.Covered) (hb : s.backend.Healthy) (hinit : s.initialized = true) :
    (∃ s' result, s.rollbackToBlock t = (s', .ok result)) ↔ t.toInt ≤ s.height.toInt64.toInt := by
  have hends := h.rollback_ends hb t
  generalize s.rollbackToBlock t = out at hends
  rw [← Int64.le_iff_toInt_le, ← Int64.not_lt]
  cases hends with
  | rejected hrej =>
    refine iff_of_false ?_ fun hnot => hnot (hrej.resolve_left (by simp [hinit]))
    rintro ⟨s', result, heq⟩
    cases (Prod.mk.inj heq).2
  | kept _ _ hnot => exact iff_of_true ⟨_, _, rfl⟩ hnot
  | rolledBack _ _ hnot => exact iff_of_true ⟨_, _, rfl⟩ hnot

/-- A rollback that returns `Ok` ends at its target, or at 0. -/
theorem Covered.rollback_height (h : s.Covered) (hb : s.backend.Healthy) {result : RollbackResult}
    (hok : s.rollbackToBlock t = (s', .ok result)) : s'.height.toNat = t.toInt.toNat := by
  have hends := h.rollback_ends hb t
  rw [hok] at hends
  cases hends with
  | kept hnneg hle hnot =>
    -- the tip lies at the target
    rw [Int64.le_iff_toInt_le] at hnneg
    rw [Int64.lt_iff_toInt_lt] at hnot
    rw [UInt64.le_iff_toNat_le, effectiveTarget_toNat] at hle
    have hfits : s.height.toNat < 2 ^ 63 := by
      by_contra hbig
      have := FixedInt.toInt_toInt64_of_ge (Nat.not_lt.1 hbig)
      have := s.height.toNat_lt
      simp only [Int64.toInt_zero] at hnneg
      omega
    rw [FixedInt.toInt_toInt64 hfits] at hnot
    omega
  | rolledBack hheight => rw [hheight, effectiveTarget_toNat]

/-- All negative targets that are accepted have one outcome. -/
theorem rollbackToBlock_neg {t' : Int64} (hneg : t < 0) (hneg' : t' < 0)
    (hle : ¬ s.height.toInt64 < t) (hle' : ¬ s.height.toInt64 < t') :
    s.rollbackToBlock t = s.rollbackToBlock t' := by
  have htarget : effectiveTarget t = effectiveTarget t' := by
    rw [effectiveTarget, effectiveTarget, if_pos hneg, if_pos hneg']
  have hkeep : ∀ target : UInt64, ¬ (s.height ≤ target ∧ 0 ≤ t) := fun _ h => Int64.not_lt.2 h.2 hneg
  have hkeep' : ∀ target : UInt64, ¬ (s.height ≤ target ∧ 0 ≤ t') := fun _ h => Int64.not_lt.2 h.2 hneg'
  rw [rollbackToBlock, rollbackToBlock]
  simp only [if_neg hle, if_neg hle', if_neg (hkeep _), if_neg (hkeep' _), htarget]

/-! ## Rolling back by a number of blocks -/

/-- **The rollback by `n` blocks as documented**: it ends `n` blocks below the tip, or is a full
reset. -/
def RollsBackBy (s : CoinStore) (n : UInt64) : Prop :=
  ∃ s' result, s.rollbackNBlocks n = (s', .ok result) ∧ s'.height.toNat = s.height.toNat - n.toNat ∧
    (s.height < n → s.rollbackNBlocks n = s.rollbackToBlock (-1))

/-- A rollback by `n` blocks panics, or goes to the difference of the casts. -/
theorem rollbackNBlocks_eq (hinit : s.initialized = true) (n : UInt64) :
    (¬ (-2 ^ 63 ≤ s.height.toInt64.toInt - n.toInt64.toInt ∧
        s.height.toInt64.toInt - n.toInt64.toInt < 2 ^ 63) ∧
      ∃ msg, s.rollbackNBlocks n = (s, .error (.panic msg))) ∨
      ∃ t : Int64, t.toInt = s.height.toInt64.toInt - n.toInt64.toInt ∧
        s.rollbackNBlocks n = s.rollbackToBlock t := by
  unfold rollbackNBlocks
  rw [if_neg (by simp [hinit]), checkedSub]
  by_cases hrange : -2 ^ 63 ≤ s.height.toInt64.toInt - n.toInt64.toInt ∧
      s.height.toInt64.toInt - n.toInt64.toInt < 2 ^ 63
  · rw [if_pos hrange]
    exact .inr ⟨_, FixedInt.toInt_sub hrange.1 hrange.2, rfl⟩
  · rw [if_neg hrange]
    exact .inl ⟨hrange, _, rfl⟩

/-- The casts of both numbers must keep them. -/
theorem Covered.rollsBackBy_iff (h : s.Covered) (hb : s.backend.Healthy) (hinit : s.initialized = true)
    (n : UInt64) : s.RollsBackBy n ↔ s.height.toNat < 2 ^ 63 ∧ n.toNat < 2 ^ 63 := by
  have hmax := s.height.toNat_lt
  have hmax' := n.toNat_lt
  constructor
  · rintro ⟨s', result, hok, hheight, _⟩
    rcases rollbackNBlocks_eq hinit n with ⟨_, msg, hpanic⟩ | ⟨t, ht, heq⟩
    · rw [hpanic] at hok
      cases (Prod.mk.inj hok).2
    · rw [heq] at hok
      have hle := (h.rollback_ok_iff hb hinit).1 ⟨s', result, hok⟩
      rw [h.rollback_height hb hok, ht] at hheight
      rw [ht] at hle
      have hn : n.toNat < 2 ^ 63 := by
        by_contra hbig
        have := FixedInt.toInt_toInt64_of_ge (Nat.not_lt.1 hbig)
        omega
      refine ⟨?_, hn⟩
      by_contra hbig
      rw [FixedInt.toInt_toInt64 hn, FixedInt.toInt_toInt64_of_ge (Nat.not_lt.1 hbig)] at hheight
      omega
  · rintro ⟨hh, hn⟩
    have hcast := FixedInt.toInt_toInt64 hh
    have hcast' := FixedInt.toInt_toInt64 hn
    rcases rollbackNBlocks_eq hinit n with ⟨hrange, _⟩ | ⟨t, ht, heq⟩
    · rw [hcast, hcast'] at hrange
      omega
    · rw [hcast, hcast'] at ht
      obtain ⟨s', result, hok⟩ := (h.rollback_ok_iff (t := t) hb hinit).2 (by omega)
      refine ⟨s', result, heq.trans hok, ?_, fun hlt => ?_⟩
      · rw [h.rollback_height hb hok, ht]
        omega
      · -- below height 0 the target does not matter
        rw [UInt64.lt_iff_toNat_lt] at hlt
        have hneg : ∀ {t : Int64}, t.toInt < 0 → t < 0 ∧ ¬ s.height.toInt64 < t := fun ht => by
          rw [Int64.lt_iff_toInt_lt, Int64.lt_iff_toInt_lt, hcast]
          exact ⟨ht, by omega⟩
        obtain ⟨hlow, hle⟩ := hneg (t := t) (by omega)
        obtain ⟨hlow', hle'⟩ := hneg (t := -1) (by decide)
        exact heq.trans (rollbackToBlock_neg hlow hlow' hle hle')

end CoinStore

/-- **When the arithmetic of heights is safe**, whatever the tip. -/
theorem Operated.height_arithmetic_iff {s : CoinStore} (h : Operated s) (hinit : s.initialized = true) :
    (∀ n, s.RollsBackBy n ↔ s.height.toNat < 2 ^ 63 ∧ n.toNat < 2 ^ 63) ∧
    (∀ t : Int64, 0 ≤ t.toInt → t.toInt ≤ s.height.toNat →
      ((∃ s' result, s.rollbackToBlock t = (s', .ok result)) ↔ s.height.toNat < 2 ^ 63)) ∧
    ∀ block, (s.applyBlock block).2.NoPanic ↔ s.height.toNat + 1 < 2 ^ 64 := by
  have hb := h.sound.healthy
  refine ⟨h.covered.rollsBackBy_iff hb hinit, fun t hnneg hle => ?_,
    CoinStore.applyBlock_noPanic_iff h.sound hinit⟩
  rw [h.covered.rollback_ok_iff hb hinit]
  constructor
  · intro hcast
    by_contra hbig
    have := FixedInt.toInt_toInt64_of_ge (Nat.not_lt.1 hbig)
    have := s.height.toNat_lt
    omega
  · intro hfits
    rwa [FixedInt.toInt_toInt64 hfits]

end DigCoinstore

namespace DigCoinstore

open Sample

theorem height_arithmetic_genesis :
    (∀ n, genesis.RollsBackBy n ↔ genesis.height.toNat < 2 ^ 63 ∧ n.toNat < 2 ^ 63) ∧
    (∀ t : Int64, 0 ≤ t.toInt → t.toInt ≤ genesis.height.toNat →
      ((∃ s' result, genesis.rollbackToBlock t = (s', .ok result)) ↔ genesis.height.toNat < 2 ^ 63)) ∧
    ∀ block, (genesis.applyBlock block).2.NoPanic ↔ genesis.height.toNat + 1 < 2 ^ 64 :=
  operated_genesis.height_arithmetic_iff (by decide +kernel)

/-- The snapshot of an empty store at the highest tip. -/
def highest : CoinStoreSnapshot where
  height := UInt64.ofNat (2 ^ 64 - 1)
  blockHash := .zero
  stateRoot := emptyHash 256
  timestamp := 0
  coins := ∅
  hints := []
  totalCoins := 0
  totalValue := 0

/-- A store restored to it. -/
def topped : CoinStore := (opened.restore highest).1

theorem operated_emptyGenesis : Operated emptyGenesis :=
  (Operated.new (CoinStore.withConfig_fresh_eq _)).call .initGenesis

theorem operated_topped : Operated topped := (Operated.new (CoinStore.withConfig_fresh_eq _)).restore

/-- At height 0 a rollback by `2 ^ 63` blocks overflows; at the highest tip a rollback to 0 is refused
and every block overflows. -/
theorem height_arithmetic_fails :
    (Operated emptyGenesis ∧ emptyGenesis.initialized = true ∧ emptyGenesis.height = 0 ∧
      (emptyGenesis.rollbackNBlocks (UInt64.ofNat (2 ^ 63))).2 =
        .error (.panic "attempt to subtract with overflow") ∧
      ¬ emptyGenesis.RollsBackBy (UInt64.ofNat (2 ^ 63))) ∧
    Operated topped ∧ topped.initialized = true ∧ topped.height.toNat = 2 ^ 64 - 1 ∧
      (topped.rollbackToBlock 0).2 = err (.rollbackAboveTip 0 topped.height) ∧
      (topped.applyBlock rewardBlock).2 = .error (.panic "attempt to add with overflow") := by
  obtain ⟨hinit, hheight, hpanic, hinit', htip, habove⟩ : emptyGenesis.initialized = true ∧
      emptyGenesis.height = 0 ∧ checkedSub emptyGenesis.height.toInt64 (UInt64.ofNat (2 ^ 63)).toInt64 =
        .error (.panic "attempt to subtract with overflow") ∧
      topped.initialized = true ∧ topped.height = UInt64.ofNat (2 ^ 64 - 1) ∧
      topped.height.toInt64 < 0 := by
    decide +kernel
  have hoverflow : (emptyGenesis.rollbackNBlocks (UInt64.ofNat (2 ^ 63))).2 =
      .error (.panic "attempt to subtract with overflow") := by
    rw [CoinStore.rollbackNBlocks, if_neg (by simp [hinit]), hpanic]
  have hmax : topped.height.toNat = 2 ^ 64 - 1 := by
    rw [htip]
    rfl
  have hrefused : (topped.rollbackToBlock 0).2 = err (.rollbackAboveTip 0 topped.height) := by
    rw [CoinStore.rollbackToBlock, if_neg (by simp [hinit']), if_pos habove]
  have hblock := CoinStore.applyBlock_overflow hinit' (by rw [hmax]; decide) rewardBlock
  refine ⟨⟨operated_emptyGenesis, hinit, hheight, hoverflow, ?_⟩, operated_topped, hinit', hmax,
    hrefused, hblock⟩
  rintro ⟨s', result, hok, _⟩
  rw [hok] at hoverflow
  cases hoverflow

end DigCoinstore
