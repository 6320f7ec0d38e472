import DigCoinstore.Invariant

/-!
# Accepted blocks and their rollback

A run of accepted blocks leads from the coin set `m` of a store to a later one, in which exactly
the removed records have changed (`Accepted.history`). Rolled back to the height it started from,
the coin set is `m` again up to the fast-forward flags of the records that were removed
(`History.rollback_eq`).
-/

namespace DigCoinstore

variable [Chia]

/-! ## Weaker runs -/

theorem Reachable.mono {U U' : Set Coin} {P P' : BlockData → Prop} {s : CoinStore}
    (h : Reachable U P s) (hU : U ⊆ U') (hP : ∀ b, P b → P' b) : Reachable U' P' s := by
  induction h with
  | new hopen => exact .new hopen
  | initGenesis _ hcoins ih => exact ih.initGenesis fun c hc => hU (hcoins c hc)
  | applyBlock _ hcoins hblock ih => exact ih.applyBlock (fun c hc => hU (hcoins c hc)) (hP _ hblock)
  | rollbackToBlock _ ih => exact ih.rollbackToBlock
  | rollbackNBlocks _ ih => exact ih.rollbackNBlocks
  | restore _ _ hsnap ih ih' => exact ih.restore ih' hsnap
  | reopen _ hopen ih => exact ih.reopen hopen
  | stateRoot _ ih => exact ih.stateRoot
  | addHint _ ih => exact ih.addHint
  | removeHintsForCoins _ ih => exact ih.removeHintsForCoins

/-- The tables keyed by ids and heights follow a coin set in every run. -/
theorem Reachable.life {U : Set Coin} {P : BlockData → Prop} {s : CoinStore} (h : Reachable U P s) :
    s.Follows .life (∀ b, P b → b.ClaimsItsCoins) :=
  (h.mono (Set.subset_univ U) fun _ hb => hb : Reachable Scope.life.coins P s).represents

/-! ## A run of blocks -/

/-- An accepted block fits the store. -/
theorem CoinStore.Represents.of_accepted {S : Scope} {s s' : CoinStore} {m : Coinset}
    {block : BlockData} {result : ApplyBlockResult} (h : s.Represents S m)
    (happ : s.applyBlock block = (s', .ok result)) : ∃ removed tree, s.Applicable m block removed ∧
      CoinStore.TreeOf tree (m.applyBlock block removed) ∧ s' = s.accept block removed tree ∧
      (∀ r, block.expectedStateRoot = some r → r = tree.fullRoot) ∧ result = {
        stateRoot := tree.fullRoot
        coinsCreated := (createdRecords block).length
        coinsSpent := removed.length
        height := block.height } := by
  have hout := h.applyBlock_outcome block
  rw [happ] at hout
  cases hout with
  | accepted ha htree hroot => exact ⟨_, _, ha, htree, rfl, hroot, rfl⟩

/-- **What a run of accepted blocks does**: `m` and `m'` are the coin sets before and after. -/
structure History (s : CoinStore) (m : Coinset) (bs : List BlockData) (s' : CoinStore) (m' : Coinset) :
    Prop where
  later : Lifecycle.Later coinLife s.height.toNat m m'
  height : s'.height.toNat = s.height.toNat + bs.length
  initialized : bs ≠ [] → s.initialized = true ∧ s'.initialized = true
  kept : ∀ {id rec}, m id = some rec → (m' id = some rec ↔ ∀ b ∈ bs, id ∉ b.removals)
  timestamp : ∀ b, bs.getLast? = some b → s'.timestamp = b.timestamp

theorem Accepted.history {S : Scope} {s s' : CoinStore} {bs : List BlockData} (hacc : Accepted s bs s') :
    ∀ {m : Coinset}, s.Represents S m → (∀ b ∈ bs, ∀ c ∈ b.coins, c ∈ S.coins) →
    ∃ m', s'.Represents S m' ∧ History s m bs s' m' ∧
      ((∀ b ∈ bs, b.ClaimsItsCoins) → s.UnspentExact m → s'.UnspentExact m') := by
  induction hacc with
  | nil =>
    intro m h _
    refine ⟨m, h, ?_, fun _ hu => hu⟩
    exact {
      later := .refl _ _
      height := rfl
      initialized := fun hne => absurd rfl hne
      kept := fun hm => by simp [hm]
      timestamp := fun b hb => by cases hb }
  | @cons s s₁ s' block bs result happ hrest ih =>
    intro m h hcoins
    obtain ⟨removed, tree, ha, htree, rfl, _⟩ := h.of_accepted happ
    have h₁ := h.accept_represents (hcoins block (.head _)) ha htree
    obtain ⟨m', h', hist, hu'⟩ := ih h₁ fun b hb => hcoins b (.tail _ hb)
    have hheight : (s.accept block removed tree).height.toNat = s.height.toNat + 1 := ha.height_toNat
    refine ⟨m', h', ?_, fun hh hu =>
      hu' (fun b hb => hh b (.tail _ hb)) (CoinStore.Represents.accept_unspent hu (hh block (.head _)) ha _)⟩
    exact {
      later := by
        refine ha.later.trans (hist.later.mono ?_)
        omega
      height := by
        rw [hist.height, hheight, List.length_cons]
        omega
      initialized := fun _ => by
        refine ⟨ha.initialized, ?_⟩
        cases bs with
        | nil =>
          cases hrest
          exact ha.initialized
        | cons b bs => exact (hist.initialized (by simp)).2
      kept := fun {id rec} hm => by
        rw [List.forall_mem_cons]
        rcases ha.applied_some hm with ⟨hm₁, hrem⟩ | ⟨hlive, hrem, hm₁⟩
        · rw [hist.kept hm₁]
          exact (and_iff_right hrem).symm
        · refine iff_of_false (fun hm' => ?_) fun hnot => hnot.1 hrem
          -- once spent, the record stays as it is
          obtain ⟨rec', hm'', rfl | ⟨hdead, _⟩⟩ := hist.later.kept hm₁
          · have heq := Option.some.inj (hm'.symm.trans hm'')
            rw [heq] at hlive
            cases hlive
          · simp [coinLife, CoinRecord.spend] at hdead
      timestamp := fun b hb => by
        cases bs with
        | nil =>
          cases hrest
          obtain rfl : block = b := by simpa using hb
          rfl
        | cons b' bs => exact hist.timestamp b (by simpa using hb) }

/-! ## Back to the start -/

namespace History

variable {s s' : CoinStore} {m m' : Coinset} {bs : List BlockData}

omit [Chia] in
/-- **The coin set rolled back**: an id is unknown before and after, or its record is untouched, or
it was removed and is revived. -/
theorem rollback_cases (hist : History s m bs s' m') (hm : m.Lives s.height) (id : CoinId) :
    (m id = none ∧ m'.rollback s.height id = none) ∨
      (∃ rec, m id = some rec ∧ (∀ b ∈ bs, id ∉ b.removals) ∧ m'.rollback s.height id = some rec) ∨
      ∃ rec, m id = some rec ∧ rec.spentHeight = none ∧ (∃ b ∈ bs, id ∈ b.removals) ∧
        m'.rollback s.height id =
          some { rec with ffEligible := (m' rec.coin.parentCoinInfo).isSome } := by
  have hcases : (m id = none ∧ m'.rollback s.height id = none) ∨
      (∃ rec, m id = some rec ∧ m' id = some rec ∧ m'.rollback s.height id = some rec) ∨
      ∃ rec rec', m id = some rec ∧ m' id = some rec' ∧
        Lifecycle.DiedAfter coinLife s.height.toNat rec rec' ∧
        m'.rollback s.height id = some (m'.revive rec') :=
    Lifecycle.cut_cases hm.within hist.later id
  rcases hcases with
    hnone | ⟨rec, hrec, hrec', hcut⟩ | ⟨rec, rec', hrec, hrec', ⟨hdeath, halive, d, hdead, _⟩, hcut⟩
  · exact .inl hnone
  · exact .inr (.inl ⟨rec, hrec, (hist.kept hrec).1 hrec', hcut⟩)
  · have hlive : rec.spentHeight = none := by simpa [coinLife] using hdeath
    refine .inr (.inr ⟨rec, hrec, hlive, ?_, ?_⟩)
    · by_contra hnot
      have hsame := (hist.kept hrec).2 fun b hb hid => hnot ⟨b, hb, hid⟩
      obtain rfl := Option.some.inj (hsame.symm.trans hrec')
      simp [coinLife, hlive] at hdead
    · rw [hcut, ← halive]
      rfl

omit [Chia] in
/-- The coin set is back exactly when the flags of the removed records are those an un-spend sets. -/
theorem rollback_eq_iff (hist : History s m bs s' m') (hm : m.Lives s.height) :
    m'.rollback s.height = m ↔ ∀ b ∈ bs, ∀ id ∈ b.removals, ∀ rec, m id = some rec →
      rec.ffEligible = (m' rec.coin.parentCoinInfo).isSome := by
  constructor
  · intro heq b hb id hid rec hrec
    rcases hist.rollback_cases hm id with ⟨hnone, _⟩ | ⟨_, _, hnot, _⟩ | ⟨rec', hrec', _, _, hback⟩
    · simp [hnone] at hrec
    · exact absurd hid (hnot b hb)
    · obtain rfl := Option.some.inj (hrec.symm.trans hrec')
      rw [heq, hrec] at hback
      exact congrArg CoinRecord.ffEligible (Option.some.inj hback)
  · intro hff
    funext id
    rcases hist.rollback_cases hm id with ⟨hnone, hback⟩ | ⟨rec, hrec, _, hback⟩ |
      ⟨rec, hrec, _, ⟨b, hb, hid⟩, hback⟩
    · rw [hnone, hback]
    · rw [hrec, hback]
    · rw [hrec, hback, ← hff b hb id hid rec hrec]

end History

/-- A record without its fast-forward flag. -/
def CoinRecord.life (rec : CoinRecord) : CoinRecord := { rec with ffEligible := false }

/-- The same coins with the same lives; only fast-forward flags may differ. -/
def Coinset.SameLife (m m' : Coinset) : Prop :=
  ∀ id, (m id).map CoinRecord.life = (m' id).map CoinRecord.life

omit [Chia] in
theorem History.rollback_sameLife {s s' : CoinStore} {m m' : Coinset} {bs : List BlockData}
    (hist : History s m bs s' m') (hm : m.Lives s.height) : (m'.rollback s.height).SameLife m := by
  intro id
  rcases hist.rollback_cases hm id with ⟨hnone, hback⟩ | ⟨rec, hrec, _, hback⟩ |
    ⟨rec, hrec, _, _, hback⟩
  · rw [hnone, hback]
  · rw [hrec, hback]
  · rw [hrec, hback]
    rfl

/-- **How rolling an accepted run back to its start ends**: nothing to do, or the coin set is cut
back, or the tip as an `i64` lies below the target. -/
inductive BackToStart (S : Scope) (s : CoinStore) (bs : List BlockData) (s' : CoinStore)
    (m' : Coinset) (t : Int64) : CoinStore × Res RollbackResult → Prop
  | nothing {r : Res RollbackResult} : bs = [] → s' = s → t ≤ s'.height.toInt64 →
    (s.initialized = true → ∃ result, r = .ok result) → BackToStart S s bs s' m' t (s, r)
  | back {s'' : CoinStore} {result : RollbackResult} : bs ≠ [] → t ≤ s'.height.toInt64 →
    CoinStore.RolledBack S s' m' s.height s'' result → BackToStart S s bs s' m' t (s'', .ok result)
  | above {e : CoinStoreError} : bs ≠ [] → ¬ t ≤ s'.height.toInt64 →
    BackToStart S s bs s' m' t (s', err e)

theorem Accepted.backToStart {S : Scope} {s s' : CoinStore} {bs : List BlockData} {m m' : Coinset}
    (hacc : Accepted s bs s') (h' : s'.Represents S m') (hist : History s m bs s' m') {t : Int64}
    (ht : t.toInt = s.height.toNat) : BackToStart S s bs s' m' t (s'.rollbackToBlock t) := by
  have hnneg : 0 ≤ t := by
    rw [Int64.le_iff_toInt_le, ht]
    exact Int.natCast_nonneg _
  have htarget : CoinStore.effectiveTarget t = s.height :=
    UInt64.toNat_inj.1 (CoinStore.toNat_effectiveTarget ht)
  have hout := h'.rollbackToBlock_outcome t
  generalize s'.rollbackToBlock t = out at hout
  by_cases hbs : bs = []
  · subst hbs
    cases hacc
    have hle : t ≤ s.height.toInt64 := by
      have hlt : s.height.toNat < 2 ^ 63 := by
        have := t.toInt_lt
        omega
      rw [Int64.le_iff_toInt_le, FixedInt.toInt_toInt64 hlt, ht]
    cases hout with
    | rejected hrej =>
      refine .nothing rfl rfl hle fun hinit => absurd (hrej.resolve_left (by simp [hinit])) ?_
      exact Int64.not_lt.2 hle
    | kept => exact .nothing rfl rfl hle fun _ => ⟨_, rfl⟩
    | rolledBack _ _ hkeep _ =>
      refine absurd ⟨?_, hnneg⟩ hkeep
      rw [htarget]
      exact UInt64.le_refl _
  · have hinit := (hist.initialized hbs).2
    cases hout with
    | rejected hrej =>
      exact .above hbs (Int64.not_le.2 (hrej.resolve_left (by simp [hinit])))
    | kept _ _ _ hle =>
      have hpos := List.length_pos_iff.2 hbs
      have := UInt64.le_iff_toNat_le.1 hle
      have := hist.height
      rw [htarget] at *
      omega
    | rolledBack _ hnot _ hrb =>
      rw [htarget] at hrb
      exact .back hbs (Int64.not_lt.1 hnot) hrb

end DigCoinstore
