import DigCoinstore.LedgerRefinement

/-!
# What a rejected block is told (`error.rs`, `apply_block`)

`Complaint s block e`: the error `e` describes `s` and `block` correctly. In every state of a run a
block is accepted exactly if no complaint holds, and a rejected block is told one that does
(`Reachable.block_complaints`).
-/

namespace DigCoinstore

variable [Chia]

namespace CoinStore

/-- **What an error says** about a block and the state that it meets. -/
inductive Complaint (s : CoinStore) (block : BlockData) : Exit → Prop
  | notInitialized : s.initialized = false → Complaint s block (.error .notInitialized)
  | lastHeight : s.initialized = true → s.height.toNat + 1 = 2 ^ 64 →
    Complaint s block (.panic "attempt to add with overflow")
  | heightMismatch : block.height ≠ s.height + 1 →
    Complaint s block (.error (.heightMismatch (s.height + 1) block.height))
  | parentHashMismatch : block.parentHash ≠ s.tipHash →
    Complaint s block (.error (.parentHashMismatch s.tipHash block.parentHash))
  | fewRewards : block.coinbaseCoins.length < minRewards → Complaint s block
    (.error (.invalidRewardCoinCount (">= " ++ minRewards.repr) block.coinbaseCoins.length))
  | coinNotFound {id : CoinId} : id ∈ block.removals → s.getCoinRecord id = .ok none →
    Complaint s block (.error (.coinNotFound id))
  | doubleSpend {id : CoinId} {rec : CoinRecord} : id ∈ block.removals →
    s.getCoinRecord id = .ok (some rec) → rec.isSpent = true →
    Complaint s block (.error (.doubleSpend id))
  | coinStored {id : CoinId} {rec : CoinRecord} : id ∈ block.claimedIds →
    s.getCoinRecord id = .ok (some rec) → Complaint s block (.error (.coinAlreadyExists id))
  | claimedTwice {id : CoinId} : 2 ≤ block.claimedIds.count id →
    Complaint s block (.error (.coinAlreadyExists id))
  | stateRootMismatch {expected : Bytes32} {result : ApplyBlockResult} :
    block.expectedStateRoot = some expected →
    (s.applyBlock { block with expectedStateRoot := none }).2 = .ok result →
    expected ≠ result.stateRoot →
    Complaint s block (.error (.stateRootMismatch expected result.stateRoot))

end CoinStore

/-! ## The first error of a loop -/

omit [Chia] in
theorem Res.exists_of_mapM_error {α β : Type} {f : α → Res β} {e : Exit} :
    ∀ {xs : List α}, xs.mapM f = .error e → ∃ x ∈ xs, f x = .error e
  | [], h => by
    rw [List.mapM_nil] at h
    cases h
  | x :: xs, h => by
    rw [List.mapM_cons] at h
    cases hx : f x with
    | error e' =>
      rw [hx, Res.error_bind] at h
      obtain rfl := Except.error.inj h
      exact ⟨x, .head _, hx⟩
    | ok y =>
      rw [hx, Res.ok_bind] at h
      cases hxs : xs.mapM f with
      | error e' =>
        rw [hxs, Res.error_bind] at h
        obtain rfl := Except.error.inj h
        obtain ⟨x', hx', heq⟩ := exists_of_mapM_error hxs
        exact ⟨x', .tail _ hx', heq⟩
      | ok ys =>
        rw [hxs] at h
        cases h

namespace Ledger

variable {l : Ledger}

omit [Chia] in
/-- The id that stops the loop over the new ids is stored, or was met before. -/
theorem claim_error {e : Exit} : ∀ {ids : List CoinId} {claimed : Finset Bytes32},
    ids.foldlM l.claim claimed = .error e → ∃ id ∈ ids, e = .error (.coinAlreadyExists id) ∧
      ((l.coins[id]?).isSome ∨ id ∈ claimed ∨ 2 ≤ ids.count id)
  | [], claimed, h => by
    rw [List.foldlM_nil] at h
    cases h
  | id :: ids, claimed, h => by
    rw [List.foldlM_cons, claim] at h
    split at h
    · next hknown =>
      obtain rfl := Except.error.inj h
      exact ⟨id, .head _, rfl, hknown.elim (fun hmem => .inr (.inl hmem)) .inl⟩
    · obtain ⟨id', hid', rfl, hcause⟩ := claim_error h
      refine ⟨id', .tail _ hid', rfl, ?_⟩
      rcases hcause with hstored | hclaimed | htwice
      · exact .inl hstored
      · rcases Finset.mem_insert.1 hclaimed with rfl | hclaimed
        · -- the id itself is met again
          have hpos := List.count_pos_iff.2 hid'
          refine .inr (.inr ?_)
          rw [List.count_cons_self]
          omega
        · exact .inr (.inl hclaimed)
      · exact .inr (.inr (htwice.trans List.count_le_count_cons))

end Ledger

namespace CoinStore.Tracks

variable {s : CoinStore} {l : Ledger} {block : BlockData} {e : Exit}

/-- The checks of a block tell the truth. -/
theorem complaint_of_validate (h : s.Tracks l) (herr : l.validate block = .error e) :
    s.Complaint block e := by
  rw [Ledger.validate] at herr
  split at herr
  · next hinit =>
    obtain rfl := Except.error.inj herr
    exact .notInitialized (by simpa [h.initialized] using hinit)
  next hinit =>
  have hinit : s.initialized = true := by simpa [h.initialized] using hinit
  have hnext : checkedAdd l.height 1 = .ok (l.height + 1) ∨
      checkedAdd l.height 1 = .error (.panic "attempt to add with overflow") ∧
        l.height.toNat + 1 = 2 ^ 64 := by
    have hlt := l.height.toNat_lt
    rw [checkedAdd, UInt64.toNat_one]
    split
    · exact .inl rfl
    · exact .inr ⟨rfl, by omega⟩
  rcases hnext with hnext | ⟨hnext, hlast⟩
  · rw [hnext, Res.ok_bind] at herr
    split at herr
    · next hheight =>
      obtain rfl := Except.error.inj herr
      rw [← h.height] at hheight ⊢
      exact .heightMismatch hheight
    split at herr
    · next hparent =>
      obtain rfl := Except.error.inj herr
      rw [← h.tipHash] at hparent ⊢
      exact .parentHashMismatch hparent
    split at herr
    · next hfew =>
      obtain rfl := Except.error.inj herr
      exact .fewRewards hfew
    cases hrem : block.removals.mapM l.removal with
    | error e' =>
      rw [hrem, Res.error_bind] at herr
      obtain rfl := Except.error.inj herr
      obtain ⟨id, hid, hfail⟩ := Res.exists_of_mapM_error hrem
      rw [Ledger.removal] at hfail
      have hget := h.getCoinRecord_eq id
      cases hrec : l.coins[id]? with
      | none =>
        rw [hrec] at hfail hget
        obtain rfl := Except.error.inj hfail
        exact .coinNotFound hid hget
      | some rec =>
        rw [hrec] at hfail hget
        dsimp only at hfail
        split at hfail
        · next hspent =>
          obtain rfl := Except.error.inj hfail
          exact .doubleSpend hid hget hspent
        · cases hfail
    | ok removed =>
      rw [hrem, Res.ok_bind] at herr
      cases hclaims : block.claimedIds.foldlM l.claim ∅ with
      | error e' =>
        rw [hclaims, Res.error_bind] at herr
        obtain rfl := Except.error.inj herr
        obtain ⟨id, hid, rfl, hstored | hnone | htwice⟩ := Ledger.claim_error hclaims
        · obtain ⟨rec, hrec⟩ := Option.isSome_iff_exists.1 hstored
          exact .coinStored hid ((h.getCoinRecord_eq id).trans (congrArg Except.ok hrec))
        · exact absurd hnone (Finset.notMem_empty id)
        · exact .claimedTwice htwice
      | ok claimed =>
        rw [hclaims] at herr
        cases herr
  · rw [hnext, Res.error_bind] at herr
    obtain rfl := Except.error.inj herr
    exact .lastHeight hinit (h.height ▸ hlast)

theorem unchecked_result (h : s.Tracks l) (hclaims : block.ClaimsItsCoins)
    {removed : List CoinRecord} (hval : l.validate block = .ok removed) : ∃ result,
      (s.applyBlock { block with expectedStateRoot := none }).2 = .ok result ∧
        result.stateRoot = Ledger.rootOf (l.coinsAfter block removed) := by
  have hclaims' : BlockData.ClaimsItsCoins { block with expectedStateRoot := none } := hclaims
  have hanswer := (h.applyBlock_step hclaims').1
  have hval' : l.validate { block with expectedStateRoot := none } = .ok removed := hval
  rw [Ledger.applyBlock, hval'] at hanswer
  exact ⟨_, hanswer, rfl⟩

/-- A block that passes the checks leaves no complaint but one about the root. -/
theorem no_complaint (h : s.Tracks l) (hclaims : block.ClaimsItsCoins) {removed : List CoinRecord}
    (hval : l.validate block = .ok removed)
    (hroot : ∀ expected, block.expectedStateRoot = some expected →
      expected = Ledger.rootOf (l.coinsAfter block removed)) : ¬ s.Complaint block e := by
  obtain ⟨hinit, hlt, hheight, hparent, hrew, hrem, hlive, hnd, hclaimed⟩ :=
    h.represents.validateBlock_eq_ok.1 ((h.validateBlock_eq block).trans hval)
  have hget := h.represents.getCoinRecord_eq
  intro hcomplaint
  cases hcomplaint with
  | notInitialized hblank =>
    rw [hinit] at hblank
    cases hblank
  | lastHeight _ hlast => omega
  | heightMismatch hne => exact hne hheight
  | parentHashMismatch hne => exact hne hparent
  | fewRewards hfew => omega
  | coinNotFound hid hnone =>
    obtain ⟨rec, hrec, rfl⟩ := List.mem_map.1 (hrem ▸ hid)
    rw [hget, (hlive rec hrec).1] at hnone
    cases hnone
  | doubleSpend hid hsome hspent =>
    obtain ⟨rec, hrec, rfl⟩ := List.mem_map.1 (hrem ▸ hid)
    rw [hget, (hlive rec hrec).1] at hsome
    obtain rfl := Option.some.inj (Except.ok.inj hsome)
    rw [CoinRecord.isSpent, (hlive rec hrec).2] at hspent
    cases hspent
  | coinStored hid hsome =>
    rw [hget, hclaimed _ hid] at hsome
    cases hsome
  | claimedTwice htwice =>
    have hone := List.nodup_iff_count_le_one.1 hnd
    exact absurd htwice (Nat.not_le.2 (Nat.lt_succ_of_le (hone _)))
  | stateRootMismatch hexp hrun hne =>
    obtain ⟨result', hrun', hresult⟩ := h.unchecked_result hclaims hval
    obtain rfl := Except.ok.inj (hrun.symm.trans hrun')
    exact hne ((hroot _ hexp).trans hresult.symm)

end CoinStore.Tracks

/-- **The complaints about a block**: it is accepted exactly if there is none, and a rejected one is
told one of them. -/
theorem Reachable.block_complaints {U : Set Coin} {P : BlockData → Prop} {s : CoinStore}
    (h : Reachable U P s) (hP : ∀ b, P b → b.ClaimsItsCoins) {block : BlockData}
    (hclaims : block.ClaimsItsCoins) :
    ((∃ result, (s.applyBlock block).2 = .ok result) ↔ ∀ e, ¬ s.Complaint block e) ∧
      ∀ e, (s.applyBlock block).2 = .error e → s.Complaint block e := by
  obtain ⟨l, hl⟩ := h.tracks hP
  have hanswer := (hl.applyBlock_step hclaims).1
  rw [hanswer, Ledger.applyBlock]
  cases hval : l.validate block with
  | error e =>
    have hcomplaint := hl.complaint_of_validate hval
    refine ⟨iff_of_false ?_ fun hnone => hnone e hcomplaint, fun e' herr => ?_⟩
    · rintro ⟨_, hok⟩
      cases hok
    · obtain rfl := Except.error.inj herr
      exact hcomplaint
  | ok removed =>
    dsimp only
    cases hroot : block.expectedStateRoot.filter
        (· ≠ Ledger.rootOf (l.coinsAfter block removed)) with
    | some expected =>
      obtain ⟨hexp, hne⟩ := Option.filter_eq_some_iff.1 hroot
      obtain ⟨result, hrun, hresult⟩ := hl.unchecked_result hclaims hval
      have hcomplaint := CoinStore.Complaint.stateRootMismatch hexp hrun
        (by rw [hresult]; exact of_decide_eq_true hne)
      rw [hresult] at hcomplaint
      refine ⟨iff_of_false ?_ fun hnone => hnone _ hcomplaint, fun e' herr => ?_⟩
      · rintro ⟨_, hok⟩
        cases hok
      · obtain rfl := Except.error.inj herr
        exact hcomplaint
    | none =>
      refine ⟨iff_of_true ⟨_, rfl⟩ fun e => ?_, fun e herr => ?_⟩
      · refine hl.no_complaint hclaims hval fun expected hexp => ?_
        have hkeep := Option.filter_eq_none_iff.1 hroot expected hexp
        simpa using hkeep
      · cases herr

end DigCoinstore

namespace DigCoinstore

open Sample

/-- Block one is accepted once; the second time its height is wrong. -/
theorem block_complaints_afterOne :
    ((∃ result, (afterOne.applyBlock blockOne).2 = .ok result) ↔
      ∀ e, ¬ afterOne.Complaint blockOne e) ∧
    ∀ e, (afterOne.applyBlock blockOne).2 = .error e → afterOne.Complaint blockOne e :=
  reachable_afterOne.block_complaints (fun _ hb => BlockData.Honest.claimsItsCoins hb)
    blockOne_fits.1.claimsItsCoins

end DigCoinstore
