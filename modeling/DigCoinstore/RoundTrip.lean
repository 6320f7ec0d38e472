import DigCoinstore.ClaimedIds
import DigCoinstore.Durability

/-!
# Snapshot, then restore

A store restored from the snapshot of another one has its rows, indices, tip and root, whatever it
held before. Its unspent set is rebuilt from the records, so it is that of the source exactly when
the source's own set is that of its records (`restore_snapshot_iff`).
-/

namespace DigCoinstore

/-- The sum of the unspent amounts. -/
def unspentTotal (coins : IdMap CoinRecord) : Nat :=
  ((coins.toList.filter fun kv => kv.2.spentHeight.isNone).map (·.2.coin.amount.toNat)).sum

/-- A sum of `u64` amounts is computed exactly or not at all. -/
theorem foldlM_checkedAdd_eq_ok : ∀ (amounts : List UInt64) (acc total : UInt64),
    amounts.foldlM checkedAdd acc = .ok total ↔
      total.toNat = acc.toNat + (amounts.map UInt64.toNat).sum
  | [], acc, total => by
    simp only [List.foldlM_nil, Res.pure_eq, Except.ok.injEq, List.map_nil, List.sum_nil, Nat.add_zero]
    rw [UInt64.toNat_inj, eq_comm]
  | amount :: amounts, acc, total => by
    simp only [List.foldlM_cons, Res.bind_eq_ok, checkedAdd_eq_ok, foldlM_checkedAdd_eq_ok amounts,
      List.map_cons, List.sum_cons]
    have htotal := total.toNat_lt
    constructor
    · rintro ⟨_, ⟨hlt, rfl⟩, hsum⟩
      rw [UInt64.toNat_add] at hsum
      omega
    · intro hsum
      refine ⟨_, ⟨by omega, rfl⟩, ?_⟩
      rw [UInt64.toNat_add]
      omega

theorem unspentValue_eq_ok {coins : IdMap CoinRecord} {total : UInt64} :
    unspentValue coins = .ok total ↔ total.toNat = unspentTotal coins := by
  refine (foldlM_checkedAdd_eq_ok _ 0 total).trans ?_
  rw [List.map_map, UInt64.toNat_zero, Nat.zero_add]
  rfl

theorem unspentValue_ok {coins : IdMap CoinRecord} (h : unspentTotal coins < 2 ^ 64) :
    ∃ total, unspentValue coins = .ok total :=
  ⟨UInt64.ofNat (unspentTotal coins), unspentValue_eq_ok.2 (by
    rw [UInt64.toNat_ofNat', Nat.mod_eq_of_lt h])⟩

variable [Chia]

namespace CoinStore

/-- The records of the stored rows, keyed by their coin ids. -/
def storedCoins (s : CoinStore) : IdMap CoinRecord :=
  scanCoins (s.backend.tables .coinRecords).toList

/-- **The same coin state**: rows, indices, tip, root and unspent set. -/
structure SameCoinState (s s' : CoinStore) : Prop where
  rows : ∀ cf ∈ coinFamilies, s'.backend.tables cf = s.backend.tables cf
  view : s.SameView s'

variable {S : Scope} {s s' : CoinStore} {m : Coinset}

/-- A store whose unspent amounts fit is captured. -/
theorem Represents.snapshot_ok (h : s.Represents S m) (hinit : s.initialized = true)
    (hsum : unspentTotal s.storedCoins < 2 ^ 64) : ∃ snap, s.snapshot = .ok snap := by
  obtain ⟨total, htotal⟩ := unspentValue_ok hsum
  have hscan : s.backend.prefixScan .coinRecords [] = .ok (s.backend.tables .coinRecords).toList :=
    Backend.prefixScan_all h.healthy _
  rw [storedCoins] at htotal
  simp only [snapshot, hinit, Bool.not_true, Bool.false_eq_true, if_false, hscan, orStorageWith_ok,
    Res.ok_bind, htotal]
  exact ⟨_, rfl⟩

/-- Two stores of one coin set have the same rows. -/
theorem Represents.tables_eq (h : s.Represents S m) (h' : s'.Represents S m) {cf : ColumnFamily}
    (hcf : cf ∈ S.cfs) : s'.backend.tables cf = s.backend.tables cf :=
  Std.ExtTreeMap.ext_getElem? fun k => congrFun ((h'.rows cf hcf).unique (h.rows cf hcf)) k

end CoinStore

/-- **A snapshot of a store brings back its coin state** in any other store: always up to the
unspent set, and with the unspent set exactly when the source's set is that of its records, as it
is in every run of blocks that claim their coins. -/
theorem Reachable.restore_snapshot_iff {U : Set Coin} {P : BlockData → Prop} {s target : CoinStore}
    (h : Reachable U P s) (hU : Set.InjOn Chia.coinId U) (hinit : s.initialized = true)
    (hsum : unspentTotal s.storedCoins < 2 ^ 64) (htarget : target.backend.Healthy) :
    ∃ snap target', s.snapshot = .ok snap ∧ target.restore snap = (target', .ok ()) ∧
      (∀ cf ∈ coinFamilies, target'.backend.tables cf = s.backend.tables cf) ∧
      (s.SameCoinState target' ↔ s.UnspentIsStored) ∧
      ((∀ b, P b → b.ClaimsItsCoins) → s.SameCoinState target') := by
  obtain ⟨m, hm, hu⟩ : s.Follows (.all U hU) _ := h.represents
  obtain ⟨snap, hsnap⟩ := hm.snapshot_ok hinit hsum
  obtain ⟨target', hrestore, hm', hu', _, hheight, hhash, htime⟩ := hm.restore_spec hsnap htarget
  have hrows : ∀ cf ∈ coinFamilies, target'.backend.tables cf = s.backend.tables cf :=
    fun cf hcf => hm.tables_eq hm' hcf
  have hiff : s.SameCoinState target' ↔ s.UnspentIsStored := by
    rw [hm.unspentIsStored_iff]
    constructor
    · intro hsame id
      have hid := hsame.view.isUnspent id
      rw [CoinStore.isUnspent, CoinStore.isUnspent, decide_eq_decide] at hid
      rw [← hid]
      exact hu' id
    · intro hexact
      refine ⟨hrows, hheight, hhash, htime, hm'.root_congr hm, fun id => ?_⟩
      rw [CoinStore.isUnspent, CoinStore.isUnspent, decide_eq_decide, hu' id, hexact id]
  refine ⟨snap, target', hsnap, hrestore, hrows, hiff, fun hP => hiff.2 ?_⟩
  exact hm.unspentIsStored_iff.2 (hu hP)

end DigCoinstore

namespace DigCoinstore

open Sample

/-- No sum and no count over the coins of `afterOne` overflows. -/
theorem afterOne_fits : afterOne.initialized = true ∧
    unspentTotal afterOne.storedCoins < 2 ^ 64 ∧ afterOne.storedCoins.size < 2 ^ 64 := by
  decide +kernel

theorem restore_snapshot_iff_afterOne : ∃ snap target', afterOne.snapshot = .ok snap ∧
    opened.restore snap = (target', .ok ()) ∧
    (∀ cf ∈ coinFamilies, target'.backend.tables cf = afterOne.backend.tables cf) ∧
    (afterOne.SameCoinState target' ↔ afterOne.UnspentIsStored) ∧
    ((∀ b : BlockData, b.Honest → b.ClaimsItsCoins) → afterOne.SameCoinState target') :=
  reachable_afterOne.restore_snapshot_iff coinId_injOn afterOne_fits.1 afterOne_fits.2.1
    Backend.healthy_fresh

/-- A source that lists a false id as unspent: the restored store does not list it. -/
theorem restore_forgets_false_id : Reachable coins (fun _ => True) poisoned ∧
    unspentTotal poisoned.storedCoins < 2 ^ 64 ∧
    ∃ snap target', poisoned.snapshot = .ok snap ∧ opened.restore snap = (target', .ok ()) ∧
      poisoned.isUnspent (ofNum 99) = true ∧ target'.isUnspent (ofNum 99) = false := by
  have hreach : Reachable coins (fun _ => True) poisoned := by
    refine (reachable_genesis.mono (Set.Subset.refl _) fun _ _ => trivial).applyBlock
      (fun c hc => ?_) trivial
    simp only [twiceClaimed, blockOne, BlockData.coins, List.map_cons, List.map_nil,
      List.cons_append, List.nil_append, List.mem_cons, List.not_mem_nil, or_false] at hc
    rcases hc with rfl | rfl | rfl | rfl <;> exact coin_mem _
  have hsum : unspentTotal poisoned.storedCoins < 2 ^ 64 := by decide +kernel
  obtain ⟨_, _, hlisted, hnone, _, _, hinit⟩ := poisoned_run
  obtain ⟨m, hm, _⟩ := hreach.life
  obtain ⟨snap, hsnap⟩ := hm.snapshot_ok hinit hsum
  obtain ⟨target', hrestore, _, hu', _⟩ := hm.restore_spec hsnap (s := opened) Backend.healthy_fresh
  refine ⟨hreach, hsum, snap, target', hsnap, hrestore, hlisted, ?_⟩
  have hm99 : m (ofNum 99) = none := by
    have hget := Res.eq_ok_of_toOption hnone
    rw [hm.getCoinRecord_eq] at hget
    exact Except.ok.inj hget
  rw [CoinStore.isUnspent, decide_eq_false_iff_not, hu' (ofNum 99)]
  rintro ⟨rec, hrec, _⟩
  simp [hm99] at hrec

end DigCoinstore
