import Mathlib.Algebra.Order.BigOperators.Group.List
import DigCoinstore.Sync

/-!
# The books balance (`queries.rs`, QRY-001 and QRY-009)

The aggregates read `coin_records`, the lists of coins added and removed at a height read two other
column families. In every state of a run they balance: what was added up to the tip is what is
unspent and what was removed (`Reachable.books_balance`).
-/

namespace DigCoinstore

variable [Chia]

/-- The amounts of some records. -/
def valueOf (records : List CoinRecord) : Nat := (records.map (·.coin.amount.toNat)).sum

namespace CoinStore

/-- **The lists added and removed balance with the aggregates**; the two counts of QRY-009 return
whenever the number of coins fits. -/
structure Balances (s : CoinStore) (added removed : List CoinRecord) : Prop where
  totalUnspentValue : ∀ total, s.totalUnspentValue = .ok total →
    total + valueOf removed = valueOf added
  snapshotValue : ∀ snap, s.snapshot = .ok snap →
    snap.totalValue.toNat + valueOf removed = valueOf added
  numUnspent : ∀ n, s.numUnspent = .ok n → n.toNat + removed.length = added.length
  numTotal : s.numTotal = .ok (UInt64.ofNat added.length)
  returns : added.length < 2 ^ 64 →
    (∃ total, s.totalUnspentValue = .ok total) ∧ ∃ n, s.numUnspent = .ok n

end CoinStore

/-! ## Lists by height -/

namespace CoinStore.ListsAt

variable {m : Coinset} {lists : UInt64 → List CoinRecord} {height : CoinRecord → Option UInt64}

/-- The lists up to a height that bounds all of theirs hold each coin with a height. -/
theorem upTo_perm (h : ListsAt m lists height)
    (hids : ∀ {id rec}, m id = some rec → rec.coinId = id) {coins : IdMap CoinRecord}
    (hcoins : ∀ id : CoinId, coins[id]? = m id) {tip : UInt64}
    (hle : ∀ {id rec k}, m id = some rec → height rec = some k → k.toNat ≤ tip.toNat) :
    (upTo lists tip.toNat).Perm
      ((coins.toList.map (·.2)).filter fun rec => (height rec).isSome) := by
  have hmem : ∀ {rec}, rec ∈ coins.toList.map (·.2) ↔ m rec.coinId = some rec := by
    intro rec
    constructor
    · intro hrec
      obtain ⟨⟨id, rec⟩, hkv, rfl⟩ := List.mem_map.1 hrec
      have hm : m id = some rec := (hcoins id).symm.trans (OrdMap.mem_toList.1 hkv)
      rw [hids hm]
      exact hm
    · intro hm
      exact List.mem_map.2 ⟨(rec.coinId, rec), OrdMap.mem_toList.2 ((hcoins _).trans hm), rfl⟩
  have hnodup : (coins.toList.map (·.2)).Nodup := by
    refine List.Nodup.map_on (fun kv hkv kv' hkv' heq => ?_) (OrdMap.nodup_toList coins)
    have hid := hids ((hcoins _).symm.trans (OrdMap.mem_toList.1 hkv))
    have hid' := hids ((hcoins _).symm.trans (OrdMap.mem_toList.1 hkv'))
    exact Prod.ext (hid.symm.trans ((congrArg CoinRecord.coinId heq).trans hid')) heq
  refine (List.perm_ext_iff_of_nodup (h.nodup_upTo tip.toNat_lt).of_map
    (hnodup.filter _)).2 fun rec => ?_
  rw [h.mem_upTo tip.toNat_lt, List.mem_filter, hmem, Option.isSome_iff_exists]
  refine and_congr_right fun hm => exists_congr fun k => ?_
  exact and_iff_left_of_imp fun hk => hle hm hk

end CoinStore.ListsAt

/-! ## The aggregates -/

omit [Chia] in
/-- A checked sum in 128 bits is exact. -/
theorem foldlM_checkedAddU128_exact : ∀ {amounts : List Nat} {acc total : Nat},
    amounts.foldlM checkedAddU128 acc = .ok total → total = acc + amounts.sum
  | [], acc, total, h => (Except.ok.inj h).symm
  | amount :: amounts, acc, total, h => by
    rw [List.foldlM_cons] at h
    obtain ⟨next, hadd, hrest⟩ := Res.bind_eq_ok.1 h
    rw [checkedAddU128] at hadd
    split at hadd
    · obtain rfl := Except.ok.inj hadd
      rw [foldlM_checkedAddU128_exact hrest, List.sum_cons, Nat.add_assoc]
    · cases hadd

namespace CoinStore

variable {s : CoinStore} {m : Coinset}

theorem totalUnspentValue_exact (h : s.backend.CoinRows m) {total : Nat}
    (hrun : s.totalUnspentValue = .ok total) : total = unspentTotal s.storedCoins := by
  obtain ⟨recs, hperm, hloop⟩ := scanUnspent_eq h
  rw [totalUnspentValue, hloop, ← List.foldlM_map] at hrun
  rw [foldlM_checkedAddU128_exact hrun, Nat.zero_add, unspentTotal_eq]
  exact (hperm.map (·.coin.amount.toNat)).sum_eq

theorem numUnspent_exact (h : s.backend.CoinRows m) {n : UInt64} (hrun : s.numUnspent = .ok n) :
    n.toNat = (unspentOf s.storedCoins).length := by
  obtain ⟨recs, hperm, hloop⟩ := scanUnspent_eq h
  have hones : recs.foldlM (fun count _ => checkedAdd count 1) (0 : UInt64) =
      (recs.map fun _ => (1 : UInt64)).foldlM checkedAdd 0 := by
    rw [List.foldlM_map]
  rw [numUnspent, hloop, hones, foldlM_checkedAdd_eq_ok] at hrun
  rw [hrun, UInt64.toNat_zero, Nat.zero_add, ← hperm.length_eq]
  simp

/-- Fewer than `2^64` amounts of 64 bits fit in 128, and so does their number. -/
theorem unspent_returns (h : s.backend.CoinRows m)
    (hlength : (unspentOf s.storedCoins).length < 2 ^ 64) :
    (∃ total, s.totalUnspentValue = .ok total) ∧ ∃ n, s.numUnspent = .ok n := by
  obtain ⟨recs, hperm, hloop⟩ := scanUnspent_eq h
  rw [← hperm.length_eq] at hlength
  constructor
  · have hsum : (recs.map (·.coin.amount.toNat)).sum ≤
        (recs.map (·.coin.amount.toNat)).length • 2 ^ 64 := by
      refine List.sum_le_card_nsmul _ _ fun amount hamount => ?_
      obtain ⟨rec, -, rfl⟩ := List.mem_map.1 hamount
      exact rec.coin.amount.toNat_lt.le
    rw [List.length_map, Nat.nsmul_eq_mul] at hsum
    have hadd := foldlM_checkedAddU128 (recs.map (·.coin.amount.toNat)) 0 (by omega)
    rw [List.foldlM_map, ← hloop] at hadd
    exact ⟨_, hadd⟩
  · refine ⟨UInt64.ofNat recs.length, ?_⟩
    have hones := (foldlM_checkedAdd_eq_ok (recs.map fun _ => 1) 0 (UInt64.ofNat recs.length)).2 (by
      simpa using hlength)
    rwa [List.foldlM_map, ← hloop] at hones

theorem numTotal_eq (h : s.backend.CoinRows m) :
    s.numTotal = .ok (UInt64.ofNat (s.storedCoins.toList.map (·.2)).length) := by
  obtain ⟨l, hscan, hperm, -⟩ := scan_perm h
  rw [numTotal, hscan, orStorage_ok, Res.ok_bind, Res.pure_eq, List.length_map, List.length_map,
    hperm.length_eq]

theorem Represents.snapshotValue_exact {S : Scope} (h : s.Represents S m) {snap : CoinStoreSnapshot}
    (hsnap : s.snapshot = .ok snap) : snap.totalValue.toNat = unspentTotal s.storedCoins := by
  obtain ⟨-, hcoins, -, -, -, -, -, -, htotal⟩ := h.snapshot_eq_ok hsnap
  have hsame : snap.coins = s.storedCoins := Std.ExtTreeMap.ext_getElem? fun id => by
    rw [storedCoins, h.coinRows.scanCoins_get]
    exact congrFun hcoins id
  rw [hsame] at htotal
  exact unspentValue_eq_ok.1 htotal

/-- **The balance** of lists that hold all records, and the spent ones. -/
theorem Represents.balances {S : Scope} (h : s.Represents S m) {added removed : List CoinRecord}
    (hadded : added.Perm (s.storedCoins.toList.map (·.2)))
    (hremoved : removed.Perm
      ((s.storedCoins.toList.map (·.2)).filter fun rec => rec.spentHeight.isSome)) :
    s.Balances added removed := by
  have hsplit := (List.filter_append_perm (fun rec : CoinRecord => rec.spentHeight.isNone)
    (s.storedCoins.toList.map (·.2)))
  simp only [Option.not_isNone] at hsplit
  have hboth : (unspentOf s.storedCoins ++ removed).Perm added :=
    (hremoved.append_left _).trans (hsplit.trans hadded.symm)
  have hvalue : unspentTotal s.storedCoins + valueOf removed = valueOf added := by
    have hsum := (hboth.map (·.coin.amount.toNat)).sum_eq
    rwa [List.map_append, List.sum_append, ← unspentTotal_eq] at hsum
  have hlength : (unspentOf s.storedCoins).length + removed.length = added.length := by
    rw [← hboth.length_eq, List.length_append]
  constructor
  · intro total hrun
    rw [totalUnspentValue_exact h.coinRows hrun]
    exact hvalue
  · intro snap hsnap
    rw [h.snapshotValue_exact hsnap]
    exact hvalue
  · intro n hrun
    rw [numUnspent_exact h.coinRows hrun]
    exact hlength
  · rw [numTotal_eq h.coinRows, hadded.length_eq]
  · intro hfits
    exact unspent_returns h.coinRows (by omega)

end CoinStore

/-- **The books balance** in every state of a run: the amounts added at the heights up to the tip
are those removed at these heights and those unspent together, and so are the numbers of coins. -/
theorem Reachable.books_balance {U : Set Coin} {P : BlockData → Prop} {s : CoinStore}
    (h : Reachable U P s) : ∃ added removed, s.AnswersByHeight added removed ∧
      s.Balances (upTo added s.height.toNat) (upTo removed s.height.toNat) := by
  obtain ⟨m, hm, -⟩ := h.life
  obtain ⟨added, removed, hanswers, hadded, hremoved⟩ := hm.listsByHeight
  have hcoins : ∀ id : CoinId, s.storedCoins[id]? = m id := hm.coinRows.scanCoins_get
  have hall := hadded.upTo_perm hm.ids hcoins fun hid hk => by
    rw [← Option.some.inj hk]
    exact hm.lives.confirmed_le hid
  have hspent := hremoved.upTo_perm hm.ids hcoins fun hid hk => (hm.lives.spent hid hk).2
  simp only [Option.isSome_some, List.filter_true] at hall
  exact ⟨added, removed, hanswers, hm.balances hall hspent⟩

end DigCoinstore

namespace DigCoinstore

open Sample

/-- Block one adds two rewards and a coin, and removes coin 2. -/
theorem books_balance_afterOne : ∃ added removed, afterOne.AnswersByHeight added removed ∧
    afterOne.Balances (upTo added afterOne.height.toNat) (upTo removed afterOne.height.toNat) :=
  reachable_afterOne.books_balance

end DigCoinstore
