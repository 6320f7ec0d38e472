import Mathlib.Algebra.BigOperators.Group.List.Basic
import DigCoinstore.RoundTrip

/-!
# Aggregates of the stored coins (`queries.rs`, `CoinStore::stats`, `snapshot`)

Each aggregate is a loop of its own over the stored rows: one adds in 128 bits, one saturates, two
panic when a `u64` sum overflows. They agree, and are the exact sums, exactly when the unspent
amounts and the number of coins fit in 64 bits (`Reachable.aggregates_agree_iff`).
-/

namespace DigCoinstore

/-- `CoinStoreStats` -/
structure CoinStoreStats where
  height : UInt64
  timestamp : UInt64
  unspentCount : UInt64
  spentCount : UInt64
  totalUnspentValue : UInt64
  stateRoot : Bytes32
  tipHash : Bytes32
  hintCount : UInt64
  snapshotCount : Nat

/-- `u64::saturating_add` -/
def saturatingAdd (a b : UInt64) : UInt64 :=
  if a.toNat + b.toNat < 2 ^ 64 then a + b else UInt64.ofNat (2 ^ 64 - 1)

/-- `a + b` on `u128`. -/
def checkedAddU128 (a b : Nat) : Res Nat :=
  if a + b < 2 ^ 128 then .ok (a + b) else .error (.panic "attempt to add with overflow")

/-- The three counters of `stats`. -/
structure Tally where
  unspentCount : UInt64
  spentCount : UInt64
  totalUnspentValue : UInt64

def Tally.add (t : Tally) (rec : CoinRecord) : Tally :=
  if rec.spentHeight.isNone then
    { t with
      unspentCount := saturatingAdd t.unspentCount 1
      totalUnspentValue := saturatingAdd t.totalUnspentValue rec.coin.amount }
  else { t with spentCount := saturatingAdd t.spentCount 1 }

/-- The number of entries, 0 when the scan fails. -/
def cfEntryCount (backend : Backend) (cf : ColumnFamily) : Nat :=
  match backend.prefixScan cf [] with
  | .ok entries => entries.length
  | .error _ => 0

/-- One row of a loop over the unspent records. -/
def onUnspent {β : Type} (step : β → CoinRecord → Res β) (acc : β) (entry : KvPair) : Res β :=
  match decodeCoinRecordBytes entry.2 with
  | some rec => if rec.isSpent then .ok acc else step acc rec
  | none => .ok acc

namespace CoinStore

variable [Chia] (s : CoinStore)

/-- A loop over the unspent records of the decodable rows. -/
def scanUnspent {β : Type} (step : β → CoinRecord → Res β) (init : β) : Res β := do
  let entries ← orStorage (s.backend.prefixScan .coinRecords [])
  entries.foldlM (onUnspent step) init

/-- QRY-009 -/
def numUnspent : Res UInt64 := s.scanUnspent (fun count _ => checkedAdd count 1) 0

/-- QRY-009 -/
def totalUnspentValue : Res Nat :=
  s.scanUnspent (fun total rec => checkedAddU128 total rec.coin.amount.toNat) 0

/-- One unspent coin of the balances by puzzle hash. -/
def addBalance (agg : IdMap (UInt64 × Nat)) (rec : CoinRecord) : Res (IdMap (UInt64 × Nat)) := do
  let entry := (agg[rec.coin.puzzleHash]?).getD (0, 0)
  let amount ← checkedAdd entry.1 rec.coin.amount
  return agg.insert rec.coin.puzzleHash (amount, entry.2 + 1)

/-- QRY-009: the balance and the number of coins of each puzzle hash. -/
def aggregateUnspentByPuzzleHash : Res (IdMap (UInt64 × Nat)) := s.scanUnspent addBalance ∅

/-- QRY-009 -/
def numTotal : Res UInt64 := do
  let entries ← orStorage (s.backend.prefixScan .coinRecords [])
  return UInt64.ofNat entries.length

/-- The counters of the stored rows; a failed scan leaves them at 0. -/
def tally : Tally :=
  if s.initialized then
    match s.backend.prefixScan .coinRecords [] with
    | .ok entries => entries.foldl (fun t (_, value) =>
      match decodeCoinRecordBytes value with
      | some rec => t.add rec
      | none => t) ⟨0, 0, 0⟩
    | .error _ => ⟨0, 0, 0⟩
  else ⟨0, 0, 0⟩

def stats : CoinStoreStats where
  height := s.height
  timestamp := s.timestamp
  unspentCount := s.tally.unspentCount
  spentCount := s.tally.spentCount
  totalUnspentValue := s.tally.totalUnspentValue
  stateRoot := s.merkleTree.rootObserved
  tipHash := s.tipHash
  hintCount := UInt64.ofNat (cfEntryCount s.backend .hints)
  snapshotCount := cfEntryCount s.backend .stateSnapshots

end CoinStore

/-! ## Sums of machine words -/

theorem toNat_saturatingAdd {a b : UInt64} (h : a.toNat + b.toNat < 2 ^ 64) :
    (saturatingAdd a b).toNat = a.toNat + b.toNat := by
  rw [saturatingAdd, if_pos h, UInt64.toNat_add]
  omega

theorem foldlM_checkedAddU128 : ∀ (amounts : List Nat) (acc : Nat), acc + amounts.sum < 2 ^ 128 →
    amounts.foldlM checkedAddU128 acc = .ok (acc + amounts.sum)
  | [], acc, _ => by simp
  | amount :: amounts, acc, h => by
    rw [List.sum_cons] at h
    have hadd : checkedAddU128 acc amount = .ok (acc + amount) := if_pos (by omega)
    rw [List.foldlM_cons, hadd, Res.ok_bind, foldlM_checkedAddU128 amounts _ (by omega),
      List.sum_cons,
      Nat.add_assoc]

/-- The unspent records of a map of coins. -/
def unspentOf (coins : IdMap CoinRecord) : List CoinRecord :=
  (coins.toList.map (·.2)).filter fun rec => rec.spentHeight.isNone

theorem unspentTotal_eq (coins : IdMap CoinRecord) :
    unspentTotal coins = ((unspentOf coins).map (·.coin.amount.toNat)).sum := by
  rw [unspentOf, List.filter_map, List.map_map, unspentTotal]
  rfl

/-! ## One loop -/

/-- The counters of a loop that does not saturate. -/
theorem Tally.foldl_add : ∀ (recs : List CoinRecord) (t : Tally),
    t.unspentCount.toNat + (recs.filter fun rec => rec.spentHeight.isNone).length < 2 ^ 64 →
    t.spentCount.toNat + (recs.filter fun rec => rec.spentHeight.isSome).length < 2 ^ 64 →
    t.totalUnspentValue.toNat +
      ((recs.filter fun rec => rec.spentHeight.isNone).map (·.coin.amount.toNat)).sum < 2 ^ 64 →
    (recs.foldl Tally.add t).unspentCount.toNat =
        t.unspentCount.toNat + (recs.filter fun rec => rec.spentHeight.isNone).length ∧
      (recs.foldl Tally.add t).spentCount.toNat =
        t.spentCount.toNat + (recs.filter fun rec => rec.spentHeight.isSome).length ∧
      (recs.foldl Tally.add t).totalUnspentValue.toNat = t.totalUnspentValue.toNat +
        ((recs.filter fun rec => rec.spentHeight.isNone).map (·.coin.amount.toNat)).sum
  | [], _, _, _, _ => ⟨rfl, rfl, rfl⟩
  | rec :: recs, t, hunspent, hspent, htotal => by
    cases hs : rec.spentHeight with
    | none =>
      have hadd : t.add rec = { t with
          unspentCount := saturatingAdd t.unspentCount 1
          totalUnspentValue := saturatingAdd t.totalUnspentValue rec.coin.amount } := by
        rw [Tally.add, hs]
        rfl
      simp only [List.filter_cons, hs, Option.isNone_none, Option.isSome_none, if_true,
        Bool.false_eq_true, if_false, List.length_cons, List.map_cons, List.sum_cons]
        at hunspent hspent htotal ⊢
      have hcount : (saturatingAdd t.unspentCount 1).toNat = t.unspentCount.toNat + 1 :=
        toNat_saturatingAdd (by rw [UInt64.toNat_one]; omega)
      have hvalue : (saturatingAdd t.totalUnspentValue rec.coin.amount).toNat = _ :=
        toNat_saturatingAdd (by omega)
      obtain ⟨h₁, h₂, h₃⟩ := foldl_add recs (t.add rec) (by rw [hadd, hcount]; omega)
        (by rw [hadd]; exact hspent) (by rw [hadd, hvalue]; omega)
      rw [List.foldl_cons, h₁, h₂, h₃, hadd, hcount, hvalue]
      exact ⟨by omega, rfl, by omega⟩
    | some spentH =>
      have hadd : t.add rec = { t with spentCount := saturatingAdd t.spentCount 1 } := by
        rw [Tally.add, hs]
        rfl
      simp only [List.filter_cons, hs, Option.isNone_some, Option.isSome_some, if_true,
        Bool.false_eq_true, if_false, List.length_cons] at hunspent hspent htotal ⊢
      have hcount : (saturatingAdd t.spentCount 1).toNat = t.spentCount.toNat + 1 :=
        toNat_saturatingAdd (by rw [UInt64.toNat_one]; omega)
      obtain ⟨h₁, h₂, h₃⟩ := foldl_add recs (t.add rec) (by rw [hadd]; exact hunspent)
        (by rw [hadd, hcount]; omega) (by rw [hadd]; exact htotal)
      rw [List.foldl_cons, h₁, h₂, h₃, hadd, hcount]
      exact ⟨rfl, by omega, rfl⟩

/-- The sum of the balances, and the number of coins counted in them. -/
def balances (agg : IdMap (UInt64 × Nat)) : Nat := (agg.toList.map fun kv => kv.2.1.toNat).sum

def counted (agg : IdMap (UInt64 × Nat)) : Nat := (agg.toList.map fun kv => kv.2.2).sum

namespace CoinStore

/-- One more coin in the balances. -/
theorem addBalance_spec (agg : IdMap (UInt64 × Nat)) (rec : CoinRecord)
    (h : balances agg + rec.coin.amount.toNat < 2 ^ 64) : ∃ agg', addBalance agg rec = .ok agg' ∧
      balances agg' = balances agg + rec.coin.amount.toNat ∧ counted agg' = counted agg + 1 := by
  obtain ⟨entry, hentry⟩ : ∃ entry, (agg[rec.coin.puzzleHash]?).getD (0, 0) = entry := ⟨_, rfl⟩
  -- an absent entry counts as two zeros
  have hold : ∀ f : UInt64 × Nat → Nat, f (0, 0) = 0 →
      ((agg[rec.coin.puzzleHash]?).map f).getD 0 = f entry := fun f hf => by
    rw [← hentry]
    cases agg[rec.coin.puzzleHash]? with
    | none => exact hf.symm
    | some _ => rfl
  have hsum := fun v (f : UInt64 × Nat → Nat) (hf : f (0, 0) = 0) => by
    have hins := OrdMap.sum_insert agg rec.coin.puzzleHash v f
    rw [hold f hf] at hins
    exact hins
  have hle : entry.1.toNat ≤ balances agg := by
    have hzero := hsum (0, 0) (·.1.toNat) rfl
    simp only [UInt64.toNat_zero, Nat.add_zero] at hzero
    rw [balances, ← hzero]
    exact Nat.le_add_left _ _
  have hfits : entry.1.toNat + rec.coin.amount.toNat < 2 ^ 64 := by omega
  refine ⟨agg.insert rec.coin.puzzleHash (entry.1 + rec.coin.amount, entry.2 + 1), ?_, ?_, ?_⟩
  · rw [addBalance, hentry, checkedAdd_eq_ok.2 ⟨hfits, rfl⟩]
    rfl
  · have hvalue := hsum (entry.1 + rec.coin.amount, entry.2 + 1) (·.1.toNat) rfl
    rw [UInt64.toNat_add, Nat.mod_eq_of_lt hfits] at hvalue
    rw [balances, balances]
    omega
  · have hcount := hsum (entry.1 + rec.coin.amount, entry.2 + 1) (·.2) rfl
    rw [counted, counted]
    omega

/-- The balances of a loop whose amounts fit. -/
theorem foldlM_addBalance : ∀ (recs : List CoinRecord) (agg : IdMap (UInt64 × Nat)),
    balances agg + (recs.map (·.coin.amount.toNat)).sum < 2 ^ 64 →
    ∃ agg', recs.foldlM addBalance agg = .ok agg' ∧
      balances agg' = balances agg + (recs.map (·.coin.amount.toNat)).sum ∧
      counted agg' = counted agg + recs.length
  | [], agg, _ => ⟨agg, rfl, rfl, rfl⟩
  | rec :: recs, agg, h => by
    rw [List.map_cons, List.sum_cons] at h
    obtain ⟨agg₁, hadd, hvalue, hcount⟩ := addBalance_spec agg rec (by omega)
    obtain ⟨agg', hrest, hvalue', hcount'⟩ := foldlM_addBalance recs agg₁ (by omega)
    refine ⟨agg', ?_, ?_, ?_⟩
    · rw [List.foldlM_cons, hadd, Res.ok_bind, hrest]
    · rw [hvalue', hvalue, List.map_cons, List.sum_cons, Nat.add_assoc]
    · rw [hcount', hcount, List.length_cons]
      omega

end CoinStore

/-! ## The stored coins -/

variable [Chia]

namespace CoinStore

variable {s : CoinStore} {m : Coinset}

/-- **The rows are scanned in some order of the stored coins.** -/
theorem scan_perm (h : s.backend.CoinRows m) : ∃ l : List (CoinId × CoinRecord),
    s.backend.prefixScan .coinRecords [] =
      .ok (l.map fun x => (coinKey x.1, serializeCoinRecordStorageBytes x.2)) ∧
    l.Perm s.storedCoins.toList ∧ ∀ x ∈ l, m x.1 = some x.2 := by
  obtain ⟨l, hscan, hnodup, hl⟩ := h.records
  refine ⟨l, hscan, (List.perm_ext_iff_of_nodup hnodup.of_map (OrdMap.nodup_toList _)).2 fun x => ?_,
    fun x hx => (hl _ _).1 hx⟩
  rw [OrdMap.mem_toList, storedCoins, h.scanCoins_get]
  exact hl _ _

/-- A loop over the unspent records of the rows is one over those of the stored coins. -/
theorem scanUnspent_eq (h : s.backend.CoinRows m) : ∃ recs : List CoinRecord,
    recs.Perm (unspentOf s.storedCoins) ∧
    ∀ (β : Type) (step : β → CoinRecord → Res β) (init : β),
      s.scanUnspent step init = recs.foldlM step init := by
  obtain ⟨l, hscan, hperm, hl⟩ := scan_perm h
  refine ⟨(l.map (·.2)).filter fun rec => rec.spentHeight.isNone, (hperm.map _).filter _,
    fun β step init => ?_⟩
  rw [scanUnspent, hscan, orStorage_ok, Res.ok_bind]
  clear hscan hperm
  induction l generalizing init with
  | nil => rfl
  | cons x l ih =>
    have hdec := decode_serialize (h.storable (hl x (.head _)))
    have hrest := ih fun y hy => hl y (.tail _ hy)
    rw [List.map_cons, List.foldlM_cons, List.map_cons, onUnspent, hdec]
    cases hs : x.2.spentHeight with
    | none =>
      rw [List.filter_cons_of_pos (by simp [hs]), List.foldlM_cons]
      simp only [CoinRecord.isSpent, hs, Option.isSome_none, Bool.false_eq_true, if_false, hrest]
    | some spentH =>
      rw [List.filter_cons_of_neg (by simp [hs])]
      simp only [CoinRecord.isSpent, hs, Option.isSome_some, if_true, Res.ok_bind, hrest]

/-- **All aggregates are the exact sums and counts of the stored coins.** -/
structure AggregatesAgree (s : CoinStore) : Prop where
  totalUnspentValue : s.totalUnspentValue = .ok (unspentTotal s.storedCoins)
  statsValue : s.stats.totalUnspentValue.toNat = unspentTotal s.storedCoins
  snapshotValue : ∃ snap, s.snapshot = .ok snap ∧ snap.totalValue.toNat = unspentTotal s.storedCoins
  aggregate : ∃ agg, s.aggregateUnspentByPuzzleHash = .ok agg ∧
    balances agg = unspentTotal s.storedCoins ∧ counted agg = (unspentOf s.storedCoins).length
  numUnspent : ∃ n, s.numUnspent = .ok n ∧ n.toNat = (unspentOf s.storedCoins).length
  statsUnspent : s.stats.unspentCount.toNat = (unspentOf s.storedCoins).length
  numTotal : ∃ n, s.numTotal = .ok n ∧ n.toNat = s.storedCoins.size
  unspent_add_spent : s.stats.unspentCount.toNat + s.stats.spentCount.toNat = s.storedCoins.size

omit [Chia] in
/-- Unspent and spent records are all records. -/
theorem length_unspentOf (coins : IdMap CoinRecord) : (unspentOf coins).length +
    ((coins.toList.map (·.2)).filter fun rec => rec.spentHeight.isSome).length = coins.size := by
  have hsplit := List.length_eq_length_filter_add (l := coins.toList.map (·.2))
    fun rec => rec.spentHeight.isNone
  simp only [List.length_map, Option.not_isNone, Std.ExtTreeMap.length_toList] at hsplit
  rw [hsplit]
  rfl

/-- The counters of `stats` when nothing saturates. -/
theorem tally_eq (h : s.backend.CoinRows m) (hinit : s.initialized = true)
    (hvalue : unspentTotal s.storedCoins < 2 ^ 64) (hsize : s.storedCoins.size < 2 ^ 64) :
    s.tally.unspentCount.toNat = (unspentOf s.storedCoins).length ∧
      s.tally.unspentCount.toNat + s.tally.spentCount.toNat = s.storedCoins.size ∧
      s.tally.totalUnspentValue.toNat = unspentTotal s.storedCoins := by
  obtain ⟨l, hscan, hperm, hl⟩ := scan_perm h
  have htally : s.tally = (l.map (·.2)).foldl Tally.add ⟨0, 0, 0⟩ := by
    rw [tally, if_pos hinit, hscan, List.foldl_map]
    exact h.foldl_rows Tally.add l _ hl
  have hrecs := hperm.map (·.2)
  have hunspent : ((l.map (·.2)).filter fun rec => rec.spentHeight.isNone).Perm
      (unspentOf s.storedCoins) := hrecs.filter _
  have hspent := hrecs.filter fun rec => rec.spentHeight.isSome
  have hsplit := length_unspentOf s.storedCoins
  have hsum := (hunspent.map (·.coin.amount.toNat)).sum_eq
  rw [← unspentTotal_eq] at hsum
  rw [← hunspent.length_eq, ← hspent.length_eq] at hsplit
  have hcounts := Tally.foldl_add (l.map (·.2)) ⟨0, 0, 0⟩ (by rw [UInt64.toNat_zero]; omega)
    (by rw [UInt64.toNat_zero]; omega) (by rw [UInt64.toNat_zero, hsum]; omega)
  rw [← htally, UInt64.toNat_zero, Nat.zero_add, Nat.zero_add, Nat.zero_add, hsum] at hcounts
  obtain ⟨h₁, h₂, h₃⟩ := hcounts
  exact ⟨h₁.trans hunspent.length_eq, by rw [h₁, h₂, hsplit], h₃⟩

/-- **Enough**: nothing overflows. -/
theorem Represents.aggregatesAgree {S : Scope} (h : s.Represents S m) (hinit : s.initialized = true)
    (hvalue : unspentTotal s.storedCoins < 2 ^ 64) (hsize : s.storedCoins.size < 2 ^ 64) :
    s.AggregatesAgree := by
  obtain ⟨recs, hperm, hloop⟩ := scanUnspent_eq h.coinRows
  obtain ⟨hunspent, hboth, htotal⟩ := tally_eq h.coinRows hinit hvalue hsize
  have hlen := hperm.length_eq
  have hsum := (hperm.map (·.coin.amount.toNat)).sum_eq
  rw [← unspentTotal_eq] at hsum
  have hcount := length_unspentOf s.storedCoins
  refine { totalUnspentValue := ?_, statsValue := htotal, snapshotValue := ?_, aggregate := ?_,
           numUnspent := ?_, statsUnspent := hunspent, numTotal := ?_, unspent_add_spent := hboth }
  · have hadd := foldlM_checkedAddU128 (recs.map (·.coin.amount.toNat)) 0 (by omega)
    rw [List.foldlM_map, Nat.zero_add, hsum] at hadd
    rw [CoinStore.totalUnspentValue, hloop, hadd]
  · obtain ⟨snap, hsnap⟩ := h.snapshot_ok hinit hvalue
    obtain ⟨_, hcoins, _, _, _, _, _, _, htotal⟩ := h.snapshot_eq_ok hsnap
    have hsame : snap.coins = s.storedCoins := Std.ExtTreeMap.ext_getElem? fun id => by
      rw [storedCoins, h.coinRows.scanCoins_get]
      exact congrFun hcoins id
    rw [hsame] at htotal
    exact ⟨snap, hsnap, unspentValue_eq_ok.1 htotal⟩
  · obtain ⟨agg, hagg, hbalances, hcounted⟩ := foldlM_addBalance recs ∅ (by
      rw [hsum]
      exact (Nat.zero_add _).symm ▸ hvalue)
    refine ⟨agg, by rw [aggregateUnspentByPuzzleHash, hloop, hagg], ?_, ?_⟩
    · rw [hbalances, hsum]
      exact Nat.zero_add _
    · rw [hcounted, hlen]
      exact Nat.zero_add _
  · have hones : (((recs.map fun _ => (1 : UInt64)).map UInt64.toNat)).sum = recs.length := by
      simp
    have hadd := (foldlM_checkedAdd_eq_ok (recs.map fun _ => 1) 0 (UInt64.ofNat recs.length)).2 (by
      rw [hones, UInt64.toNat_zero, Nat.zero_add, UInt64.toNat_ofNat', Nat.mod_eq_of_lt]
      omega)
    rw [List.foldlM_map] at hadd
    refine ⟨_, by rw [CoinStore.numUnspent, hloop, hadd], ?_⟩
    rw [UInt64.toNat_ofNat', Nat.mod_eq_of_lt (by omega), hlen]
  · obtain ⟨l, hscan, hperm, _⟩ := scan_perm h.coinRows
    refine ⟨_, by rw [CoinStore.numTotal, hscan]; rfl, ?_⟩
    rw [UInt64.toNat_ofNat', List.length_map, hperm.length_eq, Std.ExtTreeMap.length_toList,
      Nat.mod_eq_of_lt hsize]

end CoinStore

/-- **When the aggregates agree**: exactly when the unspent amounts sum to less than `2^64`, and
fewer coins than that are stored. -/
theorem Reachable.aggregates_agree_iff {U : Set Coin} {P : BlockData → Prop} {s : CoinStore}
    (h : Reachable U P s) (hinit : s.initialized = true) : s.AggregatesAgree ↔
      unspentTotal s.storedCoins < 2 ^ 64 ∧ s.storedCoins.size < 2 ^ 64 := by
  obtain ⟨m, hm, _⟩ := h.life
  constructor
  · intro hagree
    have hvalue := hagree.statsValue
    obtain ⟨n, _, hn⟩ := hagree.numTotal
    have hlt := s.stats.totalUnspentValue.toNat_lt
    have hlt' := n.toNat_lt
    omega
  · intro hfits
    exact hm.aggregatesAgree hinit hfits.1 hfits.2

end DigCoinstore

namespace DigCoinstore

open Sample

theorem aggregates_agree_afterOne : afterOne.AggregatesAgree :=
  (reachable_afterOne.aggregates_agree_iff afterOne_fits.1).2 afterOne_fits.2

/-- A genesis of coins 1 and `2^64 - 1`. -/
def richGenesis : CoinStore :=
  (opened.initGenesis [(coin 1, false), (coin 18446744073709551615, false)] 10).1

/-- Its unspent amounts sum to `2^64`: `stats` reports one less, and the snapshot panics. -/
theorem aggregates_disagree : Reachable coins BlockData.Honest richGenesis ∧
    richGenesis.initialized = true ∧ unspentTotal richGenesis.storedCoins = 2 ^ 64 ∧
    richGenesis.totalUnspentValue = .ok (2 ^ 64) ∧
    richGenesis.stats.totalUnspentValue.toNat = 2 ^ 64 - 1 ∧
    richGenesis.snapshot.toOption.isNone = true ∧ ¬ richGenesis.AggregatesAgree := by
  have hrun : richGenesis.initialized = true ∧ unspentTotal richGenesis.storedCoins = 2 ^ 64 ∧
      richGenesis.totalUnspentValue.toOption = some (2 ^ 64) ∧
      richGenesis.stats.totalUnspentValue.toNat = 2 ^ 64 - 1 ∧
      richGenesis.snapshot.toOption.isNone = true := by decide +kernel
  obtain ⟨hinit, hsum, htotal, hstats, hsnap⟩ := hrun
  have hreach : Reachable coins BlockData.Honest richGenesis := by
    refine reachable_opened.initGenesis fun c hc => ?_
    simp only [List.mem_cons, List.not_mem_nil, or_false] at hc
    rcases hc with rfl | rfl <;> exact coin_mem _
  refine ⟨hreach, hinit, hsum, Res.eq_ok_of_toOption htotal, hstats, hsnap, fun hagree => ?_⟩
  have hvalue := hagree.statsValue
  omega

end DigCoinstore
