import DigCoinstore.Lib.PrefixScan
import DigCoinstore.Ledger

/-!
# Reading the tables in order

The rows of a family lie in the order of their keys, and the keys under one prefix in the order of
the ids they end with. So a scan under a prefix reads the records that the prefix selects in the
order of their ids, as the map of coins lists them (`Backend.prefixScan_eq`), and an index query
answers with this list (`pushIndexed_ordered`).
-/

namespace DigCoinstore

variable [Chia]

/-! ## Scans -/

omit [Chia] in
/-- **A scan lists the selected records** in the order of their ids. -/
theorem Backend.prefixScan_eq {b : Backend} (hb : b.Healthy) {cf : ColumnFamily} {m : Coinset}
    (hmir : Mirrors (fun k => (b.tables cf)[k]?) (coinRow cf) m) {coins : IdMap CoinRecord}
    (hcoins : ∀ id : CoinId, coins[id]? = m id) {pre : Bytes} {p : CoinRecord → Bool}
    {w : CoinId → CoinRecord → Bytes}
    (hrow : ∀ id rec k v, m id = some rec →
      ((coinRow cf id rec = some (k, v) ∧ pre <+: k) ↔
        p rec = true ∧ k = pre ++ id.bytes ∧ v = w id rec)) :
    b.prefixScan cf pre = .ok ((coins.toList.filter fun kv => p kv.2).map fun kv =>
      (pre ++ kv.1.bytes, w kv.1 kv.2)) := by
  rw [Backend.prefixScan_of_healthy hb]
  refine congrArg Except.ok ?_
  have hsorted : ((coins.toList.filter fun kv => p kv.2).map fun kv =>
      (pre ++ kv.1.bytes, w kv.1 kv.2)).Pairwise fun a b => compare a.1 b.1 = .lt := by
    refine List.pairwise_map.2 ((coins.ordered_keys_toList.filter _).imp fun {a b} hab => ?_)
    rw [PrefixScan.compare_append]
    exact hab
  -- the table without the rows outside the prefix
  have hfilter : (((b.tables cf).filter fun k _ => pre.isPrefixOf k).toList) =
      (coins.toList.filter fun kv => p kv.2).map fun kv => (pre ++ kv.1.bytes, w kv.1 kv.2) := by
    refine OrdMap.toList_eq_of_sorted hsorted fun k v => ?_
    rw [Std.ExtTreeMap.getElem?_filter', Option.filter_eq_some_iff, List.mem_map,
      List.isPrefixOf_iff_prefix, hmir k v]
    constructor
    · rintro ⟨kv, hkv, heq⟩
      obtain ⟨rfl, rfl⟩ := Prod.mk.inj heq
      obtain ⟨hmem, hp⟩ := List.mem_filter.1 hkv
      have hm : m kv.1 = some kv.2 := (hcoins kv.1).symm.trans (OrdMap.mem_toList.1 hmem)
      obtain ⟨hrow, hpre⟩ := (hrow kv.1 kv.2 _ _ hm).2 ⟨hp, rfl, rfl⟩
      exact ⟨⟨kv.1, kv.2, hm, hrow⟩, hpre⟩
    · rintro ⟨⟨id, rec, hm, hcoin⟩, hpre⟩
      obtain ⟨hp, rfl, rfl⟩ := (hrow id rec k v hm).1 ⟨hcoin, hpre⟩
      exact ⟨(id, rec), List.mem_filter.2 ⟨OrdMap.mem_toList.2 ((hcoins id).trans hm), hp⟩, rfl⟩
  rw [← hfilter, Std.ExtTreeMap.toList_filter]

namespace CoinStore.Represents

variable {S : Scope} {s : CoinStore} {m : Coinset} {coins : IdMap CoinRecord}

theorem scanRecords (h : s.Represents S m) (hcoins : ∀ id : CoinId, coins[id]? = m id) :
    s.backend.prefixScan .coinRecords [] = .ok (coins.toList.map fun kv =>
      (coinKey kv.1, serializeCoinRecordStorageBytes kv.2)) := by
  rw [Backend.prefixScan_eq h.healthy (h.rows .coinRecords (S.life_sub _ (.head _))) hcoins
    (p := fun _ => true) (w := fun _ rec => serializeCoinRecordStorageBytes rec)]
  · rw [List.filter_true]
    rfl
  · intro id rec k v _
    simp [coinRow, coinKey, eq_comm]

theorem scanIndex (h : s.Represents S m) (hcoins : ∀ id : CoinId, coins[id]? = m id)
    (cf : ColumnFamily) (hcf : cf ∈ indexFamilies) (hS : cf ∈ S.cfs) (pre : Bytes)
    (hpre : pre.length = indexWidth cf) :
    s.backend.prefixScan cf pre = .ok ((coins.toList.filter fun kv =>
      indexHead cf kv.2 = some pre).map fun kv =>
        (pre ++ kv.1.bytes, ((coinRow cf kv.1 kv.2).getD ([], [])).2)) := by
  refine Backend.prefixScan_eq h.healthy (h.rows cf hS) hcoins
    (p := fun rec => indexHead cf rec = some pre)
    (w := fun id rec => ((coinRow cf id rec).getD ([], [])).2) fun id rec k v _ => ?_
  obtain ⟨v', hrow⟩ := coinRow_index id rec hcf
  rw [decide_eq_true_eq]
  constructor
  · rintro ⟨hkv, hprefix⟩
    have hhead : indexHead cf rec = some pre :=
      (coinRow_prefix_iff hcf hpre).1 ⟨k, v, hkv, hprefix⟩
    refine ⟨hhead, ?_, ?_⟩
    · rw [hrow, hhead] at hkv
      exact (Prod.mk.inj (Option.some.inj hkv)).1.symm
    · rw [hkv]
      rfl
  · rintro ⟨hhead, rfl, rfl⟩
    rw [hrow, hhead]
    exact ⟨rfl, List.prefix_append _ _⟩

theorem pushIndexed_ordered (h : s.Represents S m) (hcoins : ∀ id : CoinId, coins[id]? = m id)
    (cf : ColumnFamily) (hcf : cf ∈ indexFamilies) (hS : cf ∈ S.cfs) (pre : Bytes)
    (hpre : pre.length = indexWidth cf) (keep : CoinRecord → Bool) (results : List CoinRecord) :
    s.pushIndexed cf pre.length keep results pre = .ok (results ++
      (coins.toList.filter fun kv => keep kv.2 && indexHead cf kv.2 = some pre).map (·.2)) := by
  rw [pushIndexed, h.scanIndex hcoins cf hcf hS pre hpre, orStorage_ok, Res.ok_bind, ← List.filter_filter]
  have hm : ∀ kv ∈ coins.toList.filter fun kv => indexHead cf kv.2 = some pre, m kv.1 = some kv.2 :=
    fun kv hkv => (hcoins kv.1).symm.trans (OrdMap.mem_toList.1 (List.mem_filter.1 hkv).1)
  generalize coins.toList.filter (fun kv => indexHead cf kv.2 = some pre) = l at hm
  induction l generalizing results with
  | nil => simp
  | cons kv l ih =>
    rw [List.map_cons, List.foldlM_cons, h.pushEntry_eq (hm kv (.head _)), Res.ok_bind,
      ih _ fun kv' hkv' => hm kv' (.tail _ hkv')]
    cases hkeep : keep kv.2 <;> simp [hkeep]

end CoinStore.Represents

end DigCoinstore
