import DigCoinstore.HintMirror
import DigCoinstore.RoundTrip

/-!
# Hint lookups

In a store whose hint tables mirror each other the lookups of 32-byte hints answer exactly the
stored pairs, in both directions (`mem_getCoinIdsByHint`, `mem_getHintsForCoinIds`). A snapshot
carries no hints and a restore clears the hint tables, so a restored store has no hints: the lookups
survive exactly when there was no 32-byte hint to find (`Operated.hints_survive_iff`).
-/

namespace DigCoinstore

/-- `usize::MAX` -/
def unlimited : Nat := 2 ^ 64 - 1

/-! ## Keys -/

theorem keyTail_append (a b : Bytes32) : keyTail (a.bytes ++ b.bytes) = some b := by
  rw [keyTail, dif_pos (by simp)]
  congr 1
  apply Bytes32.ext
  simp [slice]

theorem keyTail_eq_some {pre rest : Bytes} {b : Bytes32} (hlen : pre.length + rest.length ≤ 64)
    (hpre : pre.length = 32) : keyTail (pre ++ rest) = some b ↔ rest = b.bytes := by
  constructor
  · intro h
    unfold keyTail at h
    split at h
    · next h64 =>
      have hb := congrArg Bytes32.bytes (Option.some.inj h)
      rw [List.length_append] at h64
      rw [← hb]
      simp only [slice]
      rw [List.drop_left' hpre, List.take_of_length_le (by omega)]
    · cases h
  · rintro rfl
    exact keyTail_append ⟨pre, hpre⟩ b

/-- The loop keeps the first `maxItems` tails. -/
theorem collectTails_eq (tail : Bytes → Option Bytes32) (maxItems : Nat) :
    ∀ (entries : List KvPair) (result : List CoinId), collectTails tail maxItems entries result =
      result ++ (entries.filterMap (tail ·.1)).take (maxItems - result.length)
  | [], result => by simp [collectTails]
  | (key, value) :: entries, result => by
    rw [collectTails]
    split
    · next hfull => rw [Nat.sub_eq_zero_of_le hfull, List.take_zero, List.append_nil]
    · next hroom =>
      rw [collectTails_eq tail maxItems entries, List.filterMap_cons, List.append_assoc]
      cases htail : tail key with
      | none => simp
      | some id =>
        obtain ⟨n, hn⟩ : ∃ n, maxItems - result.length = n + 1 := ⟨maxItems - result.length - 1, by omega⟩
        have hleft : maxItems - (result.length + 1) = n := by omega
        simp [hn, hleft]

namespace CoinStore

variable {s : CoinStore}

/-! ## Lookups -/

/-- The 32-byte hint is stored for the coin. -/
def StoresHint (s : CoinStore) (coinId : CoinId) (hint : Bytes32) : Prop :=
  ((s.backend.tables .hints)[coinHintKey coinId hint]?).isSome = true

/-- **The ids that end the keys under a prefix**, each once. -/
theorem tails_exact {t : Table} {pre : Bytes} {tail : Bytes → Option Bytes32}
    (htail : ∀ (k : Bytes) v id, t[k]? = some v → pre <+: k → (tail k = some id ↔ k = pre ++ id.bytes)) :
    ((t.toList.filter fun kv => pre.isPrefixOf kv.1).filterMap (tail ·.1)).Nodup ∧
    ∀ id, id ∈ (t.toList.filter fun kv => pre.isPrefixOf kv.1).filterMap (tail ·.1) ↔
      (t[pre ++ id.bytes]?).isSome = true := by
  have hentry : ∀ kv ∈ t.toList.filter fun kv => pre.isPrefixOf kv.1, ∀ id,
      tail kv.1 = some id ↔ kv.1 = pre ++ id.bytes := fun kv hkv id => by
    obtain ⟨hkv, hpre⟩ := List.mem_filter.1 hkv
    exact htail kv.1 kv.2 id (OrdMap.mem_toList.1 hkv) (List.isPrefixOf_iff_prefix.1 hpre)
  constructor
  · have hkeys : (t.toList.filter fun kv => pre.isPrefixOf kv.1).Pairwise (·.1 ≠ ·.1) := by
      have hall : (t.toList.map (·.1)).Nodup := OrdMap.nodup_keys t
      exact (List.pairwise_map.1 hall).filter _
    refine List.pairwise_filterMap.2 (hkeys.imp_of_mem fun hkv hkv' hne id hid id' hid' heq => hne ?_)
    -- one id, one key
    rw [(hentry _ hkv id).1 hid, (hentry _ hkv' id').1 hid', heq]
  · intro id
    rw [List.mem_filterMap, Option.isSome_iff_exists]
    constructor
    · rintro ⟨kv, hkv, hid⟩
      have hget := OrdMap.mem_toList.1 (List.mem_filter.1 hkv).1
      rw [(hentry kv hkv id).1 hid] at hget
      exact ⟨kv.2, hget⟩
    · rintro ⟨v, hget⟩
      have hpre : pre <+: pre ++ id.bytes := List.prefix_append _ _
      exact ⟨(pre ++ id.bytes, v), List.mem_filter.2 ⟨OrdMap.mem_toList.2 hget,
        List.isPrefixOf_iff_prefix.2 hpre⟩, (htail _ v id hget hpre).2 rfl⟩

theorem keyTail_under {a b : Bytes32} {k : Bytes} (hlen : k.length ≤ 64) (hpre : a.bytes <+: k) :
    keyTail k = some b ↔ k = a.bytes ++ b.bytes := by
  obtain ⟨rest, rfl⟩ := hpre
  rw [List.length_append] at hlen
  rw [keyTail_eq_some hlen a.length_bytes, List.append_cancel_left_eq]

theorem mem_tails {t : Table} {a b : Bytes32} (hlen : ∀ (k : Bytes) v, t[k]? = some v → k.length ≤ 64) :
    b ∈ (t.toList.filter fun kv => a.bytes.isPrefixOf kv.1).filterMap (keyTail ·.1) ↔
      (t[a.bytes ++ b.bytes]?).isSome = true :=
  (tails_exact fun k v _ hget hpre => keyTail_under (hlen k v hget) hpre).2 b

theorem HintsPaired.length_le {t : Tables} (h : HintsPaired t) :
    (∀ (k : Bytes) v, (t .hints)[k]? = some v → k.length ≤ 64) ∧
      ∀ (k : Bytes) v, (t .hintsByValue)[k]? = some v → k.length ≤ 64 := by
  obtain ⟨members, hm⟩ := h
  have hmax : ∀ p, members p = some () → p.2.length ≤ 32 := fun p hp => (hm.lengths p hp).2
  constructor
  · intro k v hget
    obtain ⟨p, hp, hrow⟩ := hm.forward.row_iff.1 hget
    have hlen := hmax p hp
    rw [(Prod.mk.inj hrow).1, forwardKey, List.length_append, Bytes32.length_bytes]
    omega
  · intro k v hget
    obtain ⟨p, hp, hrow⟩ := hm.reverse.row_iff.1 hget
    have hlen := hmax p hp
    rw [(Prod.mk.inj hrow).1, reverseKey, List.length_append, Bytes32.length_bytes]
    omega

/-- **The coins of a hint** are those it is stored for. -/
theorem mem_getCoinIdsByHint (h : s.backend.HintsOk) (hint : Bytes32) (maxItems : Nat)
    (hmax : (s.backend.tables .hintsByValue).size ≤ maxItems) : ∃ ids,
    s.getCoinIdsByHint hint maxItems = .ok ids ∧ ∀ id, id ∈ ids ↔ s.StoresHint id hint := by
  obtain ⟨hb, hpaired⟩ := h
  refine ⟨_, ?_, fun id => (mem_tails (a := hint) (HintsPaired.length_le hpaired).2).trans ?_⟩
  · rw [getCoinIdsByHint, Backend.prefixScan_of_healthy hb, orStorage_ok, Res.ok_bind,
      collectTails_eq, List.nil_append, List.length_nil, Nat.sub_zero]
    -- there is room for all entries
    have hfilter := List.length_filter_le (fun kv : KvPair => hint.bytes.isPrefixOf kv.1)
      (s.backend.tables .hintsByValue).toList
    rw [Std.ExtTreeMap.length_toList] at hfilter
    exact congrArg Except.ok (List.take_of_length_le
      ((List.length_filterMap_le _ _).trans (hfilter.trans hmax)))
  · obtain ⟨members, hm⟩ := hpaired
    have hf := hm.forward.get_key forwardKey_injective (id, hint.bytes)
    have hr := hm.reverse.get_key reverseKey_injective (id, hint.bytes)
    rw [← hr] at hf
    exact Eq.congr_left hf.symm

/-- **The hints of a coin** are those stored for it. -/
theorem mem_getHintsForCoinIds (h : s.backend.HintsOk) (id : CoinId) : ∃ result,
    s.getHintsForCoinIds [id] = .ok result ∧
      ∀ hint, hint ∈ (result[id]?).getD [] ↔ s.StoresHint id hint := by
  obtain ⟨hb, hpaired⟩ := h
  have hmem : ∀ hint : Bytes32, hint ∈ _ ↔ _ := fun hint =>
    mem_tails (a := id) (b := hint) (HintsPaired.length_le hpaired).1
  simp only [getHintsForCoinIds, List.foldlM_cons, List.foldlM_nil,
    Backend.prefixScan_of_healthy hb, orStorage_ok, Res.ok_bind]
  split
  · next hempty =>
    refine ⟨∅, rfl, fun hint => ?_⟩
    rw [StoresHint, coinHintKey, ← hmem hint, List.isEmpty_iff.1 hempty,
      Std.ExtTreeMap.getElem?_empty, Option.getD_none]
  · refine ⟨_, rfl, fun hint => ?_⟩
    rw [OrdMap.getElem?_insert, if_pos rfl, Option.getD_some]
    exact hmem hint

end CoinStore

/-! ## Hints across a snapshot -/

variable [Chia] {s target target' : CoinStore} {snap : CoinStoreSnapshot}

namespace CoinStore

/-- A snapshot without hints leaves the hint tables of a restored store empty. -/
theorem snapshotTables_no_hints (hhints : snap.hints = []) {cf : ColumnFamily}
    (hcf : cf ∈ hintFamilies) : snapshotTables snap cf = ∅ := by
  have hmeta : cf ≠ .metadata := by
    rintro rfl
    exact absurd hcf (by decide)
  rw [snapshotTables, hhints, stageTip_other _ hmeta, Tables.put, Function.update_of_ne hmeta]
  refine applyOps_stageAll_other ops_stageCreation (fun rec hop => ?_) _ Tables.empty
  simp only [hintFamilies, List.mem_cons, List.not_mem_nil, or_false] at hcf
  rcases hcf with rfl | rfl <;> cases hs : rec.spentHeight <;>
    simp [stageCreation, appendCoinRecordToBatch, hs, Tables.opCf] at hop

theorem restore_no_hints (hsnap : s.snapshot = .ok snap) (htarget : target.backend.Healthy)
    (hrestore : target.restore snap = (target', .ok ())) :
    target'.backend.HintsOk ∧ ∀ cf ∈ hintFamilies, target'.backend.tables cf = ∅ := by
  have hhints := snapshot_hints hsnap
  obtain ⟨tree, hcheck⟩ := check_of_restore (congrArg Prod.snd hrestore)
  obtain ⟨backend, heq, hb, ht⟩ := restore_of_check hcheck htarget
  obtain rfl : restored target snap tree backend = target' := (Prod.mk.inj (heq.symm.trans hrestore)).1
  refine ⟨⟨hb, ?_⟩, fun cf hcf => ?_⟩
  · rw [restored, ht]
    exact snapshotTables_hints snap
  · rw [restored, ht, snapshotTables_no_hints hhints hcf]

/-- **The lookups of `s'` find the 32-byte hints of `s`**, and `s'` counts as many when `s` has no
others. -/
structure HintsSurvive (s s' : CoinStore) : Prop where
  coinIds : ∀ id hint, s.StoresHint id hint →
    ∃ ids, s'.getCoinIdsByHint hint unlimited = .ok ids ∧ id ∈ ids
  hints : ∀ id hint, s.StoresHint id hint →
    ∃ result, s'.getHintsForCoinIds [id] = .ok result ∧ hint ∈ (result[id]?).getD []
  count : (∀ kv ∈ s.rows .hints, ∃ id hint, kv.1 = coinHintKey id hint) →
    s'.countHints = s.countHints

end CoinStore

/-- **Hints do not survive a snapshot**: the lookups of the restored store find the hints of the
source exactly when the source had no 32-byte hint. -/
theorem Operated.hints_survive_iff (h : Operated s) (hsnap : s.snapshot = .ok snap)
    (htarget : target.backend.Healthy) (hrestore : target.restore snap = (target', .ok ())) :
    s.HintsSurvive target' ↔ ∀ id hint, ¬ s.StoresHint id hint := by
  obtain ⟨hok, hnone⟩ := CoinStore.restore_no_hints hsnap htarget hrestore
  constructor
  · intro hsurvive id hint hstored
    have hempty := hnone .hintsByValue (by decide)
    obtain ⟨ids, hlookup, hids⟩ := CoinStore.mem_getCoinIdsByHint hok hint unlimited
      (by rw [hempty]; exact Nat.zero_le _)
    obtain ⟨ids', hlookup', hid⟩ := hsurvive.coinIds id hint hstored
    obtain rfl := Except.ok.inj (hlookup.symm.trans hlookup')
    have hfound := (hids id).1 hid
    rw [CoinStore.StoresHint, hnone .hints (by decide), Std.ExtTreeMap.getElem?_empty] at hfound
    cases hfound
  · intro hno
    refine ⟨fun id hint hstored => absurd hstored (hno id hint),
      fun id hint hstored => absurd hstored (hno id hint), fun honly => ?_⟩
    have hs : s.backend.tables .hints = ∅ := Std.ExtTreeMap.ext_getElem? fun k => by
      rw [Std.ExtTreeMap.getElem?_empty, Option.eq_none_iff_forall_ne_some]
      intro v hv
      obtain ⟨id, hint, rfl⟩ := honly (k, v) hv
      exact hno id hint (Option.isSome_iff_exists.2 ⟨v, hv⟩)
    rw [CoinStore.countHints, CoinStore.countHints, Backend.prefixScan_of_healthy hok.1,
      Backend.prefixScan_of_healthy h.hintsOk.1, hs, hnone .hints (by decide)]

end DigCoinstore

namespace DigCoinstore

open Sample

/-- Genesis with a 32-byte hint for coin 1. -/
def hinted : CoinStore := (genesis.addHint (ofNum 1) (ofNum 5).bytes).1

theorem operated_hinted : Operated hinted := operated_genesis.call .addHint

/-- Its snapshot is taken and restored. -/
theorem restore_hinted : ∃ snap target', hinted.snapshot = .ok snap ∧
    opened.restore snap = (target', .ok ()) := by
  have hreach : Reachable coins BlockData.Honest hinted := reachable_genesis.addHint
  obtain ⟨m, hm, _⟩ := hreach.life
  have hfits : hinted.initialized = true ∧ unspentTotal hinted.storedCoins < 2 ^ 64 := by
    decide +kernel
  obtain ⟨snap, hsnap⟩ := hm.snapshot_ok hfits.1 hfits.2
  obtain ⟨target', hrestore, _⟩ := hm.restore_spec (s := opened) hsnap Backend.healthy_fresh
  exact ⟨snap, target', hsnap, hrestore⟩

theorem hints_survive_iff_hinted : ∃ snap target', hinted.snapshot = .ok snap ∧
    opened.restore snap = (target', .ok ()) ∧
    (hinted.HintsSurvive target' ↔ ∀ id hint, ¬ hinted.StoresHint id hint) := by
  obtain ⟨snap, target', hsnap, hrestore⟩ := restore_hinted
  exact ⟨snap, target', hsnap, hrestore,
    operated_hinted.hints_survive_iff hsnap Backend.healthy_fresh hrestore⟩

/-- The hint of coin 1 is found and counted in the source, not in the restored store. -/
theorem restore_drops_hint : Operated hinted ∧
    hinted.getCoinIdsByHint (ofNum 5) unlimited = .ok [ofNum 1] ∧ hinted.countHints = .ok 1 ∧
    ∃ snap target', hinted.snapshot = .ok snap ∧ opened.restore snap = (target', .ok ()) ∧
      target'.getCoinIdsByHint (ofNum 5) unlimited = .ok [] ∧ target'.countHints = .ok 0 := by
  obtain ⟨snap, target', hsnap, hrestore⟩ := restore_hinted
  obtain ⟨hok, hnone⟩ := CoinStore.restore_no_hints hsnap Backend.healthy_fresh hrestore
  obtain ⟨hfound, hcount⟩ :
      (hinted.getCoinIdsByHint (ofNum 5) unlimited).toOption = some [ofNum 1] ∧
      hinted.countHints.toOption = some 1 := by decide +kernel
  refine ⟨operated_hinted, Res.eq_ok_of_toOption hfound, Res.eq_ok_of_toOption hcount, snap,
    target', hsnap, hrestore, ?_, ?_⟩
  · rw [CoinStore.getCoinIdsByHint, Backend.prefixScan_of_healthy hok.1, hnone .hintsByValue (by decide)]
    rfl
  · rw [CoinStore.countHints, Backend.prefixScan_of_healthy hok.1, hnone .hints (by decide)]
    rfl

end DigCoinstore
