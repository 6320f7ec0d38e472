import DigCoinstore.ApplySpec

/-!
# The two passes of a rollback

On a store of the coin set `m` the scan over the heights above the target meets each record with
such a height once (`scanAbove_eq`). So pass one folds over the records confirmed above the target
and pass two over those spent above it; both are folds that cannot fail, and what they accumulate
is read off the two lists (`foldl_deleteStep`, `foldl_unspendStep`).
-/

namespace DigCoinstore

/-! ## Heights -/

/-- The heights of a scan do not wrap. -/
theorem toNat_ofNat_scan {target tip : UInt64} {n : Nat}
    (hn : n ∈ List.range' (target.toNat + 1) (tip.toNat - target.toNat)) :
    (UInt64.ofNat n).toNat = n := by
  have hlt := tip.toNat_lt
  rw [List.mem_range'_1] at hn
  exact UInt64.toNat_ofNat_of_lt' (show n < 2 ^ 64 by omega)

theorem mem_scanHeights {target tip h : UInt64} :
    h ∈ scanHeights target tip ↔ target.toNat < h.toNat ∧ h.toNat ≤ tip.toNat := by
  rw [scanHeights, List.mem_map]
  constructor
  · rintro ⟨n, hn, rfl⟩
    rw [toNat_ofNat_scan hn]
    rw [List.mem_range'_1] at hn
    omega
  · rintro ⟨hgt, hle⟩
    exact ⟨h.toNat, List.mem_range'_1.2 (by omega), UInt64.ofNat_toNat⟩

theorem nodup_scanHeights (target tip : UInt64) : (scanHeights target tip).Nodup := by
  refine List.Nodup.map_on (fun a ha b hb heq => ?_) (List.nodup_range' ..)
  have := congrArg UInt64.toNat heq
  rwa [toNat_ofNat_scan ha, toNat_ofNat_scan hb] at this

theorem heightBytes_starts {h h' : UInt64} {id : CoinId} :
    FixedInt.toBeBytes h <+: heightCoinKey h' id ↔ h = h' := by
  constructor
  · intro hpre
    have hpre' := List.prefix_of_prefix_length_le hpre (List.prefix_append ..) (by simp)
    exact FixedInt.toBeBytes_inj.1 (hpre'.eq_of_length (by simp))
  · rintro rfl
    exact List.prefix_append ..

variable [Chia]

namespace CoinStore

/-! ## The scans -/

namespace Represents

variable {S : Scope} {s : CoinStore} {m : Coinset} {cf : ColumnFamily}
  {time : CoinRecord → Option UInt64}

/-- One height of an index that is keyed by `time`. -/
theorem hits (h : s.Represents S m) (hcf : cf ∈ S.cfs)
    (hrow : ∀ id rec, coinRow cf id rec = (time rec).map fun t => (heightCoinKey t id, id.bytes))
    (height : UInt64) : ∃ l : List (CoinId × CoinRecord),
      s.backend.prefixScan cf (FixedInt.toBeBytes height) =
        .ok (l.map fun x => (heightCoinKey height x.1, x.1.bytes)) ∧
      (l.map (·.1)).Nodup ∧ ∀ id rec, (id, rec) ∈ l ↔ m id = some rec ∧ time rec = some height := by
  obtain ⟨l, hscan, hnodup, hl⟩ := Backend.scan_mirrors h.healthy (h.rows cf hcf)
    (FixedInt.toBeBytes height)
  have hmem : ∀ id rec, (id, rec) ∈ l ↔ m id = some rec ∧ time rec = some height := fun id rec => by
    rw [hl id rec, hrow]
    refine and_congr_right fun _ => ⟨?_, fun ht => ?_⟩
    · rintro ⟨k, v, hkv, hpre⟩
      obtain ⟨t, ht, heq⟩ := Option.map_eq_some_iff.1 hkv
      obtain rfl := (Prod.mk.inj heq).1
      rw [ht, heightBytes_starts.1 hpre]
    · exact ⟨_, _, by rw [ht]; rfl, heightBytes_starts.2 rfl⟩
  refine ⟨l, ?_, hnodup, hmem⟩
  rw [hscan]
  refine congrArg _ (List.map_congr_left fun x hx => ?_)
  rw [hrow, ((hmem x.1 x.2).1 hx).2]
  rfl

/-- The heights of a list, one after the other; the induction is on the list. -/
theorem foldlM_heights (h : s.Represents S m) (hcf : cf ∈ S.cfs)
    (hrow : ∀ id rec, coinRow cf id rec = (time rec).map fun t => (heightCoinKey t id, id.bytes)) :
    ∀ heights : List UInt64, heights.Nodup → ∃ l : List (CoinId × CoinRecord),
      (l.map (·.1)).Nodup ∧
      (∀ id rec, (id, rec) ∈ l ↔ m id = some rec ∧ ∃ t ∈ heights, time rec = some t) ∧
      ∀ (body : RollbackAcc → KvPair → Res RollbackAcc)
        (step : RollbackAcc → CoinId × CoinRecord → RollbackAcc) (acc : RollbackAcc),
        (∀ acc x t, m x.1 = some x.2 → time x.2 = some t →
          body acc (heightCoinKey t x.1, x.1.bytes) = .ok (step acc x)) →
        heights.foldlM (fun acc height => do
          let entries ← orStorage (s.backend.prefixScan cf (FixedInt.toBeBytes height))
          entries.foldlM body acc) acc = .ok (l.foldl step acc)
  | [], _ => ⟨[], List.nodup_nil, by simp, fun _ _ _ _ => rfl⟩
  | height :: heights, hnd => by
    obtain ⟨l, hscan, hl, hmem⟩ := h.hits hcf hrow height
    obtain ⟨l', hl', hmem', hfold⟩ := h.foldlM_heights hcf hrow heights (List.nodup_cons.1 hnd).2
    refine ⟨l ++ l', ?_, fun id rec => ?_, fun body step acc hbody => ?_⟩
    · rw [List.map_append, List.nodup_append]
      refine ⟨hl, hl', fun id hid id' hid' heq => ?_⟩
      -- a record has one time, and the heights differ
      subst heq
      obtain ⟨x, hx, rfl⟩ := List.mem_map.1 hid
      obtain ⟨y, hy, hxy⟩ := List.mem_map.1 hid'
      obtain ⟨hm, ht⟩ := (hmem _ _).1 hx
      obtain ⟨hm', t, ht', htime⟩ := (hmem' _ _).1 hy
      rw [hxy, hm] at hm'
      rw [← Option.some.inj hm', ht, Option.some.injEq] at htime
      exact (List.nodup_cons.1 hnd).1 (htime ▸ ht')
    · rw [List.mem_append, hmem, hmem', ← and_or_left]
      simp
    · have hentries : ∀ (l : List (CoinId × CoinRecord)) (acc : RollbackAcc),
          (∀ x ∈ l, m x.1 = some x.2 ∧ time x.2 = some height) →
          (l.map fun x => (heightCoinKey height x.1, x.1.bytes)).foldlM body acc =
            .ok (l.foldl step acc) := by
        intro l
        induction l with
        | nil => exact fun _ _ => rfl
        | cons x l ih =>
          intro acc hx
          obtain ⟨hm, ht⟩ := hx x (.head _)
          rw [List.map_cons, List.foldlM_cons, hbody acc x height hm ht, Res.ok_bind]
          exact ih _ fun y hy => hx y (.tail _ hy)
      rw [List.foldlM_cons, hscan, orStorage_ok, Res.ok_bind,
        hentries l acc fun x hx => (hmem x.1 x.2).1 hx, Res.ok_bind, List.foldl_append]
      exact hfold body step _ hbody

variable (cf time) in
/-- **A pass** folds over the records with a height above the target. -/
theorem scanAbove_eq (h : s.Represents S m) (hcf : cf ∈ S.cfs)
    (hrow : ∀ id rec, coinRow cf id rec = (time rec).map fun t => (heightCoinKey t id, id.bytes))
    (htip : ∀ id rec t, m id = some rec → time rec = some t → t.toNat ≤ s.height.toNat)
    (target : UInt64) : ∃ l : List (CoinId × CoinRecord), (l.map (·.1)).Nodup ∧
      (∀ id rec, (id, rec) ∈ l ↔ m id = some rec ∧ ∃ t, time rec = some t ∧ target < t) ∧
      ∀ (body : RollbackAcc → KvPair → Res RollbackAcc)
        (step : RollbackAcc → CoinId × CoinRecord → RollbackAcc) (acc : RollbackAcc),
        (∀ acc x t, m x.1 = some x.2 → time x.2 = some t →
          body acc (heightCoinKey t x.1, x.1.bytes) = .ok (step acc x)) →
        s.scanAbove cf target body acc = .ok (l.foldl step acc) := by
  obtain ⟨l, hl, hmem, hfold⟩ :=
    h.foldlM_heights hcf hrow (scanHeights target s.height) (nodup_scanHeights ..)
  refine ⟨l, hl, fun id rec => (hmem id rec).trans (and_congr_right fun hm => ?_), hfold⟩
  refine exists_congr fun t => ?_
  rw [mem_scanHeights, UInt64.lt_iff_toNat_lt]
  exact ⟨fun ⟨⟨hlt, _⟩, ht⟩ => ⟨ht, hlt⟩, fun ⟨ht, hlt⟩ => ⟨⟨hlt, htip id rec t hm ht⟩, ht⟩⟩

end Represents

/-! ## Pass one -/

omit [Chia] in
theorem slice_heightCoinKey (t : UInt64) (id : CoinId) : slice (heightCoinKey t id) 8 40 = id.bytes := by
  have hdrop : (heightCoinKey t id).drop 8 = id.bytes := List.drop_left' (by simp)
  rw [slice, hdrop]
  exact List.take_of_length_le (by simp)

/-- The deletes of a listed record. -/
def stageDeleted (batch : WriteBatch) (x : CoinId × CoinRecord) : WriteBatch :=
  stageDeletion batch x.1 x.2

/-- What pass one adds for a record. -/
def deleteStep (acc : RollbackAcc) (x : CoinId × CoinRecord) : RollbackAcc :=
  { acc with
    modifiedCoins := acc.modifiedCoins.insert x.1 x.2
    batch := stageDeleted acc.batch x
    merkleRemovals := acc.merkleRemovals ++ [x.1]
    coinsDeleted := acc.coinsDeleted + 1 }

theorem Represents.deleteConfirmed_eq {S : Scope} {s : CoinStore} {m : Coinset}
    (h : s.Represents S m) (acc : RollbackAcc) {x : CoinId × CoinRecord} (t : UInt64)
    (hm : m x.1 = some x.2) :
    s.deleteConfirmed acc (heightCoinKey t x.1, x.1.bytes) = .ok (deleteStep acc x) := by
  have hlen : ¬ (heightCoinKey t x.1).length < 40 := by simp [heightCoinKey]
  simp only [deleteConfirmed, if_neg hlen, slice_heightCoinKey, coinIdFromKey_bytes, Res.ok_bind,
    h.getCoinRecord_eq, hm]
  rfl

omit [Chia] in
theorem foldl_deleteStep : ∀ (l : List (CoinId × CoinRecord)) (acc : RollbackAcc),
    l.foldl deleteStep acc = { acc with
      modifiedCoins := OrdMap.insertAll acc.modifiedCoins l
      coinsDeleted := acc.coinsDeleted + l.length
      batch := l.foldl stageDeleted acc.batch
      merkleRemovals := acc.merkleRemovals ++ l.map (·.1) }
  | [], acc => by simp
  | x :: l, acc => by
    rw [List.foldl_cons, foldl_deleteStep l]
    simp [deleteStep, Nat.add_assoc, Nat.add_comm 1]

/-! ## The hints between the passes -/

def hintFamilies : List ColumnFamily := [.hints, .hintsByValue]

omit [Chia] in
theorem foldl_stageHintDeletion (id : CoinId) : ∀ (keys : List Bytes) (batch : WriteBatch),
    ∃ ops, keys.foldl (stageHintDeletion id) batch = ⟨batch.ops ++ ops⟩ ∧
      ∀ op ∈ ops, Tables.opCf op ∈ hintFamilies
  | [], batch => ⟨[], by simp, by simp⟩
  | key :: keys, batch => by
    obtain ⟨ops, hops, hcf⟩ := foldl_stageHintDeletion id keys (stageHintDeletion id batch key)
    rw [List.foldl_cons, hops]
    by_cases hlen : 32 < key.length
    · refine ⟨.delete .hintsByValue (key.drop 32 ++ id.bytes) :: .delete .hints key :: ops, ?_, ?_⟩
      · simp [stageHintDeletion, hlen]
      · simpa [Tables.opCf, hintFamilies] using hcf
    · refine ⟨.delete .hints key :: ops, by simp [stageHintDeletion, hlen], ?_⟩
      simpa [Tables.opCf, hintFamilies] using hcf

omit [Chia] in
/-- The hint clean-up adds operations on the hint tables only. -/
theorem foldlM_deleteHints {s : CoinStore} (h : s.backend.Healthy) :
    ∀ (ids : List CoinId) (acc : RollbackAcc),
    ∃ ops, ids.foldlM s.deleteHints acc = .ok { acc with batch := ⟨acc.batch.ops ++ ops⟩ } ∧
      ∀ op ∈ ops, Tables.opCf op ∈ hintFamilies
  | [], acc => ⟨[], by simp, by simp⟩
  | id :: ids, acc => by
    have hhints : ∃ ops, s.deleteHints acc id = .ok { acc with batch := ⟨acc.batch.ops ++ ops⟩ } ∧
        ∀ op ∈ ops, Tables.opCf op ∈ hintFamilies := by
      obtain ⟨ops, hops, hcf⟩ := foldl_stageHintDeletion id
        (((s.backend.tables .hints).toList.filter fun kv => id.bytes.isPrefixOf kv.1).map (·.1)) acc.batch
      refine ⟨ops, ?_, hcf⟩
      rw [deleteHints, Backend.prefixScan_of_healthy h, orStorage_ok, Res.ok_bind, hops]
      rfl
    obtain ⟨ops, hops, hcf⟩ := hhints
    obtain ⟨ops', hops', hcf'⟩ := foldlM_deleteHints h ids { acc with batch := ⟨acc.batch.ops ++ ops⟩ }
    refine ⟨ops ++ ops', ?_, fun op hop => ?_⟩
    · rw [List.foldlM_cons, hops, Res.ok_bind, hops', List.append_assoc]
    · exact (List.mem_append.1 hop).elim (hcf op) (hcf' op)

/-! ## Pass two -/

/-- The spent-height key of a spent record. -/
def spentKey (x : CoinId × CoinRecord) : Bytes := heightCoinKey (x.2.spentHeight.getD 0) x.1

/-- The leaf of a record after an un-spend. -/
def revivedEntry (m : Coinset) (x : CoinId × CoinRecord) : Bytes32 × Bytes32 :=
  (x.1, leafHash (m.revive x.2))

/-- What pass two adds for a record: one deleted in pass one only loses its spent-height row. -/
def unspendStep (m : Coinset) (acc : RollbackAcc) (x : CoinId × CoinRecord) : RollbackAcc :=
  if acc.modifiedCoins.contains x.1 then
    { acc with batch := acc.batch.delete .coinBySpentHeight (spentKey x) }
  else
    { acc with
      modifiedCoins := acc.modifiedCoins.insert x.1 x.2
      batch := stageUnspend acc.batch x.1 (m.revive x.2) (spentKey x)
      merkleUpdates := acc.merkleUpdates ++ [revivedEntry m x]
      coinsUnspent := acc.coinsUnspent + 1 }

theorem Represents.unspendEntry_eq {S : Scope} {s : CoinStore} {m : Coinset} (h : s.Represents S m)
    (acc : RollbackAcc) {x : CoinId × CoinRecord} {t : UInt64} (hm : m x.1 = some x.2)
    (ht : x.2.spentHeight = some t) :
    s.unspendEntry acc (heightCoinKey t x.1, x.1.bytes) = .ok (unspendStep m acc x) := by
  have hlen : ¬ (heightCoinKey t x.1).length < 40 := by simp [heightCoinKey]
  have hkey : heightCoinKey t x.1 = spentKey x := by rw [spentKey, ht, Option.getD_some]
  simp only [unspendEntry, if_neg hlen, slice_heightCoinKey, coinIdFromKey_bytes, Res.ok_bind,
    h.getCoinRecord_eq, hm, unspendStep, ← hkey]
  split <;> rfl

/-- The operations of pass two for a record. -/
def stageSpent (m : Coinset) (target : UInt64) (batch : WriteBatch) (x : CoinId × CoinRecord) :
    WriteBatch :=
  if target < x.2.confirmedHeight then batch.delete .coinBySpentHeight (spentKey x)
  else stageUnspend batch x.1 (m.revive x.2) (spentKey x)

theorem foldl_unspendStep (m : Coinset) (target : UInt64) :
    ∀ (l : List (CoinId × CoinRecord)) (acc : RollbackAcc), (l.map (·.1)).Nodup →
    (∀ x ∈ l, acc.modifiedCoins.contains x.1 = decide (target < x.2.confirmedHeight)) →
    l.foldl (unspendStep m) acc = { acc with
      modifiedCoins := OrdMap.insertAll acc.modifiedCoins
        (l.filter fun x => x.2.confirmedHeight ≤ target)
      coinsUnspent := acc.coinsUnspent + (l.filter fun x => x.2.confirmedHeight ≤ target).length
      batch := l.foldl (stageSpent m target) acc.batch
      merkleUpdates := acc.merkleUpdates ++
        (l.filter fun x => x.2.confirmedHeight ≤ target).map (revivedEntry m) }
  | [], acc, _, _ => by simp
  | x :: l, acc, hnd, hacc => by
    rw [List.map_cons, List.nodup_cons] at hnd
    have hx := hacc x (.head _)
    rw [List.foldl_cons]
    by_cases hlt : target < x.2.confirmedHeight
    · have hstep : unspendStep m acc x =
          { acc with batch := acc.batch.delete .coinBySpentHeight (spentKey x) } := by
        rw [unspendStep, hx, if_pos (decide_eq_true hlt)]
      rw [hstep, foldl_unspendStep m target l
        { acc with batch := acc.batch.delete .coinBySpentHeight (spentKey x) } hnd.2
        fun y hy => hacc y (.tail _ hy)]
      simp [stageSpent, hlt, UInt64.not_le.2 hlt]
    · have hstep : unspendStep m acc x = { acc with
          modifiedCoins := acc.modifiedCoins.insert x.1 x.2
          batch := stageUnspend acc.batch x.1 (m.revive x.2) (spentKey x)
          merkleUpdates := acc.merkleUpdates ++ [revivedEntry m x]
          coinsUnspent := acc.coinsUnspent + 1 } := by
        rw [unspendStep, hx, if_neg (by simpa using hlt)]
      -- the ids are distinct, so the next records are as new to the map as before
      have hrest : ∀ y ∈ l, (acc.modifiedCoins.insert x.1 x.2).contains y.1 =
          decide (target < y.2.confirmedHeight) := fun y hy => by
        have hne : x.1 ≠ y.1 := fun heq => hnd.1 (heq ▸ List.mem_map_of_mem hy)
        rw [← hacc y (.tail _ hy), Std.ExtTreeMap.contains_eq_isSome_getElem?,
          Std.ExtTreeMap.contains_eq_isSome_getElem?, OrdMap.getElem?_insert, if_neg hne]
      rw [hstep, foldl_unspendStep m target l _ hnd.2 hrest]
      simp [stageSpent, hlt, UInt64.not_lt.1 hlt, Nat.add_assoc, Nat.add_comm 1]

end CoinStore

end DigCoinstore
