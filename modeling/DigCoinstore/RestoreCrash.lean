import DigCoinstore.Lib.Crash
import DigCoinstore.RoundTrip
import DigCoinstore.StoredRows

/-!
# A restore that is interrupted

`restore` deletes every row with a call of its own, the rows of `coin_records` first and the
metadata last, and then writes the snapshot in batches, the last one with the marker
(`restoreWrites`). A restore that fails or stops leaves the tables after some of these writes
(`rewriteBackend_performs`). While the marker is there the store opens with the coins left so far,
so the interrupted store opens as the old or the new one exactly when there is nothing between the
two: no coin, or one coin and an empty snapshot (`Operated.restore_interrupted_iff`).
-/

namespace DigCoinstore

/-! ## Calls that write -/

/-- One write of the backend; a delete is a batch of one. -/
def Tables.write (t : Tables) (batch : WriteBatch) : Tables := t.applyOps batch.ops

/-- **The call does the writes `ws`** and ends with `acc`, or fails after some of them. -/
def Backend.Performs {β : Type} (b : Backend) (ws : List WriteBatch) (acc : β)
    (r : Backend × Res β) : Prop :=
  r = ({ b with tables := ws.foldl Tables.write b.tables }, .ok acc) ∨
    ∃ t e, Partly Tables.write ws b.tables t ∧ r = ({ b with tables := t }, .error e)

/-- The writes of a loop, and its last local. -/
def loopWrites {α β : Type} (writes : β → α → List WriteBatch × β) : List α → β → List WriteBatch × β
  | [], acc => ([], acc)
  | x :: xs, acc =>
    let (ws, acc) := writes acc x
    let (ws', acc) := loopWrites writes xs acc
    (ws ++ ws', acc)

/-- **A loop of such calls**; `I` is what each call needs of the tables. -/
theorem forBackend_performs {α β : Type} (body : Backend → β → α → Backend × Res β)
    (writes : β → α → List WriteBatch × β) {I : List α → Tables → Prop}
    (hI : ∀ x xs t acc, I (x :: xs) t → I xs ((writes acc x).1.foldl Tables.write t))
    (hbody : ∀ (b : Backend) acc x xs, I (x :: xs) b.tables →
      b.Performs (writes acc x).1 (writes acc x).2 (body b acc x)) :
    ∀ (xs : List α) (b : Backend) (acc : β), I xs b.tables →
    b.Performs (loopWrites writes xs acc).1 (loopWrites writes xs acc).2 (forBackend body xs b acc)
  | [], _, _, _ => .inl rfl
  | x :: xs, b, acc, h => by
    rw [forBackend, loopWrites]
    rcases hbody b acc x xs h with heq | ⟨t, e, hpart, heq⟩
    · rw [heq]
      have hrest := forBackend_performs body writes hI hbody xs
        { b with tables := (writes acc x).1.foldl Tables.write b.tables } (writes acc x).2
        (hI x xs b.tables acc h)
      rcases hrest with heq' | ⟨t, e, hpart, heq'⟩
      · exact .inl (by simp only [heq', List.foldl_append])
      · exact .inr ⟨t, e, hpart.append_right, heq'⟩
    · rw [heq]
      exact .inr ⟨t, e, hpart.append_left, rfl⟩

/-- A property of all writes of a loop, and one of its local. -/
theorem loopWrites_inv {α β : Type} (writes : β → α → List WriteBatch × β) {Q : WriteBatch → Prop}
    {R : β → Prop} (hbody : ∀ acc x, R acc → (∀ w ∈ (writes acc x).1, Q w) ∧ R (writes acc x).2) :
    ∀ (xs : List α) {acc : β}, R acc →
    (∀ w ∈ (loopWrites writes xs acc).1, Q w) ∧ R (loopWrites writes xs acc).2
  | [], _, hacc => ⟨fun _ hw => (List.not_mem_nil hw).elim, hacc⟩
  | x :: xs, acc, hacc => by
    obtain ⟨hx, hacc'⟩ := hbody acc x hacc
    obtain ⟨hxs, hlast⟩ := loopWrites_inv writes hbody xs hacc'
    rw [loopWrites]
    exact ⟨fun w hw => (List.mem_append.1 hw).elim (hx w) (hxs w), hlast⟩

/-! ## The writes of a restore -/

/-- The deletes of one family. -/
def clearWrites (t : Tables) (_ : Unit) (cf : ColumnFamily) : List WriteBatch × Unit :=
  ((t cf).toList.map fun kv => WriteBatch.new.delete cf kv.1, ())

/-- A full batch is written. -/
def flushWrites (batch : WriteBatch) : List WriteBatch × WriteBatch :=
  if snapshotRestoreBatchOps ≤ batch.len then ([batch], .new) else ([], batch)

theorem flushWhenFull_performs (b : Backend) (batch : WriteBatch) :
    b.Performs (flushWrites batch).1 (flushWrites batch).2 (flushWhenFull b batch) := by
  unfold flushWhenFull flushWrites
  split
  · rw [Backend.batchWrite]
    cases b.faults (.batchWrite batch) with
    | none => exact .inl rfl
    | some e => exact .inr ⟨_, _, .refl, rfl⟩
  · exact .inl rfl

/-- Every family in turn, as it was found before the restore. -/
theorem clearColumnFamily_performs (t : Tables) (b : Backend) (u : Unit) (cf : ColumnFamily)
    (hcf : b.tables cf = t cf) :
    b.Performs (clearWrites t u cf).1 () (clearColumnFamily b u cf) := by
  have hkeys : ∀ keys : List Bytes,
      (loopWrites (fun (_ : Unit) key => ([WriteBatch.new.delete cf key], ())) keys ()).1 =
        keys.map fun key => WriteBatch.new.delete cf key := by
    intro keys
    induction keys with
    | nil => rfl
    | cons key keys ih => rw [loopWrites, List.map_cons, ← ih]; rfl
  have hdelete : ∀ (b : Backend) (u : Unit) (key : Bytes), b.Performs [WriteBatch.new.delete cf key]
      () (deleteKey cf b u key) := by
    intro b u key
    rw [deleteKey, Backend.delete]
    cases b.faults (.delete cf key) with
    | none => exact .inl rfl
    | some e => exact .inr ⟨_, _, .refl, rfl⟩
  rw [clearColumnFamily, Backend.prefixScan]
  cases b.faults (.prefixScan cf []) with
  | some e => exact .inr ⟨_, _, .refl, rfl⟩
  | none =>
    have hloop := forBackend_performs (deleteKey cf) (fun (_ : Unit) key => ([WriteBatch.new.delete cf key], ()))
      (I := fun _ _ => True) (fun _ _ _ _ _ => trivial) (fun b u key _ _ => hdelete b u key)
      ((t cf).toList.map (·.1)) b () trivial
    rw [hkeys, List.map_map] at hloop
    have hall : ((b.tables cf).toList.filter fun kv : KvPair => List.isPrefixOf [] kv.1) =
        (t cf).toList := by
      rw [hcf]
      simp
    simp only [hall, orStorageWith_ok]
    exact hloop

theorem clearWrites_other (t : Tables) (u : Unit) {cf cf' : ColumnFamily} (hne : cf ≠ cf')
    (t' : Tables) : (clearWrites t u cf).1.foldl Tables.write t' cf' = t' cf' := by
  refine foldl_inv (I := fun t : Tables => t cf' = t' cf') rfl fun t'' w hw ht => ?_
  obtain ⟨kv, _, rfl⟩ := List.mem_map.1 hw
  rw [← ht]
  exact Function.update_of_ne hne.symm _ _

theorem clearAll_performs (b : Backend) :
    b.Performs (loopWrites (clearWrites b.tables) allColumnFamilies ()).1 ()
      (forBackend clearColumnFamily allColumnFamilies b ()) := by
  refine forBackend_performs clearColumnFamily (clearWrites b.tables)
    (I := fun cfs t => cfs.Nodup ∧ ∀ cf ∈ cfs, t cf = b.tables cf) ?_ ?_ _ b () ?_
  · rintro cf cfs t u ⟨hnd, ht⟩
    obtain ⟨hcf, hnd⟩ := List.nodup_cons.1 hnd
    refine ⟨hnd, fun cf' hcf' => ?_⟩
    have hne : cf ≠ cf' := fun heq => hcf (heq ▸ hcf')
    rw [clearWrites_other _ _ hne]
    exact ht cf' (.tail _ hcf')
  · rintro b' u cf cfs ⟨_, ht⟩
    exact clearColumnFamily_performs b.tables b' u cf (ht cf (.head _))
  · exact ⟨by decide, fun _ _ => rfl⟩

variable [Chia]

def rowWrites (batch : WriteBatch) (row : CoinRecord × Bytes) : List WriteBatch × WriteBatch :=
  flushWrites (appendCoinRecordToBatch batch row.1 row.2)

omit [Chia] in
def hintWrites (batch : WriteBatch) (hint : CoinId × Bytes32) : List WriteBatch × WriteBatch :=
  flushWrites (stageSnapshotHint batch hint)

/-- The full batches with the rows of the coins, and the batch that is left. -/
def coinWrites (snapshot : CoinStoreSnapshot) : List WriteBatch × WriteBatch :=
  loopWrites rowWrites
    (snapshot.coins.toList.map fun kv => (kv.2, serializeCoinRecordStorageBytes kv.2)) .new

/-- The full batches of a restore, and the batch that is left. -/
def snapshotWrites (snapshot : CoinStoreSnapshot) : List WriteBatch × WriteBatch :=
  let hints := loopWrites hintWrites snapshot.hints (coinWrites snapshot).2
  ((coinWrites snapshot).1 ++ hints.1, hints.2)

/-- The last batch, with the marker and the tip. -/
def lastWrite (snapshot : CoinStoreSnapshot) : WriteBatch :=
  stageTip ((snapshotWrites snapshot).2.put .metadata metaInitialized [1]) snapshot.height
    snapshot.blockHash snapshot.timestamp

/-- **The writes of a restore**, in order. -/
def restoreWrites (t : Tables) (snapshot : CoinStoreSnapshot) : List WriteBatch :=
  (loopWrites (clearWrites t) allColumnFamilies ()).1 ++
    ((snapshotWrites snapshot).1 ++ [lastWrite snapshot])

/-- **A restore does these writes**, or fails with one of them left. -/
theorem rewriteBackend_performs (b : Backend) (snapshot : CoinStoreSnapshot) :
    CoinStore.rewriteBackend b snapshot =
      ({ b with tables := (restoreWrites b.tables snapshot).foldl Tables.write b.tables }, .ok ()) ∨
    ∃ t e, StopsIn Tables.write (restoreWrites b.tables snapshot) b.tables t ∧
      CoinStore.rewriteBackend b snapshot = ({ b with tables := t }, .error e) := by
  simp only [restoreWrites, lastWrite, snapshotWrites, coinWrites]
  generalize hcoins : (snapshot.coins.toList.map fun kv =>
    (kv.2, serializeCoinRecordStorageBytes kv.2)) = coins
  obtain hclear | ⟨t, e, hpart, hclear⟩ := clearAll_performs b
  swap
  · exact .inr ⟨t, e, hpart.stopsIn (by simp), by simp only [CoinStore.rewriteBackend, hclear]⟩
  generalize (loopWrites (clearWrites b.tables) allColumnFamilies ()).1 = cleared at hclear ⊢
  obtain hrows | ⟨t, e, hpart, hrows⟩ := forBackend_performs restoreRow rowWrites
    (I := fun _ _ => True) (fun _ _ _ _ _ => trivial)
    (fun b batch row _ _ => flushWhenFull_performs b _) coins
    { b with tables := cleared.foldl Tables.write b.tables } .new trivial
  swap
  · refine .inr ⟨t, e, stopsIn_append.2 (.inr (hpart.append_left.stopsIn (by simp))), ?_⟩
    simp only [CoinStore.rewriteBackend, hclear, hcoins, hrows]
  generalize loopWrites rowWrites coins .new = rows at hrows ⊢
  obtain hhints | ⟨t, e, hpart, hhints⟩ := forBackend_performs restoreHint hintWrites
    (I := fun _ _ => True) (fun _ _ _ _ _ => trivial)
    (fun b batch hint _ _ => flushWhenFull_performs b _) snapshot.hints
    { b with tables := rows.1.foldl Tables.write (cleared.foldl Tables.write b.tables) } rows.2 trivial
  swap
  · refine .inr ⟨t, e, stopsIn_append.2 (.inr (hpart.append_right.stopsIn (by simp))), ?_⟩
    simp only [CoinStore.rewriteBackend, hclear, hcoins, hrows, hhints]
  generalize loopWrites hintWrites snapshot.hints rows.2 = hints at hhints ⊢
  have hne : (stageTip (hints.2.put .metadata metaInitialized [1]) snapshot.height snapshot.blockHash
      snapshot.timestamp).isEmpty = false := by
    simp [WriteBatch.isEmpty, stageTip]
  simp only [CoinStore.rewriteBackend, hclear, hcoins, hrows, hhints, hne, Bool.false_eq_true, if_false,
    Backend.batchWrite]
  generalize stageTip (hints.2.put .metadata metaInitialized [1]) snapshot.height snapshot.blockHash
    snapshot.timestamp = last
  cases b.faults (.batchWrite last) with
  | none =>
    left
    simp only [List.foldl_append, orStorage_ok]
    rfl
  | some e =>
    refine .inr ⟨_, _, stopsIn_append.2 (.inr (stopsIn_append.2 (.inr ?_))), rfl⟩
    rw [stopsIn_singleton, List.foldl_append]

/-! ## Where it stops -/

omit [Chia] in
theorem mem_cleared {t : Tables} {cfs : List ColumnFamily} {w : WriteBatch}
    (hw : w ∈ (loopWrites (clearWrites t) cfs ()).1) : ∃ cf key, w = WriteBatch.new.delete cf key := by
  refine (loopWrites_inv (clearWrites t) (Q := fun w => ∃ cf key, w = WriteBatch.new.delete cf key)
    (R := fun _ => True) (fun _ cf _ => ⟨fun w hw => ?_, trivial⟩) cfs trivial).1 w hw
  obtain ⟨kv, _, rfl⟩ := List.mem_map.1 hw
  exact ⟨cf, kv.1, rfl⟩

/-- The rows that are left are old ones. -/
def Tables.Sub (t' t : Tables) : Prop := ∀ cf (k v : Bytes), (t' cf)[k]? = some v → (t cf)[k]? = some v

omit [Chia] in
/-- While it clears, a restore only loses rows. -/
theorem sub_of_stopsIn_clear {t t' : Tables}
    (h : StopsIn Tables.write (loopWrites (clearWrites t) allColumnFamilies ()).1 t t') : t'.Sub t := by
  refine h.inv (I := fun t' : Tables => t'.Sub t) (fun _ _ _ => id) fun t' w hw ht cf k v hget => ?_
  obtain ⟨cf', key, rfl⟩ := mem_cleared hw
  refine ht cf k v ?_
  have hdel : (t'.delete cf' key cf)[k]? = some v := hget
  rw [Tables.delete_get] at hdel
  split at hdel
  · cases hdel
  · exact hdel

omit [Chia] in
theorem cleared_eq (t : Tables) :
    (loopWrites (clearWrites t) allColumnFamilies ()).1.foldl Tables.write t = Tables.empty := by
  obtain ⟨b', hrun, hb', hempty⟩ := clearAll_run (b := { tables := t, faults := fun _ => none }) rfl
  rcases clearAll_performs { tables := t, faults := fun _ => none } with heq | ⟨t', e, _, heq⟩
  · rw [hrun] at heq
    rw [← hempty, (Prod.mk.inj heq).1]
  · rw [hrun] at heq
    cases (Prod.mk.inj heq).2

/-- The batch writes no metadata. -/
def WriteBatch.NoMeta (batch : WriteBatch) : Prop := .metadata ∉ batch.ops.map Tables.opCf

omit [Chia] in
theorem noMeta_flush {batch : WriteBatch} (h : batch.NoMeta) :
    (∀ w ∈ (flushWrites batch).1, w.NoMeta) ∧ (flushWrites batch).2.NoMeta := by
  have hnew : WriteBatch.new.NoMeta := by simp [WriteBatch.NoMeta]
  unfold flushWrites
  split
  · exact ⟨fun w hw => List.mem_singleton.1 hw ▸ h, hnew⟩
  · exact ⟨fun _ hw => (List.not_mem_nil hw).elim, h⟩

/-- All batches but the last leave the metadata as they are. -/
theorem noMeta_snapshotWrites (snapshot : CoinStoreSnapshot) :
    ∀ w ∈ (snapshotWrites snapshot).1, w.NoMeta := by
  have hcoins := loopWrites_inv rowWrites (fun batch row hbatch => by
    refine noMeta_flush ?_
    rw [WriteBatch.NoMeta, ops_restoreRow, List.map_append, List.mem_append, not_or]
    refine ⟨hbatch, ?_⟩
    cases hs : row.1.spentHeight <;> simp [appendCoinRecordToBatch, hs, Tables.opCf])
    (snapshot.coins.toList.map fun kv => (kv.2, serializeCoinRecordStorageBytes kv.2))
    (show WriteBatch.new.NoMeta by simp [WriteBatch.NoMeta])
  have hhints := loopWrites_inv hintWrites (fun batch hint hbatch => by
    refine noMeta_flush ?_
    rw [WriteBatch.NoMeta, ops_stageSnapshotHint, List.map_append, List.mem_append, not_or]
    exact ⟨hbatch, by simp [stageSnapshotHint, Tables.opCf]⟩) snapshot.hints hcoins.2
  intro w hw
  rw [snapshotWrites, List.mem_append] at hw
  exact hw.elim (hcoins.1 w) (hhints.1 w)

/-- **A restore that has cleared everything** has no metadata before its end. -/
theorem metadata_of_stopsIn_write {snapshot : CoinStoreSnapshot} {t : Tables}
    (h : StopsIn Tables.write ((snapshotWrites snapshot).1 ++ [lastWrite snapshot]) Tables.empty t) :
    t .metadata = ∅ := by
  have hkeep : ∀ t : Tables, ∀ w ∈ (snapshotWrites snapshot).1, t .metadata = ∅ →
      t.write w .metadata = ∅ := fun t w hw ht => by
    rw [Tables.write, Tables.applyOps_other _ _ (noMeta_snapshotWrites snapshot w hw), ht]
  rcases stopsIn_append.1 h with h | h
  · exact h.inv (I := fun t : Tables => t .metadata = ∅) rfl hkeep
  · rw [stopsIn_singleton.1 h]
    exact foldl_inv (I := fun t : Tables => t .metadata = ∅) rfl hkeep

/-! ## Opening the interrupted store -/

namespace CoinStore

variable {s : CoinStore} {snap : CoinStoreSnapshot} {t : Tables}

/-- **The tables of an interrupted restore**: the process stops between two writes, or a call of the
backend fails. -/
def Interrupted (s : CoinStore) (snap : CoinStoreSnapshot) (t : Tables) : Prop :=
  (∃ tree, checkSnapshot snap = .ok tree) ∧
    (StopsIn Tables.write (restoreWrites s.backend.tables snap) s.backend.tables t ∨
      ∃ faults e, ({ s with backend := { s.backend with faults } }.restore snap).2 = .error e ∧
        t = ({ s with backend := { s.backend with faults } }.restore snap).1.backend.tables)

/-- **The tables open as one of the two stores**: uninitialized, or with exactly the coins of `s` or
of the snapshot. -/
def OpensWhole (s : CoinStore) (snap : CoinStoreSnapshot) (t : Tables) : Prop :=
  ∀ config, ∃ s', withConfig config { tables := t, faults := fun _ => none } = .ok s' ∧
    (s'.initialized = true → s'.storedCoins = s.storedCoins ∨ s'.storedCoins = snap.coins)

theorem Interrupted.stopsIn (h : s.Interrupted snap t) :
    StopsIn Tables.write (restoreWrites s.backend.tables snap) s.backend.tables t := by
  obtain ⟨⟨tree, hcheck⟩, hstop | ⟨faults, e, herr, rfl⟩⟩ := h
  · exact hstop
  · unfold restore at herr ⊢
    rw [hcheck] at herr ⊢
    rcases rewriteBackend_performs { s.backend with faults } snap with heq | ⟨t, e', hstop, heq⟩
    · simp only [heq] at herr
      cases herr
    · simp only [heq]
      exact hstop

theorem storedCoins_get {s : CoinStore} (h : s.backend.tables.Sound) (id : CoinId) :
    s.storedCoins[id]? = ((s.backend.tables .coinRecords)[coinKey id]?).bind decodeCoinRecordBytes := by
  obtain ⟨m, hm⟩ := Tables.Sound.coinRows (b := { s.backend with faults := fun _ => none }) h rfl
  have hget := hm.scanCoins_get id
  have hrow := hm.record_get id
  rw [storedCoins]
  simp only at hget hrow
  rw [hget, hrow]
  cases hmid : m id with
  | none => rfl
  | some rec => exact (decode_serialize (hm.storable hmid)).symm

theorem withConfig_sound (h : t.Sound) (config : CoinStoreConfig) :
    ∃ s', withConfig config { tables := t, faults := fun _ => none } = .ok s' ∧
      s'.backend.tables = t ∧ (s'.initialized = true ↔ t.Marked) := by
  obtain ⟨m, hm⟩ := Tables.Sound.coinRows (b := { tables := t, faults := fun _ => none }) h rfl
  have htip : ∃ tipHash, metaHash ((t .metadata)[metaTipHash]?) = .ok tipHash := by
    cases hv : (t .metadata)[metaTipHash]? with
    | none => exact ⟨_, rfl⟩
    | some v => exact ⟨_, dif_pos (h.tip hv)⟩
  obtain ⟨tipHash, htip⟩ := htip
  obtain ⟨tree, ids, hopen, _⟩ := hm.withConfig_eq htip config
  exact ⟨_, hopen, rfl, Iff.rfl⟩

theorem withConfig_unmarked (h : t .metadata = ∅) (config : CoinStoreConfig) :
    ∃ s', withConfig config { tables := t, faults := fun _ => none } = .ok s' ∧
      s'.initialized = false := by
  have hget : ∀ key, Backend.get { tables := t, faults := fun _ => none } .metadata key = .ok none := by
    simp [Backend.get, h]
  refine ⟨{ blank config with backend := { tables := t, faults := fun _ => none } }, ?_, rfl⟩
  simp [withConfig, hget, metaU64, metaHash, blank]

/-! ## The condition -/

/-- The tables after the rows of `coin_records` are gone. -/
theorem interrupted_no_rows (hcheck : ∃ tree, checkSnapshot snap = .ok tree) :
    s.Interrupted snap (Function.update s.backend.tables .coinRecords ∅) := by
  refine ⟨hcheck, .inl ?_⟩
  have hwrites : (clearWrites s.backend.tables () .coinRecords).1.foldl Tables.write s.backend.tables =
      Function.update s.backend.tables .coinRecords ∅ := by
    rw [← foldl_delete_keys, clearWrites, List.foldl_map, List.foldl_map]
    rfl
  rw [restoreWrites, allColumnFamilies, loopWrites, List.append_assoc, ← hwrites]
  refine stopsIn_append.2 (.inr (stopsIn_self ?_))
  simp

/-- The tables after the first row of `coin_records` is gone. -/
theorem interrupted_first_row (hcheck : ∃ tree, checkSnapshot snap = .ok tree) {kv : KvPair}
    {rows : List KvPair} (hrows : (s.backend.tables .coinRecords).toList = kv :: rows) :
    s.Interrupted snap (s.backend.tables.delete .coinRecords kv.1) := by
  refine ⟨hcheck, .inl ?_⟩
  rw [restoreWrites, allColumnFamilies, loopWrites, List.append_assoc, clearWrites, hrows,
    List.map_cons, List.cons_append]
  refine stopsIn_cons.2 (.inr (stopsIn_self ?_))
  simp

omit [Chia] in
theorem size_le_one_iff {coins : IdMap CoinRecord} :
    coins.size ≤ 1 ↔ ∀ (id id' : CoinId) rec rec', coins[id]? = some rec → coins[id']? = some rec' →
      id = id' := by
  rw [← Std.ExtTreeMap.length_toList]
  constructor
  · intro hlen id id' rec rec' hid hid'
    have hmem := OrdMap.mem_toList.2 hid
    have hmem' := OrdMap.mem_toList.2 hid'
    rcases hl : coins.toList with _ | ⟨kv, _ | ⟨kv', l⟩⟩
    · simp [hl] at hmem
    · rw [hl, List.mem_singleton] at hmem hmem'
      exact congrArg Prod.fst (hmem.trans hmem'.symm)
    · simp [hl] at hlen
  · intro h
    have hnd := OrdMap.nodup_keys coins
    rcases hl : coins.toList with _ | ⟨kv, _ | ⟨kv', l⟩⟩
    · simp
    · simp
    · have hmem : kv ∈ coins.toList := by simp [hl]
      have hmem' : kv' ∈ coins.toList := by simp [hl]
      rw [hl, List.map_cons, List.map_cons, List.nodup_cons] at hnd
      have heq := h kv.1 kv'.1 kv.2 kv'.2 (OrdMap.mem_toList.1 hmem) (OrdMap.mem_toList.1 hmem')
      exact absurd (List.mem_cons.2 (.inl heq)) hnd.1

omit [Chia] in
theorem size_eq_zero_iff {coins : IdMap CoinRecord} :
    coins.size = 0 ↔ ∀ id : CoinId, coins[id]? = none := by
  rw [← Std.ExtTreeMap.eq_empty_iff_size_eq_zero]
  constructor
  · rintro rfl id
    exact Std.ExtTreeMap.getElem?_empty
  · intro h
    refine Std.ExtTreeMap.ext_getElem? fun id => ?_
    rw [h id, Std.ExtTreeMap.getElem?_empty]

theorem storedCoins_of_sub {s s' : CoinStore} (hs : s.backend.tables.Sound)
    (hs' : s'.backend.tables.Sound) (hsub : s'.backend.tables.Sub s.backend.tables) {id : CoinId}
    {rec : CoinRecord} (h : s'.storedCoins[id]? = some rec) : s.storedCoins[id]? = some rec := by
  rw [storedCoins_get hs'] at h
  obtain ⟨v, hget, hdec⟩ := Option.bind_eq_some_iff.1 h
  rw [storedCoins_get hs, hsub _ _ _ hget]
  exact hdec

/-- **Enough**: there is nothing between the two stores. -/
theorem Sound.opensWhole (h : s.Sound) (hstop : s.Interrupted snap t)
    (hcond : s.storedCoins.size = 0 ∨ (s.storedCoins.size ≤ 1 ∧ snap.coins.size = 0)) :
    s.OpensWhole snap t := by
  intro config
  rcases stopsIn_append.1 hstop.stopsIn with hclear | hwrite
  · -- some of the old rows are left
    have hsub := sub_of_stopsIn_clear hclear
    have ht : t.Sound := ⟨fun hget => h.tables.rows (hsub _ _ _ hget),
      fun hget => h.tables.tip (hsub _ _ _ hget)⟩
    obtain ⟨s', hopen, htables, _⟩ := withConfig_sound ht config
    rw [← htables] at ht hsub
    refine ⟨s', hopen, fun _ => ?_⟩
    have hold : ∀ {id : CoinId} {rec}, s'.storedCoins[id]? = some rec →
        s.storedCoins[id]? = some rec := fun hget => storedCoins_of_sub h.tables ht hsub hget
    by_cases hempty : s'.storedCoins.size = 0
    · rcases hcond with hzero | ⟨_, hzero⟩
      · exact .inl (Std.ExtTreeMap.ext_getElem? fun id => by
          rw [size_eq_zero_iff.1 hempty, size_eq_zero_iff.1 hzero])
      · exact .inr (Std.ExtTreeMap.ext_getElem? fun id => by
          rw [size_eq_zero_iff.1 hempty, size_eq_zero_iff.1 hzero])
    · -- the one coin is still there
      rw [size_eq_zero_iff, not_forall] at hempty
      obtain ⟨id, hid⟩ := hempty
      obtain ⟨rec, hrec⟩ := Option.ne_none_iff_exists'.1 hid
      have hone : s.storedCoins.size ≤ 1 := by omega
      refine .inl (Std.ExtTreeMap.ext_getElem? fun id' => ?_)
      cases hid' : s.storedCoins[id']? with
      | some rec' =>
        obtain rfl := size_le_one_iff.1 hone _ _ _ _ (hold hrec) hid'
        rw [← hid', hold hrec, hrec]
      | none =>
        refine Option.eq_none_iff_forall_ne_some.2 fun rec' hrec' => ?_
        rw [hold hrec'] at hid'
        cases hid'
  · rw [cleared_eq] at hwrite
    obtain ⟨s', hopen, hinit⟩ := withConfig_unmarked (metadata_of_stopsIn_write hwrite) config
    exact ⟨s', hopen, fun hs' => by simp [hinit] at hs'⟩

/-- At a point of the restore where the tables are old rows under the old metadata, the store opens
with those tables, as the old or the new one. -/
theorem Sound.opens_of_sub (h : s.Sound) (hinit : s.initialized = true)
    (hwhole : ∀ t, s.Interrupted snap t → s.OpensWhole snap t) {t : Tables}
    (hstop : s.Interrupted snap t) (hsub : t.Sub s.backend.tables)
    (hmeta : t .metadata = s.backend.tables .metadata) :
    ∃ s' : CoinStore, s'.backend.tables = t ∧ s'.backend.tables.Sound ∧
      (s'.storedCoins = s.storedCoins ∨ s'.storedCoins = snap.coins) := by
  have ht : t.Sound := ⟨fun hget => h.tables.rows (hsub _ _ _ hget),
    fun hget => h.tables.tip (hsub _ _ _ hget)⟩
  obtain ⟨s', hopen, htables, hmarked⟩ := withConfig_sound ht s.config
  obtain ⟨s'', hopen', hcoins⟩ := hwhole t hstop s.config
  obtain rfl := Except.ok.inj (hopen.symm.trans hopen')
  refine ⟨s', htables, htables ▸ ht, hcoins (hmarked.2 ?_)⟩
  rw [Tables.Marked, hmeta]
  exact h.marked hinit

/-- **Needed** of an empty snapshot: the store after the first row is gone has no coin. -/
theorem Sound.size_of_first_row (h : s.Sound) (hinit : s.initialized = true)
    (hcheck : ∃ tree, checkSnapshot snap = .ok tree)
    (hwhole : ∀ t, s.Interrupted snap t → s.OpensWhole snap t) (hsnap : snap.coins.size = 0)
    {row : KvPair} {rows : List KvPair}
    (hrows : (s.backend.tables .coinRecords).toList = row :: rows) : s.storedCoins.size ≤ 1 := by
  have hmem : row ∈ (s.backend.tables .coinRecords).toList := by simp [hrows]
  obtain ⟨k, v⟩ := row
  have hget := OrdMap.mem_toList.1 hmem
  obtain ⟨rec, rfl, rfl⟩ := h.tables.rows hget
  obtain ⟨s', ht, hsound, hcoins⟩ := h.opens_of_sub hinit hwhole (interrupted_first_row hcheck hrows)
    (fun cf k v hget => by
      rw [Tables.delete_get] at hget
      split at hget
      · cases hget
      · exact hget)
    (Function.update_of_ne (by decide) _ _)
  have hother : ∀ id : CoinId, id ≠ rec.coinId → s'.storedCoins[id]? = s.storedCoins[id]? :=
    fun id hid => by
      rw [storedCoins_get hsound, storedCoins_get h.tables, ht, Tables.delete_get, if_neg]
      rintro ⟨_, hkey⟩
      exact hid (coinKey_inj.1 hkey).symm
  have hfirst : s'.storedCoins[rec.coinId]? = none := by
    rw [storedCoins_get hsound, ht, Tables.delete_get, if_pos ⟨rfl, rfl⟩, Option.bind_none]
  have hold : s.storedCoins[rec.coinId]? = some rec.asStored := by
    rw [storedCoins_get h.tables, hget, Option.bind_some, ← serialize_asStored]
    exact decode_serialize rec.asStored_storable
  rcases hcoins with heq | heq
  · rw [heq, hold] at hfirst
    cases hfirst
  · have hone : ∀ (id : CoinId) rec', s.storedCoins[id]? = some rec' → id = rec.coinId := by
      intro id rec' hid
      by_contra hne
      rw [← hother id hne, heq, size_eq_zero_iff.1 hsnap] at hid
      cases hid
    refine size_le_one_iff.2 fun id id' rec₁ rec₂ hid hid' => ?_
    rw [hone id rec₁ hid, hone id' rec₂ hid']

/-- **Needed**: the store after the rows are gone, and the one after the first row is gone. -/
theorem Sound.of_opensWhole (h : s.Sound) (hinit : s.initialized = true)
    (hcheck : ∃ tree, checkSnapshot snap = .ok tree)
    (hwhole : ∀ t, s.Interrupted snap t → s.OpensWhole snap t) :
    s.storedCoins.size = 0 ∨ (s.storedCoins.size ≤ 1 ∧ snap.coins.size = 0) := by
  obtain ⟨s', ht, hsound, hcoins⟩ := h.opens_of_sub hinit hwhole (interrupted_no_rows hcheck)
    (fun cf k v hget => by
      by_cases hcf : cf = .coinRecords
      · subst hcf
        simp at hget
      · rwa [Function.update_of_ne hcf] at hget)
    (Function.update_of_ne (by decide) _ _)
  have hnone : ∀ id : CoinId, s'.storedCoins[id]? = none := fun id => by
    rw [storedCoins_get hsound, ht, Function.update_self, Std.ExtTreeMap.getElem?_empty,
      Option.bind_none]
  rcases hcoins with heq | heq
  · exact .inl (size_eq_zero_iff.2 (heq ▸ hnone))
  · have hsnap : snap.coins.size = 0 := size_eq_zero_iff.2 (heq ▸ hnone)
    cases hrows : (s.backend.tables .coinRecords).toList with
    | nil =>
      left
      rw [storedCoins, hrows]
      rfl
    | cons row rows => exact .inr ⟨h.size_of_first_row hinit hcheck hwhole hsnap hrows, hsnap⟩

end CoinStore

/-- **An interrupted restore opens as the old or the new store** at every point exactly when no
coin was stored, or one at most and the snapshot has none. -/
theorem Operated.restore_interrupted_iff {s : CoinStore} {snap : CoinStoreSnapshot} (h : Operated s)
    (hinit : s.initialized = true) (haccept : (s.restore snap).2 = .ok ()) :
    (∀ t, s.Interrupted snap t → s.OpensWhole snap t) ↔
      s.storedCoins.size = 0 ∨ (s.storedCoins.size ≤ 1 ∧ snap.coins.size = 0) :=
  ⟨h.sound.of_opensWhole hinit (CoinStore.check_of_restore haccept),
    fun hcond _ hstop => h.sound.opensWhole hstop hcond⟩

end DigCoinstore

namespace DigCoinstore

open Sample

/-- A snapshot with coin 1 alone. -/
def coinOne : CoinStoreSnapshot := CoinStore.oneRecord (CoinRecord.new (coin 1) 0 10 false) 1

theorem restore_coinOne : (genesis.restore coinOne).2 = .ok () :=
  CoinStore.restore_oneRecord operated_genesis.sound.healthy
    (Res.eq_ok_of_toOption (by decide))

theorem restore_interrupted_iff_genesis : genesis.initialized = true ∧
    (genesis.restore coinOne).2 = .ok () ∧
    ((∀ t, genesis.Interrupted coinOne t → genesis.OpensWhole coinOne t) ↔
      genesis.storedCoins.size = 0 ∨ (genesis.storedCoins.size ≤ 1 ∧ coinOne.coins.size = 0)) := by
  have hinit : genesis.initialized = true := by decide +kernel
  exact ⟨hinit, restore_coinOne, operated_genesis.restore_interrupted_iff hinit restore_coinOne⟩

/-- The process stops after the two rows of coins are deleted: the store opens initialized and
without a coin, between two coins and one. -/
theorem interrupted_loses_coins : Operated genesis ∧ genesis.initialized = true ∧
    (genesis.restore coinOne).2 = .ok () ∧ ∃ t, genesis.Interrupted coinOne t ∧
    ∃ s', CoinStore.withConfig genesis.config { tables := t, faults := fun _ => none } = .ok s' ∧
      s'.initialized = true ∧ s'.storedCoins.size = 0 ∧ genesis.storedCoins.size = 2 ∧
      coinOne.coins.size = 1 := by
  have hsound : Tables.Sound (Function.update genesis.backend.tables .coinRecords ∅) := by
    constructor
    · intro k v hget
      simp at hget
    · intro v hget
      rw [Function.update_of_ne (by decide)] at hget
      exact operated_genesis.sound.tables.tip hget
  obtain ⟨s', hopen, htables, hmarked⟩ := CoinStore.withConfig_sound hsound genesis.config
  have hsizes : genesis.initialized = true ∧ genesis.storedCoins.size = 2 ∧ coinOne.coins.size = 1 := by
    decide +kernel
  refine ⟨operated_genesis, hsizes.1, restore_coinOne, _,
    CoinStore.interrupted_no_rows (CoinStore.check_of_restore restore_coinOne), s', hopen, ?_, ?_,
    hsizes.2⟩
  · rw [hmarked, Tables.Marked, Function.update_of_ne (by decide)]
    exact operated_genesis.sound.marked hsizes.1
  · rw [CoinStore.size_eq_zero_iff]
    intro id
    rw [CoinStore.storedCoins_get (htables ▸ hsound), htables, Function.update_self,
      Std.ExtTreeMap.getElem?_empty, Option.bind_none]

end DigCoinstore
