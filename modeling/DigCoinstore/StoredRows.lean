import DigCoinstore.CallFacts
import DigCoinstore.Invariant
import DigCoinstore.Restore

/-!
# The rows of any run

`Tables.Sound`: every row of `coin_records` is that of a record under the id of its coin, and the
stored tip hash can be read. Every batch keeps this (`SoundOp`), also after the restore of a
snapshot of any origin, where heights and spent sets need not make sense. So in every run the rows
stand for some coin set and an initialized store has its marker stored (`Operated.sound`).
-/

namespace DigCoinstore

variable [Chia]

/-! ## Rows -/

/-- The row holds a record under the id of its coin. -/
def IsCoinRow (key value : Bytes) : Prop :=
  ∃ rec : CoinRecord, key = coinKey rec.coinId ∧ value = serializeCoinRecordStorageBytes rec

structure Tables.Sound (t : Tables) : Prop where
  rows : ∀ {k v}, (t .coinRecords)[k]? = some v → IsCoinRow k v
  tip : ∀ {v}, (t .metadata)[metaTipHash]? = some v → 32 ≤ v.length

/-- The marker that tells an initialized store. -/
def Tables.Marked (t : Tables) : Prop := ((t .metadata)[metaInitialized]?).isSome = true

/-- An operation that writes only such rows and deletes no metadata. -/
def SoundOp : WriteOp → Prop
  | .put .coinRecords key value => IsCoinRow key value
  | .put .metadata key value => key = metaTipHash → 32 ≤ value.length
  | .delete .metadata _ => False
  | _ => True

theorem Tables.Sound.empty : Tables.empty.Sound :=
  ⟨fun h => by simp [Tables.empty] at h, fun h => by simp [Tables.empty] at h⟩

theorem Tables.Sound.applyOp {t : Tables} (h : t.Sound) {op : WriteOp} (hop : SoundOp op) :
    (t.applyOp op).Sound := by
  constructor
  · intro k v hget
    cases op with
    | put cf key value =>
      rw [Tables.applyOp, Tables.put_get] at hget
      split at hget
      · next heq =>
        obtain ⟨rfl, rfl⟩ := heq
        obtain rfl := Option.some.inj hget
        exact hop
      · exact h.rows hget
    | delete cf key =>
      rw [Tables.applyOp, Tables.delete_get] at hget
      split at hget
      · cases hget
      · exact h.rows hget
  · intro v hget
    cases op with
    | put cf key value =>
      rw [Tables.applyOp, Tables.put_get] at hget
      split at hget
      · next heq =>
        obtain ⟨rfl, rfl⟩ := heq
        obtain rfl := Option.some.inj hget
        exact hop rfl
      · exact h.tip hget
    | delete cf key =>
      rw [Tables.applyOp, Tables.delete_get] at hget
      split at hget
      · cases hget
      · exact h.tip hget

theorem Tables.Marked.applyOp {t : Tables} (h : t.Marked) {op : WriteOp} (hop : SoundOp op) :
    (t.applyOp op).Marked := by
  unfold Tables.Marked
  cases op with
  | put cf key value =>
    rw [Tables.applyOp, Tables.put_get]
    split
    · rfl
    · exact h
  | delete cf key =>
    rw [Tables.applyOp, Tables.delete_get]
    split
    · next heq =>
      obtain ⟨rfl, _⟩ := heq
      cases hop
    · exact h

/-- A batch of such operations. -/
def SoundOps (ops : List WriteOp) : Prop := ∀ op ∈ ops, SoundOp op

namespace SoundOps

variable {ops ops' : List WriteOp}

theorem nil : SoundOps [] := fun _ h => nomatch h

theorem append (h : SoundOps ops) (h' : SoundOps ops') : SoundOps (ops ++ ops') := fun op hop =>
  (List.mem_append.1 hop).elim (h op) (h' op)

/-- Operations on tables other than the rows and the metadata. -/
theorem of_other (hr : .coinRecords ∉ ops.map Tables.opCf) (hm : .metadata ∉ ops.map Tables.opCf) :
    SoundOps ops := by
  intro op hop
  have hcf := List.mem_map_of_mem (f := Tables.opCf) hop
  cases op with
  | put cf key value => cases cf <;> trivial
  | delete cf key => cases cf <;> trivial

/-- A loop that stages groups of operations. -/
theorem stageAll {α : Type} {stage : WriteBatch → α → WriteBatch}
    (hstage : ∀ batch a, (stage batch a).ops = batch.ops ++ (stage .new a).ops) :
    ∀ (l : List α), (∀ a ∈ l, SoundOps (stage .new a).ops) → ∀ {batch : WriteBatch},
    SoundOps batch.ops → SoundOps (l.foldl stage batch).ops := fun l h _ hbatch =>
  ops_stageAll_inv append hstage l h hbatch

theorem tip (height : UInt64) (tipHash : Bytes32) (timestamp : UInt64) :
    SoundOps (stageTip .new height tipHash timestamp).ops := by
  simp [stageTip, SoundOps, SoundOp, metaHeight, metaTipHash, metaTimestamp]

theorem stageCreation (rec : CoinRecord) : SoundOps (stageCreation .new rec).ops := by
  have hrow : IsCoinRow (coinKey rec.coinId) (serializeCoinRecordStorageBytes rec) :=
    ⟨rec, rfl, rfl⟩
  cases h : rec.spentHeight <;>
    simp [DigCoinstore.stageCreation, appendCoinRecordToBatch, h, SoundOps, SoundOp, hrow]

theorem stageSpend (height : UInt64) (rec : CoinRecord) :
    SoundOps (stageSpend height .new rec).ops := by
  have hrow : IsCoinRow (coinKey rec.coinId) (serializeCoinRecordStorageBytes rec) :=
    ⟨rec, rfl, rfl⟩
  simp [DigCoinstore.stageSpend, SoundOps, SoundOp, hrow]

theorem stageBlock (block : BlockData) (created spent : List CoinRecord) :
    SoundOps (stageBlock block created spent).ops := by
  refine stageBlock_inv nil append (fun rec _ => .stageCreation rec) (fun rec _ => .stageSpend _ rec) ?_
  exact fun id hint => .of_other (by simp [Tables.opCf]) (by simp [Tables.opCf])

theorem genesisBatch (records : List CoinRecord) (timestamp : UInt64) :
    SoundOps (genesisBatch records timestamp).ops := by
  refine genesisBatch_inv nil append (fun rec _ => ?_) ?_ (.tip _ _ _)
  · have hrow : IsCoinRow (coinKey rec.coinId) (serializeCoinRecordStorageBytes rec) :=
      ⟨rec, rfl, rfl⟩
    simp [stageGenesisCoin, SoundOps, SoundOp, hrow]
  · simp [SoundOps, SoundOp, metaInitialized, metaTipHash]

theorem sound (h : SoundOps ops) : ∀ {t : Tables}, t.Sound → (t.applyOps ops).Sound := fun ht =>
  foldl_inv ht fun _ op hop ht => ht.applyOp (h op hop)

theorem marked (h : SoundOps ops) : ∀ {t : Tables}, t.Marked → (t.applyOps ops).Marked := fun ht =>
  foldl_inv ht fun _ op hop ht => ht.applyOp (h op hop)

end SoundOps

/-! ## The coin set of the rows -/

/-- **Sound rows stand for a coin set.** -/
theorem Tables.Sound.coinRows {b : Backend} (h : b.tables.Sound) (hb : b.Healthy) :
    ∃ m, b.CoinRows m := by
  let m : Coinset := fun id => ((b.tables .coinRecords)[coinKey id]?).bind decodeCoinRecordBytes
  have hrow : ∀ {k v}, (b.tables .coinRecords)[k]? = some v → ∃ rec : CoinRecord, Storable rec ∧
      k = coinKey rec.coinId ∧ v = serializeCoinRecordStorageBytes rec := by
    intro k v hget
    obtain ⟨rec, rfl, rfl⟩ := h.rows hget
    exact ⟨rec.asStored, rec.asStored_storable, by rw [CoinRecord.asStored_coinId],
      (serialize_asStored rec).symm⟩
  have hm : ∀ {id : CoinId} {rec : CoinRecord}, m id = some rec → Storable rec ∧
      rec.coinId = id ∧ (b.tables .coinRecords)[coinKey id]? = some (serializeCoinRecordStorageBytes rec) := by
    intro id rec hmid
    obtain ⟨v, hget, hdec⟩ := Option.bind_eq_some_iff.1 hmid
    obtain ⟨rec', hst, hk, rfl⟩ := hrow hget
    rw [decode_serialize hst] at hdec
    obtain rfl := Option.some.inj hdec
    exact ⟨hst, (coinKey_inj.1 hk).symm, hget⟩
  refine ⟨m, hb, fun k v => ?_, fun hmid => (hm hmid).2.1, fun hmid => (hm hmid).1⟩
  constructor
  · intro hget
    obtain ⟨rec, hst, rfl, rfl⟩ := hrow hget
    refine ⟨rec.coinId, rec, ?_, rfl⟩
    exact Option.bind_eq_some_iff.2 ⟨_, hget, decode_serialize hst⟩
  · rintro ⟨id, rec, hmid, hcoin⟩
    obtain ⟨rfl, rfl⟩ := Prod.mk.inj (Option.some.inj hcoin)
    exact (hm hmid).2.2

/-! ## Runs -/

namespace CoinStore

/-- **Sound rows**, and the marker once the store is initialized. -/
structure Sound (s : CoinStore) : Prop where
  healthy : s.backend.Healthy
  tables : s.backend.tables.Sound
  marked : s.initialized = true → s.backend.tables.Marked

variable {s s' : CoinStore}

/-- One more batch. -/
theorem Sound.wrote (h : s.Sound) {batch : WriteBatch} (hops : SoundOps batch.ops)
    (hbackend : s'.backend = s.backend.wrote batch) (hinit : s'.initialized = s.initialized) :
    s'.Sound where
  healthy := by
    rw [hbackend]
    exact h.healthy
  tables := by
    rw [hbackend]
    exact hops.sound h.tables
  marked hs' := by
    rw [hbackend]
    exact hops.marked (h.marked (hinit ▸ hs'))

theorem Sound.same (h : s.Sound) (hbackend : s'.backend = s.backend)
    (hinit : s'.initialized = s.initialized) : s'.Sound where
  healthy := hbackend ▸ h.healthy
  tables := hbackend ▸ h.tables
  marked hs' := hbackend ▸ h.marked (hinit ▸ hs')

/-- Calls that only write hints. -/
theorem Sound.hintsOnly (h : s.Sound) (hbackend : s'.backend.HintsOnly s.backend.tables)
    (hinit : s'.initialized = s.initialized) : s'.Sound where
  healthy := hbackend.1
  tables := by
    constructor
    · rw [hbackend.2 .coinRecords (by decide)]
      exact h.tables.rows
    · rw [hbackend.2 .metadata (by decide)]
      exact h.tables.tip
  marked hs' := by
    rw [Tables.Marked, hbackend.2 .metadata (by decide)]
    exact h.marked (hinit ▸ hs')

theorem Sound.initGenesis (h : s.Sound) (coins : List (Coin × Bool)) (timestamp : UInt64) :
    (s.initGenesis coins timestamp).1.Sound := by
  rcases initGenesis_writes h.healthy coins timestamp with ⟨heq, hinit⟩ | heq
  · exact h.same heq hinit
  · have hops := SoundOps.genesisBatch (coins.map (genesisRecord timestamp)) timestamp
    refine ⟨by rw [heq]; exact h.healthy, by rw [heq]; exact hops.sound h.tables, fun _ => ?_⟩
    rw [heq]
    simp [Tables.Marked, Backend.wrote, DigCoinstore.genesisBatch, stageTip, Tables.applyOps_append,
      Tables.applyOp, Tables.put_get, metaHeight, metaTipHash, metaTimestamp, metaInitialized]

theorem Sound.applyBlock (h : s.Sound) (block : BlockData) : (s.applyBlock block).1.Sound := by
  obtain ⟨hinit, ⟨heq, -⟩ | ⟨_, -, heq, -⟩⟩ := applyBlock_writes h.healthy block
  · exact h.same heq hinit
  · exact h.wrote (stageTip_inv .append (.stageBlock _ _ _) (.tip _ _ _)) heq hinit

/-- A record is stored under its own id. -/
theorem Sound.getCoinRecord (h : s.Sound) {id : CoinId} {rec : CoinRecord}
    (hget : s.getCoinRecord id = .ok (some rec)) : rec.coinId = id := by
  obtain ⟨m, hm⟩ := h.tables.coinRows h.healthy
  rw [hm.getCoinRecord_eq] at hget
  exact hm.ids (Except.ok.inj hget)

theorem Sound.stageRollback (h : s.Sound) {target : UInt64} {acc : RollbackAcc}
    (hok : s.stageRollback target = .ok acc) : SoundOps acc.batch.ops := by
  refine stageRollback_inv (I := fun acc : RollbackAcc => SoundOps acc.batch.ops) .nil ?_ ?_ ?_ hok
  · intro acc entry acc' hacc hok
    rcases deleteConfirmed_cases hok with rfl | ⟨id, rec, _, rfl⟩
    · exact hacc
    · rw [ops_stageDeletion]
      refine hacc.append ?_
      cases hs : rec.spentHeight <;> simp [stageDeletion, hs, SoundOps, SoundOp]
  · intro acc id acc' hacc hok
    rw [deleteHints, Backend.prefixScan_of_healthy h.healthy] at hok
    obtain rfl := Except.ok.inj hok
    refine SoundOps.stageAll (fun batch key => ?_) _ (fun key _ => ?_) hacc
    · unfold stageHintDeletion
      split <;> simp
    · unfold stageHintDeletion
      split <;> simp [SoundOps, SoundOp]
  · intro acc entry acc' hacc hok
    rcases unspendEntry_cases hok with rfl | rfl | ⟨id, rec, parent, hget, _, rfl⟩
    · exact hacc
    · exact hacc.append (.of_other (by simp [Tables.opCf]) (by simp [Tables.opCf]))
    · -- the record goes back under the id of its coin
      have hid : rec.coinId = id := h.getCoinRecord hget
      rw [ops_stageUnspend]
      refine hacc.append ?_
      have hrow : IsCoinRow (coinKey id) (serializeCoinRecordStorageBytes
          { rec with spentHeight := none, ffEligible := parent.isSome }) :=
        ⟨{ rec with spentHeight := none, ffEligible := parent.isSome }, by rw [← hid]; rfl, rfl⟩
      simp [stageUnspend, SoundOps, SoundOp, hrow]

theorem Sound.rollbackToBlock (h : s.Sound) (target : Int64) :
    (s.rollbackToBlock target).1.Sound := by
  obtain ⟨hinit, heq | ⟨acc, hstage, heq⟩⟩ := rollbackToBlock_writes h.healthy target
  · exact h.same heq hinit
  · exact h.wrote (stageTip_inv .append (h.stageRollback hstage) (.tip _ _ _)) heq hinit

theorem Sound.rollbackNBlocks (h : s.Sound) (n : UInt64) : (s.rollbackNBlocks n).1.Sound := by
  rcases rollbackNBlocks_cases s n with heq | ⟨target, heq⟩
  · rwa [heq]
  · rw [heq]
    exact h.rollbackToBlock target

theorem sound_snapshotTables (snap : CoinStoreSnapshot) : (snapshotTables snap).Sound := by
  have hcoins : SoundOps (snap.records.foldl stageCreation .new).ops :=
    .stageAll ops_stageCreation _ (fun rec _ => .stageCreation rec) .nil
  have hhints : SoundOps (snap.hints.foldl stageSnapshotHint .new).ops := by
    refine .stageAll ops_stageSnapshotHint _ (fun hint _ => ?_) .nil
    exact .of_other (by simp [stageSnapshotHint, Tables.opCf])
      (by simp [stageSnapshotHint, Tables.opCf])
  have htip : SoundOps (stageTip .new snap.height snap.blockHash snap.timestamp).ops :=
    .tip _ _ _
  have hmark : SoundOp (.put .metadata metaInitialized [1]) := by
    simp [SoundOp, metaInitialized, metaTipHash]
  exact htip.sound ((hhints.sound (hcoins.sound .empty)).applyOp hmark)

theorem Sound.restore (h : s.Sound) (snap : CoinStoreSnapshot) : (s.restore snap).1.Sound := by
  rcases restore_writes h.healthy snap with heq | ⟨tree, backend, heq, hb, ht⟩
  · rwa [heq]
  · rw [heq]
    refine ⟨hb, by rw [restored, ht]; exact sound_snapshotTables snap, fun _ => ?_⟩
    have htip : (s.restored snap tree backend).TipStored := restored_tipStored ht
    exact htip.initialized

theorem Sound.reopen {b : Backend} {config : CoinStoreConfig} (hb : b.Healthy) (ht : b.tables.Sound)
    (hopen : withConfig config b = .ok s) : s.Sound := by
  obtain ⟨hbackend, hinit⟩ := withConfig_reads hb hopen
  rw [← hbackend] at hb ht hinit
  exact ⟨hb, ht, fun hs => hinit.symm.trans hs⟩

theorem OtherCall.sound (hcall : OtherCall s s') (h : s.Sound) : s'.Sound := by
  cases hcall with
  | initGenesis => exact h.initGenesis _ _
  | applyBlock => exact h.applyBlock _
  | reopen hopen => exact .reopen h.healthy h.tables hopen
  | stateRoot => exact h.same rfl rfl
  | addHint =>
    unfold CoinStore.addHint
    split
    · exact h
    · exact h
    · exact h.hintsOnly (addHintRows_inv ⟨h.healthy, fun _ _ => rfl⟩ _ _) rfl
  | removeHintsForCoins =>
    refine h.hintsOnly (forBackend_inv _ s.backend 0 (fun b n id _ hb => ?_)
      ⟨h.healthy, fun _ _ => rfl⟩) rfl
    exact removeHintsForCoin_inv s.backend.tables b n id hb

end CoinStore

/-- **The rows of every run are sound.** -/
theorem Operated.sound {s : CoinStore} (h : Operated s) : s.Sound := by
  induction h with
  | new hopen => exact .reopen Backend.healthy_fresh Tables.Sound.empty hopen
  | call _ hcall ih => exact hcall.sound ih
  | rollbackToBlock _ ih => exact ih.rollbackToBlock _
  | rollbackNBlocks _ ih => exact ih.rollbackNBlocks _
  | restore _ ih => exact ih.restore _

end DigCoinstore
