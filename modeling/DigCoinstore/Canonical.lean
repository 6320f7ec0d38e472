import DigCoinstore.ConcurrentHints
import DigCoinstore.LedgerCheckpoints
import DigCoinstore.RoundTrip

/-!
# One database for each state

No call writes rows beside those of the coins, the hints and the tip, and the tip has four rows or
none (`Tables.Plain`). So the rows do not tell how a store came to its state: two runs end with one
database exactly if their snapshots and their hints are the same (`Reachable.tables_eq_iff`).
-/

namespace DigCoinstore

/-- The row of the tip under a key. -/
def tipRow (height : UInt64) (tipHash : Bytes32) (timestamp : UInt64) (key : Bytes) : Option Bytes :=
  if key = metaTimestamp then some (FixedInt.toLeBytes timestamp)
  else if key = metaTipHash then some tipHash.bytes
  else if key = metaHeight then some (FixedInt.toLeBytes height)
  else if key = metaInitialized then some [1]
  else none

namespace Tables

/-- The metadata are the rows of this tip. -/
def HoldsTip (t : Tables) (height : UInt64) (tipHash : Bytes32) (timestamp : UInt64) : Prop :=
  ∀ key : Bytes, (t .metadata)[key]? = tipRow height tipHash timestamp key

/-- **No rows but those of coins, hints and the tip.** -/
structure Plain (t : Tables) : Prop where
  metadata : t .metadata = ∅ ∨ ∃ height tipHash timestamp, t.HoldsTip height tipHash timestamp
  unused : ∀ cf : ColumnFamily, ¬ cf.OfState → t cf = ∅

variable {t t' : Tables}

/-- The marker is set, and there are no rows beside those of a tip. -/
def Opened (t : Tables) : Prop :=
  ∀ key : Bytes, key ≠ metaTimestamp → key ≠ metaTipHash → key ≠ metaHeight →
    (t .metadata)[key]? = if key = metaInitialized then some [1] else none

theorem opened_put (hempty : t .metadata = ∅) : (t.put .metadata metaInitialized [1]).Opened := by
  intro key _ _ _
  rw [Tables.put_get, hempty]
  simp [eq_comm]

theorem HoldsTip.opened {height : UInt64} {tipHash : Bytes32} {timestamp : UInt64}
    (h : t.HoldsTip height tipHash timestamp) : t.Opened := by
  intro key htime hhash hheight
  rw [h, tipRow, if_neg htime, if_neg hhash, if_neg hheight]

/-- The rows of a new tip. -/
theorem Opened.holdsTip (h : t.Opened) (height : UInt64) (tipHash : Bytes32) (timestamp : UInt64) :
    (t.applyOps (stageTip .new height tipHash timestamp).ops).HoldsTip height tipHash timestamp := by
  intro key
  simp only [stageTip, WriteBatch.ops_put, WriteBatch.ops_new, List.nil_append, List.cons_append,
    Tables.applyOps_cons, Tables.applyOps_nil, Tables.applyOp, Tables.put_get, true_and, tipRow,
    eq_comm (b := key)]
  split
  · rfl
  · next htime =>
    split
    · rfl
    · next hhash =>
      split
      · rfl
      · next hheight => exact h key htime hhash hheight

namespace Plain

theorem empty : Plain Tables.empty := ⟨.inl rfl, fun _ _ => rfl⟩

/-- Writes to the hint tables. -/
theorem hintsOnly (h : t.Plain) {b : Backend} (honly : b.HintsOnly t) : b.tables.Plain where
  metadata := by
    have heq := honly.2 .metadata (by decide)
    rcases h.metadata with hempty | ⟨height, tipHash, timestamp, hrows⟩
    · exact .inl (heq.trans hempty)
    · refine .inr ⟨height, tipHash, timestamp, fun key => ?_⟩
      rw [heq]
      exact hrows key
  unused cf hcf := (honly.2 cf fun hhint => hcf (.inr (.inl hhint))).trans (h.unused cf hcf)

/-- A batch that ends with a tip. -/
theorem tip (h : t.Plain) {batch : WriteBatch} (hops : ∀ op ∈ batch.ops, (opCf op).OfState)
    (hmark : (t.applyOps batch.ops).Opened) (height : UInt64) (tipHash : Bytes32)
    (timestamp : UInt64) : (t.applyOps (stageTip batch height tipHash timestamp).ops).Plain where
  metadata := by
    rw [ops_stageTip, applyOps_append]
    exact .inr ⟨_, _, _, hmark.holdsTip height tipHash timestamp⟩
  unused cf hcf := by
    rw [applyOps_other _ _ fun hmem => ?_]
    · exact h.unused cf hcf
    · obtain ⟨op, hop, rfl⟩ := List.mem_map.1 hmem
      exact hcf (stageTip_ofState hops _ _ _ op hop)

end Plain

end Tables

variable [Chia]

namespace CoinStore

variable {S : Scope} {s s' : CoinStore} {m : Coinset}

/-- A rollback stages no metadata. -/
theorem stageRollback_metadata (hb : s.backend.Healthy) {target : UInt64} {acc : RollbackAcc}
    (hok : s.stageRollback target = .ok acc) (t : Tables) :
    t.applyOps acc.batch.ops .metadata = t .metadata := by
  have hadd : ∀ {acc acc' : RollbackAcc} {cfs : List ColumnFamily}, .metadata ∉ cfs →
      .metadata ∉ acc.batch.ops.map Tables.opCf →
      (∃ ops, acc'.batch.ops = acc.batch.ops ++ ops ∧ ∀ op ∈ ops, Tables.opCf op ∈ cfs) →
      .metadata ∉ acc'.batch.ops.map Tables.opCf := by
    rintro acc acc' cfs hcfs hacc ⟨ops, heq, hops⟩ hmem
    rw [heq, List.map_append, List.mem_append] at hmem
    rcases hmem with hmem | hmem
    · exact hacc hmem
    · obtain ⟨op, hop, hcf⟩ := List.mem_map.1 hmem
      exact hcfs (hcf ▸ hops op hop)
  refine Tables.applyOps_other _ _ (stageRollback_inv (I := fun acc : RollbackAcc =>
    .metadata ∉ acc.batch.ops.map Tables.opCf) (by simp [RollbackAcc.start]) ?_ ?_ ?_ hok)
  · exact fun _ _ _ hacc hok => hadd (by decide) hacc (deleteConfirmed_ops hok)
  · exact fun _ _ _ hacc hok => hadd (by decide) hacc (deleteHints_ops hb hok)
  · exact fun _ _ _ hacc hok => hadd (by decide) hacc (unspendEntry_ops hok)

namespace Represents

variable (h : s.Represents S m) (hplain : s.backend.tables.Plain)
include h hplain

theorem metadata_empty (hinit : s.initialized = false) : s.backend.tables .metadata = ∅ := by
  refine hplain.metadata.resolve_right ?_
  rintro ⟨height, tipHash, timestamp, hrows⟩
  have hmark := h.tip.initialized
  rw [hrows, hinit] at hmark
  simp [tipRow, metaInitialized, metaTimestamp, metaTipHash, metaHeight] at hmark

/-- **The tip rows** are those of the tip in memory. -/
theorem holdsTip (hinit : s.initialized = true) :
    s.backend.tables.HoldsTip s.height s.tipHash s.timestamp := by
  rcases hplain.metadata with hempty | ⟨height, tipHash, timestamp, hrows⟩
  · have hmark := h.tip.initialized
    rw [hempty, hinit] at hmark
    simp at hmark
  · have hheight := h.tip.height
    have hhash := h.tip.tipHash
    have htime := h.tip.timestamp
    rw [hrows] at hheight hhash htime
    simp [tipRow, metaTimestamp, metaTipHash, metaHeight, metaU64] at hheight
    simp [tipRow, metaTimestamp, metaTipHash, metaHash] at hhash
    simp [tipRow, metaTimestamp, metaU64] at htime
    rw [← hheight, ← hhash, ← htime]
    exact hrows

theorem plain_initGenesis (coins : List (Coin × Bool)) (timestamp : UInt64) :
    (s.initGenesis coins timestamp).1.backend.tables.Plain := by
  cases hinit : s.initialized with
  | true =>
    rw [initGenesis, if_pos hinit]
    exact hplain
  | false =>
    rcases initGenesis_writes h.healthy coins timestamp with ⟨heq, -⟩ | heq
    · rw [heq]
      exact hplain
    · rw [heq]
      have hcoins := stageGenesisCoins_cfs (coins.map (genesisRecord timestamp))
      refine hplain.tip (fun op hop => ?_) ?_ _ _ _
      · rcases List.mem_append.1 hop with hop | hop
        · exact .inl (hcoins op hop)
        · obtain rfl := List.mem_singleton.1 hop
          exact .inr (.inr rfl)
      · rw [WriteBatch.ops_put, Tables.applyOps_append]
        refine Tables.opened_put ?_
        rw [Tables.applyOps_other _ _ fun hmem => ?_, h.metadata_empty hplain hinit]
        obtain ⟨op, hop, hcf⟩ := List.mem_map.1 hmem
        exact absurd (hcoins op hop) (hcf ▸ by decide)

/-- A batch over rows with a tip. -/
theorem plain_tip (hinit : s.initialized = true) {batch : WriteBatch}
    (hops : ∀ op ∈ batch.ops, (Tables.opCf op).OfState)
    (hmeta : s.backend.tables.applyOps batch.ops .metadata = s.backend.tables .metadata)
    (height : UInt64) (tipHash : Bytes32) (timestamp : UInt64) :
    (s.backend.wrote (stageTip batch height tipHash timestamp)).tables.Plain := by
  refine hplain.tip hops (fun key => ?_) _ _ _
  rw [hmeta]
  exact (h.holdsTip hplain hinit).opened key

theorem plain_applyBlock (block : BlockData) : (s.applyBlock block).1.backend.tables.Plain := by
  obtain ⟨-, ⟨heq, -⟩ | ⟨removed, hval, heq, -⟩⟩ := applyBlock_writes h.healthy block
  · rw [heq]
    exact hplain
  · rw [heq]
    obtain ⟨hinit, -⟩ := h.validateBlock_eq_ok.1 hval
    exact h.plain_tip hplain hinit (stageBlock_ofState _ _ _) (stageBlock_metadata _ _ _ _) _ _ _

theorem plain_rollbackToBlock (target : Int64) :
    (s.rollbackToBlock target).1.backend.tables.Plain := by
  cases hinit : s.initialized with
  | false =>
    rw [rollbackToBlock, if_pos (by simp [hinit])]
    exact hplain
  | true =>
    obtain ⟨-, heq | ⟨acc, hstage, heq⟩⟩ := rollbackToBlock_writes h.healthy target
    · rw [heq]
      exact hplain
    · rw [heq]
      exact h.plain_tip hplain hinit (stageRollback_ofState h.healthy hstage)
        (stageRollback_metadata h.healthy hstage _) _ _ _

omit h in
theorem plain_restore {source : CoinStore} (hsource : source.Represents S m)
    (hb : s.backend.Healthy) {snap : CoinStoreSnapshot} (hsnap : source.snapshot = .ok snap) :
    (s.restore snap).1.backend.tables.Plain := by
  obtain ⟨-, -, -, -, -, -, hhints, -⟩ := hsource.snapshot_eq_ok hsnap
  rcases restore_writes hb snap with heq | ⟨tree, backend, heq, -, htables⟩
  · rwa [heq]
  · rw [heq, restored, htables]
    refine ⟨.inr ⟨snap.height, snap.blockHash, snap.timestamp, ?_⟩, fun cf hcf => ?_⟩
    · refine (Tables.opened_put ?_).holdsTip _ _ _
      rw [hhints]
      show Tables.empty.applyOps (snap.records.foldl stageCreation .new).ops .metadata = ∅
      refine Tables.applyOps_other _ _ fun hmem => ?_
      obtain ⟨op, hop, hcf⟩ := List.mem_map.1 hmem
      exact absurd (stageCreations_cfs snap.records op hop) (hcf ▸ by decide)
    · exact Tracks.snapshotTables_other hhints (fun hcoin => hcf (.inl hcoin))
        fun hmeta => hcf (.inr (.inr hmeta))

end Represents

end CoinStore

variable {U : Set Coin} {P P' : BlockData → Prop} {s s' : CoinStore}

/-- **No run writes other rows.** -/
theorem Reachable.plain (h : Reachable U P s) : s.backend.tables.Plain := by
  induction h with
  | @new config s hopen =>
    obtain rfl := Except.ok.inj (hopen.symm.trans (CoinStore.withConfig_fresh_eq config))
    exact .empty
  | initGenesis hs _ ih =>
    obtain ⟨m, hm, -⟩ := hs.life
    exact hm.plain_initGenesis ih _ _
  | applyBlock hs _ _ ih =>
    obtain ⟨m, hm, -⟩ := hs.life
    exact hm.plain_applyBlock ih _
  | rollbackToBlock hs ih =>
    obtain ⟨m, hm, -⟩ := hs.life
    exact hm.plain_rollbackToBlock ih _
  | @rollbackNBlocks s n hs ih =>
    obtain ⟨m, hm, -⟩ := hs.life
    rcases CoinStore.rollbackNBlocks_cases s n with heq | ⟨target, heq⟩
    · rwa [heq]
    · rw [heq]
      exact hm.plain_rollbackToBlock ih target
  | restore hs hsource hsnap ih =>
    obtain ⟨m, hm, -⟩ := hs.life
    obtain ⟨m', hm', -⟩ := hsource.life
    exact CoinStore.Represents.plain_restore ih hm' hm.healthy hsnap
  | reopen hs hopen ih =>
    obtain ⟨m, hm, -⟩ := hs.life
    rw [(CoinStore.withConfig_reads hm.healthy hopen).1]
    exact ih
  | stateRoot _ ih => exact ih
  | addHint hs ih =>
    obtain ⟨m, hm, -⟩ := hs.life
    unfold CoinStore.addHint
    split
    · exact ih
    · exact ih
    · exact ih.hintsOnly (addHintRows_inv ⟨hm.healthy, fun _ _ => rfl⟩ _ _)
  | @removeHintsForCoins s coinIds hs ih =>
    obtain ⟨m, hm, -⟩ := hs.life
    refine ih.hintsOnly (forBackend_inv _ s.backend 0 (fun b n id _ hb => ?_)
      ⟨hm.healthy, fun _ _ => rfl⟩)
    exact removeHintsForCoin_inv s.backend.tables b n id hb

namespace CoinStore

/-- The coins in a database tell its coin set. -/
theorem Represents.coinset_congr {S S' : Scope} {m m' : Coinset} (h : s.Represents S m)
    (h' : s'.Represents S' m') (ht : s'.backend.tables .coinRecords = s.backend.tables .coinRecords) :
    m' = m := by
  funext id
  have hget : s'.getCoinRecord id = s.getCoinRecord id := by
    rw [getCoinRecord, getCoinRecord, Backend.get_of_healthy h.healthy,
      Backend.get_of_healthy h'.healthy, ht]
  rw [h.getCoinRecord_eq, h'.getCoinRecord_eq] at hget
  exact Except.ok.inj hget

/-- Stores of one coin set and one tip have the same snapshot. -/
theorem Represents.snapshot_congr {S S' : Scope} {m : Coinset} (h : s.Represents S m)
    (h' : s'.Represents S' m) (htip : s.SameTip s')
    (ht : s'.backend.tables .coinRecords = s.backend.tables .coinRecords) :
    s'.snapshot = s.snapshot := by
  obtain ⟨hinit, hheight, hhash, htime⟩ := htip
  have hroot : s'.merkleTree.rootObserved = s.merkleTree.rootObserved := by
    rw [SparseMerkleTree.rootObserved_eq h'.coherent, SparseMerkleTree.rootObserved_eq h.coherent]
    exact h'.treeOf.fullRoot_eq h.treeOf
  rw [snapshot, snapshot, Backend.prefixScan_all h.healthy, Backend.prefixScan_all h'.healthy, ht,
    hinit, hheight, hhash, htime, hroot]

omit [Chia] in
/-- The tip is read from the metadata. -/
theorem TipStored.sameTip (h : s.TipStored) (h' : s'.TipStored)
    (ht : s'.backend.tables .metadata = s.backend.tables .metadata) : s.SameTip s' := by
  refine ⟨?_, ?_, ?_, ?_⟩
  · rw [← h'.initialized, ht, h.initialized]
  · rw [← h'.height, ht, h.height]
  · refine Except.ok.inj (α := Bytes32) (ε := Exit) ?_
    rw [← h'.tipHash, ht, h.tipHash]
  · rw [← h'.timestamp, ht, h.timestamp]

end CoinStore

/-- **The database is a function of the state**: two runs end with the same rows in every family
exactly if the stores have the same snapshot and the same hints, whatever blocks, rollbacks,
restores and reopenings led there. -/
theorem Reachable.tables_eq_iff (h : Reachable U P s) (h' : Reachable U P' s')
    (hU : Set.InjOn Chia.coinId U) {snap : CoinStoreSnapshot} (hsnap : s.snapshot = .ok snap) :
    s'.backend.tables = s.backend.tables ↔
      s'.snapshot = .ok snap ∧ ∀ p, s'.backend.hasForward p = s.backend.hasForward p := by
  obtain ⟨m, hm, -⟩ : s.Follows (.all U hU) _ := h.represents
  obtain ⟨m', hm', -⟩ : s'.Follows (.all U hU) _ := h'.represents
  constructor
  · intro ht
    have htip := hm.tip.sameTip hm'.tip (congrFun ht .metadata)
    obtain rfl := hm.coinset_congr hm' (congrFun ht .coinRecords)
    refine ⟨?_, fun p => ?_⟩
    · rw [hm.snapshot_congr hm' htip (congrFun ht .coinRecords), hsnap]
    · rw [Backend.hasForward, Backend.hasForward, ht]
  · rintro ⟨hsnap', hhints⟩
    obtain ⟨hinit, hcoins, hheight, hhash, htime, -⟩ := hm.snapshot_eq_ok hsnap
    obtain ⟨hinit', hcoins', hheight', hhash', htime', -⟩ := hm'.snapshot_eq_ok hsnap'
    obtain rfl := hcoins.symm.trans hcoins'
    obtain ⟨members, hheld⟩ := h.operated.hintsOk.2
    obtain ⟨members', hheld'⟩ := h'.operated.hintsOk.2
    have hmembers : members' = members := funext fun p => by
      have hp := hheld.forward.get_key forwardKey_injective p
      have hp' := hheld'.forward.get_key forwardKey_injective p
      have heq : (members' p).isSome = (members p).isSome := by
        rw [← hp, ← hp']
        exact hhints p
      cases hmem : members p <;> cases hmem' : members' p <;> simp_all
    funext cf
    refine Std.ExtTreeMap.ext_getElem? fun key => ?_
    by_cases hcf : cf.OfState
    · rcases hcf with hcoin | hhint | rfl
      · exact congrFun ((hm'.rows cf hcoin).unique (hm.rows cf hcoin)) key
      · rw [hmembers] at hheld'
        simp only [CoinStore.hintFamilies, List.mem_cons, List.not_mem_nil, or_false] at hhint
        rcases hhint with rfl | rfl
        · exact congrFun (hheld'.forward.unique hheld.forward) key
        · exact congrFun (hheld'.reverse.unique hheld.reverse) key
      · rw [hm.holdsTip h.plain hinit, hm'.holdsTip h'.plain hinit', ← hheight, ← hheight', ← hhash,
          ← hhash', ← htime, ← htime']
    · rw [h.plain.unused cf hcf, h'.plain.unused cf hcf]

end DigCoinstore

namespace DigCoinstore

open Sample

/-- A store that comes to the state after block one by a restore. -/
theorem tables_eq_iff_restored : ∃ snap, afterOne.snapshot = .ok snap ∧
    ((genesis.restore snap).1.backend.tables = afterOne.backend.tables ↔
      (genesis.restore snap).1.snapshot = .ok snap ∧
        ∀ p, (genesis.restore snap).1.backend.hasForward p = afterOne.backend.hasForward p) := by
  obtain ⟨m, hm, -⟩ := reachable_afterOne.life
  have hfits : afterOne.initialized = true ∧ unspentTotal afterOne.storedCoins < 2 ^ 64 := by
    decide +kernel
  obtain ⟨snap, hsnap⟩ := hm.snapshot_ok hfits.1 hfits.2
  have hrestored := reachable_genesis.restore reachable_afterOne hsnap
  exact ⟨snap, hsnap, reachable_afterOne.tables_eq_iff hrestored coinId_injOn hsnap⟩

end DigCoinstore
