import DigCoinstore.SnapshotFacts

/-!
# What a call writes

On a backend without failures every call leaves the rows as they are or commits one batch, which
is named here once for each call. A property of the accumulator that each entry of a rollback pass
keeps holds at the end of both passes (`stageRollback_inv`).
-/

namespace DigCoinstore

/-- The backend after one batch. -/
def Backend.wrote (b : Backend) (batch : WriteBatch) : Backend :=
  { b with tables := b.tables.applyOps batch.ops }

variable [Chia]

/-- The batch of a genesis. -/
def genesisBatch (records : List CoinRecord) (timestamp : UInt64) : WriteBatch :=
  stageTip ((records.foldl stageGenesisCoin .new).put .metadata metaInitialized [1]) 0 .zero timestamp

theorem ops_stageGenesisCoin (batch : WriteBatch) (rec : CoinRecord) :
    (stageGenesisCoin batch rec).ops = batch.ops ++ (stageGenesisCoin .new rec).ops := by
  simp [stageGenesisCoin]

/-! ## The groups of a batch -/

section groups

variable {K : List WriteOp → Prop} (hnil : K [])
  (happend : ∀ {ops ops'}, K ops → K ops' → K (ops ++ ops'))

include happend

omit [Chia] in
theorem stageTip_inv {batch : WriteBatch} (h : K batch.ops) {height : UInt64} {tipHash : Bytes32}
    {timestamp : UInt64} (htip : K (stageTip .new height tipHash timestamp).ops) :
    K (stageTip batch height tipHash timestamp).ops := by
  rw [ops_stageTip]
  exact happend h htip

include hnil

/-- **A genesis stages** its coins, the marker and the tip. -/
theorem genesisBatch_inv {records : List CoinRecord} {timestamp : UInt64}
    (hcoin : ∀ rec ∈ records, K (stageGenesisCoin .new rec).ops)
    (hmark : K [.put .metadata metaInitialized [1]])
    (htip : K (stageTip .new 0 .zero timestamp).ops) : K (genesisBatch records timestamp).ops := by
  have hcoins := ops_stageAll_inv happend ops_stageGenesisCoin records hcoin hnil
  exact stageTip_inv happend (happend hcoins hmark) htip

/-- **A block stages** its creations, its spends and its hints. -/
theorem stageBlock_inv {block : BlockData} {created spent : List CoinRecord}
    (hcreate : ∀ rec ∈ created, K (stageCreation .new rec).ops)
    (hspend : ∀ rec ∈ spent, K (stageSpend block.height .new rec).ops)
    (hhint : ∀ id hint : Bytes32, K [.put .hints (id.bytes ++ hint.bytes) [],
      .put .hintsByValue (hint.bytes ++ id.bytes) []]) :
    K (stageBlock block created spent).ops := by
  have hcreated := ops_stageAll_inv happend ops_stageCreation created hcreate hnil
  have hspent := ops_stageAll_inv happend (ops_stageSpend block.height) spent hspend hcreated
  refine ops_stageAll_inv happend CoinStore.ops_stageHint block.hints (fun hint _ => ?_) hspent
  unfold stageHint
  split
  · exact hnil
  · exact hhint hint.1 hint.2

end groups

/-! ## The families of a call -/

/-- The families of coins and hints, and the metadata. -/
def ColumnFamily.OfState (cf : ColumnFamily) : Prop :=
  cf ∈ coinFamilies ∨ cf ∈ CoinStore.hintFamilies ∨ cf = .metadata

omit [Chia] in
theorem stageTip_ofState {batch : WriteBatch}
    (h : ∀ op ∈ batch.ops, (Tables.opCf op).OfState) (height : UInt64) (tipHash : Bytes32)
    (timestamp : UInt64) :
    ∀ op ∈ (stageTip batch height tipHash timestamp).ops, (Tables.opCf op).OfState := by
  intro op hop
  rw [ops_stageTip] at hop
  rcases List.mem_append.1 hop with hop | hop
  · exact h op hop
  · refine .inr (.inr ?_)
    simp only [stageTip, WriteBatch.ops_put, WriteBatch.ops_new, List.nil_append, List.cons_append,
      List.mem_cons, List.not_mem_nil, or_false] at hop
    rcases hop with rfl | rfl | rfl <;> rfl

theorem stageCreations_cfs (records : List CoinRecord) :
    ∀ op ∈ (records.foldl stageCreation .new).ops, Tables.opCf op ∈ coinFamilies := by
  refine ops_stageAll_cfs ops_stageCreation records (fun rec _ => ?_) (by simp)
  cases hs : rec.spentHeight <;>
    simp [stageCreation, appendCoinRecordToBatch, hs, Tables.opCf, coinFamilies]

theorem stageSpends_cfs (height : UInt64) (records : List CoinRecord) :
    ∀ op ∈ (records.foldl (stageSpend height) .new).ops, Tables.opCf op ∈ coinFamilies := by
  refine ops_stageAll_cfs (ops_stageSpend height) records (fun rec _ => ?_) (by simp)
  simp [stageSpend, Tables.opCf, coinFamilies]

theorem stageGenesisCoins_cfs (records : List CoinRecord) :
    ∀ op ∈ (records.foldl stageGenesisCoin .new).ops, Tables.opCf op ∈ coinFamilies := by
  refine ops_stageAll_cfs ops_stageGenesisCoin records (fun rec _ => ?_) (by simp)
  simp [stageGenesisCoin, Tables.opCf, coinFamilies]

/-- **A block writes coins and hints only.** -/
theorem stageBlock_ofState (block : BlockData) (created spent : List CoinRecord) :
    ∀ op ∈ (stageBlock block created spent).ops, (Tables.opCf op).OfState := by
  refine ops_stageAll_cfs CoinStore.ops_stageHint block.hints (fun hint _ => ?_) fun op hop => ?_
  · unfold stageHint
    split <;> simp [ColumnFamily.OfState, Tables.opCf, CoinStore.hintFamilies]
  · rw [ops_stageAll (ops_stageSpend block.height)] at hop
    exact .inl ((List.mem_append.1 hop).elim (stageCreations_cfs created op)
      (stageSpends_cfs block.height spent op))

theorem genesisBatch_ofState (records : List CoinRecord) (timestamp : UInt64) :
    ∀ op ∈ (genesisBatch records timestamp).ops, (Tables.opCf op).OfState := by
  refine stageTip_ofState (fun op hop => ?_) _ _ _
  rcases List.mem_append.1 hop with hop | hop
  · exact .inl (stageGenesisCoins_cfs records op hop)
  · obtain rfl := List.mem_singleton.1 hop
    exact .inr (.inr rfl)

namespace CoinStore

variable {s : CoinStore}

theorem initGenesis_writes (h : s.backend.Healthy) (coins : List (Coin × Bool)) (timestamp : UInt64) :
    ((s.initGenesis coins timestamp).1.backend = s.backend ∧
      (s.initGenesis coins timestamp).1.initialized = s.initialized) ∨
    (s.initGenesis coins timestamp).1.backend =
      s.backend.wrote (genesisBatch (coins.map (genesisRecord timestamp)) timestamp) := by
  unfold initGenesis
  split
  · exact .inl ⟨rfl, rfl⟩
  · dsimp only
    split
    · exact .inl ⟨rfl, rfl⟩
    · simp only [Backend.batchWrite_of_healthy h]
      exact .inr rfl

/-- The check of the state root only replaces the tree. -/
theorem verifyStateRoot_fst (s : CoinStore) (expected : Option Bytes32) (root : Bytes32) :
    (verifyStateRoot s expected root).1.backend = s.backend ∧
      (verifyStateRoot s expected root).1.initialized = s.initialized := by
  unfold verifyStateRoot
  split
  · exact ⟨rfl, rfl⟩
  · split
    · split <;> exact ⟨rfl, rfl⟩
    · exact ⟨rfl, rfl⟩

/-- A rejected block leaves the rows, an accepted one writes its batch. -/
theorem applyBlock_writes (h : s.backend.Healthy) (block : BlockData) :
    (s.applyBlock block).1.initialized = s.initialized ∧
    (((s.applyBlock block).1.backend = s.backend ∧ ∃ e, (s.applyBlock block).2 = .error e) ∨
      ∃ removalRecords, s.validateBlock block = .ok removalRecords ∧
        (s.applyBlock block).1.backend = s.backend.wrote
          (stageTip (stageBlock block (createdRecords block) (removalRecords.map (·.spend block.height)))
            block.height block.blockHash block.timestamp) ∧
        ∃ result, (s.applyBlock block).2 = .ok result) := by
  unfold applyBlock
  split
  · exact ⟨rfl, .inl ⟨rfl, _, rfl⟩⟩
  · next removalRecords hvalid =>
    rw [hvalid]
    dsimp only
    split
    · exact ⟨rfl, .inl ⟨rfl, _, rfl⟩⟩
    · split
      · exact ⟨rfl, .inl ⟨rfl, _, rfl⟩⟩
      · next tree _ =>
        have hroot := verifyStateRoot_fst { s with merkleTree := tree.root.2 } block.expectedStateRoot
          tree.root.1
        split
        · next s' e hcheck =>
          rw [hcheck] at hroot
          exact ⟨hroot.2, .inl ⟨hroot.1, e, rfl⟩⟩
        · next s' hcheck =>
          rw [hcheck] at hroot
          have hs' : s'.backend.Healthy := hroot.1 ▸ h
          rw [commitBlock, Backend.batchWrite_of_healthy hs']
          refine ⟨hroot.2, .inr ⟨removalRecords, rfl, ?_, _, rfl⟩⟩
          rw [Backend.wrote, ← hroot.1]

theorem rollbackToBlock_writes (h : s.backend.Healthy) (target : Int64) :
    (s.rollbackToBlock target).1.initialized = s.initialized ∧
    ((s.rollbackToBlock target).1.backend = s.backend ∨
      ∃ acc, s.stageRollback (effectiveTarget target) = .ok acc ∧
        (s.rollbackToBlock target).1.backend = s.backend.wrote
          (stageTip acc.batch (effectiveTarget target) .zero s.timestamp)) := by
  unfold rollbackToBlock
  split
  · exact ⟨rfl, .inl rfl⟩
  · split
    · exact ⟨rfl, .inl rfl⟩
    · dsimp only
      split
      · exact ⟨rfl, .inl rfl⟩
      · split
        · exact ⟨rfl, .inl rfl⟩
        · next acc hstage =>
          split
          · exact ⟨rfl, .inl rfl⟩
          · split
            · exact ⟨rfl, .inl rfl⟩
            · rw [commitRollback, Backend.batchWrite_of_healthy h]
              exact ⟨rfl, .inr ⟨acc, hstage, rfl⟩⟩

/-- A rollback by `n` blocks does nothing, or is one to some height. -/
theorem rollbackNBlocks_cases (s : CoinStore) (n : UInt64) :
    (s.rollbackNBlocks n).1 = s ∨ ∃ target, s.rollbackNBlocks n = s.rollbackToBlock target := by
  unfold rollbackNBlocks
  split
  · exact .inl rfl
  · split
    · exact .inl rfl
    · next target _ => exact .inr ⟨target, rfl⟩

theorem restore_writes (h : s.backend.Healthy) (snap : CoinStoreSnapshot) :
    (s.restore snap).1 = s ∨ ∃ tree backend, (s.restore snap).1 = s.restored snap tree backend ∧
      backend.Healthy ∧ backend.tables = snapshotTables snap := by
  cases hcheck : checkSnapshot snap with
  | error e =>
    rw [restore, hcheck]
    exact .inl rfl
  | ok tree =>
    obtain ⟨backend, heq, hb, ht⟩ := restore_of_check hcheck h
    rw [heq]
    exact .inr ⟨tree, backend, rfl, hb, ht⟩

/-- An opened store is on the given backend and reads the marker there. -/
theorem withConfig_reads {config : CoinStoreConfig} {b : Backend} (hb : b.Healthy)
    (h : withConfig config b = .ok s) :
    s.backend = b ∧ s.initialized = ((b.tables .metadata)[metaInitialized]?).isSome := by
  unfold withConfig at h
  simp only [Backend.get_of_healthy hb, orStorage_ok, Res.ok_bind] at h
  obtain ⟨tipHash, _, h⟩ := Res.bind_eq_ok.1 h
  split at h
  · obtain ⟨tree, _, h⟩ := Res.bind_eq_ok.1 h
    obtain ⟨ids, _, h⟩ := Res.bind_eq_ok.1 h
    obtain rfl := Except.ok.inj h
    exact ⟨rfl, rfl⟩
  · obtain rfl := Except.ok.inj h
    exact ⟨rfl, rfl⟩

/-! ## Rollback passes -/

omit [Chia] in
theorem scanAbove_inv {I : RollbackAcc → Prop} {cf : ColumnFamily} {target : UInt64}
    {body : RollbackAcc → KvPair → Res RollbackAcc}
    (hbody : ∀ acc entry acc', I acc → body acc entry = .ok acc' → I acc') {acc acc' : RollbackAcc}
    (hacc : I acc) (hok : s.scanAbove cf target body acc = .ok acc') : I acc' := by
  refine Res.foldlM_inv (I := I) (fun acc height acc' hacc hok => ?_) _ hacc hok
  obtain ⟨entries, _, hrest⟩ := Res.bind_eq_ok.1 hok
  exact Res.foldlM_inv hbody entries hacc hrest

/-- **What every entry keeps** holds after the passes. -/
theorem stageRollback_inv {I : RollbackAcc → Prop} (hstart : I .start)
    (hdelete : ∀ acc entry acc', I acc → s.deleteConfirmed acc entry = .ok acc' → I acc')
    (hhints : ∀ acc id acc', I acc → s.deleteHints acc id = .ok acc' → I acc')
    (hunspend : ∀ acc entry acc', I acc → s.unspendEntry acc entry = .ok acc' → I acc')
    {target : UInt64} {acc : RollbackAcc} (hok : s.stageRollback target = .ok acc) : I acc := by
  obtain ⟨acc₁, hdel, hrest⟩ := Res.bind_eq_ok.1 hok
  obtain ⟨acc₂, hclean, hrev⟩ := Res.bind_eq_ok.1 hrest
  have h₁ : I acc₁ := scanAbove_inv hdelete hstart hdel
  have h₂ : I acc₂ := Res.foldlM_inv (I := I) hhints _ h₁ hclean
  exact scanAbove_inv hunspend h₂ hrev

omit [Chia] in
/-- **What an entry of pass one does**: nothing, or it deletes the record it finds. -/
theorem deleteConfirmed_cases {acc acc' : RollbackAcc} {entry : KvPair}
    (hok : s.deleteConfirmed acc entry = .ok acc') :
    acc' = acc ∨ ∃ id rec, s.getCoinRecord id = .ok (some rec) ∧ acc' = { acc with
      modifiedCoins := acc.modifiedCoins.insert id rec
      batch := stageDeletion acc.batch id rec
      merkleRemovals := acc.merkleRemovals ++ [id]
      coinsDeleted := acc.coinsDeleted + 1 } := by
  unfold deleteConfirmed at hok
  split at hok
  · exact .inl (Except.ok.inj hok).symm
  · obtain ⟨id, _, hrest⟩ := Res.bind_eq_ok.1 hok
    obtain ⟨o, hget, hrest⟩ := Res.bind_eq_ok.1 hrest
    cases o with
    | none => exact .inl (Except.ok.inj hrest).symm
    | some rec => exact .inr ⟨id, rec, hget, (Except.ok.inj hrest).symm⟩

/-- **What an entry of pass two does**: nothing, or it drops the entry of a coin met before, or it
un-spends the record it finds. -/
theorem unspendEntry_cases {acc acc' : RollbackAcc} {entry : KvPair}
    (hok : s.unspendEntry acc entry = .ok acc') :
    acc' = acc ∨ acc' = { acc with batch := acc.batch.delete .coinBySpentHeight entry.1 } ∨
    ∃ id rec parent, s.getCoinRecord id = .ok (some rec) ∧
      s.getCoinRecord rec.coin.parentCoinInfo = .ok parent ∧ acc' = { acc with
        modifiedCoins := acc.modifiedCoins.insert id rec
        batch := stageUnspend acc.batch id
          { rec with spentHeight := none, ffEligible := parent.isSome } entry.1
        merkleUpdates := acc.merkleUpdates ++ [(id, merkleLeafHash (serializeCoinRecordStorageBytes
          { rec with spentHeight := none, ffEligible := parent.isSome }))]
        coinsUnspent := acc.coinsUnspent + 1 } := by
  unfold unspendEntry at hok
  split at hok
  · exact .inl (Except.ok.inj hok).symm
  · obtain ⟨id, _, hrest⟩ := Res.bind_eq_ok.1 hok
    split at hrest
    · exact .inr (.inl (Except.ok.inj hrest).symm)
    · obtain ⟨o, hget, hrest⟩ := Res.bind_eq_ok.1 hrest
      cases o with
      | none => exact .inl (Except.ok.inj hrest).symm
      | some rec =>
        obtain ⟨parent, hparent, hrest⟩ := Res.bind_eq_ok.1 hrest
        exact .inr (.inr ⟨id, rec, parent, hget, hparent, (Except.ok.inj hrest).symm⟩)

/-! ## The families a rollback writes -/

omit [Chia] in
/-- What an entry of pass one adds. -/
theorem deleteConfirmed_ops {acc acc' : RollbackAcc} {entry : KvPair}
    (hok : s.deleteConfirmed acc entry = .ok acc') : ∃ ops, acc'.batch.ops = acc.batch.ops ++ ops ∧
      ∀ op ∈ ops, Tables.opCf op ∈ coinFamilies := by
  rcases deleteConfirmed_cases hok with rfl | ⟨id, rec, _, rfl⟩
  · exact ⟨[], by simp, by simp⟩
  · refine ⟨_, ops_stageDeletion acc.batch id rec, ?_⟩
    cases hs : rec.spentHeight <;> simp [stageDeletion, hs, Tables.opCf, coinFamilies]

/-- What an entry of pass two adds. -/
theorem unspendEntry_ops {acc acc' : RollbackAcc} {entry : KvPair}
    (hok : s.unspendEntry acc entry = .ok acc') : ∃ ops, acc'.batch.ops = acc.batch.ops ++ ops ∧
      ∀ op ∈ ops, Tables.opCf op ∈ coinFamilies := by
  rcases unspendEntry_cases hok with rfl | rfl | ⟨id, rec, parent, _, _, rfl⟩
  · exact ⟨[], by simp, by simp⟩
  · exact ⟨_, rfl, by simp [Tables.opCf, coinFamilies]⟩
  · exact ⟨_, ops_stageUnspend .., by simp [stageUnspend, Tables.opCf, coinFamilies]⟩

omit [Chia] in
/-- What the clean-up of one coin adds. -/
theorem deleteHints_ops (h : s.backend.Healthy) {acc acc' : RollbackAcc} {id : CoinId}
    (hok : s.deleteHints acc id = .ok acc') : ∃ ops, acc'.batch.ops = acc.batch.ops ++ ops ∧
      ∀ op ∈ ops, Tables.opCf op ∈ hintFamilies := by
  rw [deleteHints, Backend.prefixScan_of_healthy h] at hok
  obtain rfl := Except.ok.inj hok
  obtain ⟨ops, heq, hops⟩ := foldl_stageHintDeletion id
    (((s.backend.tables .hints).toList.filter fun kv => id.bytes.isPrefixOf kv.1).map (·.1)) acc.batch
  exact ⟨ops, congrArg WriteBatch.ops heq, hops⟩

/-- **A rollback writes coins and hints only.** -/
theorem stageRollback_ofState (h : s.backend.Healthy) {target : UInt64} {acc : RollbackAcc}
    (hok : s.stageRollback target = .ok acc) :
    ∀ op ∈ acc.batch.ops, (Tables.opCf op).OfState := by
  have hadd : ∀ {acc acc' : RollbackAcc} {cfs : List ColumnFamily},
      (∀ cf ∈ cfs, cf.OfState) → (∀ op ∈ acc.batch.ops, (Tables.opCf op).OfState) →
      (∃ ops, acc'.batch.ops = acc.batch.ops ++ ops ∧ ∀ op ∈ ops, Tables.opCf op ∈ cfs) →
      ∀ op ∈ acc'.batch.ops, (Tables.opCf op).OfState := by
    rintro acc acc' cfs hcfs hacc ⟨ops, heq, hops⟩ op hop
    rw [heq] at hop
    exact (List.mem_append.1 hop).elim (hacc op) fun hop => hcfs _ (hops op hop)
  refine stageRollback_inv (I := fun acc : RollbackAcc => ∀ op ∈ acc.batch.ops,
    (Tables.opCf op).OfState) (by simp [RollbackAcc.start]) ?_ ?_ ?_ hok
  · exact fun _ _ _ hacc hok => hadd (fun _ => .inl) hacc (deleteConfirmed_ops hok)
  · exact fun _ _ _ hacc hok => hadd (fun _ hcf => .inr (.inl hcf)) hacc (deleteHints_ops h hok)
  · exact fun _ _ _ hacc hok => hadd (fun _ => .inl) hacc (unspendEntry_ops hok)

end CoinStore

end DigCoinstore
