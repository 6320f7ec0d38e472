import DigCoinstore.CallFacts
import DigCoinstore.IndexExact

/-!
# The two hint tables

`hints` and `hints_by_value` hold the same pairs of a coin id and a hint, one under `id || hint`,
the other under `hint || id` (`HintsPaired`). Every writer adds or drops both rows of a pair: the
batches of blocks, rollbacks and restores (`KeepsHints`), and the direct calls. So the tables
mirror each other in every run (`Operated.hints_mirrored`), also of stores that were restored from
snapshots of any origin.
-/

namespace DigCoinstore

/-! ## Pairs -/

/-- A coin id and a hint. -/
abbrev HintPair := CoinId × Bytes

def forwardKey (p : HintPair) : Bytes := p.1.bytes ++ p.2

def reverseKey (p : HintPair) : Bytes := p.2 ++ p.1.bytes

/-- The first 32 bytes are the id. -/
theorem forwardKey_injective : Function.Injective forwardKey := fun p p' h => by
  obtain ⟨hid, hhint⟩ := List.append_inj h (by simp)
  exact Prod.ext (Bytes32.ext hid) hhint

/-- The last 32 bytes are the id, so no key can be split in two ways. -/
theorem reverseKey_injective : Function.Injective reverseKey := fun p p' h => by
  obtain ⟨hhint, hid⟩ := List.append_inj' h (by simp)
  exact Prod.ext (Bytes32.ext hid) hhint

/-- Both tables hold the pairs `members`, whose hints are neither empty nor too long. -/
structure HintTables (t : Tables) (members : HintPair → Option Unit) : Prop where
  forward : Mirrors (fun k => (t .hints)[k]?) (keyRow forwardKey []) members
  reverse : Mirrors (fun k => (t .hintsByValue)[k]?) (keyRow reverseKey []) members
  lengths : ∀ p, members p = some () → 0 < p.2.length ∧ p.2.length ≤ maxHintLength

namespace HintTables

variable {t : Tables} {members : HintPair → Option Unit}

/-- Both rows of a pair written. -/
theorem put (h : HintTables t members) (id : CoinId) {hint : Bytes} (hpos : 0 < hint.length)
    (hmax : hint.length ≤ maxHintLength) :
    HintTables ((t.put .hints (id.bytes ++ hint) []).put .hintsByValue (hint ++ id.bytes) [])
      (Function.update members (id, hint) (some ())) := by
  refine ⟨?_, ?_, fun p hp => ?_⟩
  · refine h.forward.insert forwardKey_injective (id, hint) ?_ fun k hk => ?_
    · simp [Tables.put_get, forwardKey]
    · simp [Tables.put_get, Ne.symm (show k ≠ id.bytes ++ hint from hk)]
  · refine h.reverse.insert reverseKey_injective (id, hint) ?_ fun k hk => ?_
    · simp [Tables.put_get, reverseKey]
    · simp [Tables.put_get, Ne.symm (show k ≠ hint ++ id.bytes from hk)]
  · by_cases hid : p = (id, hint)
    · rw [hid]
      exact ⟨hpos, hmax⟩
    · rw [Function.update_of_ne hid] at hp
      exact h.lengths p hp

/-- Both rows of a pair deleted. -/
theorem delete (h : HintTables t members) (id : CoinId) (hint : Bytes) :
    HintTables ((t.delete .hintsByValue (hint ++ id.bytes)).delete .hints (id.bytes ++ hint))
      (Function.update members (id, hint) none) := by
  refine ⟨?_, ?_, fun p hp => ?_⟩
  · refine h.forward.erase forwardKey_injective (id, hint) ?_ fun k hk => ?_
    · simp [Tables.delete_get, forwardKey]
    · simp [Tables.delete_get, Ne.symm (show k ≠ id.bytes ++ hint from hk)]
  · refine h.reverse.erase reverseKey_injective (id, hint) ?_ fun k hk => ?_
    · simp [Tables.delete_get, reverseKey]
    · simp [Tables.delete_get, Ne.symm (show k ≠ hint ++ id.bytes from hk)]
  · by_cases hid : p = (id, hint)
    · rw [hid, Function.update_self] at hp
      cases hp
    · rw [Function.update_of_ne hid] at hp
      exact h.lengths p hp

theorem congr {t' : Tables} (h : HintTables t members) (hh : t' .hints = t .hints)
    (hv : t' .hintsByValue = t .hintsByValue) : HintTables t' members :=
  ⟨by rw [hh]; exact h.forward, by rw [hv]; exact h.reverse, h.lengths⟩

/-- No hint is empty, so no key is an id alone. -/
theorem delete_id (h : HintTables t members) (id : CoinId) :
    HintTables (t.delete .hints id.bytes) members := by
  refine h.congr (Std.ExtTreeMap.ext_getElem? fun k => ?_) rfl
  rw [Tables.delete_get]
  split
  · next heq =>
    refine (Option.eq_none_iff_forall_ne_some.2 fun v hv => ?_).symm
    obtain ⟨p, r, hp, hrow⟩ := (h.forward k v).1 hv
    simp only [keyRow, Option.some.injEq, Prod.mk.injEq] at hrow
    have hlen := congrArg List.length (hrow.1.trans heq.2.symm)
    have hpos := (h.lengths p hp).1
    simp only [forwardKey, List.length_append, Bytes32.length_bytes] at hlen
    omega
  · rfl

/-- The pair of an empty hint is not there. -/
theorem update_nil (h : HintTables t members) (id : CoinId) :
    Function.update members (id, []) none = members := by
  rw [Function.update_eq_self_iff]
  refine (Option.eq_none_iff_forall_ne_some.2 fun _ hp => ?_).symm
  exact absurd (h.lengths _ hp).1 (by simp)

/-- The clean-up of one forward row of a coin. -/
theorem stageHintDeletion (h : HintTables t members) (id : CoinId) (hint : Bytes) :
    HintTables (t.applyOps (stageHintDeletion id .new (id.bytes ++ hint)).ops)
      (Function.update members (id, hint) none) := by
  have hdrop : (id.bytes ++ hint).drop 32 = hint := List.drop_left' id.length_bytes
  unfold DigCoinstore.stageHintDeletion
  split
  · rw [hdrop]
    exact h.delete id hint
  · next hlen =>
    have hnil : hint = [] := by
      simp only [List.length_append, Bytes32.length_bytes, Nat.not_lt] at hlen
      exact List.eq_nil_of_length_eq_zero (by omega)
    rw [hnil, List.append_nil, h.update_nil]
    exact h.delete_id id

end HintTables

/-- **The two tables mirror each other.** -/
def HintsPaired (t : Tables) : Prop := ∃ members, HintTables t members

namespace HintsPaired

variable {t t' : Tables}

theorem congr (h : HintsPaired t) (hh : t' .hints = t .hints)
    (hv : t' .hintsByValue = t .hintsByValue) : HintsPaired t' :=
  h.imp fun _ h => h.congr hh hv

/-- Tables without hints. -/
theorem empty : HintsPaired Tables.empty :=
  ⟨fun _ => none, Mirrors.empty _, Mirrors.empty _, by simp⟩

theorem put (h : HintsPaired t) (id : CoinId) {hint : Bytes} (hpos : 0 < hint.length)
    (hmax : hint.length ≤ maxHintLength) :
    HintsPaired ((t.put .hints (id.bytes ++ hint) []).put .hintsByValue (hint ++ id.bytes) []) :=
  h.elim fun _ h => ⟨_, h.put id hpos hmax⟩

theorem delete (h : HintsPaired t) (id : CoinId) (hint : Bytes) :
    HintsPaired ((t.delete .hintsByValue (hint ++ id.bytes)).delete .hints (id.bytes ++ hint)) :=
  h.elim fun _ h => ⟨_, h.delete id hint⟩

end HintsPaired

/-! ## Batches -/

theorem ops_stageHintDeletion (id : CoinId) (batch : WriteBatch) (fwdKey : Bytes) :
    (stageHintDeletion id batch fwdKey).ops = batch.ops ++ (stageHintDeletion id .new fwdKey).ops := by
  unfold stageHintDeletion
  split <;> simp

/-- The writes of a coin are not on the hint tables. -/
theorem hints_not_mem {ops : List WriteOp} (hcf : ∀ op ∈ ops, Tables.opCf op ∈ coinFamilies) :
    .hints ∉ ops.map Tables.opCf ∧ .hintsByValue ∉ ops.map Tables.opCf := by
  have hother : ∀ cf ∈ CoinStore.hintFamilies, cf ∉ ops.map Tables.opCf := by
    intro cf hcf' hmem
    obtain ⟨op, hop, rfl⟩ := List.mem_map.1 hmem
    obtain ⟨hh, hv, _⟩ := ne_of_mem_coinFamilies (hcf op hop)
    simp [CoinStore.hintFamilies, hh, hv] at hcf'
  exact ⟨hother _ (by simp [CoinStore.hintFamilies]), hother _ (by simp [CoinStore.hintFamilies])⟩

/-- The operations keep the tables paired. -/
def KeepsHints (ops : List WriteOp) : Prop := ∀ t, HintsPaired t → HintsPaired (t.applyOps ops)

namespace KeepsHints

variable {ops ops' : List WriteOp}

theorem append (h : KeepsHints ops) (h' : KeepsHints ops') : KeepsHints (ops ++ ops') := by
  intro t ht
  rw [Tables.applyOps_append]
  exact h' _ (h t ht)

/-- Operations on other families. -/
theorem of_other (hh : .hints ∉ ops.map Tables.opCf) (hv : .hintsByValue ∉ ops.map Tables.opCf) :
    KeepsHints ops := fun t ht =>
  ht.congr (Tables.applyOps_other ops t hh) (Tables.applyOps_other ops t hv)

/-- A loop that stages groups of operations. -/
theorem stageAll {α : Type} {stage : WriteBatch → α → WriteBatch}
    (hstage : ∀ batch a, (stage batch a).ops = batch.ops ++ (stage .new a).ops) :
    ∀ (l : List α), (∀ a ∈ l, KeepsHints (stage .new a).ops) → ∀ {batch : WriteBatch},
    KeepsHints batch.ops → KeepsHints (l.foldl stage batch).ops := fun l h _ hbatch =>
  ops_stageAll_inv append hstage l h hbatch

theorem nil : KeepsHints [] := fun _ ht => ht

theorem tip (height : UInt64) (tipHash : Bytes32) (timestamp : UInt64) :
    KeepsHints (stageTip .new height tipHash timestamp).ops :=
  .of_other (by simp [stageTip, Tables.opCf]) (by simp [stageTip, Tables.opCf])

/-- A hint of a snapshot. -/
theorem stageSnapshotHint (hint : CoinId × Bytes32) :
    KeepsHints (stageSnapshotHint .new hint).ops :=
  fun _ ht => ht.put hint.1 (by simp) (by simp [maxHintLength])

/-- The clean-up of one forward row of a coin. -/
theorem stageHintDeletion {id : CoinId} {fwdKey : Bytes} (hpre : id.bytes <+: fwdKey) :
    KeepsHints (stageHintDeletion id .new fwdKey).ops := by
  obtain ⟨hint, rfl⟩ := hpre
  exact fun t ht => ht.elim fun _ h => ⟨_, h.stageHintDeletion id hint⟩

variable [Chia]

theorem stageCreation (rec : CoinRecord) : KeepsHints (stageCreation .new rec).ops := by
  refine .of_other ?_ ?_ <;> cases h : rec.spentHeight <;>
    simp [DigCoinstore.stageCreation, appendCoinRecordToBatch, h, Tables.opCf]

theorem stageBlock (block : BlockData) (created spent : List CoinRecord) :
    KeepsHints (stageBlock block created spent).ops := by
  refine stageBlock_inv nil append (fun rec _ => .stageCreation rec) (fun rec _ => ?_) ?_
  · exact .of_other (by simp [stageSpend, Tables.opCf]) (by simp [stageSpend, Tables.opCf])
  · exact fun id hint t ht => ht.put id (by simp) (by simp [maxHintLength])

end KeepsHints

/-! ## Calls -/

/-- A backend that fails no call and whose hint tables mirror each other. -/
def Backend.HintsOk (b : Backend) : Prop := b.Healthy ∧ HintsPaired b.tables

theorem Backend.HintsOk.write {b : Backend} (h : b.HintsOk) {batch : WriteBatch}
    (hops : KeepsHints batch.ops) : (b.wrote batch).HintsOk :=
  ⟨h.1, hops _ h.2⟩

variable [Chia]

namespace CoinStore

variable {s : CoinStore}

theorem initGenesis_hints (h : s.backend.HintsOk) (coins : List (Coin × Bool)) (timestamp : UInt64) :
    (s.initGenesis coins timestamp).1.backend.HintsOk := by
  rcases initGenesis_writes h.1 coins timestamp with ⟨heq, _⟩ | heq
  · rwa [heq]
  · rw [heq]
    refine h.write (genesisBatch_inv .nil .append (fun rec _ => ?_) ?_ (.tip _ _ _))
    · exact .of_other (by simp [stageGenesisCoin, Tables.opCf])
        (by simp [stageGenesisCoin, Tables.opCf])
    · exact .of_other (by simp [Tables.opCf]) (by simp [Tables.opCf])

theorem applyBlock_hints (h : s.backend.HintsOk) (block : BlockData) :
    (s.applyBlock block).1.backend.HintsOk := by
  rcases (applyBlock_writes h.1 block).2 with ⟨heq, -⟩ | ⟨_, -, heq, -⟩
  · rwa [heq]
  · rw [heq]
    exact h.write (stageTip_inv .append (.stageBlock _ _ _) (.tip _ _ _))

omit [Chia] in
/-- The clean-up of one deleted coin only reads rows of that coin. -/
theorem deleteHints_keeps (h : s.backend.Healthy) {acc acc' : RollbackAcc} {id : CoinId}
    (hacc : KeepsHints acc.batch.ops) (hok : s.deleteHints acc id = .ok acc') :
    KeepsHints acc'.batch.ops := by
  rw [deleteHints, Backend.prefixScan_of_healthy h] at hok
  obtain rfl := Except.ok.inj hok
  refine KeepsHints.stageAll (ops_stageHintDeletion id) _ (fun key hkey => ?_) hacc
  obtain ⟨kv, hkv, rfl⟩ := List.mem_map.1 hkey
  exact .stageHintDeletion (List.isPrefixOf_iff_prefix.1 (List.mem_filter.1 hkv).2)

omit [Chia] in
/-- The writes of a coin touch no hint. -/
theorem keeps_of_coinFamilies {acc acc' : RollbackAcc} (hacc : KeepsHints acc.batch.ops)
    (hops : ∃ ops, acc'.batch.ops = acc.batch.ops ++ ops ∧
      ∀ op ∈ ops, Tables.opCf op ∈ coinFamilies) : KeepsHints acc'.batch.ops := by
  obtain ⟨ops, heq, hcf⟩ := hops
  rw [heq]
  exact hacc.append (.of_other (hints_not_mem hcf).1 (hints_not_mem hcf).2)

/-- **The batch of a rollback** keeps the hints paired. -/
theorem stageRollback_keeps (h : s.backend.Healthy) {target : UInt64} {acc : RollbackAcc}
    (hok : s.stageRollback target = .ok acc) : KeepsHints acc.batch.ops :=
  stageRollback_inv (I := fun acc : RollbackAcc => KeepsHints acc.batch.ops) .nil
    (fun _ _ _ hacc hok => keeps_of_coinFamilies hacc (deleteConfirmed_ops hok))
    (fun _ _ _ hacc hok => deleteHints_keeps h hacc hok)
    (fun _ _ _ hacc hok => keeps_of_coinFamilies hacc (unspendEntry_ops hok)) hok

theorem rollbackToBlock_hints (h : s.backend.HintsOk) (target : Int64) :
    (s.rollbackToBlock target).1.backend.HintsOk := by
  rcases (rollbackToBlock_writes h.1 target).2 with heq | ⟨acc, hstage, heq⟩
  · rwa [heq]
  · rw [heq]
    exact h.write (stageTip_inv .append (stageRollback_keeps h.1 hstage) (.tip _ _ _))

theorem rollbackNBlocks_hints (h : s.backend.HintsOk) (n : UInt64) :
    (s.rollbackNBlocks n).1.backend.HintsOk := by
  rcases rollbackNBlocks_cases s n with heq | ⟨target, heq⟩
  · rwa [heq]
  · rw [heq]
    exact rollbackToBlock_hints h target

omit [Chia] in
/-- **One hint added**: the pair is a member afterwards, as a new one or as before. -/
theorem addHintRows_tables {b : Backend} {members : HintPair → Option Unit} (hb : b.Healthy)
    (h : HintTables b.tables members) (id : CoinId) {hint : Bytes} (hpos : 0 < hint.length)
    (hmax : hint.length ≤ maxHintLength) :
    (addHintRows b id hint).1.Healthy ∧
      HintTables (addHintRows b id hint).1.tables (Function.update members (id, hint) (some ())) := by
  unfold addHintRows
  rw [Backend.get_of_healthy hb, orStorage_ok]
  cases hrow : (b.tables .hints)[id.bytes ++ hint]? with
  | some v =>
    have hkey := h.forward.get_key forwardKey_injective (id, hint)
    rw [forwardKey, hrow, Option.isSome_some] at hkey
    obtain ⟨_, hmem⟩ := Option.isSome_iff_exists.1 hkey.symm
    rw [Function.update_eq_self_iff.2 hmem.symm]
    exact ⟨hb, h⟩
  | none =>
    have hput : ∀ t, ({ b with tables := t } : Backend).Healthy := fun _ => hb
    simp only [Backend.put_of_healthy hb, Backend.put_of_healthy (hput _)]
    exact ⟨hb, h.put id hpos hmax⟩

omit [Chia] in
theorem addHintRows_hints {b : Backend} (h : b.HintsOk) (id : CoinId) {hint : Bytes}
    (hpos : 0 < hint.length) (hmax : hint.length ≤ maxHintLength) :
    (addHintRows b id hint).1.HintsOk := by
  obtain ⟨hb, members, hm⟩ := h
  obtain ⟨hb', hm'⟩ := addHintRows_tables hb hm id hpos hmax
  exact ⟨hb', _, hm'⟩

omit [Chia] in
theorem addHint_hints (h : s.backend.HintsOk) (id : CoinId) (hint : Bytes) :
    (s.addHint id hint).1.backend.HintsOk := by
  unfold addHint
  split
  · exact h
  · exact h
  · next hvalid =>
    unfold validateHint at hvalid
    split at hvalid
    · cases hvalid
    · next hne =>
      split at hvalid
      · cases hvalid
      · next hlen =>
        refine addHintRows_hints h id (List.length_pos_iff.2 fun hnil => hne ?_) (Nat.not_lt.1 hlen)
        rw [hnil]
        rfl

omit [Chia] in
/-- Both deletes of one row of the coin. -/
theorem removeHintRow_hints {b : Backend} (h : b.HintsOk) (id : CoinId) (removed : Nat)
    {fwdKey : Bytes} (hpre : id.bytes <+: fwdKey) :
    (removeHintRow id b removed fwdKey).1.HintsOk := by
  obtain ⟨hint, rfl⟩ := hpre
  have hdrop : (id.bytes ++ hint).drop 32 = hint := List.drop_left' id.length_bytes
  unfold removeHintRow
  split
  · exact h
  · have hdel : ∀ t, ({ b with tables := t } : Backend).Healthy := fun _ => h.1
    simp only [Backend.delete_of_healthy h.1, Backend.delete_of_healthy (hdel _)]
    rw [hdrop]
    exact ⟨h.1, h.2.delete id hint⟩

omit [Chia] in
theorem removeHintsForCoin_hints {b : Backend} (h : b.HintsOk) (removed : Nat) (id : CoinId) :
    (removeHintsForCoin b removed id).1.HintsOk := by
  rw [removeHintsForCoin, Backend.prefixScan_of_healthy h.1, orStorage_ok]
  refine forBackend_inv _ b removed (fun b n key hkey hb => ?_) h
  obtain ⟨kv, hkv, rfl⟩ := List.mem_map.1 hkey
  exact removeHintRow_hints hb id n (List.isPrefixOf_iff_prefix.1 (List.mem_filter.1 hkv).2)

omit [Chia] in
theorem removeHintsForCoins_hints (h : s.backend.HintsOk) (ids : List CoinId) :
    (s.removeHintsForCoins ids).1.backend.HintsOk :=
  forBackend_inv ids s.backend 0 (fun _ n id _ hb => removeHintsForCoin_hints hb n id) h

/-- The tables of a snapshot of any origin. -/
theorem snapshotTables_hints (snap : CoinStoreSnapshot) : HintsPaired (snapshotTables snap) := by
  have hcoins : KeepsHints (snap.records.foldl stageCreation .new).ops :=
    .stageAll ops_stageCreation _ (fun rec _ => .stageCreation rec) .nil
  have hhints : KeepsHints (snap.hints.foldl stageSnapshotHint .new).ops :=
    .stageAll ops_stageSnapshotHint _ (fun hint _ => .stageSnapshotHint hint) .nil
  have htip : KeepsHints (stageTip .new snap.height snap.blockHash snap.timestamp).ops :=
    .tip _ _ _
  refine htip _ ((hhints _ (hcoins _ .empty)).congr ?_ ?_)
  · exact Function.update_of_ne (by decide) _ _
  · exact Function.update_of_ne (by decide) _ _

theorem restore_hints (h : s.backend.HintsOk) (snap : CoinStoreSnapshot) :
    (s.restore snap).1.backend.HintsOk := by
  rcases restore_writes h.1 snap with heq | ⟨tree, backend, heq, hb, ht⟩
  · rwa [heq]
  · rw [heq]
    exact ⟨hb, by rw [restored, ht]; exact snapshotTables_hints snap⟩

end CoinStore

/-! ## Runs -/

theorem CoinStore.OtherCall.hints {s s' : CoinStore} (hcall : CoinStore.OtherCall s s')
    (h : s.backend.HintsOk) : s'.backend.HintsOk := by
  cases hcall with
  | initGenesis => exact CoinStore.initGenesis_hints h _ _
  | applyBlock => exact CoinStore.applyBlock_hints h _
  | reopen hopen => exact (CoinStore.withConfig_reads h.1 hopen).1 ▸ h
  | stateRoot => exact h
  | addHint => exact CoinStore.addHint_hints h _ _
  | removeHintsForCoins => exact CoinStore.removeHintsForCoins_hints h _

theorem Operated.hintsOk {s : CoinStore} (h : Operated s) : s.backend.HintsOk := by
  induction h with
  | new hopen =>
    rw [(CoinStore.withConfig_reads Backend.healthy_fresh hopen).1]
    exact ⟨Backend.healthy_fresh, .empty⟩
  | call _ hcall ih => exact hcall.hints ih
  | rollbackToBlock _ ih => exact CoinStore.rollbackToBlock_hints ih _
  | rollbackNBlocks _ ih => exact CoinStore.rollbackNBlocks_hints ih _
  | restore _ ih => exact CoinStore.restore_hints ih _

/-- **The hint tables mirror each other** in every run: both hold one row for each pair of one set
and no other row. -/
theorem Operated.hints_mirrored {s : CoinStore} (h : Operated s) :
    (∀ (id : CoinId) (hint : Bytes), (∃ v, (id.bytes ++ hint, v) ∈ s.rows .hints) ↔
      ∃ v, (hint ++ id.bytes, v) ∈ s.rows .hintsByValue) ∧
    ∃ pairs : Set (CoinId × Bytes), (∀ p ∈ pairs, 1 ≤ p.2.length ∧ p.2.length ≤ 32) ∧
      s.rows .hints = {kv | ∃ p ∈ pairs, kv = (p.1.bytes ++ p.2, [])} ∧
      s.rows .hintsByValue = {kv | ∃ p ∈ pairs, kv = (p.2 ++ p.1.bytes, [])} := by
  obtain ⟨-, members, hm⟩ := h.hintsOk
  refine ⟨fun id hint => ?_, {p | members p = some ()}, hm.lengths, ?_, ?_⟩
  · have hf := hm.forward.get_key forwardKey_injective (id, hint)
    have hr := hm.reverse.get_key reverseKey_injective (id, hint)
    rw [← hr, Bool.eq_iff_iff, Option.isSome_iff_exists, Option.isSome_iff_exists] at hf
    exact hf
  · exact Set.ext fun kv => hm.forward.row_iff
  · exact Set.ext fun kv => hm.reverse.row_iff

end DigCoinstore

namespace DigCoinstore

open Sample

/-- Genesis with a hint of two bytes for coin 1. -/
def shortHinted : CoinStore := (genesis.addHint (ofNum 1) [5, 6]).1

theorem operated_shortHinted : Operated shortHinted := operated_genesis.call .addHint

theorem hints_mirrored_shortHinted :
    (∀ (id : CoinId) (hint : Bytes), (∃ v, (id.bytes ++ hint, v) ∈ shortHinted.rows .hints) ↔
      ∃ v, (hint ++ id.bytes, v) ∈ shortHinted.rows .hintsByValue) ∧
    ∃ pairs : Set (CoinId × Bytes), (∀ p ∈ pairs, 1 ≤ p.2.length ∧ p.2.length ≤ 32) ∧
      shortHinted.rows .hints = {kv | ∃ p ∈ pairs, kv = (p.1.bytes ++ p.2, [])} ∧
      shortHinted.rows .hintsByValue = {kv | ∃ p ∈ pairs, kv = (p.2 ++ p.1.bytes, [])} :=
  operated_shortHinted.hints_mirrored

end DigCoinstore
