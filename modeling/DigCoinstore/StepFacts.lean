import DigCoinstore.Lib.Crash
import DigCoinstore.Represents

/-!
# Facts shared by the writers

A loop that stages one group of operations per coin, applied to the tables, applies the groups one
after the other (`applyOps_stageAll`). A run of creations and a run of spends follow the coin set
(`Indexes.createAll`, `Indexes.spendAll`), the Merkle entries follow it too (`leaves_putAll`), and
the tip rows are read back (`tipStored_stageTip`).
-/

namespace DigCoinstore

/-! ## Staging loops -/

section stage
variable {α : Type} {stage : WriteBatch → α → WriteBatch}

theorem ops_stageAll (hstage : ∀ batch a, (stage batch a).ops = batch.ops ++ (stage .new a).ops) :
    ∀ (l : List α) (batch : WriteBatch),
    (l.foldl stage batch).ops = batch.ops ++ (l.foldl stage .new).ops
  | [], batch => by simp
  | a :: l, batch => by
    rw [List.foldl_cons, List.foldl_cons, ops_stageAll hstage l (stage batch a),
      ops_stageAll hstage l (stage .new a), hstage batch a, List.append_assoc]

theorem applyOps_stageAll (hstage : ∀ batch a, (stage batch a).ops = batch.ops ++ (stage .new a).ops)
    (t : Tables) (a : α) (l : List α) :
    t.applyOps ((a :: l).foldl stage .new).ops =
      (t.applyOps (stage .new a).ops).applyOps (l.foldl stage .new).ops := by
  rw [List.foldl_cons, ops_stageAll hstage l, Tables.applyOps_append]

/-- A loop none of whose groups writes `cf` leaves `cf` as it is. -/
theorem applyOps_stageAll_other (hstage : ∀ batch a, (stage batch a).ops = batch.ops ++ (stage .new a).ops)
    {cf : ColumnFamily} (hcf : ∀ a, cf ∉ (stage .new a).ops.map Tables.opCf) :
    ∀ (l : List α) (t : Tables), t.applyOps (l.foldl stage .new).ops cf = t cf
  | [], t => rfl
  | a :: l, t => by
    rw [applyOps_stageAll hstage, applyOps_stageAll_other hstage hcf l,
      Tables.applyOps_other _ _ (hcf a)]

/-- What is closed under appending and holds of every group holds of the whole loop. -/
theorem ops_stageAll_inv {K : List WriteOp → Prop}
    (happend : ∀ {ops ops'}, K ops → K ops' → K (ops ++ ops'))
    (hstage : ∀ batch a, (stage batch a).ops = batch.ops ++ (stage .new a).ops) (l : List α)
    (hl : ∀ a ∈ l, K (stage .new a).ops) {batch : WriteBatch} (hbatch : K batch.ops) :
    K (l.foldl stage batch).ops := by
  refine foldl_inv (I := fun batch : WriteBatch => K batch.ops) hbatch fun batch a ha hops => ?_
  rw [hstage]
  exact happend hops (hl a ha)

/-- The families a loop writes. -/
theorem ops_stageAll_cfs {P : ColumnFamily → Prop}
    (hstage : ∀ batch a, (stage batch a).ops = batch.ops ++ (stage .new a).ops) (l : List α)
    (hl : ∀ a ∈ l, ∀ op ∈ (stage .new a).ops, P (Tables.opCf op)) {batch : WriteBatch}
    (hbatch : ∀ op ∈ batch.ops, P (Tables.opCf op)) :
    ∀ op ∈ (l.foldl stage batch).ops, P (Tables.opCf op) :=
  ops_stageAll_inv (K := fun ops => ∀ op ∈ ops, P (Tables.opCf op))
    (fun hops hops' op hop => (List.mem_append.1 hop).elim (hops op) (hops' op)) hstage l hl hbatch

end stage

/-! ## In-memory sets -/

/-- The members of a set that a loop inserts into. -/
theorem mem_foldl_insert {α β : Type} [DecidableEq β] (f : α → β) {b : β} :
    ∀ (l : List α) (set : Finset β),
    b ∈ l.foldl (fun set a => insert (f a) set) set ↔ b ∈ set ∨ ∃ a ∈ l, f a = b
  | [], set => by simp
  | a :: l, set => by
    rw [List.foldl_cons, mem_foldl_insert f l]
    simp [eq_comm (a := b), or_assoc, or_left_comm]

/-- The members of a set that a loop erases from. -/
theorem mem_foldl_erase {α : Type} [DecidableEq α] {a : α} : ∀ (l : List α) (set : Finset α),
    a ∈ l.foldl (fun set a => set.erase a) set ↔ a ∈ set ∧ a ∉ l
  | [], set => by simp
  | b :: l, set => by
    rw [List.foldl_cons, mem_foldl_erase l]
    simp [and_assoc, and_left_comm]

/-! ## Coins -/

variable [Chia]

/-- `old` and `rec` have their rows under the same keys: one id, one life. -/
def Scope.Alike (S : Scope) (old rec : CoinRecord) : Prop :=
  old.coin ∈ S.coins ∧ old.coinId = rec.coinId ∧ old.confirmedHeight = rec.confirmedHeight ∧
    old.spentHeight = rec.spentHeight

/-- **A run of creations** puts its records. -/
theorem Indexes.createAll {S : Scope} : ∀ (recs : List CoinRecord) {t : Tables} {m : Coinset},
    Indexes S.cfs t m → (∀ rec ∈ recs, rec.coin ∈ S.coins) →
    (∀ rec ∈ recs, ∀ old, m rec.coinId = some old → S.Alike old rec) →
    (∀ rec ∈ recs, ∀ rec' ∈ recs, rec.coinId = rec'.coinId → S.Alike rec rec') →
    Indexes S.cfs (t.applyOps (recs.foldl stageCreation .new).ops) (m.putAll recs)
  | [], _, _, h, _, _, _ => h
  | rec :: recs, t, m, h, hcoins, hold, hrecs => by
    rw [applyOps_stageAll ops_stageCreation, Coinset.putAll_cons]
    have hstep : Indexes S.cfs (t.applyOps (stageCreation .new rec).ops) (m.put rec) := by
      refine h.create fun old hm cf hcf => ?_
      obtain ⟨hc, hid, hconf, hspent⟩ := hold rec (.head _) old hm
      exact S.same_keys hc (hcoins rec (.head _)) hid hconf hspent cf hcf
    refine createAll recs hstep (fun r hr => hcoins r (.tail _ hr)) (fun r hr old hm => ?_)
      (fun r hr r' hr' => hrecs r (.tail _ hr) r' (.tail _ hr'))
    -- the record of an id is the one just put, or one from before
    by_cases hid : r.coinId = rec.coinId
    · rw [hid, Coinset.put_self] at hm
      obtain rfl := Option.some.inj hm
      exact hrecs rec (.head _) r (.tail _ hr) hid.symm
    · rw [Coinset.put_of_ne _ hid] at hm
      exact hold r (.tail _ hr) old hm

/-- **A run of spends** at one height puts the spent records; a record may be listed twice. -/
theorem Indexes.spendAll {cfs : List ColumnFamily} {height : UInt64} (base : Coinset) :
    ∀ (removed : List CoinRecord) {t : Tables} {m : Coinset}, Indexes cfs t m →
    (∀ rec ∈ removed, base rec.coinId = some rec ∧ rec.spentHeight = none) →
    (∀ rec ∈ removed, m rec.coinId = some rec ∨ m rec.coinId = some (rec.spend height)) →
    Indexes cfs (t.applyOps ((removed.map (·.spend height)).foldl (stageSpend height) .new).ops)
      (m.putAll (removed.map (·.spend height)))
  | [], _, _, h, _, _ => h
  | rec :: removed, t, m, h, hbase, hm => by
    rw [List.map_cons, applyOps_stageAll (ops_stageSpend height), Coinset.putAll_cons]
    obtain ⟨hrec, hlive⟩ := hbase rec (.head _)
    have hstep : Indexes cfs (t.applyOps (stageSpend height .new (rec.spend height)).ops)
        (m.put (rec.spend height)) := by
      rcases hm rec (.head _) with hold | hold
      · exact h.spend hold rfl rfl rfl fun sh hs => by simp [hlive] at hs
      · exact h.spend hold rfl rfl rfl fun sh hs => (Option.some.inj hs).symm
    refine spendAll base removed hstep (fun r hr => hbase r (.tail _ hr)) fun r hr => ?_
    by_cases hid : r.coinId = rec.coinId
    · obtain rfl : r = rec := by
        have := (hbase r (.tail _ hr)).1
        rw [hid, hrec] at this
        exact (Option.some.inj this).symm
      exact .inr (Coinset.put_self m (r.spend height))
    · have hne : m.put (rec.spend height) r.coinId = m r.coinId := Coinset.put_of_ne _ hid
      rw [hne]
      exact hm r (.tail _ hr)

/-- The leaves follow the coin set. -/
theorem leaves_putAll : ∀ (recs : List CoinRecord) {leaves : IdMap Bytes32} {m : Coinset},
    (∀ id : CoinId, leaves[id]? = (m id).map CoinStore.leafHash) →
    ∀ id : CoinId, (OrdMap.insertAll leaves (recs.map merkleEntry))[id]? =
      (m.putAll recs id).map CoinStore.leafHash
  | [], _, _, h => h
  | rec :: recs, leaves, m, h => by
    refine leaves_putAll recs fun id => ?_
    rw [merkleEntry, OrdMap.getElem?_insert]
    by_cases hid : rec.coinId = id
    · subst hid
      rw [if_pos rfl, Coinset.put_self]
      rfl
    · rw [if_neg hid, h id, Coinset.put_of_ne _ (Ne.symm hid)]

/-! ## The chain tip -/

omit [Chia] in
theorem ops_stageTip (batch : WriteBatch) (height : UInt64) (tipHash : Bytes32) (timestamp : UInt64) :
    (stageTip batch height tipHash timestamp).ops =
      batch.ops ++ (stageTip .new height tipHash timestamp).ops := by
  simp [stageTip]

omit [Chia] in
theorem stageTip_other (t : Tables) {height timestamp : UInt64} {tipHash : Bytes32}
    {cf : ColumnFamily} (hcf : cf ≠ .metadata) :
    t.applyOps (stageTip .new height tipHash timestamp).ops cf = t cf := by
  refine Tables.applyOps_other _ _ ?_
  simp [stageTip, Tables.opCf, hcf]

omit [Chia] in
/-- The tip rows are read back. -/
theorem CoinStore.tipStored_stageTip {s : CoinStore} {t : Tables}
    (htables : s.backend.tables = t.applyOps (stageTip .new s.height s.tipHash s.timestamp).ops)
    (hinit : ((t .metadata)[metaInitialized]?).isSome = s.initialized) : s.TipStored where
  initialized := by
    rw [htables, ← hinit]
    simp [stageTip, Tables.applyOp, Tables.put_get, metaHeight, metaTipHash, metaTimestamp,
      metaInitialized]
  height := by
    rw [htables]
    simp [stageTip, Tables.applyOp, Tables.put_get, metaHeight, metaTipHash, metaTimestamp, metaU64]
  tipHash := by
    rw [htables]
    simp [stageTip, Tables.applyOp, Tables.put_get, metaHeight, metaTipHash, metaTimestamp, metaHash]
  timestamp := by
    rw [htables]
    simp [stageTip, Tables.applyOp, Tables.put_get, metaTimestamp, metaU64]

omit [Chia] in
/-- The families of a scope's rows do not see the tip rows. -/
theorem Indexes.congr {cfs : List ColumnFamily} {t t' : Tables} {m : Coinset} (h : Indexes cfs t m)
    (ht : ∀ cf ∈ cfs, t' cf = t cf) : Indexes cfs t' m := fun cf hcf => by
  simpa only [ht cf hcf] using h cf hcf

end DigCoinstore
