import DigCoinstore.StepFacts

/-!
# Opening a store

On the backend of a store that represents `m`, `withConfig` succeeds and the store it opens
represents `m` too, with the same tip and with the unspent set of `m` (`withConfig_spec`). On an
empty backend it opens the blank store (`withConfig_fresh`).
-/

namespace DigCoinstore

theorem mapM_eq_ok {α β : Type} {f : α → Res β} {g : α → β} :
    ∀ (l : List α), (∀ a ∈ l, f a = .ok (g a)) → l.mapM f = .ok (l.map g)
  | [], _ => rfl
  | a :: l, h => by
    rw [List.mapM_cons, h a (.head _), mapM_eq_ok l fun a ha => h a (.tail _ ha)]
    rfl

variable [Chia]

/-! ## Scans -/

omit [Chia] in
/-- **A scan** of a family lists each record whose row starts with `pre` once. -/
theorem Backend.scan_mirrors {b : Backend} (hb : b.Healthy) {cf : ColumnFamily} {m : Coinset}
    (hmir : Mirrors (fun k => (b.tables cf)[k]?) (coinRow cf) m) (pre : Bytes) :
    ∃ l : List (CoinId × CoinRecord),
      b.prefixScan cf pre = .ok (l.map fun x => (coinRow cf x.1 x.2).getD ([], [])) ∧
      (l.map (·.1)).Nodup ∧
      ∀ id rec, (id, rec) ∈ l ↔
        m id = some rec ∧ ∃ k v, coinRow cf id rec = some (k, v) ∧ pre <+: k := by
  have hmem : ∀ kv ∈ (b.tables cf).toList.filter fun kv => pre.isPrefixOf kv.1,
      ∃ x : CoinId × CoinRecord,
        (m x.1 = some x.2 ∧ ∃ k v, coinRow cf x.1 x.2 = some (k, v) ∧ pre <+: k) ∧
          (coinRow cf x.1 x.2).getD ([], []) = kv := fun kv hkv => by
    obtain ⟨hkv, hpre⟩ := List.mem_filter.1 hkv
    obtain ⟨id, rec, hm, hrow⟩ := (hmir kv.1 kv.2).1 (OrdMap.mem_toList.1 hkv)
    exact ⟨(id, rec), ⟨hm, kv.1, kv.2, hrow, List.isPrefixOf_iff_prefix.1 hpre⟩, by simp [hrow]⟩
  obtain ⟨l, hl, hP⟩ := List.exists_map_eq _ hmem
  have hnodup : (l.map (·.1)).Nodup := by
    have hkeys := (OrdMap.nodup_toList (b.tables cf)).filter fun kv => pre.isPrefixOf kv.1
    rw [← hl] at hkeys
    refine (List.Nodup.of_map _ hkeys).map_on fun x hx y hy hid => Prod.ext hid ?_
    have hmx := (hP x hx).1
    rw [hid, (hP y hy).1] at hmx
    exact (Option.some.inj hmx).symm
  refine ⟨l, ?_, hnodup, fun id rec => ⟨hP (id, rec), ?_⟩⟩
  · rw [Backend.prefixScan_of_healthy hb, hl]
  · rintro ⟨hm, k, v, hrow, hpre⟩
    have hkv : (k, v) ∈ (b.tables cf).toList.filter fun kv => pre.isPrefixOf kv.1 :=
      List.mem_filter.2 ⟨OrdMap.mem_toList.2 (hmir.get hm hrow), List.isPrefixOf_iff_prefix.2 hpre⟩
    rw [← hl] at hkv
    obtain ⟨⟨id', rec'⟩, hx, heq⟩ := List.mem_map.1 hkv
    obtain ⟨hm', k', v', hrow', _⟩ := hP _ hx
    rw [hrow', Option.getD_some, Prod.mk.injEq] at heq
    obtain ⟨rfl, rfl⟩ := heq
    obtain rfl := keyedById_coinRow cf hrow hrow'
    obtain rfl : rec = rec' := Option.some.inj (hm.symm.trans hm')
    exact hx

/-! ## What opening reads -/

namespace Backend.CoinRows

open CoinStore

variable {b : Backend} {m : Coinset}

theorem records (h : b.CoinRows m) : ∃ l : List (CoinId × CoinRecord),
    b.prefixScan .coinRecords [] =
      .ok (l.map fun x => (coinKey x.1, serializeCoinRecordStorageBytes x.2)) ∧
    (l.map (·.1)).Nodup ∧ ∀ id rec, (id, rec) ∈ l ↔ m id = some rec := by
  obtain ⟨l, hscan, hnodup, hl⟩ := Backend.scan_mirrors h.healthy h.rows []
  refine ⟨l, hscan, hnodup, fun id rec => (hl id rec).trans (and_iff_left ?_)⟩
  exact ⟨_, _, rfl, List.nil_prefix⟩

theorem rebuildMerkleTree_spec (h : b.CoinRows m) : ∃ tree,
    rebuildMerkleTree b = .ok tree ∧ tree.Coherent ∧
      ∀ id : CoinId, tree.leaves[id]? = (m id).map leafHash := by
  obtain ⟨l, hscan, hnodup, hl⟩ := h.records
  have hentries : (l.map fun x => (coinKey x.1, serializeCoinRecordStorageBytes x.2)).mapM
      (fun (kv : KvPair) => do
        let coinId ← coinIdFromKey kv.1
        return (coinId, merkleLeafHash kv.2)) =
      (.ok (l.map fun x => (x.1, leafHash x.2)) : Res _) := by
    rw [List.mapM_map]
    refine mapM_eq_ok l fun x _ => ?_
    simp [leafHash]
  have hempty : ∀ e ∈ l.map fun x => (x.1, leafHash x.2),
      SparseMerkleTree.new.leaves[e.1]? = none := fun _ _ => Std.ExtTreeMap.getElem?_empty
  have hins := SparseMerkleTree.batchInsert_eq_ok.2 ⟨hempty, rfl⟩
  obtain ⟨_, hleaves, hcoh⟩ := SparseMerkleTree.batchInsert_spec SparseMerkleTree.coherent_new hins
  refine ⟨_, ?_, hcoh, fun id => ?_⟩
  · rw [rebuildMerkleTree, hscan, orStorage_ok, Res.ok_bind, hentries, Res.ok_bind,
      Res.pure_eq, SparseMerkleTree.insert_guard, hins, orMerkle_ok]
  · rw [hleaves]
    exact OrdMap.getElem?_insertAll_graph hnodup hl leafHash id

theorem foldl_rows (h : b.CoinRows m) {β : Type} (f : β → CoinRecord → β) :
    ∀ (l : List (CoinId × CoinRecord)) (acc : β), (∀ x ∈ l, m x.1 = some x.2) →
    (l.map fun x => (coinKey x.1, serializeCoinRecordStorageBytes x.2)).foldl
      (fun acc (kv : KvPair) =>
        match decodeCoinRecordBytes kv.2 with
        | some rec => f acc rec
        | none => acc) acc = l.foldl (fun acc x => f acc x.2) acc
  | [], _, _ => rfl
  | x :: l, acc, hx => by
    have hdec := decode_serialize (h.storable (hx x (.head _)))
    rw [List.map_cons, List.foldl_cons, h.foldl_rows f l _ fun y hy => hx y (.tail _ hy)]
    simp [hdec]

theorem rebuildUnspentIds_spec (h : b.CoinRows m) :
    ∃ ids, rebuildUnspentIdsFromBackend b = .ok ids ∧
      ∀ id, id ∈ ids ↔ ∃ rec, m id = some rec ∧ rec.spentHeight = none := by
  obtain ⟨l, hscan, _, hl⟩ := h.records
  have hrows := h.foldl_rows
    (fun (set : Finset CoinId) rec =>
      if rec.spentHeight.isNone then insert rec.coinId set else set) l ∅
    fun x hx => (hl _ _).1 hx
  have hrebuild : rebuildUnspentIdsFromBackend b = .ok (l.foldl (fun set x =>
      if x.2.spentHeight.isNone then insert x.2.coinId set else set) ∅) := by
    rw [rebuildUnspentIdsFromBackend, hscan]
    exact congrArg Except.ok hrows
  refine ⟨_, hrebuild, fun id => ?_⟩
  have hfold : ∀ (l' : List (CoinId × CoinRecord)) (set : Finset CoinId),
      (∀ x ∈ l', m x.1 = some x.2) →
      (id ∈ l'.foldl
          (fun set x => if x.2.spentHeight.isNone then insert x.2.coinId set else set) set ↔
        id ∈ set ∨ ∃ x ∈ l', x.1 = id ∧ x.2.spentHeight = none) := by
    intro l'
    induction l' with
    | nil => simp
    | cons x l' ih =>
      intro set hx
      have hid := h.ids (hx x (.head _))
      rw [List.foldl_cons, ih _ fun y hy => hx y (.tail _ hy)]
      cases hs : x.2.spentHeight <;> simp [hs, hid, eq_comm (a := id), or_assoc, or_left_comm]
  refine (hfold l ∅ fun x hx => (hl _ _).1 hx).trans ?_
  constructor
  · rintro (hmem | ⟨⟨id', rec⟩, hx, rfl, hs⟩)
    · simp at hmem
    · exact ⟨rec, (hl _ _).1 hx, hs⟩
  · rintro ⟨rec, hm, hs⟩
    exact .inr ⟨(id, rec), (hl _ _).2 hm, rfl, hs⟩

/-- **What a store opens with** on these rows: without the marker nothing is rebuilt. -/
theorem withConfig_eq (h : b.CoinRows m) {tipHash : Bytes32}
    (htip : metaHash ((b.tables .metadata)[metaTipHash]?) = .ok tipHash) (config : CoinStoreConfig) :
    ∃ tree ids, withConfig config b = .ok {
        config, backend := b
        merkleTree := if ((b.tables .metadata)[metaInitialized]?).isSome then tree else .new
        height := metaU64 ((b.tables .metadata)[metaHeight]?), tipHash
        timestamp := metaU64 ((b.tables .metadata)[metaTimestamp]?)
        initialized := ((b.tables .metadata)[metaInitialized]?).isSome
        unspentIds := if ((b.tables .metadata)[metaInitialized]?).isSome then ids else ∅ } ∧
      tree.Coherent ∧ (∀ id : CoinId, tree.leaves[id]? = (m id).map leafHash) ∧
      ∀ id, id ∈ ids ↔ ∃ rec, m id = some rec ∧ rec.spentHeight = none := by
  obtain ⟨tree, htree, hcoh, hleaves⟩ := h.rebuildMerkleTree_spec
  obtain ⟨ids, hids, hunspent⟩ := h.rebuildUnspentIds_spec
  refine ⟨tree, ids, ?_, hcoh, hleaves, hunspent⟩
  simp only [withConfig, Backend.get_of_healthy h.healthy, orStorage_ok, Res.ok_bind, htip]
  cases ((b.tables .metadata)[metaInitialized]?).isSome <;> simp [htree, hids]

end Backend.CoinRows

/-! ## Opening a store that represents a coin set -/

namespace CoinStore

/-- The in-memory fields of the tip agree. -/
def SameTip (s s' : CoinStore) : Prop :=
  s'.initialized = s.initialized ∧ s'.height = s.height ∧ s'.tipHash = s.tipHash ∧
    s'.timestamp = s.timestamp

namespace Represents

variable {S : Scope} {s : CoinStore} {m : Coinset}

/-- A store on the same rows with the same tip and the same leaves. -/
theorem transfer (h : s.Represents S m) {s' : CoinStore} (htip : s.SameTip s')
    (hbackend : s'.backend = s.backend) (hcoh : s'.merkleTree.Coherent)
    (hleaves : ∀ id : CoinId, s'.merkleTree.leaves[id]? = s.merkleTree.leaves[id]?)
    (hunspent : s.initialized = false → s'.unspentIds = ∅) : s'.Represents S m := by
  obtain ⟨hinit, hheight, hhash, htime⟩ := htip
  exact {
    healthy := hbackend ▸ h.healthy
    rows := hbackend ▸ h.rows
    leaves := fun id => (hleaves id).trans (h.leaves id)
    coherent := hcoh
    tip := by
      obtain ⟨h1, h2, h3, h4⟩ := h.tip
      constructor <;> rw [hbackend] <;> simp_all
    ids := h.ids
    coins := h.coins
    lives := hheight ▸ h.lives
    filled := hheight ▸ h.filled
    blank := fun hb => by
      obtain ⟨hm, hh, ht, hts, _⟩ := h.blank (hinit ▸ hb)
      exact ⟨hm, by rw [hheight, hh], by rw [hhash, ht], by rw [htime, hts],
        hunspent (hinit ▸ hb)⟩ }

/-- **Opening again** gives a store of the same coin set and tip, with its unspent set. -/
theorem withConfig_spec (h : s.Represents S m) (config : CoinStoreConfig) :
    ∃ s', withConfig config s.backend = .ok s' ∧ s'.Represents S m ∧ s'.UnspentExact m ∧
      s.SameTip s' := by
  obtain ⟨tree, ids, hopen, hcoh, hleaves, hunspent⟩ := h.coinRows.withConfig_eq h.tip.tipHash config
  rw [h.tip.initialized, h.tip.height, h.tip.timestamp] at hopen
  have hblank : s.initialized = false → ∀ id, m id = none := fun hinit id => by
    rw [(h.blank hinit).1]
    rfl
  refine ⟨_, hopen, h.transfer ⟨rfl, rfl, rfl, rfl⟩ rfl ?_ (fun id => ?_) (fun hinit => ?_),
    fun id => ?_, rfl, rfl, rfl, rfl⟩
  · cases s.initialized with
    | true => exact hcoh
    | false => exact SparseMerkleTree.coherent_new
  · rw [h.leaves id]
    cases hinit : s.initialized with
    | true => exact hleaves id
    | false => simp [SparseMerkleTree.new, hblank hinit]
  · simp [hinit]
  · cases hinit : s.initialized with
    | true => exact hunspent id
    | false => simp [hblank hinit]

end Represents

/-- The store on an empty backend. -/
def blank (config : CoinStoreConfig) : CoinStore where
  config := config
  backend := .fresh
  merkleTree := .new
  height := 0
  tipHash := .zero
  timestamp := 0
  initialized := false
  unspentIds := ∅

theorem withConfig_fresh_eq (config : CoinStoreConfig) : withConfig config .fresh = .ok (blank config) := by
  have hget : ∀ cf key, Backend.fresh.get cf key = .ok none := fun cf key => by
    rw [Backend.get_of_healthy Backend.healthy_fresh]
    simp [Backend.fresh, Tables.empty]
  simp [withConfig, hget, metaU64, metaHash, blank]

theorem withConfig_fresh {S : Scope} {config : CoinStoreConfig} {s : CoinStore}
    (h : withConfig config .fresh = .ok s) :
    s.Represents S .empty ∧ s.UnspentExact .empty ∧ s.initialized = false := by
  obtain rfl := Except.ok.inj (h.symm.trans (withConfig_fresh_eq config))
  refine ⟨?_, by simp [UnspentExact, Coinset.empty, blank], rfl⟩
  exact {
    healthy := Backend.healthy_fresh
    rows := .blank fun _ _ _ => Std.ExtTreeMap.getElem?_empty
    leaves := fun id => by simp [blank, SparseMerkleTree.new, Coinset.empty]
    coherent := SparseMerkleTree.coherent_new
    tip := by constructor <;> simp [blank, Backend.fresh, Tables.empty, metaU64, metaHash]
    ids := by simp [Coinset.empty]
    coins := by simp [Coinset.empty]
    lives := by constructor <;> simp [Coinset.empty]
    filled := fun h hpos hle => by
      simp [CoinStore.blank] at hle
      omega
    blank := by simp [CoinStore.blank] }

end CoinStore

end DigCoinstore
