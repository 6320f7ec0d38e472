import DigCoinstore.RollbackFacts

/-!
# Rolling back

On a store of the coin set `m` a rollback that passes its checks and lies below the tip cannot
fail, and the store it leaves represents `m` cut back to the target (`rollbackToBlock_outcome`).
-/

namespace DigCoinstore

/-- `del` lists the records confirmed above the target. -/
structure Deleted (m : Coinset) (target : UInt64) (del : List (CoinId × CoinRecord)) : Prop where
  nodup : (del.map (·.1)).Nodup
  mem : ∀ id rec, (id, rec) ∈ del ↔ m id = some rec ∧ target < rec.confirmedHeight

/-- `rev` lists the records confirmed by the target and spent above it. -/
structure Revived (m : Coinset) (target : UInt64) (rev : List (CoinId × CoinRecord)) : Prop where
  nodup : (rev.map (·.1)).Nodup
  mem : ∀ id rec, (id, rec) ∈ rev ↔ m id = some rec ∧ rec.confirmedHeight ≤ target ∧
    ∃ sh, rec.spentHeight = some sh ∧ target < sh

/-! ## The rows -/

namespace Indexes

variable {cfs : List ColumnFamily}

theorem ops_stageDeleted (batch : WriteBatch) (x : CoinId × CoinRecord) :
    (CoinStore.stageDeleted batch x).ops = batch.ops ++ (CoinStore.stageDeleted .new x).ops :=
  ops_stageDeletion batch x.1 x.2

/-- **A run of deletions** leads to any coin set without the deleted ids. -/
theorem deleteAll {m' : Coinset} : ∀ (l : List (CoinId × CoinRecord)) {t : Tables} {m : Coinset},
    Indexes cfs t m → (l.map (·.1)).Nodup → (∀ x ∈ l, m x.1 = some x.2 ∧ m' x.1 = none) →
    (∀ id, id ∉ l.map (·.1) → m' id = m id) →
    Indexes cfs (t.applyOps (l.foldl CoinStore.stageDeleted .new).ops) m'
  | [], t, m, h, _, _, hrest => by
    obtain rfl : m' = m := funext fun id => hrest id (by simp)
    exact h
  | x :: l, t, m, h, hnd, hl, hrest => by
    rw [applyOps_stageAll ops_stageDeleted]
    rw [List.map_cons, List.nodup_cons] at hnd
    obtain ⟨hm, hm'⟩ := hl x (.head _)
    have hold : ∀ old, m x.1 = some old → old = x.2 := fun old hold =>
      Option.some.inj (hold.symm.trans hm)
    have hstep := h.delete hold
    refine hstep.deleteAll l hnd.2 (fun y hy => ?_) fun id hid => ?_
    · have hne : y.1 ≠ x.1 := fun heq => hnd.1 (heq ▸ List.mem_map_of_mem hy)
      rw [Function.update_of_ne hne]
      exact hl y (.tail _ hy)
    · by_cases heq : id = x.1
      · rw [heq, Function.update_self, hm']
      · rw [Function.update_of_ne heq]
        exact hrest id (by simp [heq, hid])

theorem ops_stageSpent (base : Coinset) (target : UInt64) (batch : WriteBatch)
    (x : CoinId × CoinRecord) :
    (CoinStore.stageSpent base target batch x).ops =
      batch.ops ++ (CoinStore.stageSpent base target .new x).ops := by
  unfold CoinStore.stageSpent
  split
  · simp
  · exact ops_stageUnspend ..

/-- **Pass two** leads to any coin set where the listed records are revived or stay deleted. -/
theorem spentAll {base m' : Coinset} {target : UInt64} :
    ∀ (l : List (CoinId × CoinRecord)) {t : Tables} {m : Coinset},
    Indexes cfs t m → (l.map (·.1)).Nodup →
    (∀ x ∈ l, (∃ sh, x.2.spentHeight = some sh) ∧
      if target < x.2.confirmedHeight then m x.1 = none ∧ m' x.1 = none
      else m x.1 = some x.2 ∧ m' x.1 = some (base.revive x.2)) →
    (∀ id, id ∉ l.map (·.1) → m' id = m id) →
    Indexes cfs (t.applyOps (l.foldl (CoinStore.stageSpent base target) .new).ops) m'
  | [], t, m, h, _, _, hrest => by
    obtain rfl : m' = m := funext fun id => hrest id (by simp)
    exact h
  | x :: l, t, m, h, hnd, hl, hrest => by
    rw [applyOps_stageAll (ops_stageSpent base target)]
    rw [List.map_cons, List.nodup_cons] at hnd
    obtain ⟨⟨sh, hsh⟩, hx⟩ := hl x (.head _)
    have hkey : CoinStore.spentKey x = heightCoinKey sh x.1 := by
      rw [CoinStore.spentKey, hsh, Option.getD_some]
    by_cases hlt : target < x.2.confirmedHeight
    · rw [if_pos hlt] at hx
      have hstep : Indexes cfs (t.applyOps (CoinStore.stageSpent base target .new x).ops) m := by
        rw [CoinStore.stageSpent, if_pos hlt, hkey]
        exact h.skip fun rec hrec => by simp [hx.1] at hrec
      refine hstep.spentAll l hnd.2 (fun y hy => hl y (.tail _ hy)) fun id hid => ?_
      by_cases heq : id = x.1
      · rw [heq, hx.1, hx.2]
      · exact hrest id (by simp [heq, hid])
    · rw [if_neg hlt] at hx
      have hstep : Indexes cfs (t.applyOps (CoinStore.stageSpent base target .new x).ops)
          (Function.update m x.1 (some (base.revive x.2))) := by
        rw [CoinStore.stageSpent, if_neg hlt, hkey]
        exact h.unspend hx.1 rfl rfl hsh rfl
      refine hstep.spentAll l hnd.2 (fun y hy => ?_) fun id hid => ?_
      · have hne : y.1 ≠ x.1 := fun heq => hnd.1 (heq ▸ List.mem_map_of_mem hy)
        rw [Function.update_of_ne hne]
        exact hl y (.tail _ hy)
      · by_cases heq : id = x.1
        · rw [heq, Function.update_self, hx.2]
        · rw [Function.update_of_ne heq]
          exact hrest id (by simp [heq, hid])

/-- **The whole rollback batch**: deletions, hint clean-up, pass two. -/
theorem rollback {t : Tables} {m : Coinset} {target : UInt64} {del spent : List (CoinId × CoinRecord)}
    {hints : List WriteOp} (h : Indexes cfs t m) (hcfs : ∀ cf ∈ cfs, cf ∈ coinFamilies)
    (hdel : Deleted m target del) (hnd : (spent.map (·.1)).Nodup)
    (hspent : ∀ id rec, (id, rec) ∈ spent ↔
      m id = some rec ∧ ∃ sh, rec.spentHeight = some sh ∧ target < sh)
    (hhints : ∀ op ∈ hints, Tables.opCf op ∈ CoinStore.hintFamilies) :
    Indexes cfs (t.applyOps (spent.foldl (CoinStore.stageSpent m target)
      ⟨(del.foldl CoinStore.stageDeleted .new).ops ++ hints⟩).ops) (m.rollback target) := by
  have hpass : Indexes cfs (t.applyOps (del.foldl CoinStore.stageDeleted .new).ops)
      (m.confirmedBy target) := by
    refine h.deleteAll del hdel.nodup (fun x hx => ?_) fun id hid => ?_
    · obtain ⟨hm, hlt⟩ := (hdel.mem x.1 x.2).1 hx
      exact ⟨hm, Coinset.confirmedBy_of_lt hm hlt⟩
    · cases hm : m id with
      | none => exact Coinset.confirmedBy_of_none hm
      | some rec =>
        have hle : rec.confirmedHeight ≤ target := UInt64.not_lt.1 fun hlt =>
          hid (List.mem_map.2 ⟨_, (hdel.mem id rec).2 ⟨hm, hlt⟩, rfl⟩)
        exact Coinset.confirmedBy_of_le hm hle
  have hclean : Indexes cfs ((t.applyOps (del.foldl CoinStore.stageDeleted .new).ops).applyOps hints)
      (m.confirmedBy target) := by
    refine hpass.congr fun cf hcf => Tables.applyOps_other _ _ fun hmem => ?_
    obtain ⟨op, hop, rfl⟩ := List.mem_map.1 hmem
    obtain ⟨hh, hv, _⟩ := ne_of_mem_coinFamilies (hcfs _ hcf)
    have hmem := hhints op hop
    simp [CoinStore.hintFamilies, hh, hv] at hmem
  rw [ops_stageAll (ops_stageSpent m target), Tables.applyOps_append, Tables.applyOps_append]
  refine hclean.spentAll spent hnd (fun x hx => ?_) fun id hid => ?_
  · obtain ⟨hm, sh, hsh, hlt⟩ := (hspent x.1 x.2).1 hx
    refine ⟨⟨sh, hsh⟩, ?_⟩
    by_cases hconf : target < x.2.confirmedHeight
    · rw [if_pos hconf]
      exact ⟨Coinset.confirmedBy_of_lt hm hconf, Coinset.rollback_of_deleted hm hconf⟩
    · rw [if_neg hconf]
      have hle := UInt64.not_lt.1 hconf
      exact ⟨Coinset.confirmedBy_of_le hm hle, Coinset.rollback_of_revived hm hle hsh hlt⟩
  · cases hm : m id with
    | none => rw [Coinset.rollback_of_none hm, Coinset.confirmedBy_of_none hm]
    | some rec =>
      by_cases hconf : target < rec.confirmedHeight
      · rw [Coinset.rollback_of_deleted hm hconf, Coinset.confirmedBy_of_lt hm hconf]
      · have hle := UInt64.not_lt.1 hconf
        have hkept := Coinset.rollback_of_kept hm hle fun sh hsh => UInt64.not_lt.1 fun hlt =>
          hid (List.mem_map.2 ⟨_, (hspent id rec).2 ⟨hm, sh, hsh, hlt⟩, rfl⟩)
        rw [hkept, Coinset.confirmedBy_of_le hm hle]

theorem rollback_metadata (t : Tables) (m : Coinset) (target : UInt64)
    (del spent : List (CoinId × CoinRecord)) {hints : List WriteOp}
    (hhints : ∀ op ∈ hints, Tables.opCf op ∈ CoinStore.hintFamilies) :
    t.applyOps (spent.foldl (CoinStore.stageSpent m target)
      ⟨(del.foldl CoinStore.stageDeleted .new).ops ++ hints⟩).ops .metadata = t .metadata := by
  rw [ops_stageAll (ops_stageSpent m target), Tables.applyOps_append, Tables.applyOps_append,
    applyOps_stageAll_other (ops_stageSpent m target) fun x => ?_, Tables.applyOps_other _ _ ?_,
    applyOps_stageAll_other ops_stageDeleted fun x => ?_]
  · cases hs : x.2.spentHeight <;> simp [CoinStore.stageDeleted, stageDeletion, hs, Tables.opCf]
  · intro hmem
    obtain ⟨op, hop, heq⟩ := List.mem_map.1 hmem
    have := hhints op hop
    simp [heq, CoinStore.hintFamilies] at this
  · unfold CoinStore.stageSpent
    split <;> simp [stageUnspend, Tables.opCf]

end Indexes

variable [Chia]

namespace CoinStore

variable {S : Scope} {s : CoinStore} {m : Coinset}

/-- **What the two passes accumulate.** -/
theorem Represents.stageRollback_spec (h : s.Represents S m) (target : UInt64) :
    ∃ acc del rev, s.stageRollback target = .ok acc ∧ Deleted m target del ∧ Revived m target rev ∧
      acc.modifiedCoins = OrdMap.insertAll (OrdMap.insertAll ∅ del) rev ∧
      acc.coinsDeleted = del.length ∧ acc.coinsUnspent = rev.length ∧
      acc.merkleRemovals = del.map (·.1) ∧ acc.merkleUpdates = rev.map (revivedEntry m) ∧
      Indexes S.cfs (s.backend.tables.applyOps acc.batch.ops) (m.rollback target) ∧
      s.backend.tables.applyOps acc.batch.ops .metadata = s.backend.tables .metadata := by
  -- the two scans
  obtain ⟨del, hdel, hmem, hfold⟩ := h.scanAbove_eq .coinByConfirmedHeight
    (fun rec => some rec.confirmedHeight) (S.life_sub _ (by simp [lifeFamilies]))
    (fun _ _ => rfl) (fun id rec t hm ht => Option.some.inj ht ▸ h.lives.confirmed_le hm) target
  obtain ⟨spent, hspent, hmem', hfold'⟩ := h.scanAbove_eq .coinBySpentHeight
    CoinRecord.spentHeight (S.life_sub _ (by simp [lifeFamilies]))
    (fun _ _ => rfl) (fun id rec t hm ht => (h.lives.spent hm ht).2) target
  have hD : Deleted m target del := ⟨hdel, fun id rec => by simp [hmem]⟩
  have hR : Revived m target (spent.filter fun x => x.2.confirmedHeight ≤ target) := by
    refine ⟨(List.Sublist.map _ List.filter_sublist).nodup hspent, fun id rec => ?_⟩
    rw [List.mem_filter, hmem', decide_eq_true_eq, and_assoc]
    exact and_congr_right fun _ => and_comm
  -- pass two meets the ids of pass one in the map
  have hknown : ∀ x ∈ spent, (OrdMap.insertAll ∅ del).contains x.1 =
      decide (target < x.2.confirmedHeight) := fun x hx => by
    rw [OrdMap.contains_insertAll, decide_eq_decide, List.mem_map]
    have hm := ((hmem' x.1 x.2).1 hx).1
    constructor
    · rintro ⟨y, hy, hid⟩
      obtain ⟨hm', hlt⟩ := (hD.mem y.1 y.2).1 hy
      rw [hid, hm] at hm'
      rwa [Option.some.inj hm']
    · exact fun hlt => ⟨x, (hD.mem x.1 x.2).2 ⟨hm, hlt⟩, rfl⟩
  obtain ⟨hints, hhints, hcf⟩ := foldlM_deleteHints h.healthy
    (deletedIds target (del.foldl deleteStep .start)) (del.foldl deleteStep .start)
  have hpass : s.stageRollback target = .ok (spent.foldl (unspendStep m)
      { del.foldl deleteStep .start with
        batch := ⟨(del.foldl deleteStep .start).batch.ops ++ hints⟩ }) := by
    rw [stageRollback, hfold s.deleteConfirmed deleteStep .start
      fun acc x t hm _ => h.deleteConfirmed_eq acc t hm, Res.ok_bind, hhints, Res.ok_bind]
    exact hfold' s.unspendEntry (unspendStep m) _ fun acc x t hm ht => h.unspendEntry_eq acc hm ht
  rw [foldl_deleteStep] at hpass
  have hfinal := foldl_unspendStep m target spent {
    RollbackAcc.start with
    modifiedCoins := OrdMap.insertAll ∅ del
    coinsDeleted := 0 + del.length
    batch := ⟨(del.foldl stageDeleted .new).ops ++ hints⟩
    merkleRemovals := [] ++ del.map (·.1) } hspent hknown
  refine ⟨_, del, _, hpass.trans (congrArg Except.ok hfinal), hD, hR, rfl, Nat.zero_add _,
    Nat.zero_add _, rfl, rfl, ?_, ?_⟩
  · exact h.rows.rollback S.sub_coin hD hspent hmem' hcf
  · exact Indexes.rollback_metadata _ m target del spent hcf

/-! ## The tree -/

/-- Neither tree operation of a rollback can fail. -/
theorem Represents.treeRollback (h : s.Represents S m) {target : UInt64}
    {del rev : List (CoinId × CoinRecord)} (hD : Deleted m target del) (hR : Revived m target rev) :
    ∃ removed tree, s.merkleTree.batchRemove (del.map (·.1)) = .ok removed ∧
      removed.batchUpdate (rev.map (revivedEntry m)) = .ok tree ∧ TreeOf tree (m.rollback target) := by
  obtain ⟨removed, hrem⟩ : ∃ t, s.merkleTree.batchRemove (del.map (·.1)) = .ok t := by
    refine ⟨_, SparseMerkleTree.batchRemove_eq_ok.2 ⟨fun id hid => ?_, rfl⟩⟩
    obtain ⟨x, hx, rfl⟩ := List.mem_map.1 hid
    simp [h.leaves, ((hD.mem x.1 x.2).1 hx).1]
  obtain ⟨_, hleaves, hcoh⟩ := SparseMerkleTree.batchRemove_spec h.coherent hrem
  have hremoved : ∀ id : CoinId, removed.leaves[id]? = (m.confirmedBy target id).map leafHash :=
    fun id => by
    rw [hleaves, OrdMap.getElem?_eraseAll, h.leaves]
    cases hm : m id with
    | none => simp [Coinset.confirmedBy_of_none hm]
    | some rec =>
      by_cases hconf : target < rec.confirmedHeight
      · rw [if_pos (List.mem_map.2 ⟨_, (hD.mem id rec).2 ⟨hm, hconf⟩, rfl⟩),
          Coinset.confirmedBy_of_lt hm hconf, Option.map_none]
      · rw [if_neg fun hid => ?_, Coinset.confirmedBy_of_le hm (UInt64.not_lt.1 hconf)]
        obtain ⟨⟨id', rec'⟩, hx, rfl⟩ := List.mem_map.1 hid
        obtain ⟨hm', hlt⟩ := (hD.mem id' rec').1 hx
        obtain rfl := Option.some.inj (hm.symm.trans hm')
        exact hconf hlt
  obtain ⟨tree, hupd⟩ : ∃ t, removed.batchUpdate (rev.map (revivedEntry m)) = .ok t := by
    refine ⟨_, SparseMerkleTree.batchUpdate_eq_ok.2 ⟨fun e he => ?_, rfl⟩⟩
    obtain ⟨x, hx, rfl⟩ := List.mem_map.1 he
    obtain ⟨hm, hle, _⟩ := (hR.mem x.1 x.2).1 hx
    simp [revivedEntry, hremoved, Coinset.confirmedBy_of_le hm hle]
  obtain ⟨_, hleaves', hcoh'⟩ := SparseMerkleTree.batchUpdate_spec hcoh hupd
  refine ⟨removed, tree, hrem, hupd, hcoh', fun id => ?_⟩
  rw [hleaves']
  by_cases hid : id ∈ (rev.map (revivedEntry m)).map (·.1)
  · obtain ⟨v, hv, hget⟩ := OrdMap.getElem?_insertAll_of_mem _ removed.leaves hid
    obtain ⟨x, hx, heq⟩ := List.mem_map.1 hv
    obtain ⟨rfl, rfl⟩ := Prod.mk.inj heq
    obtain ⟨hm, hle, sh, hsh, hlt⟩ := (hR.mem x.1 x.2).1 hx
    rw [hget, Coinset.rollback_of_revived hm hle hsh hlt, Option.map_some]
  · rw [OrdMap.getElem?_insertAll_of_not_mem _ _ hid, hremoved]
    refine congrArg _ ?_
    cases hm : m id with
    | none => rw [Coinset.confirmedBy_of_none hm, Coinset.rollback_of_none hm]
    | some rec =>
      by_cases hconf : target < rec.confirmedHeight
      · rw [Coinset.confirmedBy_of_lt hm hconf, Coinset.rollback_of_deleted hm hconf]
      · have hle := UInt64.not_lt.1 hconf
        rw [Coinset.confirmedBy_of_le hm hle, Coinset.rollback_of_kept hm hle fun sh hsh =>
          UInt64.not_lt.1 fun hlt => hid ?_]
        exact List.mem_map.2 ⟨_, List.mem_map.2 ⟨_, (hR.mem id rec).2 ⟨hm, hle, sh, hsh, hlt⟩, rfl⟩,
          rfl⟩

/-! ## The store after a rollback -/

/-- The store that the commit of a rollback leaves. -/
def rewind (s : CoinStore) (target : UInt64) (batch : WriteBatch) (tree : SparseMerkleTree)
    (del rev : List (CoinId × CoinRecord)) : CoinStore :=
  { s with
    backend := { s.backend with
      tables := s.backend.tables.applyOps (stageTip batch target .zero s.timestamp).ops }
    height := target
    tipHash := .zero
    merkleTree := tree.root.2
    unspentIds := (rev.map (·.1)).foldl (fun ids id => insert id ids)
      ((del.map (·.1)).foldl (fun ids id => ids.erase id) s.unspentIds) }

variable {target : UInt64} {batch : WriteBatch} {tree : SparseMerkleTree}
  {del rev : List (CoinId × CoinRecord)}

theorem Represents.rewind_represents (h : s.Represents S m) (hinit : s.initialized = true)
    (hle : target ≤ s.height) (htree : TreeOf tree (m.rollback target))
    (hrows : Indexes S.cfs (s.backend.tables.applyOps batch.ops) (m.rollback target))
    (hmeta : s.backend.tables.applyOps batch.ops .metadata = s.backend.tables .metadata) :
    (s.rewind target batch tree del rev).Represents S (m.rollback target) where
  healthy := h.healthy
  rows := hrows.congr fun cf hcf => by
    simp only [rewind]
    rw [ops_stageTip, Tables.applyOps_append, stageTip_other _ (S.ne_metadata hcf)]
  leaves id := by
    rw [rewind, SparseMerkleTree.root_leaves]
    exact htree.2 id
  coherent := SparseMerkleTree.root_coherent htree.1
  tip := by
    refine tipStored_stageTip (t := s.backend.tables.applyOps batch.ops) ?_ ?_
    · rw [rewind, ops_stageTip, Tables.applyOps_append]
    · rw [hmeta]
      exact h.tip.initialized
  ids hm' := by
    obtain ⟨rec, hm, _, ⟨rfl, _⟩ | ⟨rfl, _⟩⟩ := Coinset.rollback_cases hm'
    · exact h.ids hm
    · have hid : rec.coinId = _ := h.ids hm
      exact hid
  coins hm' := by
    obtain ⟨rec, hm, _, ⟨rfl, _⟩ | ⟨rfl, _⟩⟩ := Coinset.rollback_cases hm'
    · exact h.coins hm
    · have hcoin : rec.coin ∈ S.coins := h.coins hm
      exact hcoin
  lives := by
    constructor
    · intro id rec' hm'
      obtain ⟨rec, hm, hconf, ⟨rfl, _⟩ | ⟨rfl, _⟩⟩ := Coinset.rollback_cases hm'
      · exact UInt64.le_iff_toNat_le.1 hconf
      · exact UInt64.le_iff_toNat_le.1 hconf
    · intro id rec' sh hm' hs
      obtain ⟨rec, hm, hconf, ⟨rfl, hsp⟩ | ⟨rfl, _⟩⟩ := Coinset.rollback_cases hm'
      · exact ⟨(h.lives.spent hm hs).1, UInt64.le_iff_toNat_le.1 (hsp sh hs)⟩
      · cases hs
  filled g hpos hg := by
    have hg' : g ≤ target := UInt64.le_iff_toNat_le.2 hg
    obtain ⟨id, rec, hm, rfl⟩ := h.filled g hpos (UInt64.le_iff_toNat_le.1 (UInt64.le_trans hg' hle))
    by_cases hs : ∃ sh, rec.spentHeight = some sh ∧ target < sh
    · obtain ⟨sh, hsh, hlt⟩ := hs
      exact ⟨id, _, Coinset.rollback_of_revived hm hg' hsh hlt, rfl⟩
    · exact ⟨id, rec, Coinset.rollback_of_kept hm hg' fun sh hsh =>
        UInt64.not_lt.1 fun hlt => hs ⟨sh, hsh, hlt⟩, rfl⟩
  blank hb := by simp [rewind, hinit] at hb

/-- The unspent set loses the deleted ids and gains the revived ones. -/
theorem mem_rewind_unspentIds (hD : Deleted m target del) (hR : Revived m target rev) (id : CoinId) :
    id ∈ (s.rewind target batch tree del rev).unspentIds ↔
      (id ∈ s.unspentIds ∧ ¬ ∃ rec, m id = some rec ∧ target < rec.confirmedHeight) ∨
      ∃ rec, m id = some rec ∧ rec.confirmedHeight ≤ target ∧
        ∃ sh, rec.spentHeight = some sh ∧ target < sh := by
  have hdel : id ∈ del.map (·.1) ↔ ∃ rec, m id = some rec ∧ target < rec.confirmedHeight := by
    simp [hD.mem]
  have hrev : id ∈ rev.map (·.1) ↔ ∃ rec, m id = some rec ∧ rec.confirmedHeight ≤ target ∧
      ∃ sh, rec.spentHeight = some sh ∧ target < sh := by
    simp [hR.mem]
  rw [← hdel, ← hrev, rewind, mem_foldl_insert (fun id : CoinId => id), mem_foldl_erase]
  simp

/-- **What a rollback leaves and reports.** -/
structure RolledBack (S : Scope) (s : CoinStore) (m : Coinset) (target : UInt64) (s' : CoinStore)
    (result : RollbackResult) : Prop where
  represents : s'.Represents S (m.rollback target)
  unspentIds : ∀ id, id ∈ s'.unspentIds ↔
    (id ∈ s.unspentIds ∧ ¬ ∃ rec, m id = some rec ∧ target < rec.confirmedHeight) ∨
    ∃ rec, m id = some rec ∧ rec.confirmedHeight ≤ target ∧
      ∃ sh, rec.spentHeight = some sh ∧ target < sh
  initialized : s'.initialized = true
  height : s'.height = target
  tipHash : s'.tipHash = .zero
  timestamp : s'.timestamp = s.timestamp
  result : ∃ del rev, Deleted m target del ∧ Revived m target rev ∧ result = {
    modifiedCoins := OrdMap.insertAll (OrdMap.insertAll ∅ del) rev
    coinsDeleted := del.length
    coinsUnspent := rev.length
    newHeight := target }

theorem RolledBack.unspent {s' : CoinStore} {result : RollbackResult}
    (h : RolledBack S s m target s' result) (hu : s.UnspentExact m) :
    s'.UnspentExact (m.rollback target) := by
  intro id
  rw [h.unspentIds, hu id]
  constructor
  · rintro (⟨⟨rec, hm, hlive⟩, hnot⟩ | ⟨rec, hm, hle, sh, hsh, hlt⟩)
    · have hle := UInt64.not_lt.1 fun hlt => hnot ⟨rec, hm, hlt⟩
      exact ⟨rec, Coinset.rollback_of_kept hm hle (by simp [hlive]), hlive⟩
    · exact ⟨_, Coinset.rollback_of_revived hm hle hsh hlt, rfl⟩
  · rintro ⟨rec', hm', hlive⟩
    obtain ⟨rec, hm, hconf, ⟨rfl, _⟩ | ⟨rfl, sh, hsh, hlt⟩⟩ := Coinset.rollback_cases hm'
    · refine .inl ⟨⟨rec', hm, hlive⟩, ?_⟩
      rintro ⟨rec, hm', hlt⟩
      rw [Option.some.inj (hm'.symm.trans hm)] at hlt
      exact UInt64.not_lt.2 hconf hlt
    · exact .inr ⟨rec, hm, hconf, sh, hsh, hlt⟩

/-- **How a call of `rollback_to_block` ends**, on a store of the coin set `m`. -/
inductive RollbackOutcome (S : Scope) (s : CoinStore) (m : Coinset) (targetHeight : Int64) :
    CoinStore × Res RollbackResult → Prop
  | rejected {e : CoinStoreError} : s.initialized = false ∨ s.height.toInt64 < targetHeight →
    RollbackOutcome S s m targetHeight (s, err e)
  | kept : s.initialized = true → ¬ s.height.toInt64 < targetHeight → 0 ≤ targetHeight →
    s.height ≤ effectiveTarget targetHeight → RollbackOutcome S s m targetHeight
      (s, .ok { modifiedCoins := ∅, coinsDeleted := 0, coinsUnspent := 0, newHeight := s.height })
  | rolledBack {s' : CoinStore} {result : RollbackResult} : s.initialized = true →
    ¬ s.height.toInt64 < targetHeight →
    ¬ (s.height ≤ effectiveTarget targetHeight ∧ 0 ≤ targetHeight) →
    RolledBack S s m (effectiveTarget targetHeight) s' result →
    RollbackOutcome S s m targetHeight (s', .ok result)

omit [Chia] in
theorem toNat_effectiveTarget {t : Int64} {n : Nat} (h : t.toInt = n) :
    (effectiveTarget t).toNat = n := by
  have hnneg : ¬ t < 0 := by
    rw [Int64.lt_iff_toInt_lt, h]
    exact Int.not_lt.2 (Int.natCast_nonneg n)
  rw [effectiveTarget, if_neg hnneg]
  exact FixedInt.toNat_toUInt64 h

omit [Chia] in
/-- A target that passes the checks and is not at the tip lies below it. -/
theorem effectiveTarget_le {height : UInt64} {targetHeight : Int64}
    (h : ¬ (height ≤ effectiveTarget targetHeight ∧ 0 ≤ targetHeight)) :
    effectiveTarget targetHeight ≤ height := by
  by_cases hneg : targetHeight < 0
  · rw [effectiveTarget, if_pos hneg]
    exact UInt64.zero_le
  · refine UInt64.le_of_lt (UInt64.not_le.1 fun hle => h ⟨hle, Int64.not_lt.1 hneg⟩)

/-- **Every call ends in one of the three ways.** -/
theorem Represents.rollbackToBlock_outcome (h : s.Represents S m) (targetHeight : Int64) :
    RollbackOutcome S s m targetHeight (s.rollbackToBlock targetHeight) := by
  unfold rollbackToBlock
  by_cases hinit : s.initialized = false
  · rw [if_pos (by simp [hinit])]
    exact .rejected (.inl hinit)
  · rw [Bool.not_eq_false] at hinit
    rw [if_neg (by simp [hinit])]
    by_cases habove : s.height.toInt64 < targetHeight
    · rw [if_pos habove]
      exact .rejected (.inr habove)
    · rw [if_neg habove]
      by_cases hkeep : s.height ≤ effectiveTarget targetHeight ∧ 0 ≤ targetHeight
      · rw [if_pos hkeep]
        exact .kept hinit habove hkeep.2 hkeep.1
      · rw [if_neg hkeep]
        have hle := effectiveTarget_le hkeep
        obtain ⟨acc, del, rev, hstage, hD, hR, hmodified, hdeleted, hunspent, hremovals, hupdates, hrows,
          hmeta⟩ := h.stageRollback_spec (effectiveTarget targetHeight)
        obtain ⟨removed, tree, hrem, hupd, htree⟩ := h.treeRollback hD hR
        have hremoved := (SparseMerkleTree.remove_guard s.merkleTree "Merkle remove during rollback: "
          acc.merkleRemovals).trans (by rw [hremovals, hrem, orMerkle_ok])
        have hupdated := (SparseMerkleTree.update_guard removed "Merkle update during rollback: "
          acc.merkleUpdates).trans (by rw [hupdates, hupd, orMerkle_ok])
        have hcommit : commitRollback { s with merkleTree := tree } (effectiveTarget targetHeight) acc =
            (s.rewind (effectiveTarget targetHeight) acc.batch tree del rev, .ok {
              modifiedCoins := OrdMap.insertAll (OrdMap.insertAll ∅ del) rev
              coinsDeleted := del.length
              coinsUnspent := rev.length
              newHeight := effectiveTarget targetHeight }) := by
          rw [commitRollback, Backend.batchWrite_of_healthy h.healthy]
          simp only [rewind, hremovals, hupdates, hmodified, hdeleted, hunspent, List.foldl_map]
          rfl
        simp only [hstage, hremoved, hupdated]
        rw [hcommit]
        refine .rolledBack hinit habove hkeep ?_
        exact {
          represents := h.rewind_represents hinit hle htree hrows hmeta
          unspentIds := mem_rewind_unspentIds hD hR
          initialized := hinit
          height := rfl
          tipHash := rfl
          timestamp := rfl
          result := ⟨del, rev, hD, hR, rfl⟩ }

end CoinStore

end DigCoinstore
