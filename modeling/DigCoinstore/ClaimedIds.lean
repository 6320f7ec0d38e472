import Mathlib.Data.List.Perm.Subperm
import DigCoinstore.History
import DigCoinstore.Sample

/-!
# The ids a block claims

`apply_block` checks the ids that a block claims for its additions and keeps them in the unspent
set; the rows and the leaves go under the ids of the coins. Both agree, and the count of created
coins is that of the new rows, exactly when the claimed ids are those of the coins, up to order
(`unpoisoned_iff`).
-/

namespace DigCoinstore

/-- The rows of `t'` under keys that `t` does not have. -/
def addedRows (t t' : Table) : List KvPair := t'.toList.filter fun kv => (t[kv.1]?).isNone

variable [Chia]

/-! ## Claimed and created -/

namespace BlockData

variable {block : BlockData}

/-- The ids of the created records: coinbase coins first. -/
def createdIds (block : BlockData) : List CoinId := (createdRecords block).map CoinRecord.coinId

theorem createdIds_eq : block.createdIds =
    block.coinbaseCoins.map Chia.coinId ++ block.additions.map fun a => Chia.coinId a.coin := by
  rw [createdIds, createdRecords, List.map_append, List.map_map, List.map_map]
  congr 1
  refine List.map_congr_left fun a _ => ?_
  cases hsame : a.sameAsParent <;>
    simp [additionRecord, hsame, CoinRecord.new, CoinRecord.coinId]

theorem mem_createdIds {id : CoinId} :
    id ∈ block.createdIds ↔ ∃ c ∈ block.coins, Chia.coinId c = id := by
  rw [exists_mem_coins, createdIds_eq, List.mem_append, List.mem_map, List.mem_map]

theorem length_createdIds : block.createdIds.length = (createdRecords block).length :=
  List.length_map _

/-- Claims without repetition that are all created ids are the created ids in another order. -/
theorem claimedIds_perm (hnd : block.claimedIds.Nodup)
    (hsub : ∀ id ∈ block.claimedIds, id ∈ block.createdIds) :
    block.claimedIds.Perm block.createdIds := by
  refine (hnd.subperm hsub).perm_of_length_le (Nat.le_of_eq ?_)
  simp [claimedIds, createdIds_eq, Nat.add_comm]

/-- **The same ids**: a block without repeated claims claims its coins exactly when every id is
claimed that is created, and the other way round. -/
theorem claimsItsCoins_iff (hnd : block.claimedIds.Nodup) :
    block.ClaimsItsCoins ↔ ∀ id, id ∈ block.claimedIds ↔ id ∈ block.createdIds := by
  constructor
  · intro hclaims id
    rw [mem_claimedIds, hclaims id, createdIds_eq, List.mem_append, List.mem_map, List.mem_map]
  · intro hsame id
    have hperm := claimedIds_perm hnd fun id => (hsame id).1
    rw [claimedIds, createdIds_eq] at hperm
    -- the coinbase coins are on both sides
    have hadds := (List.perm_append_left_iff _).1 (List.perm_append_comm.trans hperm)
    rw [← List.mem_map, ← List.mem_map (f := fun a : CoinAddition => Chia.coinId a.coin)]
    exact hadds.mem_iff

/-- A block that claims its coins creates no id twice. -/
theorem ClaimsItsCoins.nodup_createdIds (h : block.ClaimsItsCoins) (hnd : block.claimedIds.Nodup) :
    block.createdIds.Nodup :=
  (claimedIds_perm hnd fun id => ((claimsItsCoins_iff hnd).1 h id).1).nodup hnd

end BlockData

/-! ## The rows a block adds -/

namespace CoinStore

variable {S : Scope} {s : CoinStore} {m : Coinset} {block : BlockData} {removed : List CoinRecord}

theorem Applicable.fresh_of_mem (ha : s.Applicable m block removed) {id : CoinId}
    (hid : id ∈ block.createdIds) : m id = none := by
  obtain ⟨rec, hrec, rfl⟩ := List.mem_map.1 hid
  exact ha.fresh rec hrec

/-- The new rows of an accepted block are those of the created ids. -/
theorem Represents.mem_addedRows {s' : CoinStore} (h : s.Represents S m)
    (h' : s'.Represents S (m.applyBlock block removed)) (ha : s.Applicable m block removed)
    (k : Bytes) :
    k ∈ (addedRows (s.backend.tables .coinRecords) (s'.backend.tables .coinRecords)).map (·.1) ↔
      ∃ id ∈ block.createdIds, coinKey id = k := by
  rw [addedRows, List.mem_map]
  constructor
  · rintro ⟨⟨k, v⟩, hmem, rfl⟩
    obtain ⟨hrow', hnone⟩ := List.mem_filter.1 hmem
    obtain ⟨id, rec, hm', hrow⟩ :=
      (h'.coinRows.rows k v).1 (OrdMap.mem_toList.1 hrow')
    simp only [coinRow, Option.some.injEq, Prod.mk.injEq] at hrow
    obtain ⟨rfl, rfl⟩ := hrow
    have hm : m id = none := by simpa [h.record_get] using hnone
    refine ⟨id, ?_, rfl⟩
    rcases ha.applied_cases hm' with ⟨hsome, _⟩ | ⟨_, hrec, hid⟩ | ⟨_, _, hsome, _⟩
    · simp [hm] at hsome
    · exact List.mem_map.2 ⟨rec, hrec, hid⟩
    · simp [hm] at hsome
  · rintro ⟨id, hid, rfl⟩
    obtain ⟨rec, hrec, rfl⟩ := List.mem_map.1 hid
    obtain ⟨rec', _, hid', hm'⟩ := ha.applied_created (createdRecords_cases hrec).1
    have hm : m rec.coinId = none := ha.fresh rec hrec
    have hget := h'.record_get rec.coinId
    rw [show m.applyBlock block removed rec.coinId = some rec' from hm'] at hget
    refine ⟨(coinKey rec.coinId, _), List.mem_filter.2 ⟨OrdMap.mem_toList.2 hget, ?_⟩, rfl⟩
    simp [h.record_get, hm]

/-- **The count of new rows** is that of the created ids without repetitions. -/
theorem Represents.length_addedRows {s' : CoinStore} (h : s.Represents S m)
    (h' : s'.Represents S (m.applyBlock block removed)) (ha : s.Applicable m block removed) :
    (addedRows (s.backend.tables .coinRecords) (s'.backend.tables .coinRecords)).length =
      block.createdIds.dedup.length := by
  have hnd : ((addedRows (s.backend.tables .coinRecords)
      (s'.backend.tables .coinRecords)).map (·.1)).Nodup :=
    (OrdMap.nodup_keys _).sublist (List.filter_sublist.map _)
  have hnd' : (block.createdIds.dedup.map coinKey).Nodup :=
    (List.nodup_dedup _).map fun _ _ => coinKey_inj.1
  have hperm : ((addedRows (s.backend.tables .coinRecords)
      (s'.backend.tables .coinRecords)).map (·.1)).Perm (block.createdIds.dedup.map coinKey) := by
    refine (List.perm_ext_iff_of_nodup hnd hnd').2 fun k => ?_
    rw [h.mem_addedRows h' ha, List.mem_map]
    simp only [List.mem_dedup]
  simpa using hperm.length_eq

end CoinStore

/-- The unspent set holds exactly the ids whose stored record is unspent. -/
def CoinStore.UnspentIsStored (s : CoinStore) : Prop :=
  ∀ id, s.isUnspent id = true ↔ ∃ rec, s.getCoinRecord id = .ok (some rec) ∧ rec.spentHeight = none

theorem CoinStore.Represents.unspentIsStored_iff {S : Scope} {s : CoinStore} {m : Coinset}
    (h : s.Represents S m) : s.UnspentIsStored ↔ s.UnspentExact m := by
  simp only [CoinStore.UnspentIsStored, CoinStore.isUnspent, decide_eq_true_iff,
    h.getCoinRecord_eq, Except.ok.injEq, CoinStore.UnspentExact]

/-- **A block leaves the unspent set exact and counts its new rows right** exactly when the ids it
claims for its additions are those of their coins, after a run of blocks that did so too. -/
theorem Reachable.unpoisoned_iff {U : Set Coin} {P : BlockData → Prop} {s s' : CoinStore}
    {block : BlockData} {result : ApplyBlockResult} (h : Reachable U P s)
    (hP : ∀ b, P b → b.ClaimsItsCoins) (happ : s.applyBlock block = (s', .ok result)) :
    (s'.UnspentIsStored ∧ result.coinsCreated =
      (addedRows (s.backend.tables .coinRecords) (s'.backend.tables .coinRecords)).length) ↔
    block.ClaimsItsCoins := by
  obtain ⟨m, hm, hu⟩ := h.life
  obtain ⟨removed, tree, ha, htree, rfl, _, rfl⟩ := hm.of_accepted happ
  have hm' := hm.accept_represents (fun _ _ => Set.mem_univ _) ha htree
  rw [hm'.unspentIsStored_iff, hm.length_addedRows hm' ha, ← BlockData.length_createdIds]
  constructor
  · rintro ⟨hunspent, -⟩
    refine (BlockData.claimsItsCoins_iff ha.nodup).2 fun id => ?_
    have hid := hunspent id
    rw [CoinStore.mem_accept_unspentIds ha, ha.applied_unspent, hu hP id,
      ← BlockData.mem_createdIds] at hid
    -- a claimed or created id was not known before the block
    have hknown : id ∈ block.claimedIds ∨ id ∈ block.createdIds →
        ¬ ((∃ rec, m id = some rec ∧ rec.spentHeight = none) ∧ id ∉ block.removals) := by
      rintro hnew ⟨⟨rec, hrec, _⟩, _⟩
      have hnone : m id = none := hnew.elim (ha.claimed id) ha.fresh_of_mem
      simp [hnone] at hrec
    constructor
    · intro hclaimed
      exact (hid.1 (.inr hclaimed)).resolve_left (hknown (.inl hclaimed))
    · intro hcreated
      exact (hid.2 (.inr hcreated)).resolve_left (hknown (.inr hcreated))
  · intro hclaims
    refine ⟨CoinStore.Represents.accept_unspent (hu hP) hclaims ha tree, ?_⟩
    rw [(hclaims.nodup_createdIds ha.nodup).dedup]

end DigCoinstore

namespace DigCoinstore

open Sample

theorem unpoisoned_iff_genesis : ∃ result, genesis.applyBlock blockOne = (afterOne, .ok result) ∧
    ((afterOne.UnspentIsStored ∧ result.coinsCreated =
      (addedRows (genesis.backend.tables .coinRecords)
        (afterOne.backend.tables .coinRecords)).length) ↔ blockOne.ClaimsItsCoins) := by
  obtain ⟨result, happ⟩ := accepted_one.exists_result
  exact ⟨result, happ, reachable_genesis.unpoisoned_iff (fun _ hb => hb.claimsItsCoins) happ⟩

/-- Two additions of coin 7 under two claimed ids, neither of them its own. -/
def twiceClaimed : BlockData := { blockOne with
  removals := []
  additions := [⟨ofNum 98, coin 7, false⟩, ⟨ofNum 99, coin 7, false⟩] }

/-- Genesis after the block. -/
def poisoned : CoinStore := (genesis.applyBlock twiceClaimed).1

theorem poisoned_run :
    (genesis.applyBlock twiceClaimed).2.toOption.map (·.coinsCreated) = some 4 ∧
    (addedRows (genesis.backend.tables .coinRecords)
      (poisoned.backend.tables .coinRecords)).length = 3 ∧
    poisoned.isUnspent (ofNum 99) = true ∧
    (poisoned.getCoinRecord (ofNum 99)).toOption = some none ∧
    poisoned.isUnspent (ofNum 7) = false ∧
    (poisoned.getCoinRecord (ofNum 7)).toOption =
      some (some (CoinRecord.new (coin 7) 1 20 false)) ∧
    poisoned.initialized = true := by decide +kernel

/-- A block that claims two false ids for one coin is accepted: the ids are listed as unspent and
have no record, the coin has an unspent record and is not listed, and the block counts four new
coins for three new rows. -/
theorem false_ids_poison : Reachable coins BlockData.Honest genesis ∧
    (∃ result, (genesis.applyBlock twiceClaimed).2 = .ok result ∧ result.coinsCreated = 4) ∧
    (addedRows (genesis.backend.tables .coinRecords)
      (poisoned.backend.tables .coinRecords)).length = 3 ∧
    (poisoned.isUnspent (ofNum 99) = true ∧ poisoned.getCoinRecord (ofNum 99) = .ok none) ∧
    poisoned.isUnspent (ofNum 7) = false ∧
    poisoned.getCoinRecord (ofNum 7) = .ok (some (CoinRecord.new (coin 7) 1 20 false)) := by
  obtain ⟨hcount, hrows, hlisted, hnone, hunlisted, hsome, -⟩ := poisoned_run
  obtain ⟨result, hresult, hfour⟩ := Option.map_eq_some_iff.1 hcount
  exact ⟨reachable_genesis, ⟨result, Res.eq_ok_of_toOption hresult, hfour⟩, hrows,
    ⟨hlisted, Res.eq_ok_of_toOption hnone⟩, hunlisted, Res.eq_ok_of_toOption hsome⟩

end DigCoinstore
