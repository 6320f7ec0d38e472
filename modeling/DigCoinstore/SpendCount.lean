import Mathlib.Data.Finset.Card
import DigCoinstore.History
import DigCoinstore.Sample

/-!
# Counting the spends of a block

Every removal is looked up before any is marked, so an id that is removed twice passes twice and is
counted twice, though one record changes. An accepted block spends as many records as it counts
exactly when it removes no id twice (`Reachable.spend_count_iff`).
-/

namespace DigCoinstore

variable [Chia]

namespace CoinStore

/-- The record stored under `id` is unspent in `s` and spent in `s'`. -/
def Spends (s s' : CoinStore) (id : CoinId) : Prop :=
  ∃ rec rec', s.getCoinRecord id = .ok (some rec) ∧ s'.getCoinRecord id = .ok (some rec') ∧
    rec.isSpent = false ∧ rec'.isSpent = true

/-- **The strict count**: `coins_spent` is the number of removals and of the records that became
spent, each at the height of the block. -/
structure CountsSpends (s s' : CoinStore) (block : BlockData) (result : ApplyBlockResult) : Prop where
  length : result.coinsSpent = block.removals.length
  records : ∃ ids : Finset CoinId, (∀ id, id ∈ ids ↔ s.Spends s' id) ∧ ids.card = result.coinsSpent
  height : ∀ id rec, s.Spends s' id → s'.getCoinRecord id = .ok (some rec) →
    rec.spentHeight = some block.height

/-- `s'` is `s`, with a tree that has the same leaves and root. -/
def Unchanged (s s' : CoinStore) : Prop :=
  ∃ tree, s' = { s with merkleTree := tree } ∧ (∀ id, tree.get id = s.merkleTree.get id) ∧
    tree.root.1 = s.merkleTree.root.1

namespace Represents

variable {S : Scope} {s s' : CoinStore} {m : Coinset} {block : BlockData} {removed : List CoinRecord}

theorem spends_iff (h : s.Represents S m) (ha : s.Applicable m block removed)
    (h' : s'.Represents S (m.applyBlock block removed)) {id : CoinId} :
    s.Spends s' id ↔ id ∈ block.removals := by
  simp only [Spends, h.getCoinRecord_eq, h'.getCoinRecord_eq, Except.ok.injEq]
  constructor
  · rintro ⟨rec, rec', hm, hm', hlive, hspent⟩
    rcases ha.applied_some hm with ⟨hkept, _⟩ | ⟨_, hrem, _⟩
    · obtain rfl := Option.some.inj (hkept.symm.trans hm')
      rw [hlive] at hspent
      cases hspent
    · exact hrem
  · intro hrem
    obtain ⟨rec, hrec, rfl⟩ := List.mem_map.1 (ha.removals ▸ hrem)
    obtain ⟨hm, hlive⟩ := ha.live rec hrec
    obtain ⟨_, _, hm'⟩ := (ha.applied_some hm).resolve_left fun hkept => hkept.2 hrem
    exact ⟨rec, _, hm, hm', by simp [CoinRecord.isSpent, hlive], rfl⟩

theorem spentHeight_eq (ha : s.Applicable m block removed)
    (h' : s'.Represents S (m.applyBlock block removed)) {id : CoinId} (hrem : id ∈ block.removals)
    {rec : CoinRecord} (hrec : s'.getCoinRecord id = .ok (some rec)) :
    rec.spentHeight = some block.height := by
  rw [h'.getCoinRecord_eq, Except.ok.injEq] at hrec
  obtain ⟨old, hold, rfl⟩ := List.mem_map.1 (ha.removals ▸ hrem)
  obtain ⟨_, _, hm'⟩ := (ha.applied_some (ha.live old hold).1).resolve_left fun hkept => hkept.2 hrem
  rw [← Option.some.inj (hm'.symm.trans hrec)]
  rfl

/-- **The count of an accepted block** is strict when no id is repeated. -/
theorem countsSpends_iff (h : s.Represents S m) (hcoins : ∀ c ∈ block.coins, c ∈ S.coins)
    {result : ApplyBlockResult} (happ : s.applyBlock block = (s', .ok result)) :
    s.CountsSpends s' block result ↔ block.removals.Nodup := by
  obtain ⟨removed, tree, ha, htree, rfl, _, rfl⟩ := h.of_accepted happ
  have h' := h.accept_represents hcoins ha htree
  have hlength : removed.length = block.removals.length := by rw [ha.removals, List.length_map]
  have hspends := fun id => (h.spends_iff ha h' : s.Spends _ id ↔ _)
  constructor
  · rintro ⟨_, ⟨ids, hids, hcard⟩, _⟩
    have hfin : ids = block.removals.toFinset := Finset.ext fun id => by
      rw [hids, hspends, List.mem_toFinset]
    refine Multiset.toFinset_card_eq_card_iff_nodup.1 (?_ : block.removals.toFinset.card = _)
    rw [← hfin, hcard]
    exact hlength
  · intro hnd
    refine ⟨hlength, ⟨block.removals.toFinset, fun id => ?_, ?_⟩, fun id rec hid => ?_⟩
    · rw [hspends, List.mem_toFinset]
    · rw [List.toFinset_card_of_nodup hnd]
      exact hlength.symm
    · exact spentHeight_eq ha h' ((hspends id).1 hid)

theorem unchanged_of_rejected (h : s.Represents S m) {e : Exit}
    (happ : s.applyBlock block = (s', .error e)) : s.Unchanged s' := by
  have hout := h.applyBlock_outcome block
  rw [happ] at hout
  cases hout with
  | rejected => exact ⟨s.merkleTree, rfl, fun _ => rfl, rfl⟩
  | mismatched ha htree hrebuilt =>
    refine ⟨_, rfl, fun id => (hrebuilt.2 id).trans (h.leaves id).symm, ?_⟩
    rw [SparseMerkleTree.root_fst hrebuilt.1, SparseMerkleTree.root_fst h.coherent]
    exact hrebuilt.fullRoot_eq h.treeOf

end Represents

end CoinStore

/-- **When the spend count is strict**: an accepted block spends as many records as it counts
exactly when it removes no id twice, and a rejected block changes nothing. -/
theorem Reachable.spend_count_iff {U : Set Coin} {P : BlockData → Prop} {s : CoinStore}
    (h : Reachable U P s) (block : BlockData) :
    (∀ s' result, s.applyBlock block = (s', .ok result) →
      (s.CountsSpends s' block result ↔ block.removals.Nodup)) ∧
    ∀ s' e, s.applyBlock block = (s', .error e) → s.Unchanged s' := by
  obtain ⟨m, hm, _⟩ := h.life
  exact ⟨fun _ _ happ => hm.countsSpends_iff (fun _ _ => Set.mem_univ _) happ,
    fun _ _ happ => hm.unchanged_of_rejected happ⟩

end DigCoinstore

namespace DigCoinstore

open Sample

theorem spend_count_genesis :
    ∃ result, genesis.applyBlock blockOne = (afterOne, .ok result) ∧
      genesis.CountsSpends afterOne blockOne result := by
  obtain ⟨result, happ⟩ := accepted_one.exists_result
  have hnd : blockOne.removals.Nodup := List.nodup_singleton _
  exact ⟨result, happ, ((reachable_genesis.spend_count_iff blockOne).1 _ _ happ).2 hnd⟩

/-- Block one with its removal repeated. -/
def removedTwice : BlockData := { blockOne with removals := [ofNum 2, ofNum 2] }

/-- It is accepted with a count of 2, and one record changes. -/
theorem repeated_removal_counts :
    Reachable coins BlockData.Honest genesis ∧ ∃ s' result,
      genesis.applyBlock removedTwice = (s', .ok result) ∧ result.coinsSpent = 2 ∧
        (∀ id, genesis.Spends s' id ↔ id = ofNum 2) ∧
        ¬ genesis.CountsSpends s' removedTwice result := by
  have hacc : Accepted genesis [removedTwice] (genesis.applyBlock removedTwice).1 :=
    .single (by decide +kernel)
  obtain ⟨result, happ⟩ := hacc.exists_result
  obtain ⟨m, hm, _⟩ := reachable_genesis.life
  obtain ⟨removed, tree, ha, htree, heq, _, rfl⟩ := hm.of_accepted happ
  have hm' := hm.accept_represents (fun _ _ => Set.mem_univ _) ha htree
  rw [← heq] at hm'
  have hlength : removed.length = 2 := by
    rw [← List.length_map CoinRecord.coinId, ← ha.removals]
    rfl
  refine ⟨reachable_genesis, _, _, happ, hlength, fun id => ?_, fun hcount => ?_⟩
  · rw [hm.spends_iff ha hm']
    simp [removedTwice]
  · have hnd := (hm.countsSpends_iff (fun _ _ => Set.mem_univ _) happ).1 hcount
    simp [removedTwice] at hnd

end DigCoinstore
