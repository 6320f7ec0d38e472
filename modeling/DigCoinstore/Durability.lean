import DigCoinstore.Commitment

/-!
# Memory and storage agree

A rejected block is invisible to every reader (`Reachable.rejected_block_invisible`), and a store
opened again on the storage of a live one answers as the live one does (`Reachable.reopen_same`).
-/

namespace DigCoinstore

variable [Chia]

namespace CoinStore

/-- **The same answers**: tip, state root and unspent set. -/
structure SameView (s s' : CoinStore) : Prop where
  height : s'.height = s.height
  tipHash : s'.tipHash = s.tipHash
  timestamp : s'.timestamp = s.timestamp
  stateRoot : s'.stateRoot.1 = s.stateRoot.1
  isUnspent : ∀ id, s'.isUnspent id = s.isUnspent id

theorem SameView.refl (s : CoinStore) : s.SameView s := ⟨rfl, rfl, rfl, rfl, fun _ => rfl⟩

variable {S : Scope} {s : CoinStore} {m : Coinset} {block : BlockData}

theorem Represents.sameView_withTree (h : s.Represents S m) {tree : SparseMerkleTree}
    (htree : TreeOf tree m) : s.SameView { s with merkleTree := tree } where
  height := rfl
  tipHash := rfl
  timestamp := rfl
  stateRoot := ((h.withTree htree).root_congr h)
  isUnspent _ := rfl

/-- The block decides which records it spends. -/
theorem Applicable.removed_unique {removed removed' : List CoinRecord}
    (ha : s.Applicable m block removed) (ha' : s.Applicable m block removed') : removed = removed' := by
  have hlookup : ∀ {l : List CoinRecord}, s.Applicable m block l →
      block.removals.map m = l.map some := fun {l} hl => by
    rw [hl.removals, List.map_map]
    exact List.map_congr_left fun rec hrec => (hl.live rec hrec).1
  have hsome := (hlookup ha).symm.trans (hlookup ha')
  exact List.map_injective_iff.2 (Option.some_injective _) hsome

/-- The expected root is checked apart from all else. -/
theorem Applicable.withExpected {removed : List CoinRecord} (ha : s.Applicable m block removed)
    (expected : Option Bytes32) :
    s.Applicable m { block with expectedStateRoot := expected } removed :=
  ⟨ha.initialized, ha.height_lt, ha.height, ha.parent, ha.rewards, ha.removals, ha.live, ha.nodup,
    ha.claimed, ha.fresh⟩

/-- A block that fits and expects no root is accepted. -/
theorem Represents.applyBlock_of_applicable (h : s.Represents S m) {removed : List CoinRecord}
    (ha : s.Applicable m block removed) (hexp : block.expectedStateRoot = none) :
    ∃ tree, TreeOf tree (m.applyBlock block removed) ∧
      s.applyBlock block = (s.accept block removed tree, .ok {
        stateRoot := tree.fullRoot
        coinsCreated := (createdRecords block).length
        coinsSpent := removed.length
        height := block.height }) := by
  have hout := h.applyBlock_outcome block
  generalize s.applyBlock block = out at hout
  cases hout with
  | rejected hrej => exact absurd ha (hrej removed)
  | mismatched _ _ _ hsome => exact nomatch hexp.symm.trans hsome
  | accepted ha' htree =>
    obtain rfl := ha.removed_unique ha'
    exact ⟨_, htree, rfl⟩

/-- **Acceptance**: the block fits and its root, if one is expected, is that of the coin set after
the block. -/
theorem Represents.applyBlock_ok_iff (h : s.Represents S m) {result : ApplyBlockResult} :
    (s.applyBlock block).2 = .ok result ↔ ∃ removed tree, s.Applicable m block removed ∧
      TreeOf tree (m.applyBlock block removed) ∧
      (∀ r, block.expectedStateRoot = some r → r = tree.fullRoot) ∧ result = {
        stateRoot := tree.fullRoot
        coinsCreated := (createdRecords block).length
        coinsSpent := removed.length
        height := block.height } := by
  constructor
  · intro hok
    obtain ⟨removed, tree, ha, htree, _, hroot, hresult⟩ :=
      h.of_accepted (Prod.ext rfl hok : s.applyBlock block = ((s.applyBlock block).1, .ok result))
    exact ⟨removed, tree, ha, htree, hroot, hresult⟩
  · rintro ⟨removed, tree, ha, htree, hroot, rfl⟩
    have hout := h.applyBlock_outcome block
    generalize s.applyBlock block = out at hout
    cases hout with
    | rejected hrej => exact absurd ha (hrej removed)
    | mismatched ha' htree' _ hexp hne =>
      obtain rfl := ha.removed_unique ha'
      exact absurd ((hroot _ hexp).trans (htree.fullRoot_eq htree')) hne
    | accepted ha' htree' =>
      obtain rfl := ha.removed_unique ha'
      rw [htree.fullRoot_eq htree']

theorem Represents.applyBlock_root (h : s.Represents S m) {result : ApplyBlockResult}
    (hok : (s.applyBlock block).2 = .ok result) :
    (s.applyBlock block).1.stateRoot.1 = result.stateRoot := by
  obtain ⟨removed, tree, _, htree, hstore, _, rfl⟩ :=
    h.of_accepted (Prod.ext rfl hok : s.applyBlock block = ((s.applyBlock block).1, .ok result))
  rw [hstore]
  refine (SparseMerkleTree.root_fst (SparseMerkleTree.root_coherent htree.1)).trans ?_
  exact SparseMerkleTree.fullRoot_congr fun k => by rw [SparseMerkleTree.root_leaves]

end CoinStore

/-- **Rejected blocks are invisible**: rows, tip, root and unspent set are as before; and a block
that expects the root `r` is accepted when without it the block is accepted with that root. -/
theorem Reachable.rejected_block_invisible {U : Set Coin} {P : BlockData → Prop} {s : CoinStore}
    (h : Reachable U P s) (block : BlockData) :
    (∀ e, (s.applyBlock block).2 = .error e →
      (s.applyBlock block).1.backend = s.backend ∧ s.SameView (s.applyBlock block).1) ∧
    ∀ r, (∃ result, (s.applyBlock { block with expectedStateRoot := some r }).2 = .ok result) ↔
      ∃ result, (s.applyBlock { block with expectedStateRoot := none }).2 = .ok result ∧
        result.stateRoot = r ∧
        (s.applyBlock { block with expectedStateRoot := none }).1.stateRoot.1 = r := by
  obtain ⟨m, hm, _⟩ := h.life
  refine ⟨fun e he => ?_, fun r => ⟨?_, ?_⟩⟩
  · have hout := hm.applyBlock_outcome block
    generalize s.applyBlock block = out at hout he
    cases hout with
    | rejected => exact ⟨rfl, .refl s⟩
    | mismatched _ _ hrebuilt => exact ⟨rfl, hm.sameView_withTree hrebuilt⟩
    | accepted => cases he
  · rintro ⟨result, hok⟩
    obtain ⟨removed, tree, ha, htree, hroot, rfl⟩ := hm.applyBlock_ok_iff.1 hok
    have hnone : (s.applyBlock { block with expectedStateRoot := none }).2 = .ok _ :=
      hm.applyBlock_ok_iff.2
        ⟨removed, tree, ha.withExpected none, htree, fun _ hexp => (nomatch hexp), rfl⟩
    have hr : tree.fullRoot = r := (hroot r rfl).symm
    exact ⟨_, hnone, hr, (hm.applyBlock_root hnone).trans hr⟩
  · rintro ⟨result, hok, hr, _⟩
    obtain ⟨removed, tree, ha, htree, _, rfl⟩ := hm.applyBlock_ok_iff.1 hok
    exact ⟨_, hm.applyBlock_ok_iff.2 ⟨removed, tree, ha.withExpected (some r), htree,
      fun r' hexp => by rw [← Option.some.inj hexp, ← hr], rfl⟩⟩

/-- **Reopening gives the same store** when the blocks of the run named their coins right. -/
theorem Reachable.reopen_same {U : Set Coin} {s : CoinStore} (h : Reachable U BlockData.Honest s)
    (config : CoinStoreConfig) : ∃ s', CoinStore.withConfig config s.backend = .ok s' ∧
      s'.initialized = s.initialized ∧ s.SameView s' := by
  obtain ⟨m, hm, hu⟩ := h.life
  obtain ⟨s', hopen, hm', hu', hinit, hheight, htip, htime⟩ := hm.withConfig_spec config
  refine ⟨s', hopen, hinit, hheight, htip, htime, hm'.root_congr hm, fun id => ?_⟩
  rw [CoinStore.isUnspent, CoinStore.isUnspent, decide_eq_decide, hu' id, hu (fun _ hb => hb.claimsItsCoins) id]

end DigCoinstore

namespace DigCoinstore

open Sample

theorem rejected_block_invisible_genesis :
    (∀ e, (genesis.applyBlock blockTwo).2 = .error e →
      (genesis.applyBlock blockTwo).1.backend = genesis.backend ∧
        genesis.SameView (genesis.applyBlock blockTwo).1) ∧
    ∀ r, (∃ result, (genesis.applyBlock { blockTwo with expectedStateRoot := some r }).2 = .ok result) ↔
      ∃ result, (genesis.applyBlock { blockTwo with expectedStateRoot := none }).2 = .ok result ∧
        result.stateRoot = r ∧
        (genesis.applyBlock { blockTwo with expectedStateRoot := none }).1.stateRoot.1 = r :=
  reachable_genesis.rejected_block_invisible blockTwo

theorem reopen_same_afterOne : ∃ s',
    CoinStore.withConfig { maxSnapshots := 1 } afterOne.backend = .ok s' ∧
      s'.initialized = afterOne.initialized ∧ afterOne.SameView s' :=
  reachable_afterOne.reopen_same _

end DigCoinstore
