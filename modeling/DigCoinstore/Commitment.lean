import DigCoinstore.History
import DigCoinstore.Sample

/-!
# The state root commits to the coin set

When SHA-256 has no collision among the inputs hashed for two stores, equal state roots have equal
coin sets: the root determines the leaves, a leaf determines its row, and the row of a coin that is
not spent at height 0 determines the record (`coinset_eq_of_root`).
-/

namespace DigCoinstore

variable [Chia]

namespace CoinStore

/-- **The byte strings hashed** for the state root: the empty leaf, the rows, the pairs of nodes. -/
def hashedInputs (s : CoinStore) : Set Bytes :=
  {0x00 :: emptyLeafSentinel} ∪
    {x | ∃ k v : Bytes, (s.backend.tables .coinRecords)[k]? = some v ∧ x = 0x00 :: v} ∪
    {x | ∃ p ∈ s.merkleTree.hashedPairs, x = 0x01 :: (p.1.bytes ++ p.2.bytes)}

/-- SHA-256 has no collision among the inputs hashed for the two roots. -/
def CollisionFree (s s' : CoinStore) : Prop :=
  Set.InjOn Chia.sha256 (s.hashedInputs ∪ s'.hashedInputs)

variable {S S' : Scope} {s s' : CoinStore} {m m' : Coinset}

theorem CollisionFree.pairs (h : CollisionFree s s') :
    Set.InjOn (Function.uncurry merkleNodeHash)
      (s.merkleTree.hashedPairs ∪ s'.merkleTree.hashedPairs) := by
  have hin : ∀ p ∈ s.merkleTree.hashedPairs ∪ s'.merkleTree.hashedPairs,
      0x01 :: (p.1.bytes ++ p.2.bytes) ∈ s.hashedInputs ∪ s'.hashedInputs := by
    rintro p (hp | hp)
    · exact .inl (.inr ⟨p, hp, rfl⟩)
    · exact .inr (.inr ⟨p, hp, rfl⟩)
  intro p hp q hq heq
  obtain ⟨hl, hr⟩ := append_bytes_inj.1 (List.cons.inj (h (hin p hp) (hin q hq) heq)).2
  exact Prod.ext hl hr

/-- The row of a known coin is hashed. -/
theorem Represents.row_hashed (h : s.Represents S m) {id : CoinId} {rec : CoinRecord}
    (hm : m id = some rec) : 0x00 :: serializeCoinRecordStorageBytes rec ∈ s.hashedInputs :=
  .inl (.inr ⟨coinKey id, _, by rw [h.record_get, hm]; rfl, rfl⟩)

/-- The state root is the root of the leaves. -/
theorem Represents.stateRoot_eq (h : s.Represents S m) : s.stateRoot.1 = s.merkleTree.fullRoot :=
  SparseMerkleTree.root_fst h.coherent

/-- Equal coin sets have equal roots. -/
theorem Represents.root_congr (h : s.Represents S m) (h' : s'.Represents S' m) :
    s.stateRoot.1 = s'.stateRoot.1 := by
  rw [h.stateRoot_eq, h'.stateRoot_eq]
  exact h.treeOf.fullRoot_eq h'.treeOf

/-- **Equal roots have equal coin sets.** -/
theorem coinset_eq_of_root (h : s.Represents S m) (h' : s'.Represents S' m')
    (hfree : CollisionFree s s') (hroot : s.stateRoot.1 = s'.stateRoot.1) : m = m' := by
  rw [h.stateRoot_eq, h'.stateRoot_eq] at hroot
  have hsentinel : (0x00 :: emptyLeafSentinel : Bytes) ∈ s.hashedInputs ∪ s'.hashedInputs :=
    .inl (.inl (.inl rfl))
  -- a row is longer than the payload of the empty leaf
  have hlong : ∀ rec, (0x00 :: serializeCoinRecordStorageBytes rec : Bytes) ≠ 0x00 :: emptyLeafSentinel :=
    fun rec heq => by
    have hlen := congrArg List.length (List.cons.inj heq).2
    have := length_serialize rec
    simp only [emptyLeafSentinel, List.length_replicate] at hlen
    omega
  funext id
  have hleaf := SparseMerkleTree.fullRoot_inj hfree.pairs hroot id
  rw [SparseMerkleTree.get, SparseMerkleTree.get, h.leaves, h'.leaves] at hleaf
  cases hm : m id with
  | none =>
    cases hm' : m' id with
    | none => rfl
    | some rec' =>
      rw [hm, hm'] at hleaf
      exact absurd (hfree (.inr (h'.row_hashed hm')) hsentinel hleaf.symm) (hlong rec')
  | some rec =>
    cases hm' : m' id with
    | none =>
      rw [hm, hm'] at hleaf
      exact absurd (hfree (.inl (h.row_hashed hm)) hsentinel hleaf) (hlong rec)
    | some rec' =>
      rw [hm, hm'] at hleaf
      have hrow := (List.cons.inj (hfree (.inl (h.row_hashed hm)) (.inr (h'.row_hashed hm')) hleaf)).2
      rw [serialize_inj (h.lives.storable hm) (h'.lives.storable hm') hrow]

end CoinStore

/-- **The root commits to the coins**: stores of two runs with one root hold the same rows, and
every lookup finds the same record in both. -/
theorem Reachable.root_commits {U U' : Set Coin} {P P' : BlockData → Prop} {s s' : CoinStore}
    (h : Reachable U P s) (h' : Reachable U' P' s') (hfree : CoinStore.CollisionFree s s')
    (hroot : s.stateRoot.1 = s'.stateRoot.1) :
    s.backend.tables .coinRecords = s'.backend.tables .coinRecords ∧
      ∀ id, ∃ o, s.getCoinRecord id = .ok o ∧ s'.getCoinRecord id = .ok o := by
  obtain ⟨m, hm, _⟩ := h.life
  obtain ⟨m', hm', _⟩ := h'.life
  obtain rfl := CoinStore.coinset_eq_of_root hm hm' hfree hroot
  refine ⟨Std.ExtTreeMap.ext_getElem? fun k => ?_, fun id =>
    ⟨m id, hm.getCoinRecord_eq id, hm'.getCoinRecord_eq id⟩⟩
  have hmirror := hm.rows .coinRecords (by simp [Scope.life, lifeFamilies])
  have hmirror' := hm'.rows .coinRecords (by simp [Scope.life, lifeFamilies])
  exact congrFun (hmirror.unique hmirror') k

end DigCoinstore

namespace DigCoinstore

open Sample

/-- Both stores hold the row of coin 1 as the genesis wrote it, and its leaf. -/
theorem entries_oneCoin :
    (oneCoin.backend.tables .coinRecords).toList =
        [(coinKey (ofNum 1), serializeCoinRecordStorageBytes (.new (coin 1) 0 10 false))] ∧
      oneCoin.merkleTree.leaves.toList = SparseMerkleTree.oneLeaf.leaves.toList ∧
      (oneCoinBack.backend.tables .coinRecords).toList =
        (oneCoin.backend.tables .coinRecords).toList ∧
      oneCoinBack.merkleTree.leaves.toList = oneCoin.merkleTree.leaves.toList := by
  decide +kernel

/-- What is hashed for a store with these entries. -/
theorem hashedInputs_oneCoin {s : CoinStore}
    (hrows : (s.backend.tables .coinRecords).toList = (oneCoin.backend.tables .coinRecords).toList)
    (hleaves : s.merkleTree.leaves.toList = oneCoin.merkleTree.leaves.toList) :
    s.hashedInputs ⊆ SparseMerkleTree.oneLeafInputs := by
  obtain ⟨hlist, hleaf, -, -⟩ := entries_oneCoin
  have hpairs : s.merkleTree.hashedPairs = SparseMerkleTree.oneLeaf.hashedPairs := by
    rw [SparseMerkleTree.hashedPairs, SparseMerkleTree.hashedPairs, hleaves, hleaf]
  rintro x ((rfl | ⟨k, v, hrow, rfl⟩) | ⟨p, hp, rfl⟩)
  · exact .inl (.inl rfl)
  · have hmem := OrdMap.mem_toList.2 hrow
    rw [hrows, hlist] at hmem
    obtain rfl := (Prod.mk.inj (List.mem_singleton.1 hmem)).2
    exact .inl (.inr rfl)
  · exact .inr ⟨p, SparseMerkleTree.hashedPairs_oneLeaf (hpairs ▸ hp), rfl⟩

theorem hashedInputs_oneCoin_self : oneCoin.hashedInputs ⊆ SparseMerkleTree.oneLeafInputs :=
  hashedInputs_oneCoin rfl rfl

/-- Nothing hashed for the two roots collides. -/
theorem collisionFree_oneCoinBack : CoinStore.CollisionFree oneCoin oneCoinBack := by
  obtain ⟨-, -, hrows, hleaves⟩ := entries_oneCoin
  exact SparseMerkleTree.injOn_oneLeafInputs.mono
    (Set.union_subset hashedInputs_oneCoin_self (hashedInputs_oneCoin hrows hleaves))

/-- A coin that was spent and un-spent again. -/
theorem root_commits_oneCoin :
    oneCoin.backend.tables .coinRecords = oneCoinBack.backend.tables .coinRecords ∧
      ∀ id, ∃ o, oneCoin.getCoinRecord id = .ok o ∧ oneCoinBack.getCoinRecord id = .ok o := by
  refine reachable_oneCoin.root_commits reachable_oneCoinBack collisionFree_oneCoinBack ?_
  obtain ⟨m, hm, _⟩ := reachable_oneCoin.life
  obtain ⟨m', hm', _⟩ := reachable_oneCoinBack.life
  obtain ⟨-, -, -, hleaves⟩ := entries_oneCoin
  rw [hm.stateRoot_eq, hm'.stateRoot_eq, SparseMerkleTree.fullRoot, SparseMerkleTree.fullRoot, hleaves]

end DigCoinstore
