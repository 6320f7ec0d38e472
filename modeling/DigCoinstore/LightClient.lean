import DigCoinstore.Commitment
import DigCoinstore.Merkle.Exclusion
import DigCoinstore.Merkle.RootOfLeaves

/-!
# Light clients (`merkle/proof.rs`)

A client that knows a state root and no table can be shown records. What a verified proof says
about a coin is what the store answers (`Reachable.proof_certifies`); a proof is good for one coin
set only (`Reachable.stale_proof_iff`); and the proof of a coin that changes alone gives the new root
(`SparseMerkleTree.stateless_update`).
-/

namespace DigCoinstore

variable [Chia]

/-- `verify_coin_proof` -/
def verifyCoinProof (proof : SparseMerkleProof) (expectedRoot : Bytes32) : Bool :=
  proof.verify expectedRoot

/-- The inputs hashed to verify a proof. -/
def SparseMerkleProof.hashedInputs (p : SparseMerkleProof) : Set Bytes :=
  {x | ∃ q ∈ p.hashedPairs, x = 0x01 :: (q.1.bytes ++ q.2.bytes)}

/-! ## Proofs of a tree -/

theorem SparseMerkleProof.verify_eq_true_iff {p : SparseMerkleProof} {root : Bytes32}
    (h : p.verify root = true) (root' : Bytes32) : p.verify root' = true ↔ root' = root := by
  obtain ⟨hlen, hclimb⟩ := verify_iff.1 h
  rw [verify_iff, hclimb]
  exact ⟨fun h => h.2.symm, fun h => ⟨hlen, h.symm⟩⟩

namespace SparseMerkleTree

variable {tree tree' : SparseMerkleTree} {key : Bytes32}

theorem siblings_getProof_congr (hsame : ∀ k, k ≠ key → tree'.get k = tree.get k) :
    (tree'.getProof key).siblings = (tree.getProof key).siblings := by
  rw [siblings_getProof, siblings_getProof]
  refine FullTree.siblings_congr merkleNodeHash (keyBits key) fun p hp hne => ?_
  rw [length_keyBits] at hp
  rw [← keyBits_pathOf hp, leafAt_keyBits, leafAt_keyBits, hsame]
  rintro rfl
  exact hne (keyBits_pathOf hp).symm

/-- **A stateless update**: where one leaf changes alone, by whatever calls, the old proof with the
new value is the new proof, and the only root it verifies against is the new one. -/
theorem stateless_update (h : tree'.Built) (hsame : ∀ k, k ≠ key → tree'.get k = tree.get k) :
    tree'.getProof key = { tree.getProof key with value := tree'.get key } ∧
      ∀ root, verifyCoinProof { tree.getProof key with value := tree'.get key } root = true ↔
        root = tree'.root.1 := by
  have hproof : tree'.getProof key = { tree.getProof key with value := tree'.get key } :=
    congrArg (SparseMerkleProof.mk key (tree'.get key)) (siblings_getProof_congr hsame)
  refine ⟨hproof, fun root => ?_⟩
  rw [← hproof]
  exact SparseMerkleProof.verify_eq_true_iff (verify_getProof h.coherent key) root

end SparseMerkleTree

/-! ## Proofs of a store -/

variable {U U' : Set Coin} {P P' : BlockData → Prop} {s s' : CoinStore}

theorem CoinStore.Represents.verify_getProof {S : Scope} {m : Coinset} (h : s.Represents S m)
    (key : Bytes32) : verifyCoinProof (s.merkleTree.getProof key) s.stateRoot.1 = true :=
  SparseMerkleTree.verify_getProof h.coherent key

/-- **A proof is good for one coin set**: the proof of any key in one store verifies against the root
of another one exactly if the two hold the same rows. -/
theorem Reachable.stale_proof_iff (h : Reachable U P s) (h' : Reachable U' P' s')
    (hfree : CoinStore.CollisionFree s s') (key : Bytes32) :
    verifyCoinProof (s.merkleTree.getProof key) s'.stateRoot.1 = true ↔
      s'.backend.tables .coinRecords = s.backend.tables .coinRecords := by
  obtain ⟨m, hm, _⟩ := h.life
  obtain ⟨m', hm', _⟩ := h'.life
  have hmirror := hm.rows .coinRecords (by simp [Scope.life, lifeFamilies])
  have hmirror' := hm'.rows .coinRecords (by simp [Scope.life, lifeFamilies])
  rw [verifyCoinProof, SparseMerkleProof.verify_eq_true_iff (hm.verify_getProof key)]
  constructor
  · intro hroot
    obtain rfl := CoinStore.coinset_eq_of_root hm hm' hfree hroot.symm
    exact Std.ExtTreeMap.ext_getElem? fun k => congrFun (hmirror'.unique hmirror) k
  · intro hrows
    obtain rfl : m = m' := funext fun id => by
      have hget := hm.getCoinRecord_eq id
      rw [CoinStore.getCoinRecord, Backend.get_of_healthy hm.healthy, ← hrows,
        ← Backend.get_of_healthy hm'.healthy] at hget
      exact Except.ok.inj (hget.symm.trans (hm'.getCoinRecord_eq id))
    exact (hm.root_congr hm').symm

/-- **What a verified proof says of a coin** is what the store answers: the row of a record shows
that it is stored, and the empty leaf that no record is. -/
theorem Reachable.proof_certifies (h : Reachable U P s) {p : SparseMerkleProof} {rec : CoinRecord}
    (hrec : Storable rec) (hfree : Set.InjOn Chia.sha256
      (s.hashedInputs ∪ p.hashedInputs ∪ {0x00 :: serializeCoinRecordStorageBytes rec}))
    (hverify : verifyCoinProof p s.stateRoot.1 = true) :
    (p.leafValue = merkleLeafHash (serializeCoinRecordStorageBytes rec) ↔
        s.getCoinRecord p.key = .ok (some rec)) ∧
      (p.leafValue = emptyHash 0 ↔ s.getCoinRecord p.key = .ok none) := by
  obtain ⟨m, hm, _⟩ := h.life
  have hpairs : Set.InjOn (Function.uncurry merkleNodeHash)
      (s.merkleTree.hashedPairs ∪ p.hashedPairs) := by
    have hin : ∀ q ∈ s.merkleTree.hashedPairs ∪ p.hashedPairs, 0x01 :: (q.1.bytes ++ q.2.bytes) ∈
        s.hashedInputs ∪ p.hashedInputs ∪ {0x00 :: serializeCoinRecordStorageBytes rec} := by
      rintro q (hq | hq)
      · exact .inl (.inl (.inr ⟨q, hq, rfl⟩))
      · exact .inl (.inr ⟨q, hq, rfl⟩)
    intro q hq q' hq' heq
    obtain ⟨hl, hr⟩ := append_bytes_inj.1 (List.cons.inj (hfree (hin q hq) (hin q' hq') heq)).2
    exact Prod.ext hl hr
  have hleaf := SparseMerkleProof.verify_leaf hm.coherent hpairs hverify
  have hempty : (0x00 :: emptyLeafSentinel : Bytes) ∈
      s.hashedInputs ∪ p.hashedInputs ∪ {0x00 :: serializeCoinRecordStorageBytes rec} :=
    .inl (.inl (.inl (.inl rfl)))
  -- no row is the payload of the empty leaf
  have hlong : ∀ {rec' : CoinRecord}, 0x00 :: serializeCoinRecordStorageBytes rec' ∈
      s.hashedInputs ∪ p.hashedInputs ∪ {0x00 :: serializeCoinRecordStorageBytes rec} →
      merkleLeafHash (serializeCoinRecordStorageBytes rec') ≠ emptyHash 0 := fun {rec'} hin =>
    SparseMerkleTree.leafHash_ne_emptyHash fun a ha b hb hab => by
      have hmem : ∀ x ∈ ({emptyLeafSentinel, serializeCoinRecordStorageBytes rec'} : Set Bytes),
          0x00 :: x ∈ s.hashedInputs ∪ p.hashedInputs ∪ {0x00 :: serializeCoinRecordStorageBytes rec} := by
        rintro x (rfl | rfl)
        · exact hempty
        · exact hin
      exact (List.cons.inj (hfree (hmem a ha) (hmem b hb) hab)).2
  rw [hm.getCoinRecord_eq, hleaf, SparseMerkleTree.get, hm.leaves]
  cases hmk : m p.key with
  | none =>
    refine ⟨⟨fun heq => absurd heq.symm (hlong (.inr rfl)), fun heq => ?_⟩, fun _ => rfl, fun _ => rfl⟩
    cases Except.ok.inj heq
  | some stored =>
    have hstored : 0x00 :: serializeCoinRecordStorageBytes stored ∈
        s.hashedInputs ∪ p.hashedInputs ∪ {0x00 :: serializeCoinRecordStorageBytes rec} :=
      .inl (.inl (hm.row_hashed hmk))
    refine ⟨⟨fun heq => ?_, fun heq => ?_⟩, fun heq => absurd heq (hlong hstored), fun heq => ?_⟩
    · have hrow := (List.cons.inj (hfree hstored (.inr rfl) heq)).2
      rw [serialize_inj (hm.lives.storable hmk) hrec hrow]
    · obtain rfl := Option.some.inj (Except.ok.inj heq)
      rfl
    · cases Except.ok.inj heq

end DigCoinstore

namespace DigCoinstore

open Sample

theorem stateless_update_oneLeaf :
    verifyCoinProof { SparseMerkleTree.new.getProof (ofNum 1) with
      value := SparseMerkleTree.oneLeaf.get (ofNum 1) } SparseMerkleTree.oneLeaf.root.1 = true := by
  refine ((SparseMerkleTree.stateless_update SparseMerkleTree.built_oneLeaf fun k hk => ?_).2
    _).2 rfl
  rw [SparseMerkleTree.get_oneLeaf, if_neg (Ne.symm hk)]
  exact Std.ExtTreeMap.getElem?_empty.symm

/-- Coin 1 was spent and un-spent again since the proof was made. -/
theorem stale_proof_iff_oneCoin :
    verifyCoinProof (oneCoin.merkleTree.getProof (ofNum 1)) oneCoinBack.stateRoot.1 = true ↔
      oneCoinBack.backend.tables .coinRecords = oneCoin.backend.tables .coinRecords :=
  reachable_oneCoin.stale_proof_iff reachable_oneCoinBack collisionFree_oneCoinBack (ofNum 1)

/-- The proof of coin 1 shows its record. -/
theorem proof_certifies_oneCoin :
    ((oneCoin.merkleTree.getProof (ofNum 1)).leafValue =
          merkleLeafHash (serializeCoinRecordStorageBytes (.new (coin 1) 0 10 false)) ↔
        oneCoin.getCoinRecord (ofNum 1) = .ok (some (.new (coin 1) 0 10 false))) ∧
      ((oneCoin.merkleTree.getProof (ofNum 1)).leafValue = emptyHash 0 ↔
        oneCoin.getCoinRecord (ofNum 1) = .ok none) := by
  obtain ⟨m, hm, _⟩ := reachable_oneCoin.life
  have hproof : (oneCoin.merkleTree.getProof (ofNum 1)).hashedInputs ⊆ oneCoin.hashedInputs := by
    rintro x ⟨q, hq, rfl⟩
    exact .inr ⟨q, SparseMerkleTree.hashedPairs_getProof _ hq, rfl⟩
  refine reachable_oneCoin.proof_certifies (p := oneCoin.merkleTree.getProof (ofNum 1))
    (.inr (by decide)) (SparseMerkleTree.injOn_oneLeafInputs.mono ?_)
    (hm.verify_getProof _)
  rw [Set.union_eq_left.2 hproof]
  refine Set.union_subset hashedInputs_oneCoin_self ?_
  rintro x rfl
  exact .inl (.inr rfl)

end DigCoinstore
