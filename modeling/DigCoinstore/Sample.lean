import DigCoinstore.Merkle.Persist
import DigCoinstore.Opening

/-!
# A sample chain

A digest that can be computed: a node adds the numbers of its children and one, so that it tells
its children apart one at a time and no two empty subtrees collide; a coin's id is its amount. Over
it a chain of two blocks: the genesis coins 1 and 2, of which block one spends coin 2, whose parent
is coin 1. A store that holds coin 1 only has a tree with one leaf, and nothing hashed for its state
root collides (`SparseMerkleTree.injOn_oneLeafInputs`).
-/

namespace DigCoinstore.Sample

/-! ## Numbers and hashes -/

def ofNum (n : Nat) : Bytes32 := ⟨FixedInt.leBytes 32 n, FixedInt.length_leBytes 32 n⟩

def num (b : Bytes32) : Nat := FixedInt.ofLeBytes b.bytes

theorem num_ofNum (n : Nat) : num (ofNum n) = n % 2 ^ 256 := FixedInt.ofLeBytes_leBytes_mod 32 n

theorem num_lt (b : Bytes32) : num b < 2 ^ 256 := by
  have hlt := FixedInt.ofLeBytes_lt b.bytes
  rwa [b.length_bytes] at hlt

theorem num_inj {a b : Bytes32} (h : num a = num b) : a = b := by
  have hbytes : ∀ c : Bytes32, FixedInt.leBytes 32 (num c) = c.bytes := fun c => by
    have hc := FixedInt.leBytes_ofLeBytes c.bytes
    rwa [c.length_bytes] at hc
  rw [← Bytes32.bytes_inj, ← hbytes a, h, hbytes b]

theorem ofNum_inj {n n' : Nat} (h : ofNum n = ofNum n') : n % 2 ^ 256 = n' % 2 ^ 256 := by
  rw [← num_ofNum, h, num_ofNum]

def sha256 (input : Bytes) : Bytes32 :=
  match input with
  | 0x00 :: payload => if payload = emptyLeafSentinel then .zero else ofNum payload.length
  | 0x01 :: rest =>
    ofNum (FixedInt.ofLeBytes (rest.take 32) + FixedInt.ofLeBytes (rest.drop 32) + 1)
  | _ => .zero

scoped instance digest : Chia where
  sha256 := sha256
  coinId c := ofNum c.amount.toNat
  display _ := ""
  debug _ := ""

theorem sha256_leaf {payload : Bytes} (h : payload.length ≠ 32) :
    Chia.sha256 (0x00 :: payload) = ofNum payload.length :=
  if_neg fun heq => h (by simp [heq, emptyLeafSentinel])

theorem merkleNodeHash_eq (l r : Bytes32) : merkleNodeHash l r = ofNum (num l + num r + 1) := by
  have hl : (l.bytes ++ r.bytes).take 32 = l.bytes := List.take_left' l.length_bytes
  have hr : (l.bytes ++ r.bytes).drop 32 = r.bytes := List.drop_left' l.length_bytes
  change ofNum (FixedInt.ofLeBytes ((l.bytes ++ r.bytes).take 32) +
    FixedInt.ofLeBytes ((l.bytes ++ r.bytes).drop 32) + 1) = _
  rw [hl, hr]
  rfl

theorem node_left_cancel (a a' b : Bytes32) (h : merkleNodeHash a b = merkleNodeHash a' b) :
    a = a' := by
  rw [merkleNodeHash_eq, merkleNodeHash_eq] at h
  have := ofNum_inj h
  have := num_lt a
  have := num_lt a'
  exact num_inj (by omega)

theorem node_right_cancel (a b b' : Bytes32) (h : merkleNodeHash a b = merkleNodeHash a b') :
    b = b' := by
  rw [merkleNodeHash_eq, merkleNodeHash_eq] at h
  have := ofNum_inj h
  have := num_lt b
  have := num_lt b'
  exact num_inj (by omega)

theorem num_emptyHash : ∀ level, level ≤ 256 → num (emptyHash level) = 2 ^ level - 1
  | 0, _ => by decide
  | level + 1, hle => by
    have ih := num_emptyHash level (by omega)
    have hlt : 2 ^ (level + 1) ≤ 2 ^ 256 := Nat.pow_le_pow_right (by omega) hle
    have hpos := Nat.two_pow_pos level
    rw [emptyHash, merkleNodeHash_eq, num_ofNum, ih, Nat.pow_succ]
    rw [Nat.pow_succ] at hlt
    rw [Nat.mod_eq_of_lt (by omega)]
    omega

/-! ## The chain -/

def coin (n : UInt64) : Coin where
  parentCoinInfo := if n = 2 then ofNum 1 else .zero
  puzzleHash := ofNum n.toNat
  amount := n

def coins : Set Coin := Set.range coin

theorem coin_mem (n : UInt64) : coin n ∈ coins := ⟨n, rfl⟩

theorem coinId_injOn : Set.InjOn Chia.coinId coins := by
  rintro _ ⟨n, rfl⟩ _ ⟨n', rfl⟩ h
  have hmod : n.toNat % 2 ^ 256 = n'.toNat % 2 ^ 256 := ofNum_inj h
  have hn := n.toNat_lt
  have hn' := n'.toNat_lt
  rw [UInt64.toNat_inj.1 (show n.toNat = n'.toNat by omega)]

def opened : CoinStore := .blank { maxSnapshots := 1 }

/-- A genesis without coins. -/
def emptyGenesis : CoinStore := (opened.initGenesis [] 10).1

def genesis : CoinStore := (opened.initGenesis [(coin 1, false), (coin 2, false)] 10).1

def blockOne : BlockData where
  height := 1
  timestamp := 20
  blockHash := ofNum 1001
  parentHash := .zero
  additions := []
  removals := [ofNum 2]
  coinbaseCoins := [coin 3, coin 4]
  hints := []
  expectedStateRoot := none

def afterOne : CoinStore := (genesis.applyBlock blockOne).1

def blockTwo : BlockData where
  height := 2
  timestamp := 30
  blockHash := ofNum 1002
  parentHash := ofNum 1001
  additions := []
  removals := []
  coinbaseCoins := [coin 5, coin 6]
  hints := []
  expectedStateRoot := none

def afterTwo : CoinStore := (afterOne.applyBlock blockTwo).1

theorem operated_genesis : Operated genesis :=
  (Operated.new (CoinStore.withConfig_fresh_eq _)).call .initGenesis

theorem reachable_opened : Reachable coins BlockData.Honest opened :=
  .new (CoinStore.withConfig_fresh_eq _)

theorem reachable_emptyGenesis : Reachable coins BlockData.Honest emptyGenesis :=
  reachable_opened.initGenesis fun _ hc => (nomatch hc)

theorem reachable_genesis : Reachable coins BlockData.Honest genesis := by
  refine reachable_opened.initGenesis fun c hc => ?_
  simp only [List.mem_cons, List.not_mem_nil, or_false] at hc
  rcases hc with rfl | rfl <;> exact coin_mem _

/-- A block that spends nothing. -/
def rewardBlock : BlockData := { blockOne with removals := [] }

theorem blockOne_fits : blockOne.Honest ∧ ∀ c ∈ blockOne.coins, c ∈ coins := by
  refine ⟨fun a ha => (nomatch ha), fun c hc => ?_⟩
  simp only [blockOne, BlockData.coins, List.map_nil, List.append_nil, List.mem_cons,
    List.not_mem_nil, or_false] at hc
  rcases hc with rfl | rfl <;> exact coin_mem _

theorem reachable_afterOne : Reachable coins BlockData.Honest afterOne :=
  reachable_genesis.applyBlock blockOne_fits.2 blockOne_fits.1

/-- The blocks of the chain are valid. -/
theorem blocks_ok : (genesis.applyBlock blockOne).2.isOk = true ∧
    (afterOne.applyBlock blockTwo).2.isOk = true ∧
    (emptyGenesis.applyBlock rewardBlock).2.isOk = true := by
  decide +kernel

theorem accepted_one : Accepted genesis [blockOne] afterOne := .single blocks_ok.1

theorem accepted_two : Accepted afterOne [blockTwo] afterTwo := .single blocks_ok.2.1

theorem accepted_reward :
    Accepted emptyGenesis [rewardBlock] (emptyGenesis.applyBlock rewardBlock).1 :=
  .single blocks_ok.2.2

/-! ## A store with one coin -/

def oneCoin : CoinStore := (opened.initGenesis [(coin 1, false)] 10).1

/-- A block that spends coin 1. -/
def spendOne : BlockData := { blockOne with removals := [ofNum 1] }

/-- Coin 1 is spent and un-spent again, the rewards of the block come and go. -/
def oneCoinBack : CoinStore := ((oneCoin.applyBlock spendOne).1.rollbackToBlock 0).1

theorem reachable_oneCoin : Reachable coins BlockData.Honest oneCoin := by
  refine reachable_opened.initGenesis fun c hc => ?_
  obtain rfl := List.mem_singleton.1 hc
  exact coin_mem _

theorem accepted_spendOne : Accepted oneCoin [spendOne] (oneCoin.applyBlock spendOne).1 :=
  .single (by decide +kernel)

theorem reachable_oneCoinBack : Reachable coins BlockData.Honest oneCoinBack := by
  refine (accepted_spendOne.reachable reachable_oneCoin fun b hb => ?_).rollbackToBlock
  obtain rfl := List.mem_singleton.1 hb
  exact blockOne_fits

end DigCoinstore.Sample

namespace DigCoinstore.SparseMerkleTree

open Sample

/-! ## A tree with one leaf -/

/-- A path of turns adds up the empty subtrees beside it. -/
theorem num_climb (v : Bytes32) : ∀ bits : List Bool, bits.length ≤ 256 →
    num (FullTree.climb merkleNodeHash bits
      ((List.range bits.length).reverse.map (FullTree.emptyRoot merkleNodeHash (emptyHash 0))) v) =
        (num v + 2 ^ bits.length - 1) % 2 ^ 256
  | [], _ => by
    have hv := num_lt v
    simp only [FullTree.climb, List.length_nil, Nat.pow_zero]
    omega
  | b :: bits, hle => by
    rw [List.length_cons] at hle
    have ih := num_climb v bits (by omega)
    have hempty := num_emptyHash bits.length (by omega)
    have hpos := Nat.two_pow_pos bits.length
    rw [List.length_cons, List.range_succ, List.reverse_append, List.reverse_singleton,
      List.singleton_append, List.map_cons, FullTree.climb, ← emptyHash_eq, merkleNodeHash_eq,
      merkleNodeHash_eq, Nat.pow_succ]
    cases b with
    | false =>
      rw [if_neg Bool.false_ne_true, num_ofNum, ih, hempty]
      omega
    | true =>
      rw [if_pos rfl, num_ofNum, ih, hempty]
      omega

/-- The tree that holds the leaf of one row. -/
def oneLeaf : SparseMerkleTree :=
  { leaves := (∅ : IdMap Bytes32).insert (ofNum 1) (CoinStore.leafHash (.new (coin 1) 0 10 false))
    rootHash := none
    dirtyMerkleNodes := ∅ }

theorem built_oneLeaf : oneLeaf.Built := by
  have hins : new.batchInsert [(ofNum 1, CoinStore.leafHash (.new (coin 1) 0 10 false))] =
      .ok { oneLeaf with dirtyMerkleNodes := new.dirtyMerkleNodes } :=
    batchInsert_eq_ok.2 ⟨fun e _ => Std.ExtTreeMap.getElem?_empty, rfl⟩
  exact Built.new.batchInsert hins

theorem get_oneLeaf (key : Bytes32) : oneLeaf.get key =
    if ofNum 1 = key then some (CoinStore.leafHash (.new (coin 1) 0 10 false)) else none := by
  rw [get, oneLeaf, OrdMap.getElem?_insert, Std.ExtTreeMap.getElem?_empty]

/-- The digest of the row is its length. -/
theorem num_leafHash : num (CoinStore.leafHash (.new (coin 1) 0 10 false)) = 97 := by
  have hlen : (serializeCoinRecordStorageBytes (.new (coin 1) 0 10 false)).length = 97 :=
    length_serializeLegacy _
  rw [CoinStore.leafHash, merkleLeafHash, sha256_leaf (by omega), num_ofNum, hlen]
  omega

theorem leafHash_ne_empty : CoinStore.leafHash (.new (coin 1) 0 10 false) ≠ emptyHash 0 := by
  intro heq
  have hnum := num_leafHash
  rw [heq, num_emptyHash 0 (by omega)] at hnum
  omega

/-- The pairs on the path of the leaf, and equal empty subtrees. -/
def oneLeafPairs : Set (Bytes32 × Bytes32) :=
  {p | ∃ i < 256, p = (FullTree.emptyRoot merkleNodeHash (emptyHash 0) i,
      FullTree.emptyRoot merkleNodeHash (emptyHash 0) i) ∨
    p = FullTree.climbedPair merkleNodeHash (emptyHash 0)
      (CoinStore.leafHash (.new (coin 1) 0 10 false)) (keyBits (ofNum 1)) i}

theorem hashedPairs_oneLeaf : oneLeaf.hashedPairs ⊆ oneLeafPairs := by
  have hleaf : leafAt oneLeaf.leaves.toList 0 = fun p => if p = keyBits (ofNum 1)
      then CoinStore.leafHash (.new (coin 1) 0 10 false) else emptyHash 0 := by
    have hlist : oneLeaf.leaves.toList =
        [(ofNum 1, CoinStore.leafHash (.new (coin 1) 0 10 false))] := by
      refine List.perm_singleton.1 ((OrdMap.toList_insert_perm _ _ _).trans (.of_eq ?_))
      rw [OrdMap.toList_eq_nil fun _ => Std.ExtTreeMap.getElem?_empty, List.filter_nil]
    funext p
    rw [hlist, leafAt, List.find?_cons, List.drop_zero, List.find?_nil]
    by_cases hp : keyBits (ofNum 1) = p
    · rw [beq_iff_eq.2 hp, if_pos hp.symm]
    · rw [beq_eq_false_iff_ne.2 hp, if_neg (Ne.symm hp)]
  have hpairs := (FullTree.pairs_single merkleNodeHash (emptyHash 0)
    (CoinStore.leafHash (.new (coin 1) 0 10 false)) (keyBits (ofNum 1))).1
  rwa [← hleaf, length_keyBits] at hpairs

/-- The digest of two equal empty subtrees. -/
theorem num_emptyPair {i : Nat} (hi : i < 256) : num (Function.uncurry merkleNodeHash
    (FullTree.emptyRoot merkleNodeHash (emptyHash 0) i,
      FullTree.emptyRoot merkleNodeHash (emptyHash 0) i)) = 2 ^ (i + 1) - 1 := by
  rw [← emptyHash_eq]
  exact num_emptyHash (i + 1) hi

/-- The digest of a pair on the path of the leaf. -/
theorem num_climbedPair {i : Nat} (hi : i < 256) :
    num (Function.uncurry merkleNodeHash (FullTree.climbedPair merkleNodeHash
      (emptyHash 0) (CoinStore.leafHash (.new (coin 1) 0 10 false)) (keyBits (ofNum 1)) i)) =
        if i = 255 then 96 else 96 + 2 ^ (i + 1) := by
  have hnum := num_leafHash
  have hlen : ((keyBits (ofNum 1)).drop ((keyBits (ofNum 1)).length - i)).length = i := by
    rw [List.length_drop, length_keyBits]
    omega
  have hclimb := num_climb (CoinStore.leafHash (.new (coin 1) 0 10 false))
    ((keyBits (ofNum 1)).drop ((keyBits (ofNum 1)).length - i)) (by omega)
  rw [hlen, hnum] at hclimb
  have hzero := num_emptyHash i (by omega)
  have hpos := Nat.two_pow_pos i
  have hsum : num (Function.uncurry merkleNodeHash (FullTree.climbedPair merkleNodeHash
      (emptyHash 0) (CoinStore.leafHash (.new (coin 1) 0 10 false)) (keyBits (ofNum 1)) i)) =
        (2 ^ i + (97 + 2 ^ i - 1) % 2 ^ 256) % 2 ^ 256 := by
    rw [FullTree.climbedPair, FullTree.climbed, ← emptyHash_eq]
    split
    · rw [Function.uncurry_apply_pair, merkleNodeHash_eq, num_ofNum, hclimb, hzero]
      omega
    · rw [Function.uncurry_apply_pair, merkleNodeHash_eq, num_ofNum, hclimb, hzero]
      omega
  rw [hsum]
  by_cases hlast : i = 255
  · subst hlast
    decide
  · have hle : 2 ^ i ≤ 2 ^ 254 := Nat.pow_le_pow_right (by omega) (by omega)
    rw [if_neg hlast, Nat.pow_succ]
    omega

/-- No two of them collide. -/
theorem injOn_oneLeafPairs : Set.InjOn (Function.uncurry merkleNodeHash) oneLeafPairs := by
  have hexp : ∀ {i j : Nat}, 2 ^ (i + 1) = 2 ^ (j + 1) → i = j := fun h =>
    Nat.succ.inj (Nat.pow_right_injective le_rfl h)
  intro p hp q hq heq
  obtain ⟨i, hi, hpi⟩ := hp
  obtain ⟨j, hj, hqj⟩ := hq
  have hsame := congrArg num heq
  have hposi := Nat.two_pow_pos i
  have hposj := Nat.two_pow_pos j
  rcases hpi with hpi | hpi <;> rcases hqj with hqj | hqj <;> rw [hpi, hqj] at hsame ⊢
  · rw [num_emptyPair hi, num_emptyPair hj] at hsame
    have hposi' := Nat.two_pow_pos (i + 1)
    have hposj' := Nat.two_pow_pos (j + 1)
    have hij : i = j := hexp (by omega)
    rw [hij]
  · rw [num_emptyPair hi, num_climbedPair hj, Nat.pow_succ, Nat.pow_succ] at hsame
    split at hsame <;> omega
  · rw [num_climbedPair hi, num_emptyPair hj, Nat.pow_succ, Nat.pow_succ] at hsame
    split at hsame <;> omega
  · rw [num_climbedPair hi, num_climbedPair hj] at hsame
    have hij : i = j := by
      by_cases hi' : i = 255 <;> by_cases hj' : j = 255
      · omega
      · rw [if_pos hi', if_neg hj', Nat.pow_succ] at hsame
        omega
      · rw [if_neg hi', if_pos hj', Nat.pow_succ] at hsame
        omega
      · rw [if_neg hi', if_neg hj'] at hsame
        exact hexp (by omega)
    rw [hij]

/-- No two of the pairs hashed for it collide. -/
theorem injOn_oneLeaf : Set.InjOn (Function.uncurry merkleNodeHash) oneLeaf.hashedPairs :=
  injOn_oneLeafPairs.mono hashedPairs_oneLeaf

/-- The byte strings hashed for a store with that leaf: the empty leaf, the row, the pairs. -/
def oneLeafInputs : Set Bytes :=
  {0x00 :: emptyLeafSentinel, 0x00 :: serializeCoinRecordStorageBytes (.new (coin 1) 0 10 false)} ∪
    {x | ∃ p ∈ oneLeafPairs, x = 0x01 :: (p.1.bytes ++ p.2.bytes)}

/-- The pairs do not collide with the leaves. -/
theorem num_oneLeafPair {p : Bytes32 × Bytes32} (hp : p ∈ oneLeafPairs) :
    num (Function.uncurry merkleNodeHash p) ≠ 0 ∧ num (Function.uncurry merkleNodeHash p) ≠ 97 := by
  have hpow : ∀ k : Nat, 2 ^ k ≠ 98 := fun k hk => by
    rcases Nat.lt_or_ge k 7 with hlt | hge
    · have := Nat.pow_le_pow_right Nat.two_pos (Nat.le_of_lt_succ hlt)
      omega
    · have := Nat.pow_le_pow_right Nat.two_pos hge
      omega
  obtain ⟨i, hi, hp⟩ := hp
  have hpos := Nat.two_pow_pos i
  have hne := hpow (i + 1)
  rw [Nat.pow_succ] at hne
  rcases hp with hp | hp
  · rw [hp, num_emptyPair hi, Nat.pow_succ]
    omega
  · rw [hp, num_climbedPair hi, Nat.pow_succ]
    split <;> omega

/-- No two of them collide. -/
theorem injOn_oneLeafInputs : Set.InjOn Chia.sha256 oneLeafInputs := by
  have hempty : num (Chia.sha256 (0x00 :: emptyLeafSentinel)) = 0 := num_emptyHash 0 (by omega)
  have hrow : num (Chia.sha256
      (0x00 :: serializeCoinRecordStorageBytes (.new (coin 1) 0 10 false))) = 97 := num_leafHash
  have hpair : ∀ p ∈ oneLeafPairs, num (Chia.sha256 (0x01 :: (p.1.bytes ++ p.2.bytes))) ≠ 0 ∧
      num (Chia.sha256 (0x01 :: (p.1.bytes ++ p.2.bytes))) ≠ 97 := fun p hp => num_oneLeafPair hp
  rintro x ((rfl | rfl) | ⟨p, hp, rfl⟩) y ((rfl | rfl) | ⟨q, hq, rfl⟩) heq
  · rfl
  · rw [heq, hrow] at hempty
    omega
  · exact absurd ((congrArg num heq).symm.trans hempty) (hpair q hq).1
  · rw [← heq, hrow] at hempty
    omega
  · rfl
  · exact absurd ((congrArg num heq).symm.trans hrow) (hpair q hq).2
  · exact absurd ((congrArg num heq).trans hempty) (hpair p hp).1
  · exact absurd ((congrArg num heq).trans hrow) (hpair p hp).2
  · rw [injOn_oneLeafPairs hp hq heq]

end DigCoinstore.SparseMerkleTree

