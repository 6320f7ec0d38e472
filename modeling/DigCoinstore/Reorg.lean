import DigCoinstore.Durability
import DigCoinstore.IndexExact
import DigCoinstore.RollbackExact

/-!
# Reorganisations

A run of accepted blocks is rolled back to the height `t` it started from. The coins are back with
their lives and indices exactly when the rollback is not refused (`Reachable.rollback_undoes_iff`).
The state root is back when every removed coin had the fast-forward flag that an un-spend gives it
(`Reachable.rollback_root_iff`).
-/

namespace DigCoinstore

variable [Chia]

namespace Coinset.SameLife

variable {m m' : Coinset}

omit [Chia] in
theorem get (h : m.SameLife m') {id : CoinId} {rec : CoinRecord} (hm : m id = some rec) :
    ∃ rec', m' id = some rec' ∧ rec'.life = rec.life := by
  have hlife := h id
  rw [hm, Option.map_some, eq_comm, Option.map_eq_some_iff] at hlife
  exact hlife

omit [Chia] in
theorem get_none (h : m.SameLife m') {id : CoinId} (hm : m id = none) : m' id = none := by
  have hlife := h id
  rwa [hm, Option.map_none, eq_comm, Option.map_eq_none_iff] at hlife

end Coinset.SameLife

/-! ## The state root -/

namespace History

variable {S S' : Scope} {s s' : CoinStore} {m m' : Coinset} {bs : List BlockData}

/-- A block changes the lives of the coins: its height has coins. -/
theorem not_sameLife (hist : History s m bs s' m') (h : s.Represents S m) (h' : s'.Represents S' m')
    (hbs : bs ≠ []) : ¬ m'.SameLife m := by
  intro hsame
  have hpos := List.length_pos_iff.2 hbs
  have hheight := hist.height
  obtain ⟨id, rec', hm', hconf⟩ := h'.filled s'.height (by omega) le_rfl
  obtain ⟨rec, hm, hlife⟩ := hsame.get hm'
  have hconf' : rec.life.confirmedHeight = rec'.life.confirmedHeight :=
    congrArg CoinRecord.confirmedHeight hlife
  change rec.confirmedHeight = rec'.confirmedHeight at hconf'
  have := h.lives.confirmed_le hm
  rw [hconf', hconf] at this
  omega

theorem coinset_ne (hist : History s m bs s' m') (h : s.Represents S m) (h' : s'.Represents S' m')
    (hbs : bs ≠ []) : m' ≠ m :=
  fun heq => hist.not_sameLife h h' hbs fun id => by rw [heq]

end History

/-- **When a rollback restores the root**: the call is not refused, and every removed coin was
flagged for fast-forward exactly if its parent is stored when the rollback starts. -/
theorem Reachable.rollback_root_iff {U : Set Coin} {P : BlockData → Prop} {s s' : CoinStore}
    (h : Reachable U P s) {bs : List BlockData} (hacc : Accepted s bs s') {t : Int64}
    (ht : t.toInt = s.height.toNat)
    (hfree : CoinStore.CollisionFree s (s'.rollbackToBlock t).1) :
    (s'.rollbackToBlock t).1.stateRoot.1 = s.stateRoot.1 ↔ t ≤ s'.height.toInt64 ∧
      ∀ b ∈ bs, ∀ id ∈ b.removals, ∀ rec, s.getCoinRecord id = .ok (some rec) →
        (rec.ffEligible = true ↔
          ∃ parent, s'.getCoinRecord rec.coin.parentCoinInfo = .ok (some parent)) := by
  obtain ⟨m, hm, _⟩ := h.life
  obtain ⟨m', hm', hist, _⟩ := hacc.history hm fun _ _ _ _ => Set.mem_univ _
  have hflags : (∀ b ∈ bs, ∀ id ∈ b.removals, ∀ rec, s.getCoinRecord id = .ok (some rec) →
        (rec.ffEligible = true ↔
          ∃ parent, s'.getCoinRecord rec.coin.parentCoinInfo = .ok (some parent))) ↔
      m'.rollback s.height = m := by
    have hflag : ∀ rec : CoinRecord, rec.ffEligible = (m' rec.coin.parentCoinInfo).isSome ↔
        (rec.ffEligible = true ↔
          ∃ parent, s'.getCoinRecord rec.coin.parentCoinInfo = .ok (some parent)) := fun rec => by
      rw [Bool.eq_iff_iff, Option.isSome_iff_exists]
      simp only [hm'.getCoinRecord_eq, Except.ok.injEq]
    rw [hist.rollback_eq_iff hm.lives]
    simp only [hm.getCoinRecord_eq, Except.ok.injEq, hflag]
  rw [hflags]
  have hout := hacc.backToStart hm' hist ht
  generalize s'.rollbackToBlock t = out at hout hfree
  cases hout with
  | nothing hnil hsame hle =>
    subst hnil hsame
    refine iff_of_true rfl ⟨hle, ?_⟩
    exact (hist.rollback_eq_iff hm.lives).2 fun b hb => absurd hb List.not_mem_nil
  | back _ hle hrb =>
    rw [and_iff_right hle]
    constructor
    · exact fun hroot => (CoinStore.coinset_eq_of_root hm hrb.represents hfree hroot.symm).symm
    · exact fun heq => CoinStore.Represents.root_congr (heq ▸ hrb.represents) hm
  | above hbs habove =>
    refine iff_of_false (fun hroot => ?_) fun hand => habove hand.1
    exact hist.coinset_ne hm hm' hbs (CoinStore.coinset_eq_of_root hm hm' hfree hroot.symm).symm

/-! ## Lives and indices -/

/-- The five index families. -/
def indexFamilies : List ColumnFamily :=
  [.coinByPuzzleHash, .unspentByPuzzleHash, .coinByParent, .coinByConfirmedHeight,
    .coinBySpentHeight]

omit [Chia] in
/-- The same coins are unspent. -/
theorem Coinset.SameLife.unspent {m m' : Coinset} (h : m.SameLife m') (id : CoinId) :
    (∃ rec, m id = some rec ∧ rec.spentHeight = none) ↔
      ∃ rec, m' id = some rec ∧ rec.spentHeight = none := by
  have hget : ∀ m : Coinset, (∃ rec, m id = some rec ∧ rec.spentHeight = none) ↔
      ∃ rec, (m id).map CoinRecord.life = some rec ∧ rec.spentHeight = none := fun m => by
    cases m id <;> simp [CoinRecord.life]
  rw [hget m, hget m', h id]

namespace Coinset.SameLife

variable {m m' : Coinset}

/-- Records with the same lives have the same id. -/
theorem coinId_eq {rec rec' : CoinRecord} (h : rec.life = rec'.life) : rec.coinId = rec'.coinId := by
  have hid : rec.life.coinId = rec'.life.coinId := congrArg CoinRecord.coinId h
  exact hid

theorem put (h : m.SameLife m') {rec rec' : CoinRecord} (hrec : rec.life = rec'.life) :
    (m.put rec).SameLife (m'.put rec') := by
  intro id
  by_cases hid : id = rec.coinId
  · rw [hid, Coinset.put_self, coinId_eq hrec, Coinset.put_self, Option.map_some, hrec,
      Option.map_some]
  · rw [Coinset.put_of_ne _ hid, Coinset.put_of_ne _ (coinId_eq hrec ▸ hid)]
    exact h id

theorem putAll : ∀ {recs recs' : List CoinRecord} {m m' : Coinset}, m.SameLife m' →
    recs.map CoinRecord.life = recs'.map CoinRecord.life → (m.putAll recs).SameLife (m'.putAll recs')
  | [], [], _, _, h, _ => h
  | [], _ :: _, _, _, _, hrecs => by simp at hrecs
  | _ :: _, [], _, _, _, hrecs => by simp at hrecs
  | rec :: recs, rec' :: recs', m, m', h, hrecs => by
    obtain ⟨hhead, htail⟩ := List.cons.inj hrecs
    rw [Coinset.putAll_cons, Coinset.putAll_cons]
    exact putAll (h.put hhead) htail

/-- A block that fits a store fits another with the same lives and the same tip, and the lives
after it are the same. -/
theorem applicable (h : m.SameLife m') {s s' : CoinStore} {block : BlockData}
    {removed : List CoinRecord} (ha : s.Applicable m block removed) (hinit : s'.initialized = true)
    (hheight : s'.height = s.height) (htip : s'.tipHash = s.tipHash) : ∃ removed',
      s'.Applicable m' block removed' ∧
        (m.applyBlock block removed).SameLife (m'.applyBlock block removed') := by
  let twin : CoinRecord → CoinRecord := fun rec => (m' rec.coinId).getD rec
  have htwin : ∀ rec ∈ removed, m' rec.coinId = some (twin rec) ∧ (twin rec).life = rec.life :=
    fun rec hrec => by
    obtain ⟨rec', hm', hlife⟩ := h.get (ha.live rec hrec).1
    have heq : twin rec = rec' := by simp [twin, hm']
    rw [heq]
    exact ⟨hm', hlife⟩
  refine ⟨removed.map twin, ?_, ?_⟩
  · exact {
      initialized := hinit
      height_lt := hheight ▸ ha.height_lt
      height := hheight ▸ ha.height
      parent := htip ▸ ha.parent
      rewards := ha.rewards
      removals := by
        rw [ha.removals, List.map_map]
        exact List.map_congr_left fun rec hrec => (coinId_eq (htwin rec hrec).2).symm
      live := fun rec' hrec' => by
        obtain ⟨rec, hrec, rfl⟩ := List.mem_map.1 hrec'
        obtain ⟨hm', hlife⟩ := htwin rec hrec
        have hspent : (twin rec).life.spentHeight = rec.life.spentHeight :=
          congrArg CoinRecord.spentHeight hlife
        rw [coinId_eq hlife]
        exact ⟨hm', hspent.trans (ha.live rec hrec).2⟩
      nodup := ha.nodup
      claimed := fun id hid => h.get_none (ha.claimed id hid)
      fresh := fun rec hrec => h.get_none (ha.fresh rec hrec) }
  · refine (h.putAll rfl).putAll ?_
    simp only [List.map_map]
    exact List.map_congr_left fun rec hrec =>
      congrArg (CoinRecord.spend · block.height) (htwin rec hrec).2.symm

end Coinset.SameLife

/-- The block without the check of its root. -/
def BlockData.withoutRoot (block : BlockData) : BlockData := { block with expectedStateRoot := none }

/-- A run can be replayed on a store with the same lives and the same tip. -/
theorem Accepted.replay {S S' : Scope} {s s₁ : CoinStore} {bs : List BlockData}
    (hacc : Accepted s bs s₁) : ∀ {s' : CoinStore} {m m' : Coinset}, s.Represents S m →
    s'.Represents S' m' → m.SameLife m' → s'.initialized = true → s'.height = s.height →
    s'.tipHash = s.tipHash → (∀ c, c ∈ S.coins) → (∀ c, c ∈ S'.coins) →
    ∃ s₁', Accepted s' (bs.map BlockData.withoutRoot) s₁' := by
  induction hacc with
  | nil => exact fun {s'} _ _ _ _ _ _ _ _ _ _ => ⟨s', .nil⟩
  | @cons s s₁ s₂ block bs result happ _ ih =>
    intro s' m m' h h' hsame hinit hheight htip hall hall'
    obtain ⟨removed, tree, ha, htree, rfl, _⟩ := h.of_accepted happ
    obtain ⟨removed', ha', hsame'⟩ := hsame.applicable ha hinit hheight htip
    obtain ⟨tree', htree', happ'⟩ := h'.applyBlock_of_applicable (ha'.withExpected none) rfl
    obtain ⟨s₂', hrest⟩ := ih (h.accept_represents (fun c _ => hall c) ha htree)
      (h'.accept_represents (fun c _ => hall' c) (ha'.withExpected none) htree') hsame' hinit rfl rfl
      hall hall'
    exact ⟨s₂', .cons happ' hrest⟩

/-- **When a reorganisation can be replayed**: the tip is that of `s` again and the blocks are
accepted once more exactly if the rollback is not refused, the tip hash of `s` is zero and the last
block has the timestamp of `s`. -/
theorem Reachable.reorg_replay_iff {U : Set Coin} {P : BlockData → Prop} {s s' : CoinStore}
    (h : Reachable U P s) {bs : List BlockData} (hbs : bs ≠ []) (hacc : Accepted s bs s') {t : Int64}
    (ht : t.toInt = s.height.toNat) :
    ((s'.rollbackToBlock t).1.height = s.height ∧ (s'.rollbackToBlock t).1.tipHash = s.tipHash ∧
        (s'.rollbackToBlock t).1.timestamp = s.timestamp ∧
        ∃ s₁, Accepted (s'.rollbackToBlock t).1 (bs.map BlockData.withoutRoot) s₁) ↔
      t ≤ s'.height.toInt64 ∧ s.tipHash = .zero ∧ (bs.getLast hbs).timestamp = s.timestamp := by
  obtain ⟨m, hm, _⟩ := h.life
  obtain ⟨m', hm', hist, _⟩ := hacc.history hm fun _ _ _ _ => Set.mem_univ _
  have htime := hist.timestamp _ (List.getLast?_eq_some_getLast hbs)
  have hout := hacc.backToStart hm' hist ht
  generalize s'.rollbackToBlock t = out at hout
  cases hout with
  | nothing hnil => exact absurd hnil hbs
  | above _ habove =>
    refine iff_of_false (fun htip => ?_) fun hcond => habove hcond.1
    have hpos := List.length_pos_iff.2 hbs
    have hsame : s'.height = s.height := htip.1
    have := hist.height
    rw [hsame] at this
    omega
  | back _ hle hrb =>
    rw [hrb.height, hrb.tipHash, hrb.timestamp, htime, and_iff_right rfl, and_iff_right hle,
      eq_comm (a := Bytes32.zero)]
    refine and_congr_right fun hzero => and_iff_left ?_
    exact hacc.replay hm hrb.represents (fun id => (hist.rollback_sameLife hm.lives id).symm)
      hrb.initialized hrb.height (hrb.tipHash.trans hzero.symm) (fun _ => Set.mem_univ _)
      fun _ => Set.mem_univ _

end DigCoinstore

namespace DigCoinstore

open Sample

/-- Coin 1 has no stored parent and was not flagged: it is un-spent as it was. -/
theorem rollback_root_iff_spendOne :
    oneCoinBack.stateRoot.1 = oneCoin.stateRoot.1 ↔
      0 ≤ (oneCoin.applyBlock spendOne).1.height.toInt64 ∧
      ∀ b ∈ [spendOne], ∀ id ∈ b.removals, ∀ rec, oneCoin.getCoinRecord id = .ok (some rec) →
        (rec.ffEligible = true ↔ ∃ parent,
          (oneCoin.applyBlock spendOne).1.getCoinRecord rec.coin.parentCoinInfo =
            .ok (some parent)) :=
  reachable_oneCoin.rollback_root_iff accepted_spendOne (by decide +kernel) collisionFree_oneCoinBack

/-- Coin 2 is a child of coin 1: un-spending it writes another row, and the root is another. -/
theorem rollback_changes_root : Reachable coins BlockData.Honest genesis ∧
    Accepted genesis [blockOne] afterOne ∧ (afterOne.rollbackToBlock 0).2.isOk = true ∧
    (afterOne.rollbackToBlock 0).1.stateRoot.1 ≠ genesis.stateRoot.1 := by
  obtain ⟨hok, hleaf, hheight, htip⟩ : (afterOne.rollbackToBlock 0).2.isOk = true ∧
      ((afterOne.rollbackToBlock 0).1.merkleTree.get (ofNum 2)).getD (emptyHash 0) ≠
        (genesis.merkleTree.get (ofNum 2)).getD (emptyHash 0) ∧
      (0 : Int64).toInt = genesis.height.toNat ∧ 0 ≤ afterOne.height.toInt64 := by decide +kernel
  refine ⟨reachable_genesis, accepted_one, hok, ?_⟩
  obtain ⟨m, hm, _⟩ := reachable_genesis.life
  obtain ⟨m', hm', hist, _⟩ := accepted_one.history hm fun _ _ _ _ => Set.mem_univ _
  have hout := accepted_one.backToStart hm' hist hheight
  clear hok
  generalize afterOne.rollbackToBlock 0 = out at hout hleaf
  cases hout with
  | nothing hnil => exact nomatch hnil
  | above _ habove => exact absurd htip habove
  | back _ _ hrb =>
    rw [hrb.represents.stateRoot_eq, hm.stateRoot_eq]
    refine SparseMerkleTree.fullRoot_ne node_left_cancel node_right_cancel hleaf fun id hid => ?_
    rw [SparseMerkleTree.get, SparseMerkleTree.get, hrb.represents.leaves, hm.leaves]
    rcases hist.rollback_cases hm.lives id with ⟨hnone, hback⟩ | ⟨rec, hrec, _, hback⟩ |
      ⟨_, _, _, ⟨b, hb, hmem⟩, _⟩
    · rw [hnone, hback]
    · rw [hrec, hback]
    · -- the block removes coin 2 only
      obtain rfl := List.mem_singleton.1 hb
      exact absurd (List.mem_singleton.1 hmem) hid

theorem reorg_replay_iff_blockTwo :
    ((afterTwo.rollbackToBlock 1).1.height = afterOne.height ∧
        (afterTwo.rollbackToBlock 1).1.tipHash = afterOne.tipHash ∧
        (afterTwo.rollbackToBlock 1).1.timestamp = afterOne.timestamp ∧
        ∃ s₁, Accepted (afterTwo.rollbackToBlock 1).1 ([blockTwo].map BlockData.withoutRoot) s₁) ↔
      1 ≤ afterTwo.height.toInt64 ∧ afterOne.tipHash = .zero ∧
        ([blockTwo].getLast (List.cons_ne_nil _ _)).timestamp = afterOne.timestamp :=
  reachable_afterOne.reorg_replay_iff (List.cons_ne_nil _ _) accepted_two (by decide +kernel)

/-- After the rollback of block two the tip hash is zero, and block two is rejected. -/
theorem reorg_replay_rejected : Reachable coins BlockData.Honest afterOne ∧
    Accepted afterOne [blockTwo] afterTwo ∧ (afterTwo.rollbackToBlock 1).2.isOk = true ∧
    (afterTwo.rollbackToBlock 1).1.tipHash ≠ afterOne.tipHash ∧
    ¬ ∃ s₁, Accepted (afterTwo.rollbackToBlock 1).1 ([blockTwo].map BlockData.withoutRoot) s₁ := by
  obtain ⟨hok, htip, hrej⟩ : (afterTwo.rollbackToBlock 1).2.isOk = true ∧
      (afterTwo.rollbackToBlock 1).1.tipHash ≠ afterOne.tipHash ∧
      ((afterTwo.rollbackToBlock 1).1.applyBlock blockTwo.withoutRoot).2.isOk = false := by
    decide +kernel
  refine ⟨reachable_afterOne, accepted_two, hok, htip, ?_⟩
  clear hok htip
  generalize (afterTwo.rollbackToBlock 1).1 = s at hrej
  rintro ⟨s₁, hacc⟩
  cases hacc with
  | cons happ _ =>
    rw [happ] at hrej
    cases hrej

end DigCoinstore
