import DigCoinstore.SnapshotFacts

/-!
# The invariant of a run

Every state of a run represents a coin set, and with blocks that claim their coins its unspent set
is that of the coin set (`Reachable.represents`). The calls that write hints touch no coin
(`addHint_step`, `removeHintsForCoins_step`).
-/

namespace DigCoinstore

/-! ## Hints -/

/-- The backend differs from the tables `t` in the hints alone. -/
def Backend.HintsOnly (t : Tables) (b : Backend) : Prop :=
  b.Healthy ∧ ∀ cf, cf ∉ CoinStore.hintFamilies → b.tables cf = t cf

namespace Backend.HintsOnly

variable {t : Tables} {b : Backend}

theorem put (h : b.HintsOnly t) {cf : ColumnFamily} (hcf : cf ∈ CoinStore.hintFamilies)
    (key value : Bytes) : ({ b with tables := b.tables.put cf key value } : Backend).HintsOnly t := by
  refine ⟨h.1, fun cf' hcf' => ?_⟩
  have hne : cf' ≠ cf := fun heq => hcf' (heq ▸ hcf)
  rw [← h.2 cf' hcf']
  exact Function.update_of_ne hne _ _

theorem delete (h : b.HintsOnly t) {cf : ColumnFamily} (hcf : cf ∈ CoinStore.hintFamilies)
    (key : Bytes) : ({ b with tables := b.tables.delete cf key } : Backend).HintsOnly t := by
  refine ⟨h.1, fun cf' hcf' => ?_⟩
  have hne : cf' ≠ cf := fun heq => hcf' (heq ▸ hcf)
  rw [← h.2 cf' hcf']
  exact Function.update_of_ne hne _ _

end Backend.HintsOnly

theorem addHintRows_inv {t : Tables} {b : Backend} (h : b.HintsOnly t) (id : CoinId) (hint : Bytes) :
    (addHintRows b id hint).1.HintsOnly t := by
  have hput := h.put (show .hints ∈ CoinStore.hintFamilies by simp [CoinStore.hintFamilies])
    (id.bytes ++ hint) []
  unfold addHintRows
  rw [Backend.get_of_healthy h.1, orStorage_ok]
  cases (b.tables .hints)[id.bytes ++ hint]? with
  | some v => exact h
  | none =>
    simp only [Backend.put_of_healthy h.1, Backend.put_of_healthy hput.1]
    exact hput.put (by simp [CoinStore.hintFamilies]) _ _

theorem removeHintRow_inv (t : Tables) (id : CoinId) (b : Backend) (removed : Nat) (fwdKey : Bytes)
    (h : b.HintsOnly t) : (removeHintRow id b removed fwdKey).1.HintsOnly t := by
  have hdel := h.delete (show .hintsByValue ∈ CoinStore.hintFamilies by simp [CoinStore.hintFamilies])
    (fwdKey.drop 32 ++ id.bytes)
  unfold removeHintRow
  split
  · exact h
  · simp only [Backend.delete_of_healthy h.1, Backend.delete_of_healthy hdel.1]
    exact hdel.delete (by simp [CoinStore.hintFamilies]) _

theorem removeHintsForCoin_inv (t : Tables) (b : Backend) (removed : Nat) (id : CoinId)
    (h : b.HintsOnly t) : (removeHintsForCoin b removed id).1.HintsOnly t := by
  rw [removeHintsForCoin, Backend.prefixScan_of_healthy h.1, orStorage_ok]
  exact forBackend_inv _ b removed (fun b n key _ hb => removeHintRow_inv t id b n key hb) h

variable [Chia]

namespace CoinStore.Represents

variable {S : Scope} {s : CoinStore} {m : Coinset}

theorem withHints (h : s.Represents S m) {b : Backend} (hb : b.HintsOnly s.backend.tables) :
    ({ s with backend := b } : CoinStore).Represents S m where
  healthy := hb.1
  rows := h.rows.congr fun cf hcf => by
    obtain ⟨hh, hv, _⟩ := ne_of_mem_coinFamilies (S.sub_coin cf hcf)
    exact hb.2 cf (by simp [hintFamilies, hh, hv])
  leaves := h.leaves
  coherent := h.coherent
  tip := by
    have hmeta := hb.2 .metadata (by simp [hintFamilies])
    obtain ⟨h1, h2, h3, h4⟩ := h.tip
    constructor <;> rw [hmeta] <;> assumption
  ids := h.ids
  coins := h.coins
  lives := h.lives
  filled := h.filled
  blank := h.blank

theorem addHint_step (h : s.Represents S m) (id : CoinId) (hint : Bytes) :
    (s.addHint id hint).1.Represents S m ∧ (s.addHint id hint).1.unspentIds = s.unspentIds := by
  unfold addHint
  split
  · exact ⟨h, rfl⟩
  · exact ⟨h, rfl⟩
  · exact ⟨h.withHints (addHintRows_inv ⟨h.healthy, fun _ _ => rfl⟩ id hint), rfl⟩

theorem removeHintsForCoins_step (h : s.Represents S m) (ids : List CoinId) :
    (s.removeHintsForCoins ids).1.Represents S m ∧
      (s.removeHintsForCoins ids).1.unspentIds = s.unspentIds :=
  ⟨h.withHints (forBackend_inv ids s.backend 0
    (fun b n id _ hb => removeHintsForCoin_inv s.backend.tables b n id hb)
    ⟨h.healthy, fun _ _ => rfl⟩), rfl⟩

end CoinStore.Represents

/-! ## Every call -/

namespace CoinStore

variable {S : Scope} {s : CoinStore} {m : Coinset}

/-- A store of some coin set, with an exact unspent set if the blocks claimed their coins. -/
def Follows (S : Scope) (honest : Prop) (s : CoinStore) : Prop :=
  ∃ m, s.Represents S m ∧ (honest → s.UnspentExact m)

namespace Represents

theorem initGenesis_step (h : s.Represents S m) {honest : Prop} (hu : honest → s.UnspentExact m)
    {coins : List (Coin × Bool)} (hcoins : ∀ c ∈ coins, c.1 ∈ S.coins) (timestamp : UInt64) :
    (s.initGenesis coins timestamp).1.Follows S honest := by
  cases hinit : s.initialized with
  | true =>
    rw [initGenesis, if_pos hinit]
    exact ⟨m, h, hu⟩
  | false =>
    obtain ⟨s', root, heq, h', hu', _⟩ := h.initGenesis_spec hinit hcoins timestamp
    rw [heq]
    exact ⟨_, h', fun _ => hu'⟩

/-- Another tree with the same leaves. -/
theorem withTree (h : s.Represents S m) {tree : SparseMerkleTree} (htree : TreeOf tree m) :
    ({ s with merkleTree := tree } : CoinStore).Represents S m :=
  h.transfer ⟨rfl, rfl, rfl, rfl⟩ rfl htree.1 (fun id => (htree.2 id).trans (h.leaves id).symm)
    fun hb => (h.blank hb).2.2.2.2

theorem stateRoot_step (h : s.Represents S m) : s.stateRoot.2.Represents S m := by
  have htree : TreeOf s.merkleTree.root.2 m := by
    refine ⟨SparseMerkleTree.root_coherent h.coherent, fun id => ?_⟩
    rw [SparseMerkleTree.root_leaves, h.leaves]
  exact h.withTree htree

theorem applyBlock_step (h : s.Represents S m) {honest : Prop} (hu : honest → s.UnspentExact m)
    {block : BlockData} (hcoins : ∀ c ∈ block.coins, c ∈ S.coins) (hblock : honest → block.ClaimsItsCoins) :
    (s.applyBlock block).1.Follows S honest := by
  have hout := h.applyBlock_outcome block
  generalize s.applyBlock block = out at hout
  cases hout with
  | rejected => exact ⟨m, h, hu⟩
  | mismatched _ _ hrebuilt => exact ⟨m, h.withTree hrebuilt, hu⟩
  | accepted ha htree =>
    exact ⟨_, h.accept_represents hcoins ha htree, fun hh =>
      Represents.accept_unspent (hu hh) (hblock hh) ha _⟩

theorem rollbackToBlock_step (h : s.Represents S m) {honest : Prop} (hu : honest → s.UnspentExact m)
    (target : Int64) : (s.rollbackToBlock target).1.Follows S honest := by
  have hout := h.rollbackToBlock_outcome target
  generalize s.rollbackToBlock target = out at hout
  cases hout with
  | rejected => exact ⟨m, h, hu⟩
  | kept => exact ⟨m, h, hu⟩
  | rolledBack _ _ _ hrb => exact ⟨_, hrb.represents, fun hh => hrb.unspent (hu hh)⟩

theorem rollbackNBlocks_step (h : s.Represents S m) {honest : Prop} (hu : honest → s.UnspentExact m)
    (n : UInt64) : (s.rollbackNBlocks n).1.Follows S honest := by
  unfold rollbackNBlocks
  split
  · exact ⟨m, h, hu⟩
  · split
    · exact ⟨m, h, hu⟩
    · exact h.rollbackToBlock_step hu _

end Represents

end CoinStore

/-- **Every state of a run represents a coin set.** -/
theorem Reachable.represents {S : Scope} {P : BlockData → Prop} {s : CoinStore}
    (h : Reachable S.coins P s) : s.Follows S (∀ b, P b → b.ClaimsItsCoins) := by
  induction h with
  | new hopen =>
    obtain ⟨h, hu, _⟩ := CoinStore.withConfig_fresh hopen
    exact ⟨_, h, fun _ => hu⟩
  | initGenesis _ hcoins ih =>
    obtain ⟨m, h, hu⟩ := ih
    exact h.initGenesis_step hu hcoins _
  | applyBlock _ hcoins hP ih =>
    obtain ⟨m, h, hu⟩ := ih
    exact h.applyBlock_step hu hcoins fun hh => hh _ hP
  | rollbackToBlock _ ih =>
    obtain ⟨m, h, hu⟩ := ih
    exact h.rollbackToBlock_step hu _
  | rollbackNBlocks _ ih =>
    obtain ⟨m, h, hu⟩ := ih
    exact h.rollbackNBlocks_step hu _
  | restore _ _ hsnap ih ih' =>
    obtain ⟨_, h, _⟩ := ih
    obtain ⟨m, hsource, _⟩ := ih'
    obtain ⟨s', heq, h', hu', _⟩ := hsource.restore_spec hsnap h.healthy
    rw [heq]
    exact ⟨m, h', fun _ => hu'⟩
  | reopen _ hopen ih =>
    obtain ⟨m, h, _⟩ := ih
    obtain ⟨s', heq, h', hu', _⟩ := h.withConfig_spec _
    obtain rfl := Except.ok.inj (hopen.symm.trans heq)
    exact ⟨m, h', fun _ => hu'⟩
  | stateRoot _ ih =>
    obtain ⟨m, h, hu⟩ := ih
    exact ⟨m, h.stateRoot_step, hu⟩
  | addHint _ ih =>
    obtain ⟨m, h, hu⟩ := ih
    obtain ⟨h', hids⟩ := h.addHint_step _ _
    exact ⟨m, h', fun hh id => by rw [hids]; exact hu hh id⟩
  | removeHintsForCoins _ ih =>
    obtain ⟨m, h, hu⟩ := ih
    obtain ⟨h', hids⟩ := h.removeHintsForCoins_step _
    exact ⟨m, h', fun hh id => by rw [hids]; exact hu hh id⟩

end DigCoinstore
