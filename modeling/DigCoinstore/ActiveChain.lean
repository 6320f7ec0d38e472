import DigCoinstore.RollbackTwice

/-!
# The active chain

The blocks that a store accepted and did not roll back are its active chain. The coins of a store
are those that replaying the chain from its genesis gives, but for fast-forward flags
(`OnChain.explained`): whatever forks it followed, wherever it was restarted or restored from, two
stores on one chain agree (`OnChain.stores_agree`).
-/

namespace DigCoinstore

variable [Chia]

/-- **A chain**: a genesis and the blocks after it. -/
structure Chain where
  genesis : List (Coin × Bool)
  timestamp : UInt64
  blocks : List BlockData

namespace Chain

variable (c : Chain)

/-- One more block. -/
def push (block : BlockData) : Chain := { c with blocks := c.blocks ++ [block] }

/-- The chain up to a height. -/
def cut (height : UInt64) : Chain := { c with blocks := c.blocks.take height.toNat }

/-- One block replayed: its coins come, those it removes are spent. -/
def replayBlock (m : Coinset) (block : BlockData) : Coinset :=
  m.applyBlock block (block.removals.filterMap m)

/-- **The coins of a chain**, replayed from its genesis without any check. -/
def coins : Coinset :=
  c.blocks.foldl replayBlock (Coinset.empty.putAll (c.genesis.map (genesisRecord c.timestamp)))

/-- What an answered call does to the chain. -/
def next (chain : Option Chain) : Call → Answer → Option Chain
  | .initGenesis coins timestamp, .root (.ok _) => some ⟨coins, timestamp, []⟩
  | .applyBlock block, .block (.ok _) => chain.map (·.push block)
  | .rollbackToBlock _, .rollback (.ok result) => chain.map (·.cut result.newHeight)
  | .rollbackNBlocks _, .rollback (.ok result) => chain.map (·.cut result.newHeight)
  | _, _ => chain

omit [Chia] in
/-- Both rollback calls cut at the reported height. -/
theorem next_rollbackNBlocks (chain : Option Chain) (n : UInt64) (target : Int64)
    (result : Res RollbackResult) : next chain (.rollbackNBlocks n) (.rollback result) =
      next chain (.rollbackToBlock target) (.rollback result) := by
  cases result <;> rfl

theorem coins_push (block : BlockData) : (c.push block).coins = replayBlock c.coins block := by
  rw [coins, push, List.foldl_append]
  rfl

omit [Chia] in
theorem cut_push {block : BlockData} {height : UInt64} (h : height.toNat ≤ c.blocks.length) :
    (c.push block).cut height = c.cut height := by
  rw [cut, push, List.take_append_of_le_length h]
  rfl

omit [Chia] in
theorem cut_cut {height height' : UInt64} (h : height' ≤ height) :
    (c.cut height).cut height' = c.cut height' := by
  simp only [cut, List.take_take, Nat.min_eq_left (UInt64.le_iff_toNat_le.1 h)]

omit [Chia] in
theorem cut_of_length_le {height : UInt64} (h : c.blocks.length ≤ height.toNat) :
    c.cut height = c := by
  rw [cut, List.take_of_length_le h]

end Chain

/-- What a caller promises: a block claims the ids of its coins, the serializer iterates over the
map that it writes. -/
def CoinStore.Promises (s : CoinStore) : Call → Prop
  | .applyBlock block => block.ClaimsItsCoins
  | .saveSnapshot entries => ∀ snap, s.snapshot = .ok snap → snap.Iterates entries
  | .restore _ => False
  | _ => True

/-- **The stores of a run with their active chains**; a restore takes a snapshot of such a store,
and its chain. -/
inductive OnChain : Option Chain → CoinStore → Prop
  | opened {config : CoinStoreConfig} {s : CoinStore} :
    CoinStore.withConfig config .fresh = .ok s → OnChain none s
  | call {chain : Option Chain} {s : CoinStore} {call : Call} : OnChain chain s → s.Promises call →
    OnChain (Chain.next chain call (s.step call).2) (s.step call).1
  | restore {chain chain' : Option Chain} {s source : CoinStore} {snapshot : CoinStoreSnapshot} :
    OnChain chain s → OnChain chain' source → source.snapshot = .ok snapshot →
      OnChain chain' (s.restore snapshot).1

namespace OnChain

variable {s s' : CoinStore} {c : Chain}

theorem started {coins : List (Coin × Bool)} {timestamp : UInt64} (h : OnChain none s)
    (hrun : (s.initGenesis coins timestamp).2.isOk = true) :
    OnChain (some ⟨coins, timestamp, []⟩) (s.initGenesis coins timestamp).1 := by
  have hcall : OnChain (Chain.next none (.initGenesis coins timestamp)
      (.root (s.initGenesis coins timestamp).2)) (s.initGenesis coins timestamp).1 := h.call trivial
  cases hroot : (s.initGenesis coins timestamp).2 with
  | ok root => rwa [hroot] at hcall
  | error e =>
    rw [hroot] at hrun
    cases hrun

theorem accepted {block : BlockData} {result : ApplyBlockResult} (h : OnChain (some c) s)
    (hclaims : block.ClaimsItsCoins) (hrun : s.applyBlock block = (s', .ok result)) :
    OnChain (some (c.push block)) s' := by
  have hcall : OnChain (Chain.next (some c) (.applyBlock block) (.block (s.applyBlock block).2))
      (s.applyBlock block).1 := h.call hclaims
  rwa [hrun] at hcall

theorem rolledBack {target : Int64} {height : UInt64} (h : OnChain (some c) s)
    (hrun : (s.rollbackToBlock target).2.toOption.map (·.newHeight) = some height) :
    OnChain (some (c.cut height)) (s.rollbackToBlock target).1 := by
  have hcall : OnChain (Chain.next (some c) (.rollbackToBlock target)
      (.rollback (s.rollbackToBlock target).2)) (s.rollbackToBlock target).1 := h.call trivial
  obtain ⟨result, hresult, rfl⟩ := Option.map_eq_some_iff.1 hrun
  rwa [Res.eq_ok_of_toOption hresult] at hcall

end OnChain

/-! ## Lives after a cut -/

namespace Coinset

variable {m m' : Coinset}

omit [Chia] in
theorem SameLife.refl (m : Coinset) : m.SameLife m := fun _ => rfl

omit [Chia] in
theorem SameLife.trans {m'' : Coinset} (h : m.SameLife m') (h' : m'.SameLife m'') : m.SameLife m'' :=
  fun id => (h id).trans (h' id)

omit [Chia] in
theorem SameLife.symm (h : m.SameLife m') : m'.SameLife m := fun id => (h id).symm

omit [Chia] in
/-- Blocks after a height are cut away with it. -/
theorem rollback_sameLife_of_later {tip : Nat} (h : Lifecycle.Later coinLife tip m m')
    {target : UInt64} (ht : target.toNat ≤ tip) :
    (m'.rollback target).SameLife (m.rollback target) :=
  h.map_cut ht CoinRecord.life (fun _ => rfl) fun _ => rfl

omit [Chia] in
/-- A rollback to the tip keeps the lives. -/
theorem Lives.rollback_tip {tip : UInt64} (h : m.Lives tip) : (m.rollback tip).SameLife m := by
  intro id
  cases hm : m id with
  | none => rw [rollback_of_none hm]
  | some rec =>
    rw [rollback_of_kept hm (UInt64.le_iff_toNat_le.2 (h.confirmed_le hm)) fun sh hs => ?_]
    exact UInt64.le_iff_toNat_le.2 (h.spent hm hs).2

/-- The lives after a replayed block. -/
theorem SameLife.replayBlock (h : m.SameLife m') {s : CoinStore} {block : BlockData}
    {removed : List CoinRecord} (ha : s.Applicable m block removed) :
    (m.applyBlock block removed).SameLife (Chain.replayBlock m' block) := by
  obtain ⟨removed', ha', hsame⟩ := h.applicable ha ha.initialized rfl rfl
  have hfound : block.removals.filterMap m' = removed' := by
    rw [ha'.removals, List.filterMap_map]
    refine (List.filterMap_congr fun rec hrec => ?_).trans List.filterMap_some
    exact (ha'.live rec hrec).1
  rw [Chain.replayBlock, hfound]
  exact hsame

end Coinset

/-! ## The chain explains the ledger -/

namespace Ledger

/-- **The ledger is that of the chain**: rolled back to any height it has the lives of the chain up
to there. -/
structure Explains (c : Chain) (l : Ledger) : Prop where
  initialized : l.initialized = true
  height : l.height.toNat = c.blocks.length
  coins : ∀ height, height ≤ l.height → (l.coinset.rollback height).SameLife (c.cut height).coins

/-- No chain before genesis. -/
def ExplainedBy (l : Ledger) : Option Chain → Prop
  | none => l.initialized = false
  | some c => Explains c l

namespace Explains

variable {c : Chain} {l : Ledger} {s : CoinStore}

/-- The lives at the tip. -/
theorem tip (h : Explains c l) (hl : l.coinset.Lives l.height) : l.coinset.SameLife c.coins := by
  have htip := h.coins l.height (UInt64.le_refl _)
  rw [c.cut_of_length_le h.height.ge] at htip
  exact hl.rollback_tip.symm.trans htip

theorem congr {l' : Ledger} (h : Explains c l) (hinit : l'.initialized = l.initialized)
    (hheight : l'.height = l.height) (hcoins : l'.coins = l.coins) : Explains c l' where
  initialized := hinit.trans h.initialized
  height := hheight ▸ h.height
  coins height hle := by
    have hset : l'.coinset = l.coinset := funext fun id => by
      show l'.coins[id]? = l.coins[id]?
      rw [hcoins]
    rw [hset]
    exact h.coins height (hheight ▸ hle)

/-- Genesis starts a chain. -/
theorem genesis {coins : List (Coin × Bool)} {timestamp : UInt64}
    (hl : (putRecords ∅ (coins.map (genesisRecord timestamp)) = l.coins)) (hinit : l.initialized = true)
    (hheight : l.height = 0) (hlives : l.coinset.Lives l.height) :
    Explains ⟨coins, timestamp, []⟩ l where
  initialized := hinit
  height := by rw [hheight]; rfl
  coins height hle := by
    have hset : l.coinset = (Chain.mk coins timestamp []).coins := funext fun id => by
      show l.coins[id]? = _
      rw [← hl, get_putRecords]
      rfl
    have hzero : height = l.height := by
      refine UInt64.toNat_inj.1 ?_
      have hnat := UInt64.le_iff_toNat_le.1 hle
      rw [hheight, UInt64.toNat_zero] at hnat ⊢
      omega
    rw [hzero, Chain.cut_of_length_le _ (Nat.zero_le _), ← hset]
    exact hlives.rollback_tip

/-- **A block lengthens the chain**; below it the lives are those before. -/
theorem applyBlock {l' : Ledger} {block : BlockData} {removed : List CoinRecord}
    (h : Explains c l) (hl : l.coinset.Lives l.height) (hs : s.height = l.height)
    (ha : s.Applicable l.coinset block removed) (hinit : l'.initialized = true)
    (hheight : l'.height = block.height) (hl' : l'.coinset.Lives l'.height)
    (hcoins : l'.coinset = l.coinset.applyBlock block removed) : Explains (c.push block) l' := by
  have hnext : l'.height.toNat = l.height.toNat + 1 := by
    rw [hheight, ha.height_toNat, hs]
  have hlength : l'.height.toNat = (c.push block).blocks.length := by
    rw [hnext, h.height, Chain.push, List.length_append]
    rfl
  refine ⟨hinit, hlength, fun height hle => ?_⟩
  by_cases hbelow : height ≤ l.height
  · rw [c.cut_push (h.height ▸ UInt64.le_iff_toNat_le.1 hbelow), hcoins]
    refine (Coinset.rollback_sameLife_of_later ha.later ?_).trans (h.coins height hbelow)
    rw [hs]
    exact UInt64.le_iff_toNat_le.1 hbelow
  · obtain rfl : height = l'.height := by
      refine UInt64.toNat_inj.1 ?_
      have hnat := UInt64.le_iff_toNat_le.1 hle
      rw [UInt64.le_iff_toNat_le] at hbelow
      omega
    rw [Chain.cut_of_length_le _ hlength.ge, Chain.coins_push]
    refine hl'.rollback_tip.trans ?_
    rw [hcoins]
    exact (h.tip hl).replayBlock ha

/-- **A rollback cuts the chain.** -/
theorem rollbackToBlock {l' : Ledger} {target : Int64} {result : RollbackResult}
    (h : Explains c l) (hrun : l.rollbackToBlock target = (l', .ok result)) :
    Explains (c.cut result.newHeight) l' := by
  obtain ⟨-, -, ⟨-, rfl, -, hnew⟩ | ⟨hcut, hl'⟩⟩ := rollbackToBlock_cases hrun
  · rw [hnew, c.cut_of_length_le h.height.ge]
    exact h
  · have hle := CoinStore.effectiveTarget_le hcut
    obtain rfl : (l.cutTo (CoinStore.effectiveTarget target)).1 = l' := congrArg Prod.fst hl'
    obtain rfl := Except.ok.inj (congrArg Prod.snd hl')
    refine ⟨h.initialized, ?_, fun height hbelow => ?_⟩
    · show (CoinStore.effectiveTarget target).toNat = (c.blocks.take _).length
      rw [List.length_take, ← h.height, Nat.min_eq_left (UInt64.le_iff_toNat_le.1 hle)]
    · have hbelow : height ≤ CoinStore.effectiveTarget target := hbelow
      rw [coinset_cutTo, Chain.cut_cut _ hbelow]
      exact (Coinset.rollback_rollback_sameLife hbelow).trans
        (h.coins height (UInt64.le_trans hbelow hle))

end Explains

/-- What an accepted block leaves. -/
theorem applyBlock_ok {l l' : Ledger} {block : BlockData} {result : ApplyBlockResult}
    (hrun : l.applyBlock block = (l', .ok result)) : ∃ removed, l.validate block = .ok removed ∧
      l'.coins = l.coinsAfter block removed ∧ l'.height = block.height ∧
      l'.initialized = l.initialized := by
  rw [applyBlock] at hrun
  cases hval : l.validate block with
  | error e =>
    rw [hval] at hrun
    cases hrun
  | ok removed =>
    rw [hval] at hrun
    dsimp only at hrun
    split at hrun
    · cases hrun
    · obtain rfl := congrArg Prod.fst hrun
      exact ⟨removed, rfl, rfl, rfl, rfl⟩

namespace ExplainedBy

variable {chain : Option Chain} {l : Ledger} {s : CoinStore}

theorem congr {l' : Ledger} (h : l.ExplainedBy chain) (hinit : l'.initialized = l.initialized)
    (hheight : l'.height = l.height) (hcoins : l'.coins = l.coins) : l'.ExplainedBy chain := by
  cases chain with
  | none => exact hinit.trans h
  | some c => exact Explains.congr h hinit hheight hcoins

theorem applyBlock (h : l.ExplainedBy chain) (hs : s.Tracks l) {block : BlockData}
    (hclaims : block.ClaimsItsCoins) : (l.applyBlock block).1.ExplainedBy
      (Chain.next chain (.applyBlock block) (.block (l.applyBlock block).2)) := by
  have hlives := (hs.applyBlock_step hclaims).2.represents.lives
  rw [(hs.applyBlock_step hclaims).2.height] at hlives
  rcases hrun : l.applyBlock block with ⟨l', e | result⟩
  · have hsame : (l.applyBlock block).1 = l := l.applyBlock_failed (by rw [hrun]; rfl)
    rw [hrun] at hsame
    exact hsame ▸ h
  · rw [hrun] at hlives
    obtain ⟨removed, hval, hcoins, hheight, hinit⟩ := applyBlock_ok hrun
    have ha := hs.applicable hclaims ((hs.validateBlock_eq block).trans hval)
    have hset : l'.coinset = l.coinset.applyBlock block removed := funext fun id => by
      show l'.coins[id]? = _
      rw [hcoins, l.get_coinsAfter]
    cases chain with
    | none =>
      have hblank := hs.initialized.symm.trans ha.initialized
      rw [show l.initialized = false from h] at hblank
      cases hblank
    | some c =>
      have h : Explains c l := h
      exact h.applyBlock (hs.height ▸ hs.represents.lives) hs.height ha
        (hinit.trans h.initialized) hheight hlives hset

theorem rollbackToBlock (h : l.ExplainedBy chain) (target : Int64) :
    (l.rollbackToBlock target).1.ExplainedBy
      (Chain.next chain (.rollbackToBlock target) (.rollback (l.rollbackToBlock target).2)) := by
  rcases hrun : l.rollbackToBlock target with ⟨l', e | result⟩
  · have hsame : (l.rollbackToBlock target).1 = l := l.rollbackToBlock_failed (by rw [hrun]; rfl)
    rw [hrun] at hsame
    exact hsame ▸ h
  · cases chain with
    | none =>
      have hinit := (rollbackToBlock_cases hrun).1
      rw [show l.initialized = false from h] at hinit
      cases hinit
    | some c => exact Explains.rollbackToBlock h hrun

/-- **One call**: a genesis, an accepted block and a rollback change the chain as their answers
tell, every other call leaves the coins and the height. -/
theorem step (h : l.ExplainedBy chain) (hs : s.Tracks l) {call : Call} (hcall : l.Promises call) :
    (l.step call).1.ExplainedBy (Chain.next chain call (l.step call).2) := by
  cases call with
  | initGenesis coins timestamp =>
    have hlives := (hs.initGenesis_step coins timestamp).2.represents.lives
    rw [(hs.initGenesis_step coins timestamp).2.height] at hlives
    cases hinit : l.initialized with
    | true =>
      simp only [Ledger.step, Ledger.initGenesis, hinit, if_true]
      exact h
    | false =>
      simp only [Ledger.step, Ledger.initGenesis, hinit, Bool.false_eq_true, if_false] at hlives ⊢
      exact Explains.genesis rfl rfl rfl hlives
  | applyBlock block => exact h.applyBlock hs hcall
  | rollbackToBlock target => exact h.rollbackToBlock target
  | rollbackNBlocks n =>
    simp only [Ledger.step, Ledger.rollbackNBlocks]
    split
    · exact h
    · cases checkedSub l.height.toInt64 n.toInt64 with
      | error e => exact h
      | ok target =>
        show Ledger.ExplainedBy _ (Chain.next chain _ (.rollback _))
        rw [Chain.next_rollbackNBlocks chain n target]
        exact h.rollbackToBlock target
  | addHint coinId hint =>
    simp only [Ledger.step, Ledger.addHint]
    split <;> exact h.congr rfl rfl rfl
  | removeHintsForCoins coinIds => exact h.congr rfl rfl rfl
  | saveSnapshot entries =>
    simp only [Ledger.step, Ledger.saveSnapshot]
    split <;> exact h.congr rfl rfl rfl
  | reopen config => exact h.congr rfl rfl rfl
  | restore snapshot => exact hcall.elim
  | _ => exact h

end ExplainedBy

end Ledger

/-! ## Stores on a chain -/

/-- **The active chain explains the store.** -/
theorem OnChain.explained {chain : Option Chain} {s : CoinStore} (h : OnChain chain s) :
    ∃ l : Ledger, s.Tracks l ∧ l.ExplainedBy chain := by
  induction h with
  | @opened config s hopen =>
    obtain rfl := Except.ok.inj (hopen.symm.trans (CoinStore.withConfig_fresh_eq config))
    exact ⟨_, .tracks_blank config, rfl⟩
  | @call chain s call _ hcall ih =>
    obtain ⟨l, hl, hchain⟩ := ih
    have hpromise : l.Promises call := by
      cases call with
      | saveSnapshot entries => exact fun snap hsnap => hcall snap (hl.snapshot_eq.trans hsnap)
      | _ => exact hcall
    obtain ⟨hanswer, hnext⟩ := hl.step hpromise
    rw [hanswer]
    exact ⟨_, hnext, hchain.step hl hpromise⟩
  | @restore chain chain' s source snapshot _ _ hsnap ih ih' =>
    obtain ⟨l, hl, -⟩ := ih
    obtain ⟨l', hl', hchain⟩ := ih'
    obtain ⟨hinit, hcoins, hheight, -⟩ := hl'.represents.snapshot_eq_ok hsnap
    refine ⟨_, (hl.restore_step hl' (hl'.snapshot_eq.symm.trans hsnap)).2, hchain.congr ?_ ?_ ?_⟩
    · exact hinit.symm.trans hl'.initialized
    · exact hheight.trans hl'.height
    · exact Std.ExtTreeMap.ext_getElem? fun id => congrFun hcoins id

/-- Stores that agree on the tip height, on the unspent ids and on every coin, but for its
fast-forward flag. -/
structure CoinStore.Agree (s s' : CoinStore) : Prop where
  initialized : s'.initialized = s.initialized
  height : s'.height = s.height
  unspent : ∀ id, s'.isUnspent id = s.isUnspent id
  records : ∀ id, ∃ o o', s.getCoinRecord id = .ok o ∧ s'.getCoinRecord id = .ok o' ∧
    o'.map CoinRecord.life = o.map CoinRecord.life

/-- **Stores on one chain agree**, whatever blocks they rolled back on the way. -/
theorem OnChain.stores_agree {chain : Option Chain} {s s' : CoinStore} (h : OnChain chain s)
    (h' : OnChain chain s') : s.Agree s' := by
  obtain ⟨l, hl, hchain⟩ := h.explained
  obtain ⟨l', hl', hchain'⟩ := h'.explained
  obtain ⟨hinit, hheight, hsame⟩ : l'.initialized = l.initialized ∧ l'.height = l.height ∧
      l'.coinset.SameLife l.coinset := by
    cases chain with
    | none =>
      have hblank : l.initialized = false := hchain
      have hblank' : l'.initialized = false := hchain'
      obtain ⟨hempty, hzero, -⟩ := hl.represents.blank (hl.initialized.trans hblank)
      obtain ⟨hempty', hzero', -⟩ := hl'.represents.blank (hl'.initialized.trans hblank')
      refine ⟨hblank'.trans hblank.symm, ?_, ?_⟩
      · rw [← hl.height, ← hl'.height, hzero, hzero']
      · rw [hempty, hempty']
        exact .refl _
    | some c =>
      have hc : Ledger.Explains c l := hchain
      have hc' : Ledger.Explains c l' := hchain'
      have htip := hc.tip (hl.height ▸ hl.represents.lives)
      have htip' := hc'.tip (hl'.height ▸ hl'.represents.lives)
      refine ⟨hc'.initialized.trans hc.initialized.symm, ?_, htip'.trans htip.symm⟩
      exact UInt64.toNat_inj.1 (hc'.height.trans hc.height.symm)
  constructor
  · rw [hl.initialized, hl'.initialized, hinit]
  · rw [hl.height, hl'.height, hheight]
  · intro id
    rw [CoinStore.isUnspent, CoinStore.isUnspent, decide_eq_decide, hl.unspent id, hl'.unspent id]
    exact hsame.unspent id
  · exact fun id => ⟨_, _, hl.getCoinRecord_eq id, hl'.getCoinRecord_eq id, hsame id⟩

end DigCoinstore

/-! ## Two ways to one chain -/

namespace DigCoinstore

open Sample

/-- The chain of `afterOne`. -/
def chainOne : Chain := ⟨[(coin 1, false), (coin 2, false)], 10, [blockOne]⟩

theorem onChain_afterOne : OnChain (some chainOne) afterOne := by
  have hopened : OnChain none opened := .opened (CoinStore.withConfig_fresh_eq _)
  have hgenesis : OnChain (some ⟨[(coin 1, false), (coin 2, false)], 10, []⟩) genesis :=
    hopened.started (by decide +kernel)
  obtain ⟨result, hrun⟩ := accepted_one.exists_result
  exact hgenesis.accepted blockOne_fits.1.claimsItsCoins hrun

/-- Block two, accepted and rolled back, leaves a store on the chain of `afterOne`. -/
theorem stores_agree_rolledBack : afterOne.Agree (afterTwo.rollbackToBlock 1).1 := by
  obtain ⟨result, hrun⟩ := accepted_two.exists_result
  have htwo := onChain_afterOne.accepted (fun _ => ⟨fun ⟨_, ha, _⟩ => (nomatch ha),
    fun ⟨_, ha, _⟩ => (nomatch ha)⟩) hrun
  have hone : OnChain (some ((chainOne.push blockTwo).cut 1)) (afterTwo.rollbackToBlock 1).1 :=
    htwo.rolledBack (by decide +kernel)
  have hlength : chainOne.blocks.length = (1 : UInt64).toNat := rfl
  rw [Chain.cut_push _ hlength.ge, Chain.cut_of_length_le _ hlength.le] at hone
  exact onChain_afterOne.stores_agree hone

end DigCoinstore
