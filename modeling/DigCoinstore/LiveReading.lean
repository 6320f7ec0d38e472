import DigCoinstore.PageSpec

/-!
# Reading while blocks come in

A client pages through the unspent coins of some puzzle hashes, and between two pages the store goes
on: blocks, hint calls, restarts, but no rollback (`Grown`). A new coin is confirmed above every
start of a page so far and a record changes only when its coin is spent, so the coins that the
client holds in the end and that are still unspent are the unspent coins of the store
(`Reachable.live_reading`).
-/

namespace DigCoinstore

variable [Chia]

/-! ## The run behind the client -/

/-- **Calls that take nothing back**: blocks, accepted or not, hint calls, roots and restarts. -/
inductive Grown (U : Set Coin) (P : BlockData → Prop) : CoinStore → CoinStore → Prop
  | refl {s : CoinStore} : Grown U P s s
  | applyBlock {s s' : CoinStore} {block : BlockData} : Grown U P s s' →
    (∀ c ∈ block.coins, c ∈ U) → P block → Grown U P s (s'.applyBlock block).1
  | reopen {s s' s'' : CoinStore} {config : CoinStoreConfig} : Grown U P s s' →
    CoinStore.withConfig config s'.backend = .ok s'' → Grown U P s s''
  | stateRoot {s s' : CoinStore} : Grown U P s s' → Grown U P s s'.stateRoot.2
  | addHint {s s' : CoinStore} {coinId : CoinId} {hint : Bytes} : Grown U P s s' →
    Grown U P s (s'.addHint coinId hint).1
  | removeHintsForCoins {s s' : CoinStore} {coinIds : List CoinId} : Grown U P s s' →
    Grown U P s (s'.removeHintsForCoins coinIds).1

namespace Grown

variable {U : Set Coin} {P : BlockData → Prop} {s s' s'' : CoinStore}

theorem trans (h : Grown U P s s') (h' : Grown U P s' s'') : Grown U P s s'' := by
  induction h' with
  | refl => exact h
  | applyBlock _ hcoins hblock ih => exact ih.applyBlock hcoins hblock
  | reopen _ hopen ih => exact ih.reopen hopen
  | stateRoot _ ih => exact ih.stateRoot
  | addHint _ ih => exact ih.addHint
  | removeHintsForCoins _ ih => exact ih.removeHintsForCoins

theorem of_reflTransGen (h : Relation.ReflTransGen (Grown U P) s s') : Grown U P s s' := by
  induction h with
  | refl => exact .refl
  | tail _ hstep ih => exact ih.trans hstep

theorem reachable (h : Grown U P s s') (hs : Reachable U P s) : Reachable U P s' := by
  induction h with
  | refl => exact hs
  | applyBlock _ hcoins hblock ih => exact ih.applyBlock hcoins hblock
  | reopen _ hopen ih => exact ih.reopen hopen
  | stateRoot _ ih => exact ih.stateRoot
  | addHint _ ih => exact ih.addHint
  | removeHintsForCoins _ ih => exact ih.removeHintsForCoins

/-- **What happens meanwhile** happens above the old tip. -/
theorem later {S : Scope} {m : Coinset} (h : Grown S.coins P s s') (hs : s.Represents S m) :
    ∃ m', s'.Represents S m' ∧ s.height.toNat ≤ s'.height.toNat ∧
      Lifecycle.Later coinLife s.height.toNat m m' := by
  induction h with
  | refl => exact ⟨m, hs, le_rfl, .refl _ _⟩
  | @applyBlock s' block _ hcoins _ ih =>
    obtain ⟨m', h', hle, hlater⟩ := ih
    have hout := h'.applyBlock_outcome block
    generalize s'.applyBlock block = out at hout
    cases hout with
    | rejected => exact ⟨m', h', hle, hlater⟩
    | mismatched _ _ hrebuilt => exact ⟨m', h'.withTree hrebuilt, hle, hlater⟩
    | accepted ha htree =>
      have hheight := ha.height_toNat
      refine ⟨_, h'.accept_represents hcoins ha htree, ?_, hlater.trans (ha.later.mono hle)⟩
      exact hle.trans (hheight ▸ Nat.le_succ _)
  | reopen _ hopen ih =>
    obtain ⟨m', h', hle, hlater⟩ := ih
    obtain ⟨s₂, hopen', h₂, -, -, hheight, -⟩ := h'.withConfig_spec _
    obtain rfl := Except.ok.inj (hopen.symm.trans hopen')
    exact ⟨m', h₂, hheight ▸ hle, hlater⟩
  | stateRoot _ ih =>
    obtain ⟨m', h', hle, hlater⟩ := ih
    exact ⟨m', h'.stateRoot_step, hle, hlater⟩
  | @addHint s' coinId hint _ ih =>
    obtain ⟨m', h', hle, hlater⟩ := ih
    have hheight : (s'.addHint coinId hint).1.height = s'.height := by
      unfold CoinStore.addHint
      split <;> rfl
    exact ⟨m', (h'.addHint_step coinId hint).1, hheight ▸ hle, hlater⟩
  | @removeHintsForCoins s' coinIds _ ih =>
    obtain ⟨m', h', hle, hlater⟩ := ih
    exact ⟨m', (h'.removeHintsForCoins_step coinIds).1, hle, hlater⟩

end Grown

/-! ## The client -/

/-- The filters of a client that wants unspent coins and no hinted ones. -/
structure CoinStateFilters.UnspentOnly (filters : CoinStateFilters) : Prop where
  unspent : filters.includeUnspent = true
  spent : filters.includeSpent = false
  hinted : filters.includeHinted = false

/-- The client wants the coin. -/
structure Wanted (puzzleHashes : List Bytes32) (filters : CoinStateFilters) (rec : CoinRecord) :
    Prop where
  unspent : rec.spentHeight = none
  puzzleHash : rec.coin.puzzleHash ∈ puzzleHashes
  amount : filters.minAmount ≤ rec.coin.amount

namespace CoinStore

/-- **The pages of a client** that resumes at the returned height, the store going on in between. -/
inductive LivePages (U : Set Coin) (P : BlockData → Prop) (puzzleHashes : List Bytes32)
    (filters : CoinStateFilters) (maxItems : Nat) :
    CoinStore → UInt64 → List (List CoinState) → CoinStore → Prop
  | last {s : CoinStore} {minHeight : UInt64} {states : List CoinState} :
    s.batchCoinStatesByPuzzleHashes puzzleHashes minHeight filters maxItems = .ok (states, none) →
    LivePages U P puzzleHashes filters maxItems s minHeight [states] s
  | next {s s' t : CoinStore} {minHeight resume : UInt64} {states : List CoinState}
      {pages : List (List CoinState)} :
    s.batchCoinStatesByPuzzleHashes puzzleHashes minHeight filters maxItems =
      .ok (states, some resume) →
    Grown U P s s' → LivePages U P puzzleHashes filters maxItems s' resume pages t →
    LivePages U P puzzleHashes filters maxItems s minHeight (states :: pages) t

/-- **What the client holds is up to date**: each coin once, those that are unspent now are the
wanted coins of the store, and the others have been spent. -/
structure UpToDate (s : CoinStore) (puzzleHashes : List Bytes32) (filters : CoinStateFilters)
    (minHeight : UInt64) (states : List CoinState) : Prop where
  once : (states.map fun state => Chia.coinId state.coin).Nodup
  current : ∀ state, state ∈ states ∧ s.isUnspent (Chia.coinId state.coin) = true ↔
    ∃ rec ∈ s.storedRecords, Wanted puzzleHashes filters rec ∧ minHeight ≤ rec.confirmedHeight ∧
      state = rec.toCoinState
  past : ∀ state ∈ states, s.isUnspent (Chia.coinId state.coin) = false →
    ∃ rec ∈ s.storedRecords, rec.coin = state.coin ∧ rec.isSpent = true

/-- The list that is paged. -/
def matching (s : CoinStore) (puzzleHashes : List Bytes32) (filters : CoinStateFilters) :
    List CoinRecord :=
  (s.candidates puzzleHashes 0 filters).toOption.getD []

namespace Represents

variable {S : Scope} {s : CoinStore} {m : Coinset} {puzzleHashes : List Bytes32}
  {filters : CoinStateFilters}

/-- A store stands for one coin set. -/
theorem unique {S' : Scope} {m' : Coinset} (h : s.Represents S m) (h' : s.Represents S' m') :
    m = m' :=
  funext fun id => Except.ok.inj ((h.getCoinRecord_eq id).symm.trans (h'.getCoinRecord_eq id))

/-- The wanted coins, in page order. -/
theorem matching_spec (h : s.Represents S m) (hS : .coinByPuzzleHash ∈ S.cfs)
    (hhints : HintsPaired s.backend.tables) (hfilters : filters.UnspentOnly) :
    s.Matching puzzleHashes filters (s.matching puzzleHashes filters) ∧
      ((s.matching puzzleHashes filters).map CoinRecord.coinId).Nodup ∧
      ∀ rec, rec ∈ s.matching puzzleHashes filters ↔
        m rec.coinId = some rec ∧ Wanted puzzleHashes filters rec := by
  obtain ⟨acc, hscans, hnodup, hmem⟩ := h.scans_matching hS hhints puzzleHashes filters
  have hcandidates : ∀ minHeight, s.candidates puzzleHashes minHeight filters =
      .ok (pageSort (acc.2.filter (filters.keeps minHeight))) := fun minHeight => by
    rw [candidates_eq, hscans]
    rfl
  have hkept : ((acc.2.filter (filters.keeps 0)).map CoinRecord.coinId).Nodup :=
    hnodup.sublist (List.filter_sublist.map _)
  have heq : s.matching puzzleHashes filters = pageSort (acc.2.filter (filters.keeps 0)) := by
    rw [matching, hcandidates]
    rfl
  rw [heq]
  refine ⟨⟨(pairwise_pageSort _).imp lastHeight_le_of_pageOrder, fun minHeight => ?_⟩, ?_,
    fun rec => ?_⟩
  · rw [hcandidates, filter_keeps, Paging.rest, ← pageSort_filter hkept]
  · exact ((List.mergeSort_perm _ _).map _).nodup_iff.2 hkept
  · rw [pageSort, List.mem_mergeSort, List.mem_filter, hmem, h.mem_storedRecords, keeps_iff,
      and_assoc]
    refine and_congr_right fun _ => ?_
    constructor
    · rintro ⟨hmatches, hpasses⟩
      refine ⟨?_, ?_, hpasses.amount⟩
      · refine Option.eq_none_iff_forall_ne_some.2 fun sh hs => ?_
        have hspent := hpasses.spent (by rw [CoinRecord.isSpent, hs]; rfl)
        rw [hfilters.spent] at hspent
        cases hspent
      · refine hmatches.resolve_right fun hhinted => ?_
        rw [hfilters.hinted] at hhinted
        cases hhinted.1
    · rintro ⟨hunspent, hhash, hamount⟩
      refine ⟨.inl hhash, fun hspent => ?_, fun _ => hfilters.unspent, UInt64.zero_le, hamount⟩
      rw [CoinRecord.isSpent, hunspent] at hspent
      cases hspent

end Represents

end CoinStore

/-! ## What the client holds -/

section client
variable {U : Set Coin} {P : BlockData → Prop} {s t : CoinStore} {puzzleHashes : List Bytes32}
  {filters : CoinStateFilters} {maxItems : Nat} {minHeight : UInt64}

/-- Both heights by which a page is cut and resumed. -/
abbrev pageKey (rec : CoinRecord) : Nat := (lastHeight rec).toNat

omit [Chia] in
theorem Wanted.lastHeight_eq {rec : CoinRecord} (h : Wanted puzzleHashes filters rec) :
    lastHeight rec = rec.confirmedHeight := by
  rw [lastHeight, h.unspent, Option.getD_none]
  show (if rec.confirmedHeight ≤ 0 then 0 else rec.confirmedHeight) = _
  split
  · next hle => exact (UInt64.le_antisymm hle UInt64.zero_le).symm
  · rfl

/-- The wanted coins of a reachable store. -/
theorem Reachable.matching_spec (h : Reachable U P s) (puzzleHashes : List Bytes32)
    (hU : Set.InjOn Chia.coinId U) (hfilters : filters.UnspentOnly) :
    ∃ m, s.Represents (.all U hU) m ∧
      ((∀ b, P b → b.ClaimsItsCoins) → s.UnspentExact m) ∧
      s.Matching puzzleHashes filters (s.matching puzzleHashes filters) ∧
      ((s.matching puzzleHashes filters).map CoinRecord.coinId).Nodup ∧
      ∀ rec, rec ∈ s.matching puzzleHashes filters ↔
        m rec.coinId = some rec ∧ Wanted puzzleHashes filters rec := by
  obtain ⟨m, hm, hu⟩ : s.Follows (.all U hU) _ := h.represents
  have hS : .coinByPuzzleHash ∈ (Scope.all U hU).cfs := show _ ∈ coinFamilies by decide
  exact ⟨m, hm, hu, hm.matching_spec hS h.operated.hintsOk.2 hfilters⟩

/-- **New coins come after the tip.** -/
theorem newItemsLast (P : BlockData → Prop) (puzzleHashes : List Bytes32)
    (hU : Set.InjOn Chia.coinId U) (hfilters : filters.UnspentOnly) :
    Paging.NewItemsLast pageKey (fun s => s.matching puzzleHashes filters) (Grown U P)
      (Reachable U P) fun s => s.height.toNat := by
  refine ⟨fun hs hnext => hnext.reachable hs, ?_, ?_, ?_⟩
  · intro s rec hs hrec
    obtain ⟨m, hm, -, -, -, hmem⟩ := hs.matching_spec puzzleHashes hU hfilters
    obtain ⟨hid, hwanted⟩ := (hmem rec).1 hrec
    rw [pageKey, hwanted.lastHeight_eq]
    exact hm.lives.confirmed_le hid
  · intro s s' hs hnext
    obtain ⟨m, hm, -⟩ := hs.matching_spec puzzleHashes hU hfilters
    obtain ⟨-, -, hle, -⟩ := Grown.later (S := .all U hU) hnext hm
    exact hle
  · intro s s' rec hs hnext hrec
    obtain ⟨m, hm, -, -, -, hmem⟩ := hs.matching_spec puzzleHashes hU hfilters
    obtain ⟨m', hm', -, -, -, hmem'⟩ := (hnext.reachable hs).matching_spec puzzleHashes hU hfilters
    obtain ⟨m'', hm'', -, hlater⟩ := Grown.later (S := .all U hU) hnext hm
    obtain rfl := hm''.unique hm'
    obtain ⟨hid, hwanted⟩ := (hmem' rec).1 hrec
    cases hold : m rec.coinId with
    | none =>
      refine .inr ?_
      rw [pageKey, hwanted.lastHeight_eq]
      exact hlater.born hold hid
    | some old =>
      obtain ⟨rec', hid', rfl | ⟨-, -, d, hd, -⟩⟩ := hlater.kept hold
      · obtain rfl := Option.some.inj (hid.symm.trans hid')
        exact .inl ((hmem _).2 ⟨hold, hwanted⟩)
      · obtain rfl := Option.some.inj (hid.symm.trans hid')
        simp [coinLife, hwanted.unspent] at hd

omit [Chia] in
/-- The rest of the list is cut and resumed by one height. -/
theorem rest_matching {l : List CoinRecord} (hl : ∀ rec ∈ l, Wanted puzzleHashes filters rec)
    (c : Nat) : Paging.rest (fun rec => rec.confirmedHeight.toNat) l c = Paging.rest pageKey l c :=
  List.filter_congr fun rec hrec => by rw [pageKey, (hl rec hrec).lastHeight_eq]

/-- **A client reads what a reader of the changing list reads.** -/
theorem CoinStore.LivePages.reader (hU : Set.InjOn Chia.coinId U) (hfilters : filters.UnspentOnly)
    (hph : puzzleHashes.length ≤ maxPuzzleHashBatchSize) {pages : List (List CoinState)}
    (hpages : LivePages U P puzzleHashes filters maxItems s minHeight pages t)
    (hs : Reachable U P s) : ∃ recs, Paging.LivePages pageKey
      (fun s => s.matching puzzleHashes filters) (Grown U P) maxItems s minHeight.toNat recs t ∧
      pages = recs.map (List.map CoinRecord.toCoinState) := by
  induction hpages with
  | @last s minHeight states hbatch =>
    obtain ⟨m, -, -, hmatch, -, hmem⟩ := hs.matching_spec puzzleHashes hU hfilters
    rw [hmatch.batch_eq hph, rest_matching fun rec hrec => ((hmem rec).1 hrec).2] at hbatch
    cases hget : (Paging.rest pageKey (s.matching puzzleHashes filters)
        minHeight.toNat)[maxItems]? with
    | none =>
      simp only [hget, Except.ok.injEq, Prod.mk.injEq] at hbatch
      exact ⟨_, .last hget, by rw [← hbatch.1]; rfl⟩
    | some rec => simp [hget] at hbatch
  | @next s s' t minHeight resume states pages hbatch hgrown _ ih =>
    obtain ⟨m, -, -, hmatch, -, hmem⟩ := hs.matching_spec puzzleHashes hU hfilters
    rw [hmatch.batch_eq hph, rest_matching fun rec hrec => ((hmem rec).1 hrec).2] at hbatch
    cases hget : (Paging.rest pageKey (s.matching puzzleHashes filters)
        minHeight.toNat)[maxItems]? with
    | none => simp [hget] at hbatch
    | some rec =>
      simp only [hget, Except.ok.injEq, Prod.mk.injEq, Option.some.injEq] at hbatch
      obtain ⟨rfl, rfl⟩ := hbatch
      obtain ⟨recs, hrecs, rfl⟩ := ih (hgrown.reachable hs)
      exact ⟨_, .next hget hgrown hrecs, rfl⟩

/-- What a reader of the changing list reads, a client reads. -/
theorem Reachable.livePages (hs : Reachable U P s) (hU : Set.InjOn Chia.coinId U)
    (hfilters : filters.UnspentOnly) (hph : puzzleHashes.length ≤ maxPuzzleHashBatchSize)
    {c : Nat} {recs : List (List CoinRecord)} (hread : Paging.LivePages pageKey
      (fun s => s.matching puzzleHashes filters) (Grown U P) maxItems s c recs t) :
    ∀ minHeight : UInt64, minHeight.toNat = c →
      s.LivePages U P puzzleHashes filters maxItems minHeight
        (recs.map (List.map CoinRecord.toCoinState)) t := by
  induction hread with
  | last hget =>
    rintro minHeight rfl
    obtain ⟨m, -, -, hmatch, -, hmem⟩ := hs.matching_spec puzzleHashes hU hfilters
    refine .last ?_
    rw [hmatch.batch_eq hph, rest_matching fun rec hrec => ((hmem rec).1 hrec).2]
    simp only [hget]
  | @next s s' t c rec recs hget hgrown _ ih =>
    rintro minHeight rfl
    obtain ⟨m, -, -, hmatch, -, hmem⟩ := hs.matching_spec puzzleHashes hU hfilters
    refine .next ?_ hgrown (ih (hgrown.reachable hs) (lastHeight rec) rfl)
    rw [hmatch.batch_eq hph, rest_matching fun rec hrec => ((hmem rec).1 hrec).2]
    simp only [hget]

/-- **What became of a coin** that was read: it is stored as it was, or it has been spent. -/
theorem Reachable.read_cases (h : Reachable U P s) (hU : Set.InjOn Chia.coinId U)
    (hfilters : filters.UnspentOnly) {m : Coinset} {recs : List (List CoinRecord)} {c : Nat}
    (hread : Paging.LivePages pageKey (fun s => s.matching puzzleHashes filters) (Grown U P)
      maxItems s c recs t) (ht : t.Represents (.all U hU) m) {rec : CoinRecord}
    (hrec : rec ∈ recs.flatten) : Wanted puzzleHashes filters rec ∧
      (m rec.coinId = some rec ∨ ∃ spent, m rec.coinId = some spent ∧ spent.coin = rec.coin ∧
        spent.confirmedHeight = rec.confirmedHeight ∧ spent.isSpent = true) := by
  obtain ⟨u, hsu, hut, hmem⟩ := hread.exists_state hrec
  have hu := (Grown.of_reflTransGen hsu).reachable h
  obtain ⟨m₁, hm₁, -, -, -, hwanted⟩ := hu.matching_spec puzzleHashes hU hfilters
  obtain ⟨m₂, hm₂, -, hlater⟩ := Grown.later (S := .all U hU) (.of_reflTransGen hut) hm₁
  obtain rfl := hm₂.unique ht
  obtain ⟨hid, hwants⟩ := (hwanted rec).1 hmem
  refine ⟨hwants, ?_⟩
  obtain ⟨rec', hid', rfl | ⟨-, rfl, d, hd, -⟩⟩ := hlater.kept hid
  · exact .inl hid'
  · refine .inr ⟨rec', hid', rfl, rfl, ?_⟩
    obtain ⟨sh, hsh, -⟩ := Option.map_eq_some_iff.1 hd
    rw [CoinRecord.isSpent, hsh]
    rfl

/-- **The client is up to date** when it has come to the end. -/
theorem CoinStore.LivePages.upToDate {pages : List (List CoinState)}
    (hpages : LivePages U P puzzleHashes filters maxItems s minHeight pages t)
    (h : Reachable U P s) (hU : Set.InjOn Chia.coinId U) (hP : ∀ b, P b → b.ClaimsItsCoins)
    (hfilters : filters.UnspentOnly) (hph : puzzleHashes.length ≤ maxPuzzleHashBatchSize) :
    t.UpToDate puzzleHashes filters minHeight pages.flatten := by
  obtain ⟨recs, hread, rfl⟩ := hpages.reader hU hfilters hph h
  have hnew := newItemsLast P puzzleHashes hU hfilters
  have ht : Reachable U P t := (Grown.of_reflTransGen hread.reaches).reachable h
  obtain ⟨m, hm, hu, -, -, hmem⟩ := ht.matching_spec puzzleHashes hU hfilters
  have hunspent : ∀ id, t.isUnspent id = true ↔ ∃ rec, m id = some rec ∧ rec.spentHeight = none :=
    fun id => decide_eq_true_iff.trans (hu hP id)
  have hcases : ∀ rec ∈ recs.flatten, Wanted puzzleHashes filters rec ∧ _ := fun _ hrec =>
    h.read_cases hU hfilters hread hm hrec
  rw [← List.map_flatten]
  refine ⟨?_, fun state => ⟨?_, ?_⟩, fun state hstate hspent => ?_⟩
  · rw [List.map_map]
    refine hread.nodup hnew h CoinRecord.coinId
      (fun id => ((m id).map fun rec => rec.confirmedHeight.toNat).getD 0)
      (fun s hs => ?_) fun rec hrec => ?_
    · obtain ⟨-, -, -, -, hnodup, -⟩ := hs.matching_spec puzzleHashes hU hfilters
      exact hnodup
    · obtain ⟨hwants, hid | ⟨spent, hid, -, hconf, -⟩⟩ := hcases rec hrec
      · rw [pageKey, hwants.lastHeight_eq, hid]
        rfl
      · rw [pageKey, hwants.lastHeight_eq, hid, ← hconf]
        rfl
  · rintro ⟨hstate, hlive⟩
    obtain ⟨rec, hrec, rfl⟩ := List.mem_map.1 hstate
    obtain ⟨rec', hid', hnone⟩ := (hunspent rec.coinId).1 hlive
    have hle := hread.le_of_mem hrec
    obtain ⟨hwants, hid | ⟨spent, hid, -, -, hspent⟩⟩ := hcases rec hrec
    · rw [pageKey, hwants.lastHeight_eq] at hle
      exact ⟨rec, hm.mem_storedRecords.2 hid, hwants, UInt64.le_iff_toNat_le.2 hle, rfl⟩
    · obtain rfl := Option.some.inj (hid.symm.trans hid')
      rw [CoinRecord.isSpent, hnone] at hspent
      cases hspent
  · rintro ⟨rec, hrec, hwants, hle, rfl⟩
    have hid := hm.mem_storedRecords.1 hrec
    refine ⟨List.mem_map_of_mem (hread.mem_of_final hnew h ((hmem rec).2 ⟨hid, hwants⟩) ?_),
      (hunspent rec.coinId).2 ⟨rec, hid, hwants.unspent⟩⟩
    rw [pageKey, hwants.lastHeight_eq]
    exact UInt64.le_iff_toNat_le.1 hle
  · obtain ⟨rec, hrec, rfl⟩ := List.mem_map.1 hstate
    obtain ⟨hwants, hid | ⟨spent, hid, hcoin, -, hisSpent⟩⟩ := hcases rec hrec
    · have hlive := (hunspent rec.coinId).2 ⟨rec, hid, hwants.unspent⟩
      exact absurd (hspent.symm.trans hlive) Bool.false_ne_true
    · refine ⟨spent, hm.mem_storedRecords.2 ?_, hcoin, hisSpent⟩
      rw [hm.ids hid]
      exact hid

/-- The client comes to the end of a store that does not change. -/
theorem Reachable.exists_livePages (h : Reachable U P s) (hU : Set.InjOn Chia.coinId U)
    (hfilters : filters.UnspentOnly) (hph : puzzleHashes.length ≤ maxPuzzleHashBatchSize)
    {l : List CoinRecord} (hl : s.candidates puzzleHashes 0 filters = .ok l)
    (hbound : ∀ height, (l.filter fun rec => lastHeight rec = height).length ≤ maxItems) :
    ∃ pages, s.LivePages U P puzzleHashes filters maxItems minHeight pages s := by
  have heq : s.matching puzzleHashes filters = l := by
    rw [CoinStore.matching, hl]
    rfl
  obtain ⟨m, -, -, hmatch, -⟩ := h.matching_spec puzzleHashes hU hfilters
  obtain ⟨recs, hrecs⟩ := Paging.Pages.exists_of_bounded (fun _ => le_rfl) hmatch.sorted
    (count_toNat_le (heq ▸ hbound)) minHeight.toNat
  exact ⟨_, h.livePages hU hfilters hph (hrecs.live .refl) minHeight rfl⟩

/-- **Reading while blocks come in.** A client that pages through the unspent coins while the store
goes on holds, when it has come to the end, each coin once: the wanted coins of the store, and
coins that were spent meanwhile. At any point it comes to an end if no height of the store as it
is then has more than `maxItems` wanted coins. -/
theorem Reachable.live_reading (h : Reachable U P s) (hU : Set.InjOn Chia.coinId U)
    (hP : ∀ b, P b → b.ClaimsItsCoins) (hfilters : filters.UnspentOnly)
    (hph : puzzleHashes.length ≤ maxPuzzleHashBatchSize) (maxItems : Nat) (minHeight : UInt64) :
    (∀ pages t, s.LivePages U P puzzleHashes filters maxItems minHeight pages t →
      t.UpToDate puzzleHashes filters minHeight pages.flatten) ∧
    ∀ l, s.candidates puzzleHashes 0 filters = .ok l →
      (∀ height, (l.filter fun rec => lastHeight rec = height).length ≤ maxItems) →
      ∃ pages, s.LivePages U P puzzleHashes filters maxItems minHeight pages s :=
  ⟨fun _ _ hpages => hpages.upToDate h hU hP hfilters hph,
    fun _ hl hbound => h.exists_livePages hU hfilters hph hl hbound⟩

end client

end DigCoinstore

namespace DigCoinstore

open Sample

/-- The filters of a client that wants the unspent coins of any amount. -/
def unspentCoins : CoinStateFilters where
  includeSpent := false
  includeUnspent := true
  includeHinted := false
  minAmount := 0

/-- An answer from the records of the scan, where these come in page order. -/
theorem batch_of_sorted {s : CoinStore} {puzzleHashes : List Bytes32} {ids : Finset CoinId}
    {recs : List CoinRecord} (hph : puzzleHashes.length ≤ maxPuzzleHashBatchSize)
    (hcollect : s.collect .coinByPuzzleHash puzzleHashes (∅, []) = .ok (ids, recs))
    (minHeight : UInt64) (hsorted : (recs.filter (unspentCoins.keeps minHeight)).Pairwise
      fun a b => (pageOrder a b).isLE = true) (maxItems : Nat) :
    s.batchCoinStatesByPuzzleHashes puzzleHashes minHeight unspentCoins maxItems =
      .ok (CoinStore.page (recs.filter (unspentCoins.keeps minHeight)) maxItems) := by
  rw [CoinStore.batchCoinStatesByPuzzleHashes, if_neg (Nat.not_lt.2 hph), CoinStore.candidates,
    hcollect, Res.ok_bind]
  exact congrArg (fun l => Except.ok (CoinStore.page l maxItems))
    (List.mergeSort_of_pairwise hsorted)

/-- Block two, with a spend of coin 1. -/
def spendingBlock : BlockData := { blockTwo with removals := [ofNum 1] }

def afterSpend : CoinStore := (afterOne.applyBlock spendingBlock).1

theorem spendingBlock_fits : spendingBlock.Honest ∧ ∀ c ∈ spendingBlock.coins, c ∈ coins := by
  refine ⟨fun a ha => absurd ha List.not_mem_nil, fun c hc => ?_⟩
  have hc : c ∈ [coin 5, coin 6] := hc
  simp only [List.mem_cons, List.not_mem_nil, or_false] at hc
  rcases hc with rfl | rfl <;> exact coin_mem _

/-- Coin 1 is read before it is spent, coin 3 and the new coin 5 afterwards. -/
theorem livePages_afterOne : afterOne.LivePages coins BlockData.Honest [ofNum 1, ofNum 3, ofNum 5]
    unspentCoins 1 0 [[(CoinRecord.new (coin 1) 0 10 false).toCoinState],
      [(CoinRecord.new (coin 3) 1 20 true).toCoinState],
      [(CoinRecord.new (coin 5) 2 30 true).toCoinState]] afterSpend := by
  have hone : afterOne.collect .coinByPuzzleHash [ofNum 1, ofNum 3, ofNum 5] (∅, []) =
      .ok ({ofNum 1, ofNum 3}, [.new (coin 1) 0 10 false, .new (coin 3) 1 20 true]) :=
    Res.eq_ok_of_toOption (by decide +kernel)
  have hspend : afterSpend.collect .coinByPuzzleHash [ofNum 1, ofNum 3, ofNum 5] (∅, []) =
      .ok ({ofNum 1, ofNum 3, ofNum 5}, [(CoinRecord.new (coin 1) 0 10 false).spend 2,
        .new (coin 3) 1 20 true, .new (coin 5) 2 30 true]) :=
    Res.eq_ok_of_toOption (by decide +kernel)
  have hgrown : Grown coins BlockData.Honest afterOne afterSpend :=
    .applyBlock .refl spendingBlock_fits.2 spendingBlock_fits.1
  have hfirst : afterOne.batchCoinStatesByPuzzleHashes
      [ofNum 1, ofNum 3, ofNum 5] 0 unspentCoins 1 =
      .ok ([(CoinRecord.new (coin 1) 0 10 false).toCoinState], some 1) :=
    (batch_of_sorted (by decide) hone 0 (by decide) 1).trans
      (congrArg Except.ok (by decide))
  have hsecond : afterSpend.batchCoinStatesByPuzzleHashes
      [ofNum 1, ofNum 3, ofNum 5] 1 unspentCoins 1 =
      .ok ([(CoinRecord.new (coin 3) 1 20 true).toCoinState], some 2) :=
    (batch_of_sorted (by decide) hspend 1 (by decide) 1).trans
      (congrArg Except.ok (by decide))
  have hthird : afterSpend.batchCoinStatesByPuzzleHashes
      [ofNum 1, ofNum 3, ofNum 5] 2 unspentCoins 1 =
      .ok ([(CoinRecord.new (coin 5) 2 30 true).toCoinState], none) :=
    (batch_of_sorted (by decide) hspend 2 (by decide) 1).trans
      (congrArg Except.ok (by decide))
  exact .next hfirst hgrown (.next hsecond .refl (.last hthird))

theorem live_reading_afterSpend : afterSpend.UpToDate [ofNum 1, ofNum 3, ofNum 5] unspentCoins 0
    [(CoinRecord.new (coin 1) 0 10 false).toCoinState,
      (CoinRecord.new (coin 3) 1 20 true).toCoinState,
      (CoinRecord.new (coin 5) 2 30 true).toCoinState] :=
  (reachable_afterOne.live_reading coinId_injOn (fun _ hb => hb.claimsItsCoins) ⟨rfl, rfl, rfl⟩
    (by decide) 1 0).1 _ _ livePages_afterOne

end DigCoinstore
