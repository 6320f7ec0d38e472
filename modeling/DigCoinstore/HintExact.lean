import DigCoinstore.Candidates
import DigCoinstore.HintCleanup

/-!
# Exact hint lookups

`HintsBuilt s pairs`: the hint tables of `s` were built by blocks and `add_hint` calls that stored
`pairs`. A reverse key is a hint followed by 32 bytes, so the length of a key tells where its hint
ends, and each reader's test of the length leaves the keys of exactly the hint it was asked for
(`HintsBuilt.lookups_exact`). In the other direction the hints are read as 32 bytes: the two
directions agree on a pair exactly if its hint has that length or it is not stored
(`Operated.hint_directions_iff`).
-/

namespace DigCoinstore

/-! ## Keys -/

/-- A key of the expected length that starts with the hint. -/
theorem exactTail_under {hint k : Bytes} {id : CoinId} (hpre : hint <+: k) :
    exactTail hint.length k = some id ↔ k = hint ++ id.bytes := by
  obtain ⟨rest, rfl⟩ := hpre
  rw [exactTail, List.append_cancel_left_eq]
  constructor
  · intro h
    split at h
    · next hlen =>
      have hid := congrArg Bytes32.bytes (Option.some.inj h)
      rw [List.length_append, Nat.add_left_cancel_iff] at hlen
      rw [← hid]
      simp only [slice]
      rw [List.drop_left, List.take_of_length_le (by omega)]
    · cases h
  · rintro rfl
    rw [dif_pos (by simp)]
    refine congrArg some (Bytes32.ext ?_)
    simp [slice]

/-! ## The pairs held -/

/-- The tables hold these pairs. -/
def HintsHeld (t : Tables) (pairs : Set HintPair) : Prop :=
  ∃ members, HintTables t members ∧ ∀ p, members p = some () ↔ p ∈ pairs

namespace HintsHeld

variable {t t' : Tables} {pairs : Set HintPair}

theorem empty : HintsHeld Tables.empty ∅ :=
  ⟨fun _ => none, ⟨Mirrors.empty _, Mirrors.empty _, by simp⟩, by simp⟩

/-- A pair more. -/
theorem insert {members : HintPair → Option Unit} {p : HintPair}
    (h : HintTables t (Function.update members p (some ())))
    (hmem : ∀ p, members p = some () ↔ p ∈ pairs) : HintsHeld t (Insert.insert p pairs) := by
  refine ⟨_, h, fun q => ?_⟩
  by_cases hq : q = p
  · simp [hq]
  · rw [Function.update_of_ne hq, hmem q, Set.mem_insert_iff, or_iff_right hq]

/-- The rows of the pairs. -/
theorem reverse_iff (h : HintsHeld t pairs) (id : CoinId) (hint : Bytes) :
    ((t .hintsByValue)[hint ++ id.bytes]?).isSome = true ↔ (id, hint) ∈ pairs := by
  obtain ⟨members, hm, hmem⟩ := h
  have hkey : hint ++ id.bytes = reverseKey (id, hint) := rfl
  rw [← hmem, hkey, hm.reverse.get_key reverseKey_injective (id, hint),
    Option.isSome_iff_exists]
  exact ⟨fun ⟨_, hp⟩ => hp, fun hp => ⟨(), hp⟩⟩

/-- The hints of a block. -/
theorem stageHints : ∀ (hints : List (CoinId × Bytes32)) {t : Tables} {pairs : Set HintPair},
    HintsHeld t pairs → HintsHeld (t.applyOps (hints.foldl stageHint .new).ops)
      (pairs ∪ {p | ∃ hint ∈ hints, hint.2 ≠ .zero ∧ p = (hint.1, hint.2.bytes)})
  | [], t, pairs, h => by simpa using h
  | hint :: hints, t, pairs, h => by
    rw [applyOps_stageAll CoinStore.ops_stageHint]
    by_cases hz : hint.2 = .zero
    · have hskip : (stageHint .new hint).ops = [] := by simp [stageHint, hz]
      have hrest := stageHints hints h
      rw [hskip]
      simpa [hz] using hrest
    · have hput : (stageHint .new hint).ops = [.put .hints (hint.1.bytes ++ hint.2.bytes) [],
          .put .hintsByValue (hint.2.bytes ++ hint.1.bytes) []] := by simp [stageHint, hz]
      obtain ⟨members, hm, hmem⟩ := h
      have hstep : HintsHeld (t.applyOps (stageHint .new hint).ops)
          (Insert.insert (hint.1, hint.2.bytes) pairs) := by
        rw [hput]
        exact .insert (hm.put hint.1 (by simp) (by simp [maxHintLength])) hmem
      have hrest := stageHints hints hstep
      convert hrest using 1
      ext p
      simp [hz, or_assoc, or_left_comm]

variable [Chia]

/-- The batch of a genesis stores none. -/
theorem genesis (h : HintsHeld t pairs) (records : List CoinRecord) (timestamp : UInt64) :
    HintsHeld (t.applyOps (genesisBatch records timestamp).ops) pairs := by
  obtain ⟨members, hm, hmem⟩ := h
  have hcoins := hm.applyCoins (stageGenesisCoins_cfs records)
  have hmarked := hcoins.congr
    (Tables.applyOps_other [.put .metadata metaInitialized [1]] _ (by simp [Tables.opCf]))
    (Tables.applyOps_other [.put .metadata metaInitialized [1]] _ (by simp [Tables.opCf]))
  refine ⟨members, ?_, hmem⟩
  rw [genesisBatch, ops_stageTip, Tables.applyOps_append, WriteBatch.ops_put,
    Tables.applyOps_append]
  exact hmarked.applyTip ..

/-- The batch of a block stores its hints. -/
theorem block (h : HintsHeld t pairs) (block : BlockData) (created spent : List CoinRecord) :
    HintsHeld (t.applyOps (stageTip (stageBlock block created spent) block.height block.blockHash
      block.timestamp).ops)
      (pairs ∪ {p | ∃ hint ∈ block.hints, hint.2 ≠ .zero ∧ p = (hint.1, hint.2.bytes)}) := by
  obtain ⟨members, hm, hmem⟩ := h
  have hcoins := (hm.applyCoins (stageCreations_cfs created)).applyCoins
    (stageSpends_cfs block.height spent)
  obtain ⟨members', hm', hmem'⟩ := stageHints block.hints ⟨members, hcoins, hmem⟩
  refine ⟨members', ?_, hmem'⟩
  rw [ops_stageTip, Tables.applyOps_append, CoinStore.applyOps_stageBlock]
  exact hm'.applyTip ..

end HintsHeld

/-! ## Lookups -/

namespace CoinStore

variable {s : CoinStore} {pairs : Set HintPair}

/-- **A lookup by the bytes of a hint** finds the coins of exactly that hint. -/
theorem getCoinIdsByHintBytes_exact (hb : s.backend.Healthy) (h : HintsHeld s.backend.tables pairs)
    (hint : Bytes) : ∃ all : List CoinId, all.Nodup ∧ (∀ id, id ∈ all ↔ (id, hint) ∈ pairs) ∧
      ∀ maxItems, s.getCoinIdsByHintBytes hint maxItems = .ok (all.take maxItems) := by
  obtain ⟨hnodup, hmem⟩ := @tails_exact (s.backend.tables .hintsByValue) hint _
    fun k _ id _ hpre => exactTail_under hpre
  refine ⟨_, hnodup, fun id => (hmem id).trans (h.reverse_iff id hint), fun maxItems => ?_⟩
  rw [getCoinIdsByHintBytes, Backend.prefixScan_of_healthy hb, orStorage_ok, Res.ok_bind,
    collectTails_eq]
  rfl

/-- **A lookup of a 32-byte hint** does the same. -/
theorem getCoinIdsByHint_exact (hb : s.backend.Healthy) (h : HintsHeld s.backend.tables pairs)
    (hint : Bytes32) : ∃ all : List CoinId, all.Nodup ∧ (∀ id, id ∈ all ↔ (id, hint.bytes) ∈ pairs) ∧
      ∀ maxItems, s.getCoinIdsByHint hint maxItems = .ok (all.take maxItems) := by
  have hpaired : HintsPaired s.backend.tables := h.imp fun _ h => h.1
  obtain ⟨hnodup, hmem⟩ := @tails_exact (s.backend.tables .hintsByValue) hint.bytes _
    fun k v _ hget hpre => keyTail_under ((HintsPaired.length_le hpaired).2 k v hget) hpre
  refine ⟨_, hnodup, fun id => (hmem id).trans (h.reverse_iff id hint.bytes), fun maxItems => ?_⟩
  rw [getCoinIdsByHint, Backend.prefixScan_of_healthy hb, orStorage_ok, Res.ok_bind,
    collectTails_eq]
  rfl

/-- The ids that end reverse keys under a hash are those with the hash as a hint. -/
theorem endsKey_hints (h : HintsHeld s.backend.tables pairs) (ph : Bytes32) (id : CoinId) :
    s.EndsKey .hintsByValue ph id ↔ (id, ph.bytes) ∈ pairs := by
  have hpaired : HintsPaired s.backend.tables := h.imp fun _ h => h.1
  rw [← h.reverse_iff, Option.isSome_iff_exists]
  constructor
  · rintro ⟨k, v, hget, hpre, htail⟩
    rw [(keyTail_under ((HintsPaired.length_le hpaired).2 k v hget) hpre).1 htail] at hget
    exact ⟨v, hget⟩
  · rintro ⟨v, hget⟩
    exact ⟨_, v, hget, List.prefix_append _ _, keyTail_append ph id⟩

end CoinStore

/-! ## Histories -/

variable [Chia]

/-- The pairs a block stores: its hints, but for the all-zero ones. -/
def BlockData.hintPairs (block : BlockData) : Set HintPair :=
  {p | ∃ hint ∈ block.hints, hint.2 ≠ .zero ∧ p = (hint.1, hint.2.bytes)}

/-- **Hint tables built by `add_hint` and `apply_block`**, and the pairs that the calls stored. -/
inductive HintsBuilt : CoinStore → Set HintPair → Prop
  | new {config : CoinStoreConfig} {s : CoinStore} :
    CoinStore.withConfig config .fresh = .ok s → HintsBuilt s ∅
  | initGenesis {s : CoinStore} {pairs : Set HintPair} {coins : List (Coin × Bool)}
      {timestamp : UInt64} :
    HintsBuilt s pairs → HintsBuilt (s.initGenesis coins timestamp).1 pairs
  | addHint {s : CoinStore} {pairs : Set HintPair} {coinId : CoinId} {hint : Bytes} :
    HintsBuilt s pairs → 0 < hint.length → hint.length ≤ maxHintLength →
      HintsBuilt (s.addHint coinId hint).1 (insert (coinId, hint) pairs)
  | applyBlock {s s' : CoinStore} {pairs : Set HintPair} {block : BlockData}
      {result : ApplyBlockResult} :
    HintsBuilt s pairs → s.applyBlock block = (s', .ok result) →
      HintsBuilt s' (pairs ∪ block.hintPairs)
  | rejected {s s' : CoinStore} {pairs : Set HintPair} {block : BlockData} {e : Exit} :
    HintsBuilt s pairs → s.applyBlock block = (s', .error e) → HintsBuilt s' pairs

/-- The lookups find distinct coins of exactly the hint they are asked for, up to the limit, and a
coin that the batch query does not find directly is one of a queried 32-byte hint. -/
structure CoinStore.LookupsExact (s : CoinStore) (pairs : Set HintPair) : Prop where
  byBytes (hint : Bytes) : ∃ all : List CoinId, all.Nodup ∧ (∀ id, id ∈ all ↔ (id, hint) ∈ pairs) ∧
    ∀ maxItems, s.getCoinIdsByHintBytes hint maxItems = .ok (all.take maxItems)
  byHint (hint : Bytes32) : ∃ all : List CoinId, all.Nodup ∧
    (∀ id, id ∈ all ↔ (id, hint.bytes) ∈ pairs) ∧
    ∀ maxItems, s.getCoinIdsByHint hint maxItems = .ok (all.take maxItems)
  batch (puzzleHashes : List Bytes32) (minHeight : UInt64) (filters : CoinStateFilters)
    (maxItems maxItems' : Nat) (states states' : List CoinState) (next : Option UInt64) :
    s.batchCoinStatesByPuzzleHashes puzzleHashes minHeight
      { filters with includeHinted := true } maxItems = .ok (states, next) →
    s.batchCoinStatesByPuzzleHashes puzzleHashes minHeight
      { filters with includeHinted := false } maxItems' = .ok (states', none) →
    ∀ state ∈ states, state ∉ states' →
      ∃ ph ∈ puzzleHashes, (Chia.coinId state.coin, ph.bytes) ∈ pairs

namespace HintsBuilt

variable {s : CoinStore} {pairs : Set HintPair}

theorem reachable (h : HintsBuilt s pairs) : Reachable Set.univ (fun _ => True) s := by
  induction h with
  | new hopen => exact .new hopen
  | initGenesis _ ih => exact ih.initGenesis fun _ _ => trivial
  | addHint _ _ _ ih => exact ih.addHint
  | @applyBlock s s' pairs block result _ happ ih =>
    have hr : Reachable Set.univ (fun _ => True) (s.applyBlock block).1 :=
      ih.applyBlock (fun _ _ => trivial) trivial
    rwa [happ] at hr
  | @rejected s s' pairs block e _ happ ih =>
    have hr : Reachable Set.univ (fun _ => True) (s.applyBlock block).1 :=
      ih.applyBlock (fun _ _ => trivial) trivial
    rwa [happ] at hr

/-- **The tables hold the pairs of the history.** -/
theorem held (h : HintsBuilt s pairs) : s.backend.Healthy ∧ HintsHeld s.backend.tables pairs := by
  induction h with
  | new hopen =>
    rw [(CoinStore.withConfig_reads Backend.healthy_fresh hopen).1]
    exact ⟨Backend.healthy_fresh, .empty⟩
  | @initGenesis s pairs coins timestamp _ ih =>
    rcases CoinStore.initGenesis_writes ih.1 coins timestamp with ⟨heq, -⟩ | heq
    · rwa [heq]
    · rw [heq]
      exact ⟨ih.1, ih.2.genesis _ timestamp⟩
  | @addHint s pairs coinId hint _ hpos hmax ih =>
    obtain ⟨hb, members, hm, hmem⟩ := ih
    obtain ⟨hb', hm'⟩ := CoinStore.addHintRows_tables hb hm coinId hpos hmax
    have hvalid : validateHint hint = .ok .store := by
      rcases validateHint_cases hint with ⟨hnil, -⟩ | ⟨hlen, -⟩ | ⟨-, -, hvalid⟩
      · simp [hnil] at hpos
      · omega
      · exact hvalid
    rw [CoinStore.addHint, hvalid]
    exact ⟨hb', .insert hm' hmem⟩
  | @applyBlock s s' pairs block result _ happ ih =>
    rcases (CoinStore.applyBlock_writes ih.1 block).2 with ⟨-, e, herr⟩ | ⟨removed, -, heq, -⟩
    · rw [happ] at herr
      cases herr
    · rw [happ] at heq
      rw [heq]
      exact ⟨ih.1, ih.2.block block _ _⟩
  | @rejected s s' pairs block e _ happ ih =>
    rcases (CoinStore.applyBlock_writes ih.1 block).2 with ⟨heq, -⟩ | ⟨removed, -, -, result, hok⟩
    · rw [happ] at heq
      rwa [heq]
    · rw [happ] at hok
      cases hok

/-- **Lookups are exact**, whatever the lengths of the stored hints. -/
theorem lookups_exact (h : HintsBuilt s pairs) : s.LookupsExact pairs := by
  obtain ⟨hb, hheld⟩ := h.held
  obtain ⟨m, hm, -⟩ := h.reachable.life
  refine ⟨CoinStore.getCoinIdsByHintBytes_exact hb hheld,
    CoinStore.getCoinIdsByHint_exact hb hheld, ?_⟩
  intro puzzleHashes minHeight filters maxItems maxItems' states states' next hquery hdirect state
    hstate hmissing
  obtain ⟨ph, hph, hkey⟩ := hm.hinted_only hquery hdirect hstate hmissing
  exact ⟨ph, hph, (CoinStore.endsKey_hints hheld ph _).1 hkey⟩

end HintsBuilt

/-! ## Both directions -/

namespace CoinStore

variable {s : CoinStore}

/-- A lookup of the hint finds the coin, with every limit that is large enough. -/
def FindsCoin (s : CoinStore) (p : HintPair) : Prop :=
  ∃ n, ∀ maxItems, n ≤ maxItems →
    ∃ ids, s.getCoinIdsByHintBytes p.2 maxItems = .ok ids ∧ p.1 ∈ ids

/-- The hint is among those reported for the coin. -/
def ReportsHint (s : CoinStore) (p : HintPair) : Prop :=
  ∃ result, s.getHintsForCoinIds [p.1] = .ok result ∧
    ∃ hint ∈ (result[p.1]?).getD [], hint.bytes = p.2

/-- `count_hints` counts the pairs that lookups find. -/
def CountsHints (s : CoinStore) : Prop :=
  ∃ pairs : List HintPair, pairs.Nodup ∧ (∀ p, p ∈ pairs ↔ s.FindsCoin p) ∧
    s.countHints = .ok (UInt64.ofNat pairs.length)

omit [Chia] in
theorem findsCoin_iff {pairs : Set HintPair} (hb : s.backend.Healthy)
    (h : HintsHeld s.backend.tables pairs) (p : HintPair) : s.FindsCoin p ↔ p ∈ pairs := by
  obtain ⟨all, -, hmem, hlookup⟩ := getCoinIdsByHintBytes_exact hb h p.2
  constructor
  · rintro ⟨n, hn⟩
    obtain ⟨ids, hids, hp⟩ := hn n le_rfl
    obtain rfl := Except.ok.inj ((hlookup n).symm.trans hids)
    exact (hmem p.1).1 (List.mem_of_mem_take hp)
  · intro hp
    refine ⟨all.length, fun maxItems hle => ⟨_, hlookup maxItems, ?_⟩⟩
    rw [List.take_of_length_le hle]
    exact (hmem p.1).2 hp

omit [Chia] in
/-- Only hints of 32 bytes are reported. -/
theorem reportsHint_iff (h : s.backend.HintsOk) (p : HintPair) :
    s.ReportsHint p ↔ p.2.length = 32 ∧ s.backend.hasForward p = true := by
  obtain ⟨result, hresult, hmem⟩ := mem_getHintsForCoinIds h p.1
  constructor
  · rintro ⟨result', hresult', hint, hhint, hbytes⟩
    obtain rfl := Except.ok.inj (hresult.symm.trans hresult')
    have hstored := (hmem hint).1 hhint
    rw [StoresHint, coinHintKey, hbytes] at hstored
    exact ⟨hbytes ▸ hint.length_bytes, hstored⟩
  · rintro ⟨hlen, hstored⟩
    exact ⟨result, hresult, ⟨p.2, hlen⟩, (hmem ⟨p.2, hlen⟩).2 hstored, rfl⟩

omit [Chia] in
theorem hasForward_iff {pairs : Set HintPair} (h : HintsHeld s.backend.tables pairs) (p : HintPair) :
    s.backend.hasForward p = true ↔ p ∈ pairs := by
  obtain ⟨members, hm, hmem⟩ := h
  exact (hm.hasForward_iff p).trans (hmem p)

omit [Chia] in
/-- **The count is that of the stored pairs**, of every length. -/
theorem countsHints {pairs : Set HintPair} (hb : s.backend.Healthy)
    (h : HintsHeld s.backend.tables pairs) : s.CountsHints := by
  obtain ⟨members, hm, hmem⟩ := id h
  have hkeys : ∀ k ∈ (s.backend.tables .hints).toList.map (·.1), ∃ p ∈ pairs, forwardKey p = k := by
    intro k hk
    obtain ⟨kv, hkv, rfl⟩ := List.mem_map.1 hk
    obtain ⟨p, hp, hrow⟩ := hm.forward.row_iff.1 (OrdMap.mem_toList.1 hkv)
    exact ⟨p, (hmem p).1 hp, (Prod.mk.inj hrow).1.symm⟩
  obtain ⟨list, hmap, hlist⟩ := List.exists_map_eq _ hkeys
  refine ⟨list, ?_, fun p => ?_, ?_⟩
  · have hnodup : ((s.backend.tables .hints).toList.map (·.1)).Nodup := OrdMap.nodup_keys _
    rw [← hmap] at hnodup
    exact hnodup.of_map _
  · rw [findsCoin_iff hb h]
    refine ⟨hlist p, fun hp => ?_⟩
    have hrow := hm.forward.get ((hmem p).2 hp) rfl
    have hkey : forwardKey p ∈ list.map forwardKey := by
      rw [hmap]
      exact List.mem_map_of_mem (OrdMap.mem_toList.2 hrow)
    obtain ⟨q, hq, heq⟩ := List.mem_map.1 hkey
    rwa [← forwardKey_injective heq]
  · have hlen := congrArg List.length hmap
    rw [List.length_map, List.length_map] at hlen
    have hall : ((s.backend.tables .hints).toList.filter fun kv => List.isPrefixOf [] kv.1) =
        (s.backend.tables .hints).toList := List.filter_eq_self.2 fun _ _ => rfl
    rw [countHints, Backend.prefixScan_of_healthy hb, orStorage_ok, Res.ok_bind, hlen, hall]
    rfl

end CoinStore

/-- **The two directions agree** on a pair, and the count is that of the pairs found, exactly if
the hint has 32 bytes or is not stored. -/
theorem Operated.hint_directions_iff {s : CoinStore} (h : Operated s) (coinId : CoinId)
    (hint : Bytes) :
    ((s.FindsCoin (coinId, hint) ↔ s.ReportsHint (coinId, hint)) ∧ s.CountsHints) ↔
      hint.length = 32 ∨ s.backend.hasForward (coinId, hint) = false := by
  obtain ⟨hb, members, hm⟩ := h.hintsOk
  have hheld : HintsHeld s.backend.tables {p | members p = some ()} := ⟨members, hm, fun _ => .rfl⟩
  rw [and_iff_left (CoinStore.countsHints hb hheld), CoinStore.reportsHint_iff h.hintsOk,
    CoinStore.findsCoin_iff hb hheld, ← CoinStore.hasForward_iff hheld, ← Bool.not_eq_true]
  tauto

end DigCoinstore

namespace DigCoinstore

open Sample

theorem hintsBuilt_shortHinted : HintsBuilt shortHinted {(ofNum 1, [5, 6])} := by
  have hgenesis : HintsBuilt genesis ∅ := (HintsBuilt.new (CoinStore.withConfig_fresh_eq _)).initGenesis
  have hadded : HintsBuilt shortHinted (insert (ofNum 1, [5, 6]) ∅) :=
    hgenesis.addHint (by decide) (by decide)
  rwa [insert_empty_eq] at hadded

theorem lookups_exact_shortHinted : shortHinted.LookupsExact {(ofNum 1, [5, 6])} :=
  hintsBuilt_shortHinted.lookups_exact

theorem hint_directions_iff_hinted :
    ((hinted.FindsCoin (ofNum 1, (ofNum 5).bytes) ↔ hinted.ReportsHint (ofNum 1, (ofNum 5).bytes)) ∧
      hinted.CountsHints) ↔
      (ofNum 5).bytes.length = 32 ∨ hinted.backend.hasForward (ofNum 1, (ofNum 5).bytes) = false :=
  operated_hinted.hint_directions_iff (ofNum 1) (ofNum 5).bytes

/-- A hint of two bytes: the coin is found, the hint is not reported. -/
theorem short_hint_unreported : Operated shortHinted ∧
    shortHinted.FindsCoin (ofNum 1, [5, 6]) ∧ ¬ shortHinted.ReportsHint (ofNum 1, [5, 6]) := by
  obtain ⟨hb, hheld⟩ := hintsBuilt_shortHinted.held
  refine ⟨operated_shortHinted, (CoinStore.findsCoin_iff hb hheld _).2 rfl, fun hreport => ?_⟩
  have hlen := ((CoinStore.reportsHint_iff operated_shortHinted.hintsOk _).1 hreport).1
  exact absurd hlen (by decide)

end DigCoinstore
