import DigCoinstore.CoinStore.RowFacts
import DigCoinstore.Index
import DigCoinstore.Merkle.TreeFacts
import DigCoinstore.Run

/-!
# What a store represents

`s.Represents S m`: the rows of `s`, its Merkle leaves, its chain tip and its heights are those of
the coin set `m`. The `Scope` says which tables are followed and which coins may occur: the tables
keyed by ids and heights need no assumption (`Scope.life`), the ones keyed by puzzle hash or
parent follow the coin set when no two coins of the run share an id (`Scope.all`).
-/

namespace DigCoinstore

variable [Chia]

/-! ## Scopes -/

/-- The families followed and the coins that may occur; two coins with one id, confirmed and spent
at the same heights, have their rows under the same keys. -/
structure Scope where
  cfs : List ColumnFamily
  coins : Set Coin
  life_sub : ∀ cf ∈ lifeFamilies, cf ∈ cfs
  sub_coin : ∀ cf ∈ cfs, cf ∈ coinFamilies
  same_keys : ∀ {rec rec' : CoinRecord}, rec.coin ∈ coins → rec'.coin ∈ coins →
    rec.coinId = rec'.coinId → rec.confirmedHeight = rec'.confirmedHeight →
    rec.spentHeight = rec'.spentHeight → ∀ cf ∈ cfs, SameKeys cf rec'.coinId rec rec'

/-- The metadata are in no scope. -/
theorem Scope.ne_metadata (S : Scope) {cf : ColumnFamily} (hcf : cf ∈ S.cfs) : cf ≠ .metadata :=
  (ne_of_mem_coinFamilies (S.sub_coin cf hcf)).2.2

/-- The tables keyed by ids and heights. -/
def Scope.life : Scope where
  cfs := lifeFamilies
  coins := Set.univ
  life_sub _ h := h
  sub_coin cf h := by
    simp only [lifeFamilies, List.mem_cons, List.not_mem_nil, or_false] at h
    rcases h with rfl | rfl | rfl <;> decide
  same_keys {rec rec'} _ _ _ hconf hspent cf hcf k hk := by
    obtain ⟨rec'', v, hrec, hrow⟩ := hk
    obtain rfl := Option.some.inj hrec
    simp only [lifeFamilies, List.mem_cons, List.not_mem_nil, or_false] at hcf
    rcases hcf with rfl | rfl | rfl
    · simp only [coinRow, Option.some.injEq, Prod.mk.injEq] at hrow
      exact ⟨rec', serializeCoinRecordStorageBytes rec', rfl, by simp [coinRow, hrow.1]⟩
    · exact ⟨rec', v, rfl, by simpa [coinRow, hconf] using hrow⟩
    · exact ⟨rec', v, rfl, by simpa [coinRow, hspent] using hrow⟩

/-- All tables of coins, when no two coins of `U` share an id. -/
def Scope.all (U : Set Coin) (hU : Set.InjOn Chia.coinId U) : Scope where
  cfs := coinFamilies
  coins := U
  life_sub cf h := by
    simp only [lifeFamilies, List.mem_cons, List.not_mem_nil, or_false] at h
    rcases h with rfl | rfl | rfl <;> decide
  sub_coin _ h := h
  same_keys {rec rec'} hrec hrec' hid hconf hspent cf hcf k hk := by
    have hcoin : rec.coin = rec'.coin := hU hrec hrec' hid
    obtain ⟨rec'', v, ho, hrow⟩ := hk
    obtain rfl := Option.some.inj ho
    cases cf with
    | coinRecords =>
      simp only [coinRow, Option.some.injEq, Prod.mk.injEq] at hrow
      exact ⟨rec', serializeCoinRecordStorageBytes rec', rfl, by simp [coinRow, hrow.1]⟩
    | coinByPuzzleHash | unspentByPuzzleHash | coinByParent | coinByConfirmedHeight
    | coinBySpentHeight =>
      exact ⟨rec', v, rfl, by simpa [coinRow, hcoin, hconf, hspent] using hrow⟩
    | _ => cases hrow

/-! ## The invariant -/

/-- Every coin was confirmed by the tip, and spent after that and by the tip. -/
structure Coinset.Lives (m : Coinset) (tip : UInt64) : Prop where
  confirmed_le : ∀ {id rec}, m id = some rec → rec.confirmedHeight.toNat ≤ tip.toNat
  spent : ∀ {id rec sh}, m id = some rec → rec.spentHeight = some sh →
    rec.confirmedHeight.toNat < sh.toNat ∧ sh.toNat ≤ tip.toNat

/-- Some coin was confirmed at each height above 0. -/
def Coinset.Filled (m : Coinset) (tip : UInt64) : Prop :=
  ∀ h : UInt64, 0 < h.toNat → h.toNat ≤ tip.toNat → ∃ id rec, m id = some rec ∧ rec.confirmedHeight = h

namespace CoinStore

/-- The metadata rows hold the in-memory tip. -/
structure TipStored (s : CoinStore) : Prop where
  initialized : ((s.backend.tables .metadata)[metaInitialized]?).isSome = s.initialized
  height : metaU64 ((s.backend.tables .metadata)[metaHeight]?) = s.height
  tipHash : metaHash ((s.backend.tables .metadata)[metaTipHash]?) = .ok s.tipHash
  timestamp : metaU64 ((s.backend.tables .metadata)[metaTimestamp]?) = s.timestamp

/-- The leaf of a record. -/
def leafHash (rec : CoinRecord) : Bytes32 := merkleLeafHash (serializeCoinRecordStorageBytes rec)

/-- **The store stands for the coin set `m`.** -/
structure Represents (S : Scope) (s : CoinStore) (m : Coinset) : Prop where
  healthy : s.backend.Healthy
  rows : Indexes S.cfs s.backend.tables m
  leaves : ∀ id : CoinId, s.merkleTree.leaves[id]? = (m id).map leafHash
  coherent : s.merkleTree.Coherent
  tip : s.TipStored
  ids : ∀ {id rec}, m id = some rec → rec.coinId = id
  coins : ∀ {id rec}, m id = some rec → rec.coin ∈ S.coins
  lives : m.Lives s.height
  filled : m.Filled s.height
  blank : s.initialized = false → m = .empty ∧ s.height = 0 ∧ s.tipHash = .zero ∧ s.timestamp = 0 ∧
    s.unspentIds = ∅

/-- The in-memory unspent set holds the ids of the unspent records. -/
def UnspentExact (s : CoinStore) (m : Coinset) : Prop :=
  ∀ id, id ∈ s.unspentIds ↔ ∃ rec, m id = some rec ∧ rec.spentHeight = none

end CoinStore

namespace Coinset.Lives

variable {m : Coinset} {tip : UInt64}

omit [Chia] in
/-- No coin is spent at height 0, so every row tells its record. -/
theorem storable (h : m.Lives tip) {id : CoinId} {rec : CoinRecord} (hm : m id = some rec) :
    Storable rec := by
  refine .inr fun hs => ?_
  have := (h.spent hm hs).1
  simp at this

omit [Chia] in
theorem within (h : m.Lives tip) : Lifecycle.Within coinLife tip.toNat m where
  birth_le hm := h.confirmed_le hm
  death_le hm hd := by
    obtain ⟨sh, hs, rfl⟩ := Option.map_eq_some_iff.1 hd
    exact (h.spent hm hs).2

end Coinset.Lives

/-! ## The rows of the coins -/

/-- The `coin_records` rows are those of the coin set `m`, each under its id and read back as it
was written. -/
structure Backend.CoinRows (b : Backend) (m : Coinset) : Prop where
  healthy : b.Healthy
  rows : Mirrors (fun k => (b.tables .coinRecords)[k]?) (coinRow .coinRecords) m
  ids : ∀ {id rec}, m id = some rec → rec.coinId = id
  storable : ∀ {id rec}, m id = some rec → Storable rec

namespace Backend.CoinRows

variable {b : Backend} {m : Coinset}

/-- The `coin_records` row of an id. -/
theorem record_get (h : b.CoinRows m) (id : CoinId) :
    (b.tables .coinRecords)[coinKey id]? = (m id).map serializeCoinRecordStorageBytes := by
  apply Option.ext
  intro v
  refine (h.rows (coinKey id) v).trans ?_
  constructor
  · rintro ⟨id', rec, hm, hrow⟩
    simp only [coinRow, Option.some.injEq, Prod.mk.injEq] at hrow
    obtain rfl := coinKey_inj.1 hrow.1
    simp [hm, hrow.2]
  · intro hv
    obtain ⟨rec, hm, rfl⟩ := Option.map_eq_some_iff.1 hv
    exact ⟨id, rec, hm, rfl⟩

/-- A lookup returns the record of the coin set. -/
theorem getCoinRecord_eq {s : CoinStore} (h : s.backend.CoinRows m) (id : CoinId) :
    s.getCoinRecord id = .ok (m id) := by
  rw [CoinStore.getCoinRecord, Backend.get_of_healthy h.healthy, h.record_get]
  cases hm : m id with
  | none => rfl
  | some rec =>
    have hdec := decode_serialize (h.storable hm)
    simp [hdec]

end Backend.CoinRows

namespace CoinStore.Represents

variable {S : Scope} {s : CoinStore} {m : Coinset}

theorem coinRows (h : s.Represents S m) : s.backend.CoinRows m where
  healthy := h.healthy
  rows := h.rows .coinRecords (S.life_sub _ (.head _))
  ids := h.ids
  storable := h.lives.storable

/-- The `coin_records` row of an id. -/
theorem record_get (h : s.Represents S m) (id : CoinId) :
    (s.backend.tables .coinRecords)[coinKey id]? = (m id).map serializeCoinRecordStorageBytes :=
  h.coinRows.record_get id

/-- A lookup returns the record of the coin set. -/
theorem getCoinRecord_eq (h : s.Represents S m) (id : CoinId) : s.getCoinRecord id = .ok (m id) :=
  h.coinRows.getCoinRecord_eq id

end CoinStore.Represents

end DigCoinstore
