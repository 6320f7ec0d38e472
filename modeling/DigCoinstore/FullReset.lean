import DigCoinstore.Commitment
import DigCoinstore.HintCleanup
import DigCoinstore.RollbackExact

/-!
# The full reset

A negative target is documented to remove everything, yet it is clamped to 0 before the two passes,
so the coins of the genesis stay. The rollback leaves an empty coin state exactly when it is not
refused, no stored coin was confirmed at height 0, and no id is held unspent without a record
(`Reachable.full_reset_iff`).
-/

namespace DigCoinstore

/-- No hint row of `id`: its forward keys start with the id and its reverse keys end with it. -/
structure Tables.NoHints (t : Tables) (id : CoinId) : Prop where
  forward : ∀ k v : Bytes, (t .hints)[k]? = some v → ¬ id.bytes <+: k
  reverse : ∀ k v : Bytes, (t .hintsByValue)[k]? = some v → ¬ id.bytes <:+ k

variable [Chia]

namespace CoinStore

/-- **The rollback of `s` to `t` returns `Ok` and leaves nothing.** -/
structure FullReset (s : CoinStore) (t : Int64) (s' : CoinStore) (result : RollbackResult) : Prop where
  returns : s.rollbackToBlock t = (s', .ok result)
  newHeight : result.newHeight = 0
  height : s'.height = 0
  rows : ∀ cf ∈ coinFamilies, (s'.backend.tables cf).toList = []
  hints : ∀ id, s.Deletes t id → s'.backend.tables.NoHints id
  unspent : ∀ id, s'.isUnspent id = false
  stateRoot : s'.stateRoot.1 = emptyHash 256
  modified : ∀ id rec, s.getCoinRecord id = .ok (some rec) → result.modifiedCoins[id]? = some rec

variable {S : Scope} {s s' : CoinStore} {m : Coinset} {t : Int64} {result : RollbackResult}

omit [Chia] in
/-- A negative target is taken for 0. -/
theorem effectiveTarget_of_neg (h : t < 0) : effectiveTarget t = 0 := if_pos h

/-- A store of the empty coin set has no rows of coins and the root of the empty tree. -/
theorem Represents.rows_of_empty (h : s.Represents S .empty) {cf : ColumnFamily} (hcf : cf ∈ S.cfs) :
    (s.backend.tables cf).toList = [] := by
  refine OrdMap.toList_eq_nil fun k => Option.eq_none_iff_forall_ne_some.2 fun v hv => ?_
  obtain ⟨id, rec, hm, _⟩ := (h.rows cf hcf k v).1 hv
  cases hm

theorem Represents.stateRoot_of_empty (h : s.Represents S .empty) :
    s.stateRoot.1 = emptyHash 256 := by
  rw [h.stateRoot_eq]
  exact SparseMerkleTree.fullRoot_of_empty fun id => h.leaves id

omit [Chia] in
/-- **A rollback to 0 leaves no coin** exactly when none was confirmed there. -/
theorem rollback_zero_eq_empty : m.rollback 0 = .empty ↔
    ∀ id rec, m id = some rec → rec.confirmedHeight ≠ 0 := by
  constructor
  · intro hempty id rec hm hzero
    have hnone : m.rollback 0 id = none := congrFun hempty id
    obtain ⟨rec', hm', hlt⟩ := Coinset.rollback_lost.1 ⟨⟨rec, hm⟩, hnone⟩
    rw [← Option.some.inj (hm.symm.trans hm'), hzero] at hlt
    exact absurd hlt (by decide)
  · intro hpos
    funext id
    cases hm : m id with
    | none => exact Coinset.rollback_of_none hm
    | some rec => exact Coinset.rollback_of_deleted hm (UInt64.pos_iff_ne_zero.2 (hpos id rec hm))

/-- **A rollback to 0 resets the store** if no coin was confirmed there. -/
theorem Represents.fullReset (h : s.Represents S m) (hcfs : S.cfs = coinFamilies)
    (hclean : HintsCleaned s.backend.tables s'.backend.tables (s.Deletes t))
    (hok : s.rollbackToBlock t = (s', .ok result)) (hrb : RolledBack S s m 0 s' result)
    (hpos : ∀ id rec, m id = some rec → rec.confirmedHeight ≠ 0)
    (hknown : ∀ id ∈ s.unspentIds, ∃ rec, m id = some rec) : s.FullReset t s' result := by
  have hrepr := hrb.represents
  rw [rollback_zero_eq_empty.2 hpos] at hrepr
  have hlt : ∀ {id rec}, m id = some rec → 0 < rec.confirmedHeight := fun {id rec} hm =>
    UInt64.pos_iff_ne_zero.2 (hpos id rec hm)
  exact {
    returns := hok
    newHeight := by
      obtain ⟨del, rev, _, _, rfl⟩ := hrb.result
      rfl
    height := hrb.height
    rows := fun cf hcf => hrepr.rows_of_empty (hcfs ▸ hcf)
    hints := fun id hid =>
      ⟨fun k v hk => ((hclean.forward k v).1 hk).2 id hid,
        fun k v hk => ((hclean.reverse k v).1 hk).2 id hid⟩
    unspent := fun id => by
      refine decide_eq_false fun hid => ?_
      rcases (hrb.unspentIds id).1 hid with ⟨hold, hnot⟩ | ⟨rec, hm, hle, _⟩
      · obtain ⟨rec, hm⟩ := hknown id hold
        exact hnot ⟨rec, hm, hlt hm⟩
      · exact UInt64.not_lt.2 hle (hlt hm)
    stateRoot := hrepr.stateRoot_of_empty
    modified := fun id rec hrec => by
      rw [h.getCoinRecord_eq, Except.ok.injEq] at hrec
      exact (hrb.modified_iff id rec).2 (.inl ⟨hrec, hlt hrec⟩) }

end CoinStore

/-- **When a negative target resets the store.** -/
theorem Reachable.full_reset_iff {U : Set Coin} (hU : Set.InjOn Chia.coinId U)
    {P : BlockData → Prop} {s : CoinStore} (h : Reachable U P s) (hinit : s.initialized = true)
    {t : Int64} (hneg : t < 0) :
    (∃ s' result, s.FullReset t s' result) ↔ t ≤ s.height.toInt64 ∧
      (∀ id rec, s.getCoinRecord id = .ok (some rec) → rec.confirmedHeight ≠ 0) ∧
      ∀ id, s.isUnspent id = true → ∃ rec, s.getCoinRecord id = .ok (some rec) := by
  obtain ⟨m, hm, _⟩ : s.Follows (.all U hU) _ := h.represents
  simp only [hm.getCoinRecord_eq, Except.ok.injEq]
  have hout := hm.rollbackToBlock_outcome t
  have hclean := h.rollback_cleaned t
  generalize hres : s.rollbackToBlock t = out at hout hclean
  constructor
  · rintro ⟨s', result, hreset⟩
    obtain rfl := hres.symm.trans hreset.returns
    cases hout with
    | kept _ _ hnneg => exact absurd hneg (Int64.not_lt.2 hnneg)
    | rolledBack _ hnot _ hrb =>
      rw [CoinStore.effectiveTarget_of_neg hneg] at hrb
      have hempty : m.rollback 0 = .empty := funext fun id => by
        have hget := hrb.represents.record_get id
        rw [OrdMap.getElem?_of_toList_nil (hreset.rows .coinRecords (by decide))] at hget
        exact Option.map_eq_none_iff.1 hget.symm
      refine ⟨Int64.not_lt.1 hnot, CoinStore.rollback_zero_eq_empty.1 hempty, fun id hid => ?_⟩
      by_contra hnone
      have hstays := (hrb.unspentIds id).2 (.inl ⟨of_decide_eq_true hid, fun ⟨rec, hrec, _⟩ =>
        hnone ⟨rec, hrec⟩⟩)
      exact of_decide_eq_false (hreset.unspent id) hstays
  · rintro ⟨hle, hpos, hknown⟩
    cases hout with
    | rejected hrej => exact absurd hle (Int64.not_le.2 (hrej.resolve_left (by simp [hinit])))
    | kept _ _ hnneg => exact absurd hneg (Int64.not_lt.2 hnneg)
    | rolledBack _ _ _ hrb =>
      rw [CoinStore.effectiveTarget_of_neg hneg] at hrb
      exact ⟨_, _, hm.fullReset rfl hclean hres hrb hpos fun id hid =>
        hknown id (decide_eq_true hid)⟩

end DigCoinstore

namespace DigCoinstore

open Sample

/-- A chain whose genesis has no coins. -/
def rewarded : CoinStore := (emptyGenesis.applyBlock rewardBlock).1

theorem reachable_rewarded : Reachable coins BlockData.Honest rewarded := by
  refine accepted_reward.reachable reachable_emptyGenesis fun b hb => ?_
  obtain rfl := List.mem_singleton.1 hb
  exact ⟨fun _ ha => (nomatch ha), blockOne_fits.2⟩

theorem full_reset_rewarded : (∃ s' result, rewarded.FullReset (-1) s' result) ↔
    (-1 : Int64) ≤ rewarded.height.toInt64 ∧
      (∀ id rec, rewarded.getCoinRecord id = .ok (some rec) → rec.confirmedHeight ≠ 0) ∧
      ∀ id, rewarded.isUnspent id = true → ∃ rec, rewarded.getCoinRecord id = .ok (some rec) :=
  reachable_rewarded.full_reset_iff coinId_injOn (by decide +kernel) (by decide)

/-- The genesis coins survive a negative target. -/
theorem full_reset_fails : Reachable coins BlockData.Honest genesis ∧ genesis.initialized = true ∧
    (∃ result, (genesis.rollbackToBlock (-1)).2 = .ok result ∧ result.modifiedCoins.toList = []) ∧
    (∃ rec, (genesis.rollbackToBlock (-1)).1.getCoinRecord (ofNum 1) = .ok (some rec)) ∧
    (genesis.rollbackToBlock (-1)).1.isUnspent (ofNum 1) = true ∧
    ¬ ∃ s' result, genesis.FullReset (-1) s' result := by
  obtain ⟨hinit, hok, hrec, hunspent⟩ : genesis.initialized = true ∧
      (genesis.rollbackToBlock (-1)).2.toOption.map (·.modifiedCoins.toList) = some [] ∧
      (((genesis.rollbackToBlock (-1)).1.getCoinRecord (ofNum 1)).toOption.join).isSome = true ∧
      (genesis.rollbackToBlock (-1)).1.isUnspent (ofNum 1) = true := by
    decide +kernel
  obtain ⟨result, hres, hnil⟩ := Option.map_eq_some_iff.1 hok
  obtain ⟨rec, hjoin⟩ := Option.isSome_iff_exists.1 hrec
  have hget := Res.eq_ok_of_toOption (Option.join_eq_some_iff.1 hjoin)
  refine ⟨reachable_genesis, hinit, ⟨result, Res.eq_ok_of_toOption hres, hnil⟩, ⟨rec, hget⟩,
    hunspent, ?_⟩
  rintro ⟨s', result', hreset⟩
  have hfst : (genesis.rollbackToBlock (-1)).1 = s' := congrArg Prod.fst hreset.returns
  have hnone := hreset.unspent (ofNum 1)
  rw [← hfst, hunspent] at hnone
  cases hnone

end DigCoinstore
