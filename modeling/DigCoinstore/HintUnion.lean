import DigCoinstore.HintExact
import DigCoinstore.Lib.CappedUnion

/-!
# Lookups of several hints (`hints.rs`, `get_coin_ids_by_hints`)

Each hint is looked up with the cap of the whole query, and coins that were met before are dropped.
No coin is lost that there is room for (`Operated.hints_union`).
-/

namespace DigCoinstore

namespace CoinStore

/-- The loop over the hints, with the coins met so far. -/
def collectHints (s : CoinStore) (maxItems : Nat) :
    List Bytes32 → Finset CoinId → List CoinId → Res (List CoinId)
  | [], _, result => .ok result
  | hint :: hints, seen, result => do
    let coinIds ← s.getCoinIdsByHint hint maxItems
    match CappedUnion.push maxItems coinIds seen result with
    | .error result => return result
    | .ok (seen, result) => s.collectHints maxItems hints seen result

/-- The coins with any of the 32-byte hints, each once, at most `maxItems`. -/
def getCoinIdsByHints (s : CoinStore) (hints : List Bytes32) (maxItems : Nat) : Res (List CoinId) :=
  s.collectHints maxItems hints ∅ []

theorem collectHints_spec {s : CoinStore} {maxItems : Nat} {has : Bytes32 → Set CoinId}
    (hlookup : ∀ hint, ∃ all : List CoinId, all.Nodup ∧ (∀ id, id ∈ all ↔ id ∈ has hint) ∧
      s.getCoinIdsByHint hint maxItems = .ok (all.take maxItems)) :
    ∀ (hints : List Bytes32) {U : Set CoinId} {seen : Finset CoinId} {result : List CoinId},
      CappedUnion.Valid maxItems U seen result →
      ∃ result', s.collectHints maxItems hints seen result = .ok result' ∧
        CappedUnion.Listing maxItems (U ∪ {id | ∃ hint ∈ hints, id ∈ has hint}) result'
  | [], U, seen, result, h => by
    have hU : U ∪ {id | ∃ hint ∈ ([] : List Bytes32), id ∈ has hint} = U := by simp
    rw [hU]
    exact ⟨result, rfl, h.toListing⟩
  | hint :: hints, U, seen, result, h => by
    obtain ⟨all, hnodup, hmem, hrun⟩ := hlookup hint
    have hall : {id | id ∈ all} = has hint := Set.ext hmem
    have hU : U ∪ {id | ∃ hint' ∈ hint :: hints, id ∈ has hint'} =
        U ∪ has hint ∪ {id | ∃ hint' ∈ hints, id ∈ has hint'} := by
      ext id
      simp [or_assoc]
    rw [collectHints, hrun, Res.ok_bind, hU]
    have hpush := h.push_take hnodup
    rw [hall] at hpush
    rcases hpush with ⟨result', heq, hlist, hfull⟩ | ⟨seen', result', heq, hvalid⟩
    · rw [heq]
      exact ⟨result', rfl, hlist.of_full hfull Set.subset_union_left⟩
    · rw [heq]
      exact collectHints_spec hlookup hints hvalid

end CoinStore

/-- **A lookup of several hints loses nothing it has room for**: in every state of a run it returns
distinct coins that are stored with one of the hints, as many as there are up to the cap. -/
theorem Operated.hints_union [Chia] {s : CoinStore} (h : Operated s) (hints : List Bytes32)
    (maxItems : Nat) : ∃ result all : List CoinId,
      s.getCoinIdsByHints hints maxItems = .ok result ∧ result.Nodup ∧
      (∀ id ∈ result, ∃ hint ∈ hints, s.StoresHint id hint) ∧
      all.Nodup ∧ (∀ id, id ∈ all ↔ ∃ hint ∈ hints, s.StoresHint id hint) ∧
      result.length = min maxItems all.length := by
  obtain ⟨hb, members, hm⟩ := h.hintsOk
  have hheld : HintsHeld s.backend.tables {p | members p = some ()} :=
    ⟨members, hm, fun p => Iff.rfl⟩
  have hlookup : ∀ hint : Bytes32, ∃ all : List CoinId, all.Nodup ∧
      (∀ id, id ∈ all ↔ id ∈ {id | s.StoresHint id hint}) ∧
      ∀ maxItems, s.getCoinIdsByHint hint maxItems = .ok (all.take maxItems) := fun hint => by
    obtain ⟨all, hnodup, hmem, hrun⟩ := CoinStore.getCoinIdsByHint_exact hb hheld hint
    exact ⟨all, hnodup, fun id => (hmem id).trans (hm.hasForward_iff (id, hint.bytes)).symm, hrun⟩
  choose all hnodup hmem hrun using hlookup
  obtain ⟨result, hresult, hlist⟩ := CoinStore.collectHints_spec
    (fun hint => ⟨all hint, hnodup hint, hmem hint, hrun hint maxItems⟩) hints
    (CappedUnion.Valid.start maxItems)
  rw [Set.empty_union] at hlist
  have hunion : ∀ id, id ∈ (hints.flatMap all).dedup ↔ ∃ hint ∈ hints, s.StoresHint id hint := by
    intro id
    rw [List.mem_dedup, List.mem_flatMap]
    exact exists_congr fun hint => and_congr_right fun _ => hmem hint id
  exact ⟨result, (hints.flatMap all).dedup, hresult, hlist.nodup, hlist.sub, List.nodup_dedup _, hunion,
    hlist.length_eq (List.nodup_dedup _) hunion⟩

end DigCoinstore

namespace DigCoinstore

open Sample

theorem hints_union_hinted : ∃ result all : List CoinId,
    hinted.getCoinIdsByHints [ofNum 5, ofNum 7, ofNum 5] 2 = .ok result ∧ result.Nodup ∧
    (∀ id ∈ result, ∃ hint ∈ [ofNum 5, ofNum 7, ofNum 5], hinted.StoresHint id hint) ∧
    all.Nodup ∧ (∀ id, id ∈ all ↔ ∃ hint ∈ [ofNum 5, ofNum 7, ofNum 5], hinted.StoresHint id hint) ∧
    result.length = min 2 all.length :=
  operated_hinted.hints_union [ofNum 5, ofNum 7, ofNum 5] 2

end DigCoinstore
