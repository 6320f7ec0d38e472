import DigCoinstore.ConcurrentHints
import DigCoinstore.Sample

/-!
# Hint clean-up

A clean-up reads the forward rows of a coin and deletes both rows of each. Since the first 32 bytes
of a forward key and the last 32 of a reverse key are the coin id, these are exactly the rows of
that coin, whatever the lengths of the hints (`HintTables.hintsOf`). So a rollback drops the hints
of the coins that it deletes, a removal those of the listed coins, and no others
(`Reachable.hint_cleanup`).
-/

namespace DigCoinstore

/-! ## The hints of a coin -/

/-- The pairs of other coins. -/
def withoutCoins (members : HintPair → Option Unit) (ids : List CoinId) : HintPair → Option Unit :=
  fun p => if p.1 ∈ ids then none else members p

theorem withoutCoins_nil (members : HintPair → Option Unit) : withoutCoins members [] = members :=
  funext fun _ => if_neg List.not_mem_nil

theorem withoutCoins_cons (members : HintPair → Option Unit) (id : CoinId) (ids : List CoinId) :
    withoutCoins (withoutCoins members [id]) ids = withoutCoins members (id :: ids) := by
  funext p
  by_cases hid : p.1 = id <;> by_cases hids : p.1 ∈ ids <;> simp [withoutCoins, hid, hids]

theorem withoutCoins_le {members : HintPair → Option Unit} {ids : List CoinId} {p : HintPair}
    (h : withoutCoins members ids p = some ()) : members p = some () := by
  unfold withoutCoins at h
  split at h
  · cases h
  · exact h

/-- The pairs without some hints of one coin. -/
def dropHints (members : HintPair → Option Unit) (id : CoinId) (hints : List Bytes) :
    HintPair → Option Unit :=
  hints.foldl (fun members hint => Function.update members (id, hint) none) members

theorem dropHints_eq (id : CoinId) (p : HintPair) : ∀ (hints : List Bytes)
    (members : HintPair → Option Unit),
    dropHints members id hints p = if p.1 = id ∧ p.2 ∈ hints then none else members p
  | [], members => by simp [dropHints]
  | hint :: hints, members => by
    have hrest := dropHints_eq id p hints (Function.update members (id, hint) none)
    rw [dropHints, List.foldl_cons, ← dropHints, hrest]
    by_cases hp : p = (id, hint)
    · subst hp
      simp
    · rw [Function.update_of_ne hp]
      have hiff : (p.1 = id ∧ p.2 ∈ hint :: hints) ↔ p.1 = id ∧ p.2 ∈ hints := by
        refine and_congr_right fun hid => ⟨fun hmem => ?_, .tail _⟩
        exact (List.mem_cons.1 hmem).resolve_left fun hhint => hp (Prod.ext hid hhint)
      simp only [hiff]

/-- All hints of the coin dropped. -/
theorem dropHints_all {members : HintPair → Option Unit} {id : CoinId} {hints : List Bytes}
    (hall : ∀ hint, members (id, hint) = some () → hint ∈ hints) :
    dropHints members id hints = withoutCoins members [id] := by
  funext p
  rw [dropHints_eq, withoutCoins]
  by_cases hid : p.1 = id
  · by_cases hmem : p.2 ∈ hints
    · simp [hid, hmem]
    · have hp : p = (id, p.2) := Prod.ext hid rfl
      have hnone : members p = none := Option.eq_none_iff_forall_ne_some.2 fun _ hu =>
        hmem (hall p.2 (hp ▸ hu))
      simp [hmem, hnone]
  · simp [hid]

namespace HintTables

variable {t : Tables} {members : HintPair → Option Unit}

/-- **The forward rows of a coin** are those of its hints. -/
theorem hintsOf (h : HintTables t members) (id : CoinId) : ∃ hints : List Bytes, hints.Nodup ∧
    (∀ hint, hint ∈ hints ↔ members (id, hint) = some ()) ∧
    ((t .hints).toList.filter fun kv => id.bytes.isPrefixOf kv.1).map (·.1) =
      hints.map (id.bytes ++ ·) := by
  have hkeys : ∀ k ∈ ((t .hints).toList.filter fun kv => id.bytes.isPrefixOf kv.1).map (·.1),
      ∃ hint, members (id, hint) = some () ∧ id.bytes ++ hint = k := by
    intro k hk
    obtain ⟨kv, hkv, rfl⟩ := List.mem_map.1 hk
    obtain ⟨hkv, hpre⟩ := List.mem_filter.1 hkv
    obtain ⟨hint, hhint⟩ := List.isPrefixOf_iff_prefix.1 hpre
    obtain ⟨p, hp, hrow⟩ := h.forward.row_iff.1 (OrdMap.mem_toList.1 hkv)
    have hkey : forwardKey (id, hint) = forwardKey p := hhint.trans (Prod.mk.inj hrow).1
    obtain rfl := forwardKey_injective hkey
    exact ⟨hint, hp, hhint⟩
  obtain ⟨hints, hmap, hP⟩ := List.exists_map_eq _ hkeys
  refine ⟨hints, ?_, fun hint => ⟨hP hint, fun hm => ?_⟩, hmap.symm⟩
  · have hnodup : (((t .hints).toList.filter fun kv => id.bytes.isPrefixOf kv.1).map (·.1)).Nodup :=
      (OrdMap.nodup_keys (t .hints)).sublist (List.filter_sublist.map _)
    rw [← hmap] at hnodup
    exact hnodup.of_map _
  · have hrow : (t .hints)[forwardKey (id, hint)]? = some [] := h.forward.get hm rfl
    have hmem : id.bytes ++ hint ∈
        ((t .hints).toList.filter fun kv => id.bytes.isPrefixOf kv.1).map (·.1) := by
      refine List.mem_map.2 ⟨(id.bytes ++ hint, []), List.mem_filter.2 ⟨OrdMap.mem_toList.2 hrow, ?_⟩, rfl⟩
      exact List.isPrefixOf_iff_prefix.2 (List.prefix_append _ _)
    rw [← hmap] at hmem
    obtain ⟨hint', hhint', heq⟩ := List.mem_map.1 hmem
    rwa [← List.append_cancel_left heq]

/-- A pair has its forward row exactly if it is stored. -/
theorem hasForward_iff {b : Backend} (h : HintTables b.tables members) (p : HintPair) :
    b.hasForward p = true ↔ members p = some () := by
  rw [Backend.hasForward, h.forward.get_key forwardKey_injective p, Option.isSome_iff_exists]
  constructor
  · rintro ⟨_, hp⟩
    exact hp
  · intro hp
    exact ⟨(), hp⟩

end HintTables

/-! ## Rows that are left -/

/-- Of two tables of rows, the second has those of the coins that are not gone; `own id k` says
that `k` is the key of a row of `id`. -/
def RowsCleaned (own : CoinId → Bytes → Prop) (gone : CoinId → Prop) (t t' : Table) : Prop :=
  ∀ k v : Bytes, t'[k]? = some v ↔ t[k]? = some v ∧ ∀ id, gone id → ¬ own id k

/-- The hint rows of the coins that are gone are deleted, in both tables, and no others. -/
structure HintsCleaned (t t' : Tables) (gone : CoinId → Prop) : Prop where
  forward : RowsCleaned (fun id k => id.bytes <+: k) gone (t .hints) (t' .hints)
  reverse : RowsCleaned (fun id k => id.bytes <:+ k) gone (t .hintsByValue) (t' .hintsByValue)

theorem forwardKey_own {id : CoinId} {p : HintPair} : id.bytes <+: forwardKey p ↔ id = p.1 := by
  constructor
  · intro hpre
    have hpre' := List.prefix_of_prefix_length_le hpre (List.prefix_append p.1.bytes p.2) (by simp)
    exact Bytes32.ext (hpre'.eq_of_length (by simp))
  · rintro rfl
    exact List.prefix_append _ _

theorem reverseKey_own {id : CoinId} {p : HintPair} : id.bytes <:+ reverseKey p ↔ id = p.1 := by
  constructor
  · intro hsuf
    have hsuf' := List.suffix_of_suffix_length_le hsuf (List.suffix_append p.2 p.1.bytes) (by simp)
    exact Bytes32.ext (hsuf'.eq_of_length (by simp))
  · rintro rfl
    exact List.suffix_append _ _

theorem rowsCleaned_of_mirrors {t t' : Table} {key : HintPair → Bytes}
    {own : CoinId → Bytes → Prop} (hown : ∀ {id p}, own id (key p) ↔ id = p.1)
    {members : HintPair → Option Unit} {ids : List CoinId}
    (h : Mirrors (fun k => t[k]?) (keyRow key []) members)
    (h' : Mirrors (fun k => t'[k]?) (keyRow key []) (withoutCoins members ids)) :
    RowsCleaned own (· ∈ ids) t t' := by
  intro k v
  refine h'.row_iff.trans (Iff.trans ?_ (and_congr_left' h.row_iff.symm))
  constructor
  · rintro ⟨p, hp, hrow⟩
    refine ⟨⟨p, withoutCoins_le hp, hrow⟩, fun id hid hk => ?_⟩
    rw [(Prod.mk.inj hrow).1, hown] at hk
    rw [withoutCoins, if_pos (hk ▸ hid)] at hp
    cases hp
  · rintro ⟨⟨p, hp, hrow⟩, hkept⟩
    refine ⟨p, ?_, hrow⟩
    rwa [withoutCoins, if_neg fun hid => hkept p.1 hid ?_]
    rw [(Prod.mk.inj hrow).1, hown]

theorem HintTables.cleaned {t t' : Tables} {members : HintPair → Option Unit} {ids : List CoinId}
    (h : HintTables t members) (h' : HintTables t' (withoutCoins members ids)) :
    HintsCleaned t t' (· ∈ ids) :=
  ⟨rowsCleaned_of_mirrors forwardKey_own h.forward h'.forward,
    rowsCleaned_of_mirrors reverseKey_own h.reverse h'.reverse⟩

/-! ## The clean-up of a rollback -/

namespace HintTables

variable {t : Tables} {members members' : HintPair → Option Unit}

/-- Writes of coins leave the hints. -/
theorem applyCoins (h : HintTables t members) {ops : List WriteOp}
    (hcf : ∀ op ∈ ops, Tables.opCf op ∈ coinFamilies) : HintTables (t.applyOps ops) members :=
  h.congr (Tables.applyOps_other ops t (hints_not_mem hcf).1)
    (Tables.applyOps_other ops t (hints_not_mem hcf).2)

theorem applyTip (h : HintTables t members) (height : UInt64) (tipHash : Bytes32)
    (timestamp : UInt64) :
    HintTables (t.applyOps (stageTip .new height tipHash timestamp).ops) members :=
  h.congr (stageTip_other t (by decide)) (stageTip_other t (by decide))

/-- The deletions of some forward rows of one coin. -/
theorem stageDeletions (id : CoinId) : ∀ (hints : List Bytes) {t : Tables}
    {members : HintPair → Option Unit}, HintTables t members →
    HintTables (t.applyOps ((hints.map (id.bytes ++ ·)).foldl
      (DigCoinstore.stageHintDeletion id) .new).ops) (dropHints members id hints)
  | [], _, _, h => h
  | hint :: hints, t, members, h => by
    rw [List.map_cons, applyOps_stageAll (ops_stageHintDeletion id)]
    exact stageDeletions id hints (h.stageHintDeletion id hint)

end HintTables

namespace CoinStore

variable {s : CoinStore} {members members' : HintPair → Option Unit}

/-- **The clean-up of one coin.** The rows are read before the commit, so some of the hints may be
dropped already. -/
theorem deleteHints_tables (hb : s.backend.Healthy) (hbase : HintTables s.backend.tables members)
    {acc acc' : RollbackAcc} {id : CoinId}
    (hacc : HintTables (s.backend.tables.applyOps acc.batch.ops) members')
    (hle : ∀ p, members' p = some () → members p = some ()) (hok : s.deleteHints acc id = .ok acc') :
    HintTables (s.backend.tables.applyOps acc'.batch.ops) (withoutCoins members' [id]) := by
  obtain ⟨hints, -, hmem, hkeys⟩ := hbase.hintsOf id
  rw [deleteHints, Backend.prefixScan_of_healthy hb] at hok
  obtain rfl := Except.ok.inj hok
  have hall : ∀ hint, members' (id, hint) = some () → hint ∈ hints := fun hint hm =>
    (hmem hint).2 (hle _ hm)
  rw [hkeys, ops_stageAll (ops_stageHintDeletion id), Tables.applyOps_append, ← dropHints_all hall]
  exact HintTables.stageDeletions id hints hacc

/-- The clean-up of all deleted coins. -/
theorem foldlM_deleteHints_tables (hb : s.backend.Healthy)
    (hbase : HintTables s.backend.tables members) : ∀ (ids : List CoinId) {acc acc' : RollbackAcc}
    {members' : HintPair → Option Unit},
    HintTables (s.backend.tables.applyOps acc.batch.ops) members' →
    (∀ p, members' p = some () → members p = some ()) →
    ids.foldlM s.deleteHints acc = .ok acc' →
    HintTables (s.backend.tables.applyOps acc'.batch.ops) (withoutCoins members' ids)
  | [], _, _, members', hacc, _, hok => by
    obtain rfl := Except.ok.inj hok
    rwa [withoutCoins_nil]
  | id :: ids, acc, acc', members', hacc, hle, hok => by
    obtain ⟨acc₁, hid, hrest⟩ := Res.bind_eq_ok.1 hok
    rw [← withoutCoins_cons]
    exact foldlM_deleteHints_tables hb hbase ids (deleteHints_tables hb hbase hacc hle hid)
      (fun p hp => hle p (withoutCoins_le hp)) hrest

variable [Chia]

/-- **The batch of a rollback** drops the hints of the ids of pass one. -/
theorem stageRollback_tables (hb : s.backend.Healthy) (hbase : HintTables s.backend.tables members)
    {target : UInt64} {acc : RollbackAcc} (hok : s.stageRollback target = .ok acc) :
    ∃ acc₁, s.scanAbove .coinByConfirmedHeight target s.deleteConfirmed .start = .ok acc₁ ∧
      HintTables (s.backend.tables.applyOps acc.batch.ops)
        (withoutCoins members (deletedIds target acc₁)) := by
  have hcoins : ∀ {members' : HintPair → Option Unit} {acc acc' : RollbackAcc},
      HintTables (s.backend.tables.applyOps acc.batch.ops) members' →
      (∃ ops, acc'.batch.ops = acc.batch.ops ++ ops ∧ ∀ op ∈ ops, Tables.opCf op ∈ coinFamilies) →
      HintTables (s.backend.tables.applyOps acc'.batch.ops) members' := by
    rintro members' acc acc' hacc ⟨ops, heq, hcf⟩
    rw [heq, Tables.applyOps_append]
    exact hacc.applyCoins hcf
  obtain ⟨acc₁, hdel, hrest⟩ := Res.bind_eq_ok.1 hok
  obtain ⟨acc₂, hclean, hrev⟩ := Res.bind_eq_ok.1 hrest
  have hpass : HintTables (s.backend.tables.applyOps acc₁.batch.ops) members :=
    scanAbove_inv (I := fun acc => HintTables (s.backend.tables.applyOps acc.batch.ops) members)
      (fun _ _ _ hacc hok => hcoins hacc (deleteConfirmed_ops hok))
      (show HintTables (s.backend.tables.applyOps RollbackAcc.start.batch.ops) members from hbase) hdel
  have hcleaned := foldlM_deleteHints_tables hb hbase _ hpass (fun _ => id) hclean
  refine ⟨acc₁, hdel, ?_⟩
  exact scanAbove_inv (I := fun acc => HintTables (s.backend.tables.applyOps acc.batch.ops) _)
    (fun _ _ _ hacc hok => hcoins hacc (unspendEntry_ops hok)) hcleaned hrev

/-- The ids of pass one are those of the records confirmed above the target. -/
theorem Represents.mem_deletedIds {S : Scope} {m : Coinset} (h : s.Represents S m) {target : UInt64}
    {acc : RollbackAcc}
    (hok : s.scanAbove .coinByConfirmedHeight target s.deleteConfirmed .start = .ok acc)
    (id : CoinId) :
    id ∈ deletedIds target acc ↔ ∃ rec, m id = some rec ∧ target < rec.confirmedHeight := by
  obtain ⟨del, hnodup, hmem, hfold⟩ := h.scanAbove_eq .coinByConfirmedHeight
    (fun rec => some rec.confirmedHeight) (S.life_sub _ (by simp [lifeFamilies]))
    (fun _ _ => rfl) (fun id rec t hm ht => Option.some.inj ht ▸ h.lives.confirmed_le hm) target
  rw [hfold s.deleteConfirmed deleteStep .start fun acc x t hm _ => h.deleteConfirmed_eq acc t hm,
    foldl_deleteStep] at hok
  obtain rfl := Except.ok.inj hok
  have hdel : ∀ rec, (id, rec) ∈ del ↔ m id = some rec ∧ target < rec.confirmedHeight := fun rec => by
    simp [hmem]
  unfold deletedIds
  simp only [List.mem_map, List.mem_filter, decide_eq_true_eq]
  constructor
  · rintro ⟨kv, ⟨hkv, _⟩, rfl⟩
    have hget := (OrdMap.getElem?_insertAll hnodup).1 (OrdMap.mem_toList.1 hkv)
    exact ⟨kv.2, (hdel kv.2).1 hget⟩
  · rintro ⟨rec, hm, hlt⟩
    have hget := (OrdMap.getElem?_insertAll hnodup).2 ((hdel rec).2 ⟨hm, hlt⟩)
    exact ⟨(id, rec), ⟨OrdMap.mem_toList.2 hget, hlt⟩, rfl⟩

/-- The rollback deletes the coin. -/
def Deletes (s : CoinStore) (targetHeight : Int64) (id : CoinId) : Prop :=
  (∃ rec, s.getCoinRecord id = .ok (some rec)) ∧
    (s.rollbackToBlock targetHeight).1.getCoinRecord id = .ok none

/-- **The hints after a rollback**, on a store of the coin set `m`. -/
theorem Represents.rollback_hints {S : Scope} {m : Coinset} (h : s.Represents S m)
    (hbase : HintTables s.backend.tables members) (targetHeight : Int64) : ∃ ids,
    HintTables (s.rollbackToBlock targetHeight).1.backend.tables (withoutCoins members ids) ∧
      ∀ id, id ∈ ids ↔ s.Deletes targetHeight id := by
  unfold Deletes
  have hout := h.rollbackToBlock_outcome targetHeight
  have hwrites := (rollbackToBlock_writes h.healthy targetHeight).2
  generalize s.rollbackToBlock targetHeight = out at hout hwrites
  have hsame : out.1.backend = s.backend → ∃ ids,
      HintTables out.1.backend.tables (withoutCoins members ids) ∧
        ∀ id, id ∈ ids ↔ (∃ rec, s.getCoinRecord id = .ok (some rec)) ∧
          out.1.getCoinRecord id = .ok none := by
    intro heq
    refine ⟨[], by rwa [heq, withoutCoins_nil], fun id => iff_of_false List.not_mem_nil ?_⟩
    rintro ⟨⟨rec, hrec⟩, hnone⟩
    rw [getCoinRecord, heq, ← getCoinRecord, hrec] at hnone
    cases hnone
  cases hout with
  | rejected => exact hsame rfl
  | kept => exact hsame rfl
  | rolledBack _ _ _ hrb =>
    rcases hwrites with heq | ⟨acc, hstage, heq⟩
    · exact hsame heq
    · obtain ⟨acc₁, hdel, hclean⟩ := stageRollback_tables h.healthy hbase hstage
      refine ⟨deletedIds (effectiveTarget targetHeight) acc₁, ?_, fun id => ?_⟩
      · rw [heq, Backend.wrote, ops_stageTip, Tables.applyOps_append]
        exact hclean.applyTip ..
      · simp only [h.mem_deletedIds hdel, h.getCoinRecord_eq, hrb.represents.getCoinRecord_eq,
          Except.ok.injEq]
        exact Coinset.rollback_lost.symm

end CoinStore

/-! ## The removal of listed coins -/

section remove
variable {b : Backend} {members : HintPair → Option Unit}

/-- Both rows of one hint. -/
theorem removeHintRow_run (hb : b.Healthy) (h : HintTables b.tables members) (removed : Nat)
    (id : CoinId) {hint : Bytes} (hpos : 0 < hint.length) : ∃ b',
    removeHintRow id b removed (id.bytes ++ hint) = (b', .ok (removed + 1)) ∧ b'.Healthy ∧
    HintTables b'.tables (Function.update members (id, hint) none) := by
  have hdrop : (id.bytes ++ hint).drop 32 = hint := List.drop_left' id.length_bytes
  have hlen : ¬ (id.bytes ++ hint).length ≤ 32 := by
    simp only [List.length_append, Bytes32.length_bytes]
    omega
  have hdel : ∀ t, ({ b with tables := t } : Backend).Healthy := fun _ => hb
  let t := (b.tables.delete .hintsByValue (hint ++ id.bytes)).delete .hints (id.bytes ++ hint)
  refine ⟨{ b with tables := t }, ?_, hdel t, h.delete id hint⟩
  simp only [removeHintRow, if_neg hlen, hdrop, Backend.delete_of_healthy hb,
    Backend.delete_of_healthy (hdel _)]
  rfl

/-- The rows of some hints of one coin, one after the other. -/
theorem removeHintRows_run (id : CoinId) : ∀ (hints : List Bytes) {b : Backend}
    {members : HintPair → Option Unit} (removed : Nat), b.Healthy → HintTables b.tables members →
    (∀ hint ∈ hints, 0 < hint.length) → ∃ b',
    forBackend (removeHintRow id) (hints.map (id.bytes ++ ·)) b removed =
      (b', .ok (removed + hints.length)) ∧ b'.Healthy ∧
      HintTables b'.tables (dropHints members id hints)
  | [], b, _, removed, hb, h, _ => ⟨b, rfl, hb, h⟩
  | hint :: hints, b, members, removed, hb, h, hpos => by
    obtain ⟨b₁, hrow, hb₁, h₁⟩ := removeHintRow_run hb h removed id (hpos hint (.head _))
    obtain ⟨b', hrun, hb', h'⟩ := removeHintRows_run id hints (removed + 1) hb₁ h₁
      fun hint' hmem => hpos hint' (.tail _ hmem)
    refine ⟨b', ?_, hb', h'⟩
    rw [List.map_cons, forBackend, hrow]
    dsimp only
    rw [hrun, List.length_cons, Nat.add_assoc, Nat.add_comm 1]

/-- All hints of one coin. -/
theorem removeHintsForCoin_run (hb : b.Healthy) (h : HintTables b.tables members) (removed : Nat)
    (id : CoinId) : ∃ (b' : Backend) (hints : List Bytes),
    removeHintsForCoin b removed id = (b', .ok (removed + hints.length)) ∧ b'.Healthy ∧
    hints.Nodup ∧ (∀ hint, hint ∈ hints ↔ members (id, hint) = some ()) ∧
    HintTables b'.tables (withoutCoins members [id]) := by
  obtain ⟨hints, hnodup, hmem, hkeys⟩ := h.hintsOf id
  obtain ⟨b', hrun, hb', h'⟩ := removeHintRows_run id hints removed hb h fun hint hhint =>
    (h.lengths _ ((hmem hint).1 hhint)).1
  refine ⟨b', hints, ?_, hb', hnodup, hmem, ?_⟩
  · rw [removeHintsForCoin, Backend.prefixScan_of_healthy hb, orStorage_ok]
    dsimp only
    rw [hkeys, hrun]
  · rwa [← dropHints_all fun hint => (hmem hint).2]

/-- **All hints of the listed coins**, each pair counted once. -/
theorem removeHintsForCoins_run : ∀ (ids : List CoinId) {b : Backend}
    {members : HintPair → Option Unit} (removed : Nat), b.Healthy → HintTables b.tables members →
    ∃ (b' : Backend) (pairs : List HintPair),
    forBackend removeHintsForCoin ids b removed = (b', .ok (removed + pairs.length)) ∧
    pairs.Nodup ∧ (∀ p, p ∈ pairs ↔ p.1 ∈ ids ∧ members p = some ()) ∧
    HintTables b'.tables (withoutCoins members ids)
  | [], b, members, removed, _, h => by
    refine ⟨b, [], rfl, List.nodup_nil, by simp, ?_⟩
    rwa [withoutCoins_nil]
  | id :: ids, b, members, removed, hb, h => by
    obtain ⟨b₁, hints, hrun, hb₁, hnodup, hmem, h₁⟩ := removeHintsForCoin_run hb h removed id
    obtain ⟨b', pairs, hrest, hnodup', hmem', h'⟩ :=
      removeHintsForCoins_run ids (removed + hints.length) hb₁ h₁
    refine ⟨b', hints.map (id, ·) ++ pairs, ?_, ?_, fun p => ?_, ?_⟩
    · rw [forBackend, hrun]
      dsimp only
      rw [hrest, List.length_append, List.length_map, Nat.add_assoc]
    · refine List.nodup_append.2 ⟨hnodup.map fun _ _ heq => (Prod.mk.inj heq).2, hnodup', ?_⟩
      -- the pairs of the coin are gone when the next coins are looked at
      rintro p hp q hq rfl
      obtain ⟨hint, _, rfl⟩ := List.mem_map.1 hp
      have hgone := ((hmem' _).1 hq).2
      simp [withoutCoins] at hgone
    · rw [List.mem_append, hmem', List.mem_map]
      by_cases hid : p.1 = id
      · subst hid
        simp [withoutCoins, hmem, Prod.ext_iff]
      · simp [withoutCoins, hid, Prod.ext_iff, Ne.symm hid]
    · rwa [withoutCoins_cons] at h'

end remove

/-! ## Runs -/

variable [Chia] {U : Set Coin} {P : BlockData → Prop} {s : CoinStore}

/-- A rollback drops the hint rows of the coins it deletes, and no others. -/
theorem Reachable.rollback_cleaned (h : Reachable U P s) (t : Int64) :
    HintsCleaned s.backend.tables (s.rollbackToBlock t).1.backend.tables (s.Deletes t) := by
  obtain ⟨hb, members, hbase⟩ := h.operated.hintsOk
  obtain ⟨m, hm, -⟩ := h.life
  obtain ⟨ids, htables, hids⟩ := hm.rollback_hints hbase t
  rw [← show (· ∈ ids) = s.Deletes t from funext fun id => propext (hids id)]
  exact hbase.cleaned htables

end DigCoinstore

namespace DigCoinstore

open Sample

end DigCoinstore
