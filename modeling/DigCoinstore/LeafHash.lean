import DigCoinstore.History
import DigCoinstore.Sample

/-!
# The published leaf hash (`merkle/leaf_hash.rs`)

`coin_record_hash` hashes the bincode row of a record as it is. The leaf of a stored coin is the
hash of its row behind a byte 0, and most rows are no bincode: the two inputs never have the same
length, so the leaves are the published ones only in a store without coins
(`Reachable.leaves_published_iff`).
-/

namespace DigCoinstore

section
variable [Chia]

/-- The leaf value that a light client expects for a record. -/
def coinRecordHash (record : CoinRecord) : Bytes32 := Chia.sha256 (encodeCoinRecord record)

omit [Chia] in
theorem leafInput_ne (rec : CoinRecord) :
    0x00 :: serializeCoinRecordStorageBytes rec ≠ encodeCoinRecord rec := by
  intro heq
  have hlen := congrArg List.length heq
  rw [List.length_cons, length_encodeCoinRecord, serializeCoinRecordStorageBytes] at hlen
  split at hlen
  · rw [length_encodeCoinRecord] at hlen
    omega
  · rw [length_serializeLegacy] at hlen
    split at hlen <;> omega

/-- A leaf is the published hash only if SHA-256 collides on the two inputs. -/
theorem leafHash_ne {rec : CoinRecord}
    (hsha : Set.InjOn Chia.sha256 {0x00 :: serializeCoinRecordStorageBytes rec, encodeCoinRecord rec}) :
    CoinStore.leafHash rec ≠ coinRecordHash rec :=
  fun heq => leafInput_ne rec (hsha (.inl rfl) (.inr rfl) heq)

/-- **When the leaves are the published ones**: only while no coin is stored. -/
theorem Reachable.leaves_published_iff {U : Set Coin} {P : BlockData → Prop} {s : CoinStore}
    (h : Reachable U P s) (hsha : ∀ id rec, s.getCoinRecord id = .ok (some rec) →
      Set.InjOn Chia.sha256 {0x00 :: serializeCoinRecordStorageBytes rec, encodeCoinRecord rec}) :
    (∀ id rec, s.getCoinRecord id = .ok (some rec) →
        s.merkleTree.get rec.coinId = some (coinRecordHash rec)) ↔
      ∀ id, s.getCoinRecord id = .ok none := by
  obtain ⟨m, hm, _⟩ := h.life
  simp only [hm.getCoinRecord_eq, Except.ok.injEq] at hsha ⊢
  constructor
  · intro hleaves id
    by_contra hsome
    obtain ⟨rec, hrec⟩ := Option.ne_none_iff_exists'.1 hsome
    have hleaf := hleaves id rec hrec
    rw [SparseMerkleTree.get, hm.leaves, hm.ids hrec, hrec] at hleaf
    exact leafHash_ne (hsha id rec hrec) (Option.some.inj hleaf)
  · intro hnone id rec hrec
    rw [hnone id] at hrec
    cases hrec

end

/-! ## In the sample chain -/

open Sample

theorem injOn_leafInputs (rec : CoinRecord) : Set.InjOn Chia.sha256
    {0x00 :: serializeCoinRecordStorageBytes rec, encodeCoinRecord rec} := by
  obtain ⟨tail, htail⟩ : ∃ tail, encodeCoinRecord rec = 0x00 :: tail := ⟨_, rfl⟩
  have hlen := length_encodeCoinRecord rec
  have hrow : (serializeCoinRecordStorageBytes rec).length = 97 ∨
      (serializeCoinRecordStorageBytes rec).length = (encodeCoinRecord rec).length := by
    rw [serializeCoinRecordStorageBytes]
    split
    · exact .inr rfl
    · exact .inl (length_serializeLegacy rec)
  rw [htail, List.length_cons] at hlen hrow
  -- the digest of a leaf is the length of its payload
  have hne : Chia.sha256 (0x00 :: serializeCoinRecordStorageBytes rec) ≠ Chia.sha256 (0x00 :: tail) := by
    have htail32 : tail.length ≠ 32 := by split at hlen <;> omega
    have hrow32 : (serializeCoinRecordStorageBytes rec).length ≠ 32 := by
      split at hlen <;> omega
    rw [sha256_leaf hrow32, sha256_leaf htail32]
    intro heq
    have hmod := ofNum_inj heq
    split at hlen <;> omega
  rw [htail]
  rintro x (rfl | rfl) y (rfl | rfl) heq
  · rfl
  · exact absurd heq hne
  · exact absurd heq.symm hne
  · rfl

theorem leaves_published_iff_genesis :
    (∀ id rec, genesis.getCoinRecord id = .ok (some rec) →
        genesis.merkleTree.get rec.coinId = some (coinRecordHash rec)) ↔
      ∀ id, genesis.getCoinRecord id = .ok none :=
  reachable_genesis.leaves_published_iff fun _ rec _ => injOn_leafInputs rec

/-- The leaf of the first coin of the genesis. -/
theorem leaf_not_published : Reachable coins BlockData.Honest genesis ∧
    genesis.getCoinRecord (ofNum 1) = .ok (some (.new (coin 1) 0 10 false)) ∧
    genesis.merkleTree.get (ofNum 1) ≠ some (coinRecordHash (.new (coin 1) 0 10 false)) :=
  ⟨reachable_genesis, Res.eq_ok_of_toOption (by decide +kernel), by decide +kernel⟩

end DigCoinstore
