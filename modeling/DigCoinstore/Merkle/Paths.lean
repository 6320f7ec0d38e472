import Mathlib.Data.List.GetD
import DigCoinstore.Merkle.TreeFacts

/-!
# Paths and keys

A position of the tree is the list of turns that leads to it. `pathOf p` is the key that starts
with the turns `p` and goes on with zeros: `childPath` appends a turn (`childPath_pathOf`), and
every list of 256 turns is the bits of one key (`keyBits_pathOf`).
-/

namespace DigCoinstore

/-- Bit `n` of a byte string, from the most significant bit of its first byte. -/
def bitAt (bs : Bytes) (n : Nat) : Bool := (bs.getD (n / 8) 0).toNat.testBit (7 - n % 8)

theorem getBit_eq_bitAt (key : Bytes32) (n : Nat) : getBit key n = bitAt key.bytes n :=
  getBit_eq_testBit key n

/-- A key is known by its bits. -/
theorem Bytes32.ext_getBit {a b : Bytes32} (h : ∀ n, n < 256 → getBit a n = getBit b n) : a = b := by
  refine keyBits_injective (List.map_congr_left fun n hn => h n ?_)
  simpa [smtHeight] using hn

/-! ## One bit set or cleared -/

theorem testBit_clear (x : UInt8) {k j : Nat} (hk : k < 8) (hj : j < 8) :
    (x &&& ~~~(1 <<< UInt8.ofNat k)).toNat.testBit j =
      if j = k then false else x.toNat.testBit j := by
  have hmask : ∀ k < 8, ∀ j < 8,
      (~~~(1 <<< UInt8.ofNat k) : UInt8).toNat.testBit j = !decide (j = k) := by
    decide
  rw [UInt8.toNat_and, Nat.testBit_and, hmask k hk j hj]
  by_cases h : j = k <;> simp [h]

theorem testBit_set (x : UInt8) {k j : Nat} (hk : k < 8) (hj : j < 8) :
    (x ||| (1 <<< UInt8.ofNat k)).toNat.testBit j = if j = k then true else x.toNat.testBit j := by
  have hmask : ∀ k < 8, ∀ j < 8, (1 <<< UInt8.ofNat k : UInt8).toNat.testBit j = decide (j = k) := by
    decide
  rw [UInt8.toNat_or, Nat.testBit_or, hmask k hk j hj]
  by_cases h : j = k <;> simp [h]

theorem getD_modify {bs : Bytes} {i : Nat} (hi : i < bs.length) (f : UInt8 → UInt8) (j : Nat) :
    (bs.modify i f).getD j 0 = if i = j then f (bs.getD j 0) else bs.getD j 0 := by
  rw [List.getD_eq_getElem?_getD, List.getD_eq_getElem?_getD, List.getElem?_modify]
  by_cases hij : i = j
  · subst hij
    simp [hi]
  · simp [hij]

theorem bitAt_clearBit {bs : Bytes} {m : Nat} (hm : m / 8 < bs.length) (n : Nat) :
    bitAt (clearBit bs m) n = if n = m then false else bitAt bs n := by
  rw [bitAt, bitAt, clearBit, getD_modify hm]
  by_cases hbyte : m / 8 = n / 8
  · rw [if_pos hbyte, testBit_clear _ (by omega) (by omega)]
    exact if_congr (by omega) rfl rfl
  · rw [if_neg hbyte, if_neg fun h : n = m => hbyte (h ▸ rfl)]

theorem bitAt_setBit {bs : Bytes} {m : Nat} (hm : m / 8 < bs.length) (n : Nat) :
    bitAt (setBit bs m) n = if n = m then true else bitAt bs n := by
  rw [bitAt, bitAt, setBit, getD_modify hm]
  by_cases hbyte : m / 8 = n / 8
  · rw [if_pos hbyte, testBit_set _ (by omega) (by omega)]
    exact if_congr (by omega) rfl rfl
  · rw [if_neg hbyte, if_neg fun h : n = m => hbyte (h ▸ rfl)]

theorem bitAt_foldl_clearBit : ∀ (bits : List Nat) (bs : Bytes), (∀ m ∈ bits, m / 8 < bs.length) →
    ∀ n, bitAt (bits.foldl clearBit bs) n = if n ∈ bits then false else bitAt bs n
  | [], _, _, _ => by simp
  | m :: bits, bs, hbits, n => by
    have hlen : (clearBit bs m).length = bs.length := List.length_modify ..
    have ih := bitAt_foldl_clearBit bits (clearBit bs m) (fun m' hm' => by
      rw [hlen]
      exact hbits m' (.tail _ hm')) n
    rw [List.foldl_cons, ih, bitAt_clearBit (hbits m (.head _))]
    by_cases hn : n ∈ bits <;> by_cases hm : n = m <;> simp [hn, hm]

/-- **The bits of a child's path**: those of the parent, the turn, then zeros. -/
theorem getBit_childPath (base : Bytes32) {depth : Nat} (hd : depth < 256) (b : Bool) {n : Nat}
    (hn : n < 256) : getBit (childPath base depth b) n =
      if n < depth then getBit base n else if n = depth then b else false := by
  have hmem : ∀ m, m ∈ List.range' depth (256 - depth) ↔ depth ≤ m ∧ m < 256 := fun m => by
    rw [List.mem_range'_1]
    omega
  have hclear : bitAt ((List.range' depth (256 - depth)).foldl clearBit base.bytes) n =
      if n < depth then getBit base n else false := by
    rw [bitAt_foldl_clearBit _ _ fun m hm => by
      rw [base.length_bytes]
      have := ((hmem m).1 hm).2
      omega]
    rw [getBit_eq_bitAt]
    by_cases hlt : n < depth
    · rw [if_pos hlt, if_neg fun h => absurd ((hmem n).1 h).1 (Nat.not_le.2 hlt)]
    · rw [if_neg hlt, if_pos ((hmem n).2 ⟨Nat.not_lt.1 hlt, hn⟩)]
  rw [getBit_eq_bitAt, childPath]
  cases b with
  | false =>
    dsimp only
    rw [if_neg Bool.false_ne_true, hclear]
    split <;> simp
  | true =>
    dsimp only
    rw [if_pos rfl, bitAt_setBit (by
      rw [length_foldl_clearBit, base.length_bytes]
      omega), hclear]
    by_cases heq : n = depth
    · simp [heq]
    · simp [heq]

/-! ## The key of a list of turns -/

/-- The key whose bits are `p`, then zeros. -/
def pathOf (p : List Bool) : Bytes32 where
  bytes := (List.range 32).map fun i =>
    UInt8.ofNat (Nat.ofBits fun j : Fin 8 => p.getD (8 * i + (7 - j)) false)
  length_bytes := by simp

theorem getBit_pathOf (p : List Bool) {n : Nat} (hn : n < 256) :
    getBit (pathOf p) n = p.getD n false := by
  have hbyte : n / 8 < 32 := by omega
  rw [getBit_eq_testBit, pathOf]
  dsimp only
  rw [List.getD_eq_getElem?_getD, List.getElem?_map, List.getElem?_range hbyte, Option.map_some,
    Option.getD_some, UInt8.toNat_ofNat', Nat.mod_eq_of_lt (Nat.ofBits_lt_two_pow _),
    Nat.testBit_ofBits_lt _ _ (by omega)]
  congr 1
  dsimp only
  omega

/-- Every list of 256 turns is the bits of a key. -/
theorem keyBits_pathOf {p : List Bool} (hp : p.length = 256) : keyBits (pathOf p) = p := by
  refine List.ext_getElem (by rw [length_keyBits, hp]) fun n hn hn' => ?_
  have hlt : n < 256 := by omega
  simp [keyBits, smtHeight, getBit_pathOf p hlt, List.getD_eq_getElem?_getD, hn']

theorem pathOf_nil : pathOf [] = .zero := by
  decide

/-- **The path of a child** has one more turn. -/
theorem childPath_pathOf {p : List Bool} (hp : p.length < 256) (b : Bool) :
    childPath (pathOf p) p.length b = pathOf (p ++ [b]) := by
  refine Bytes32.ext_getBit fun n hn => ?_
  rw [getBit_childPath _ hp b hn, getBit_pathOf _ hn, getBit_pathOf _ hn]
  rcases lt_trichotomy n p.length with hlt | heq | hgt
  · rw [if_pos hlt, List.getD_append _ _ _ _ hlt]
  · subst heq
    rw [if_neg (lt_irrefl _), if_pos rfl, List.getD_append_right _ _ _ _ le_rfl]
    simp
  · rw [if_neg (by omega), if_neg (by omega), List.getD_eq_default _ _ (by simp; omega)]

/-- Paths of one length are known by their keys. -/
theorem pathOf_inj {p p' : List Bool} (hlen : p.length = p'.length) (hp : p.length ≤ 256) :
    pathOf p = pathOf p' ↔ p = p' := by
  refine ⟨fun h => List.ext_getElem hlen fun n hn hn' => ?_, fun h => h ▸ rfl⟩
  have hbit := congrArg (getBit · n) h
  simpa [getBit_pathOf _ (Nat.lt_of_lt_of_le hn hp), List.getD_eq_getElem?_getD, hn, hn'] using hbit

end DigCoinstore
