import Mathlib.Algebra.Order.Ring.Int
import Mathlib.Tactic.Common

/-!
# Fixed-width integers as bytes

`leBytes w n`: the `w` low bytes of `n`, least significant first; `ofLeBytes` reads them back.
The eight-byte forms of a `u64` in both byte orders (`toLeBytes`, `toBeBytes`) are read back by
`fromLeBytes`, `fromBeBytes`, so each is injective (`toLeBytes_inj`, `toBeBytes_inj`).
-/

/-- A byte string. -/
abbrev Bytes := List UInt8

namespace FixedInt

def leBytes : Nat → Nat → Bytes
  | 0, _ => []
  | w + 1, n => UInt8.ofNat n :: leBytes w (n / 256)

def ofLeBytes : Bytes → Nat
  | [] => 0
  | b :: bs => b.toNat + 256 * ofLeBytes bs

@[simp] theorem length_leBytes : ∀ w n, (leBytes w n).length = w
  | 0, _ => rfl
  | w + 1, n => by simp [leBytes, length_leBytes w]

/-- The low bytes read back as the number modulo their range. -/
theorem ofLeBytes_leBytes_mod : ∀ w n, ofLeBytes (leBytes w n) = n % 256 ^ w
  | 0, n => by simp [leBytes, ofLeBytes, Nat.mod_one]
  | w + 1, n => by
    rw [leBytes, ofLeBytes, ofLeBytes_leBytes_mod w, Nat.pow_succ', Nat.mod_mul, UInt8.toNat_ofNat']

theorem ofLeBytes_leBytes (w n : Nat) (h : n < 256 ^ w) : ofLeBytes (leBytes w n) = n := by
  rw [ofLeBytes_leBytes_mod, Nat.mod_eq_of_lt h]

theorem ofLeBytes_lt : ∀ bs : Bytes, ofLeBytes bs < 256 ^ bs.length
  | [] => by simp [ofLeBytes]
  | b :: bs => by
    have ih := ofLeBytes_lt bs
    have hb := b.toNat_lt
    simp only [ofLeBytes, List.length_cons, Nat.pow_succ]
    omega

theorem leBytes_ofLeBytes : ∀ bs : Bytes, leBytes bs.length (ofLeBytes bs) = bs
  | [] => rfl
  | b :: bs => by
    have hb := b.toNat_lt
    have hd : (b.toNat + 256 * ofLeBytes bs) / 256 = ofLeBytes bs := by omega
    have hm : UInt8.ofNat (b.toNat + 256 * ofLeBytes bs) = b := by
      apply UInt8.toNat_inj.1
      rw [UInt8.toNat_ofNat']
      omega
    simp only [ofLeBytes, List.length_cons, leBytes, hd, hm, leBytes_ofLeBytes bs]

/-! ## `u64` -/

def toLeBytes (x : UInt64) : Bytes := leBytes 8 x.toNat

def toBeBytes (x : UInt64) : Bytes := (leBytes 8 x.toNat).reverse

def fromLeBytes (bs : Bytes) : UInt64 := UInt64.ofNat (ofLeBytes bs)

def fromBeBytes (bs : Bytes) : UInt64 := UInt64.ofNat (ofLeBytes bs.reverse)

@[simp] theorem length_toLeBytes (x : UInt64) : (toLeBytes x).length = 8 := length_leBytes ..

@[simp] theorem length_toBeBytes (x : UInt64) : (toBeBytes x).length = 8 := by simp [toBeBytes]

@[simp] theorem fromLeBytes_toLeBytes (x : UInt64) : fromLeBytes (toLeBytes x) = x := by
  rw [fromLeBytes, toLeBytes, ofLeBytes_leBytes _ _ x.toNat_lt]
  exact UInt64.ofNat_toNat

@[simp] theorem fromBeBytes_toBeBytes (x : UInt64) : fromBeBytes (toBeBytes x) = x := by
  rw [fromBeBytes, toBeBytes, List.reverse_reverse, ofLeBytes_leBytes _ _ x.toNat_lt]
  exact UInt64.ofNat_toNat

theorem toBeBytes_inj {x y : UInt64} : toBeBytes x = toBeBytes y ↔ x = y :=
  ⟨fun h => by simpa using congrArg fromBeBytes h, fun h => h ▸ rfl⟩

/-- Eight bytes are the little-endian form of the number they read as. -/
theorem toLeBytes_fromLeBytes {bs : Bytes} (h : bs.length = 8) : toLeBytes (fromLeBytes bs) = bs := by
  have hlt := ofLeBytes_lt bs
  rw [h] at hlt
  rw [toLeBytes, fromLeBytes, UInt64.toNat_ofNat', Nat.mod_eq_of_lt (by simpa using hlt), ← h]
  exact leBytes_ofLeBytes bs

theorem toBeBytes_fromBeBytes {bs : Bytes} (h : bs.length = 8) : toBeBytes (fromBeBytes bs) = bs := by
  have hlen : bs.reverse.length = 8 := by simpa using h
  have := toLeBytes_fromLeBytes hlen
  rw [toBeBytes, fromBeBytes]
  rw [toLeBytes, fromLeBytes] at this
  rw [this, List.reverse_reverse]

/-! ## Casts between `u64` and `i64` -/

/-- `as i64` keeps a value below `2^63`. -/
theorem toInt_toInt64 {x : UInt64} (h : x.toNat < 2 ^ 63) : x.toInt64.toInt = x.toNat := by
  have hcast : x.toInt64.toInt = x.toBitVec.toInt := rfl
  have hlt : 2 * x.toBitVec.toNat < 2 ^ 64 := by
    rw [show x.toBitVec.toNat = x.toNat from rfl]
    omega
  rw [hcast, BitVec.toInt_eq_toNat_of_lt hlt]
  rfl

/-- `as i64` takes a value from `2^63` on below zero. -/
theorem toInt_toInt64_of_ge {x : UInt64} (h : 2 ^ 63 ≤ x.toNat) :
    x.toInt64.toInt = (x.toNat : Int) - 2 ^ 64 := by
  have hcast : x.toInt64.toInt = x.toBitVec.toInt := rfl
  have hlt : ¬ 2 * x.toBitVec.toNat < 2 ^ 64 := by
    rw [show x.toBitVec.toNat = x.toNat from rfl]
    omega
  rw [hcast, BitVec.toInt_eq_toNat_cond, if_neg hlt]
  rfl

/-- A difference of `i64` that is in range. -/
theorem toInt_sub {a b : Int64} (hlo : -2 ^ 63 ≤ a.toInt - b.toInt) (hhi : a.toInt - b.toInt < 2 ^ 63) :
    (a - b).toInt = a.toInt - b.toInt := by
  rw [Int64.toInt_sub]
  exact Int.bmod_eq_of_le (by omega) (by omega)

/-- `as u64` keeps a value that is not negative. -/
theorem toNat_toUInt64 {t : Int64} {n : Nat} (h : t.toInt = n) : t.toUInt64.toNat = n := by
  have hcast : t.toInt = t.toUInt64.toBitVec.toInt := rfl
  have hlt := t.toUInt64.toNat_lt
  rw [hcast, BitVec.toInt_eq_toNat_cond, show t.toUInt64.toBitVec.toNat = t.toUInt64.toNat from rfl] at h
  split at h <;> omega

end FixedInt
