import DigCoinstore.Lib.FixedInt

/-!
# Prefix codecs

A `Codec α` writes a value as bytes and reads one value off the front of a byte string. Its two
laws are fields: what is written is read back whatever follows it, and only what `encode` writes
is accepted. Codecs compose by `pair`, `option`, `lenPrefixed` and `iso`, so a record's codec
carries its own round trip.
-/

structure Codec (α : Type) where
  encode : α → Bytes
  decode : Bytes → Option (α × Bytes)
  /-- What is written is read back, whatever follows it. -/
  decode_encode : ∀ a rest, decode (encode a ++ rest) = some (a, rest)
  /-- Only written bytes are accepted. -/
  encode_decode : ∀ bs a rest, decode bs = some (a, rest) → bs = encode a ++ rest

namespace Codec

variable {α β : Type}

/-- Decoding that must use up every byte. -/
def decodeStrict (c : Codec α) (bs : Bytes) : Option α :=
  match c.decode bs with
  | some (a, []) => some a
  | _ => none

/-- Decoding that tolerates trailing bytes. -/
def decodeLax (c : Codec α) (bs : Bytes) : Option α :=
  (c.decode bs).map (·.1)

@[simp] theorem decodeStrict_encode (c : Codec α) (a : α) : c.decodeStrict (c.encode a) = some a := by
  have h := c.decode_encode a []
  rw [List.append_nil] at h
  simp [decodeStrict, h]

theorem decodeStrict_eq_some {c : Codec α} {bs : Bytes} {a : α} :
    c.decodeStrict bs = some a ↔ bs = c.encode a := by
  refine ⟨fun h => ?_, fun h => h ▸ c.decodeStrict_encode a⟩
  unfold decodeStrict at h
  split at h
  · rename_i a' heq
    obtain rfl := Option.some.inj h
    simpa using c.encode_decode _ _ _ heq
  · cases h

theorem decodeLax_eq_some {c : Codec α} {bs : Bytes} {a : α} :
    c.decodeLax bs = some a ↔ ∃ rest, bs = c.encode a ++ rest := by
  refine ⟨fun h => ?_, fun ⟨rest, h⟩ => by simp [decodeLax, h, c.decode_encode]⟩
  obtain ⟨⟨a', rest⟩, hd, rfl⟩ := Option.map_eq_some_iff.1 h
  exact ⟨rest, c.encode_decode _ _ _ hd⟩

/-! ## Combinators -/

/-- Exactly `n` raw bytes, read as `ofBytes` and written as `toBytes`. -/
def fixed (n : Nat) (toBytes : α → Bytes) (ofBytes : (bs : Bytes) → bs.length = n → α)
    (hlen : ∀ a, (toBytes a).length = n) (hof : ∀ a h, ofBytes (toBytes a) h = a)
    (hto : ∀ bs h, toBytes (ofBytes bs h) = bs) : Codec α where
  encode := toBytes
  decode bs := if h : n ≤ bs.length then
    some (ofBytes (bs.take n) (by simp [h]), bs.drop n) else none
  decode_encode a rest := by
    have ht : (toBytes a ++ rest).take n = toBytes a := by rw [← hlen a, List.take_left]
    have hd : (toBytes a ++ rest).drop n = rest := by rw [← hlen a, List.drop_left]
    have hle : n ≤ (toBytes a ++ rest).length := by simp [hlen]
    simp only [hle, dite_true, hd, Option.some.injEq, Prod.mk.injEq, and_true]
    exact (by simp only [ht, hof] : ofBytes ((toBytes a ++ rest).take n) _ = a)
  encode_decode bs a rest h := by
    split at h
    · simp only [Option.some.injEq, Prod.mk.injEq] at h
      obtain ⟨rfl, rfl⟩ := h
      rw [hto, List.take_append_drop]
    · cases h

/-- A `u64`, least significant byte first. -/
def u64Le : Codec UInt64 :=
  fixed 8 FixedInt.toLeBytes (fun bs _ => FixedInt.fromLeBytes bs) FixedInt.length_toLeBytes
    (fun a _ => FixedInt.fromLeBytes_toLeBytes a) (fun _ h => FixedInt.toLeBytes_fromLeBytes h)

/-- A `u64`, most significant byte first. -/
def u64Be : Codec UInt64 :=
  fixed 8 FixedInt.toBeBytes (fun bs _ => FixedInt.fromBeBytes bs) FixedInt.length_toBeBytes
    (fun a _ => FixedInt.fromBeBytes_toBeBytes a) (fun _ h => FixedInt.toBeBytes_fromBeBytes h)

/-- A boolean as one byte; only `0` and `1` are accepted. -/
def bool : Codec Bool where
  encode b := [if b then 1 else 0]
  decode
    | 0 :: rest => some (false, rest)
    | 1 :: rest => some (true, rest)
    | _ => none
  decode_encode b rest := by cases b <;> rfl
  encode_decode bs b rest h := by
    split at h
    · cases h; rfl
    · cases h; rfl
    · cases h

def pair (c : Codec α) (d : Codec β) : Codec (α × β) where
  encode p := c.encode p.1 ++ d.encode p.2
  decode bs := do
    let (a, bs) ← c.decode bs
    let (b, bs) ← d.decode bs
    return ((a, b), bs)
  decode_encode p rest := by simp [c.decode_encode, d.decode_encode]
  encode_decode bs p rest h := by
    simp only [Option.bind_eq_bind, Option.pure_def, Option.bind_eq_some_iff, Option.some.injEq,
      Prod.mk.injEq] at h
    obtain ⟨⟨a, bs1⟩, h1, ⟨b, bs2⟩, h2, rfl, rfl⟩ := h
    have h2 := d.encode_decode _ _ _ h2
    rw [c.encode_decode _ _ _ h1, show bs1 = _ from h2, List.append_assoc]

/-- A tag byte, `0` for `none` and `1` for `some`, then the value. -/
def option (c : Codec α) : Codec (Option α) where
  encode
    | none => [0]
    | some a => 1 :: c.encode a
  decode
    | 0 :: rest => some (none, rest)
    | 1 :: rest => (c.decode rest).map fun (a, rest) => (some a, rest)
    | _ => none
  decode_encode o rest := by cases o <;> simp [c.decode_encode]
  encode_decode bs o rest h := by
    split at h
    · cases h; rfl
    · obtain ⟨⟨a, rest'⟩, hd, h⟩ := Option.map_eq_some_iff.1 h
      cases h
      rw [c.encode_decode _ _ _ hd, List.cons_append]
    · cases h

/-- The length as a `u64` in the codec `len`, then the value; the length must be `n`. -/
def lenPrefixed (len : Codec UInt64) (n : UInt64) (c : Codec α) : Codec α where
  encode a := len.encode n ++ c.encode a
  decode bs := do
    let (m, bs) ← len.decode bs
    if m = n then c.decode bs else none
  decode_encode a rest := by simp [len.decode_encode, c.decode_encode]
  encode_decode bs a rest h := by
    simp only [Option.bind_eq_bind, Option.bind_eq_some_iff] at h
    obtain ⟨⟨m, bs1⟩, h1, h2⟩ := h
    split at h2
    · next hm =>
      subst hm
      have h2 := c.encode_decode _ _ _ h2
      rw [len.encode_decode _ _ _ h1, show bs1 = _ from h2, List.append_assoc]
    · cases h2

/-- A codec carried over a bijection. -/
def iso (c : Codec α) (f : α → β) (g : β → α) (hgf : ∀ a, g (f a) = a) (hfg : ∀ b, f (g b) = b) :
    Codec β where
  encode b := c.encode (g b)
  decode bs := (c.decode bs).map fun (a, rest) => (f a, rest)
  decode_encode b rest := by simp [c.decode_encode, hfg]
  encode_decode bs b rest h := by
    obtain ⟨⟨a, rest'⟩, hd, h⟩ := Option.map_eq_some_iff.1 h
    cases h
    rw [c.encode_decode _ _ _ hd, hgf]

/-! ## Lists -/

/-- A list whose length is a `u64`. -/
abbrev Counted (α : Type) := {l : List α // l.length < 2 ^ 64}

/-- Read `n` values. -/
def decodeMany (c : Codec α) : (n : Nat) → Bytes → Option ({l : List α // l.length = n} × Bytes)
  | 0, bs => some (⟨[], rfl⟩, bs)
  | n + 1, bs => do
    let (a, bs) ← c.decode bs
    let (l, bs) ← c.decodeMany n bs
    return (⟨a :: l.1, by rw [List.length_cons, l.2]⟩, bs)

theorem decodeMany_encode (c : Codec α) : ∀ {n : Nat} (l : {l : List α // l.length = n}) (rest : Bytes),
    c.decodeMany n (l.1.flatMap c.encode ++ rest) = some (l, rest)
  | _, ⟨[], rfl⟩, _ => rfl
  | _, ⟨a :: l, rfl⟩, rest => by
    have ih := c.decodeMany_encode ⟨l, rfl⟩ rest
    simp only at ih
    simp [decodeMany, c.decode_encode, ih]

theorem encode_decodeMany (c : Codec α) : ∀ (n : Nat) (bs : Bytes) (l : {l : List α // l.length = n})
    (rest : Bytes), c.decodeMany n bs = some (l, rest) → bs = l.1.flatMap c.encode ++ rest
  | 0, bs, l, rest, h => by
    obtain ⟨rfl, rfl⟩ := Prod.mk.inj (Option.some.inj h)
    rfl
  | n + 1, bs, l, rest, h => by
    simp only [decodeMany, Option.bind_eq_bind, Option.pure_def, Option.bind_eq_some_iff,
      Option.some.injEq, Prod.mk.injEq] at h
    obtain ⟨⟨a, bs1⟩, h1, ⟨l', bs2⟩, h2, rfl, rfl⟩ := h
    have h2 := c.encode_decodeMany n _ _ _ h2
    rw [c.encode_decode _ _ _ h1, show bs1 = _ from h2, List.flatMap_cons, List.append_assoc]

/-- The length in the codec `len`, then the members. -/
def list (len : Codec UInt64) (c : Codec α) : Codec (Counted α) where
  encode l := len.encode (UInt64.ofNat l.1.length) ++ l.1.flatMap c.encode
  decode bs := do
    let (n, bs) ← len.decode bs
    let (l, bs) ← c.decodeMany n.toNat bs
    return (⟨l.1, by rw [l.2]; exact n.toNat_lt⟩, bs)
  decode_encode l rest := by
    have hlen : l.1.length = (UInt64.ofNat l.1.length).toNat := by
      rw [UInt64.toNat_ofNat', Nat.mod_eq_of_lt l.2]
    have hmany := c.decodeMany_encode ⟨l.1, hlen⟩ rest
    simp only at hmany
    simp [len.decode_encode, hmany]
  encode_decode bs l rest h := by
    simp only [Option.bind_eq_bind, Option.pure_def, Option.bind_eq_some_iff, Option.some.injEq,
      Prod.mk.injEq] at h
    obtain ⟨⟨n, bs1⟩, h1, ⟨l', bs2⟩, h2, rfl, rfl⟩ := h
    have h2 := c.encode_decodeMany _ _ _ _ h2
    have hlen : UInt64.ofNat l'.1.length = n := by rw [l'.2, UInt64.ofNat_toNat]
    rw [len.encode_decode _ _ _ h1, show bs1 = _ from h2, hlen, List.append_assoc]

/-! ## Lengths -/

@[simp] theorem length_u64Le (x : UInt64) : (u64Le.encode x).length = 8 := FixedInt.length_toLeBytes x

@[simp] theorem length_u64Be (x : UInt64) : (u64Be.encode x).length = 8 := FixedInt.length_toBeBytes x

@[simp] theorem length_bool (b : Bool) : (bool.encode b).length = 1 := rfl

@[simp] theorem length_pair (c : Codec α) (d : Codec β) (p : α × β) :
    ((pair c d).encode p).length = (c.encode p.1).length + (d.encode p.2).length := by
  simp [pair]

@[simp] theorem length_lenPrefixed (len : Codec UInt64) (n : UInt64) (c : Codec α) (a : α) :
    ((lenPrefixed len n c).encode a).length = (len.encode n).length + (c.encode a).length := by
  simp [lenPrefixed]

end Codec
