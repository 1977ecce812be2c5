import Mathlib

/-!
# A binary format

Values are packed without a description of their type: numbers as bytes of seven bits, lists as
their length and their elements, a value of several alternatives as its tag and its value. A
format reads back what it has packed, in front of any other bytes. Where packing forgets
something, what it reads back differs from what was packed.
-/

namespace Whaleshares.RawFormat

variable {α β : Type}

/-- How a type is packed and unpacked. -/
structure Codec (α : Type) where
  pack : α → List UInt8
  /-- A value from the front of some bytes, with the bytes that follow; nothing when reading
  throws. -/
  unpack : List UInt8 → Option (α × List UInt8)
  /-- What is read back from a packed value. -/
  restored : α → α
  /-- Reading a packed value consumes exactly its bytes. -/
  unpack_pack : ∀ a rest, unpack (pack a ++ rest) = some (restored a, rest)

section Numbers

/-- A number as bytes of seven bits, the lowest first; each byte but the last has its high bit
set. -/
def packUnsigned (n : ℕ) : List UInt8 :=
  if n < 128 then [.ofNat n] else .ofNat (n % 128 + 128) :: packUnsigned (n / 128)

/-- The number in front of some bytes. -/
def unpackUnsigned : List UInt8 → Option (ℕ × List UInt8)
  | [] => none
  | byte :: rest =>
    if byte.toNat < 128 then some (byte.toNat, rest)
    else (unpackUnsigned rest).map fun high => (byte.toNat - 128 + 128 * high.1, high.2)

/-- A number below 256 is itself as a byte. -/
theorem toNat_ofNat_of_lt {n : ℕ} (h : n < 256) : (UInt8.ofNat n).toNat = n := by
  rw [UInt8.toNat_ofNat']
  exact Nat.mod_eq_of_lt h

/-- A packed number is read back. -/
theorem unpackUnsigned_pack (n : ℕ) (rest : List UInt8) :
    unpackUnsigned (packUnsigned n ++ rest) = some (n, rest) := by
  induction n using packUnsigned.induct with
  | case1 n hsmall =>
    have hbyte : (UInt8.ofNat n).toNat = n := toNat_ofNat_of_lt (by omega)
    rw [packUnsigned, if_pos hsmall, List.singleton_append, unpackUnsigned, hbyte, if_pos hsmall]
  | case2 n hlarge ih =>
    have hbyte : (UInt8.ofNat (n % 128 + 128)).toNat = n % 128 + 128 :=
      toNat_ofNat_of_lt (by omega)
    have hhigh : ¬ n % 128 + 128 < 128 := by omega
    have hvalue : n % 128 + 128 - 128 + 128 * (n / 128) = n := by omega
    rw [packUnsigned, if_neg hlarge, List.cons_append, unpackUnsigned, hbyte, if_neg hhigh, ih,
      Option.map_some, hvalue]

/-- The lowest bytes of a number, the lowest first. -/
def lowBytes : ℕ → ℕ → List UInt8
  | 0, _ => []
  | k + 1, n => .ofNat (n % 256) :: lowBytes k (n / 256)

/-- The number of some bytes in front of others. -/
def readBytes : ℕ → List UInt8 → Option (ℕ × List UInt8)
  | 0, bytes => some (0, bytes)
  | _ + 1, [] => none
  | k + 1, byte :: rest => (readBytes k rest).map fun high => (byte.toNat + 256 * high.1, high.2)

/-- The low bytes of a number give its rest back. -/
theorem readBytes_lowBytes (k n : ℕ) (rest : List UInt8) :
    readBytes k (lowBytes k n ++ rest) = some (n % 256 ^ k, rest) := by
  induction k generalizing n with
  | zero => rw [lowBytes, List.nil_append, readBytes, Nat.pow_zero, Nat.mod_one]
  | succ k ih =>
    have hbyte : (UInt8.ofNat (n % 256)).toNat = n % 256 := toNat_ofNat_of_lt (by omega)
    have hvalue : n % 256 + 256 * (n / 256 % 256 ^ k) = n % 256 ^ (k + 1) := by
      rw [Nat.pow_succ', Nat.mod_mul]
    rw [lowBytes, List.cons_append, readBytes, ih, Option.map_some, hbyte, hvalue]

/-- Numbers of a fixed count of bytes. -/
def Codec.fixed (k : ℕ) : Codec ℕ where
  pack := lowBytes k
  unpack := readBytes k
  restored n := n % 256 ^ k
  unpack_pack := readBytes_lowBytes k

end Numbers

section Sequences

/-- Some bytes with their length in front. -/
def Codec.bytes : Codec (List UInt8) where
  pack text := packUnsigned text.length ++ text
  unpack bytes := (unpackUnsigned bytes).bind fun front =>
    if front.1 ≤ front.2.length then some (front.2.take front.1, front.2.drop front.1) else none
  restored := id
  unpack_pack text rest := by
    rw [List.append_assoc, unpackUnsigned_pack, Option.bind_some, if_pos (by simp),
      List.take_left, List.drop_left]
    rfl

/-- As many values as said, one after another. -/
def readMany (unpack : List UInt8 → Option (α × List UInt8)) :
    ℕ → List UInt8 → Option (List α × List UInt8)
  | 0, bytes => some ([], bytes)
  | k + 1, bytes => (unpack bytes).bind fun front =>
    (readMany unpack k front.2).map fun more => (front.1 :: more.1, more.2)

/-- Packed elements are read back one after the other. -/
theorem readMany_pack (c : Codec α) (xs : List α) (rest : List UInt8) :
    readMany c.unpack xs.length (xs.flatMap c.pack ++ rest) = some (xs.map c.restored, rest) := by
  induction xs with
  | nil => rfl
  | cons x tail ih =>
    rw [List.length_cons, readMany, List.flatMap_cons, List.append_assoc, c.unpack_pack,
      Option.bind_some, ih]
    rfl

/-- A list as its length and its elements. -/
def Codec.vector (c : Codec α) : Codec (List α) where
  pack xs := packUnsigned xs.length ++ xs.flatMap c.pack
  unpack bytes := (unpackUnsigned bytes).bind fun front => readMany c.unpack front.1 front.2
  restored := List.map c.restored
  unpack_pack xs rest := by
    rw [List.append_assoc, unpackUnsigned_pack, Option.bind_some, readMany_pack]

end Sequences

section Products

/-- Two values, one after the other. -/
def Codec.pair (c : Codec α) (d : Codec β) : Codec (α × β) where
  pack p := c.pack p.1 ++ d.pack p.2
  unpack bytes := (c.unpack bytes).bind fun front =>
    (d.unpack front.2).map fun more => ((front.1, more.1), more.2)
  restored p := (c.restored p.1, d.restored p.2)
  unpack_pack p rest := by
    rw [List.append_assoc, c.unpack_pack, Option.bind_some, d.unpack_pack]
    rfl

/-- A type that is packed as another one. -/
def Codec.via (c : Codec α) (f : β → α) (g : α → β) : Codec β where
  pack b := c.pack (f b)
  unpack bytes := (c.unpack bytes).map fun front => (g front.1, front.2)
  restored b := g (c.restored (f b))
  unpack_pack b rest := by
    rw [c.unpack_pack]
    rfl

variable {n : ℕ} {Value : Fin n → Type}

/-- A value of one of several alternatives, as its tag and its value. -/
def Codec.variant (alternative : ∀ t, Codec (Value t)) : Codec (Σ t, Value t) where
  pack x := packUnsigned x.1 ++ (alternative x.1).pack x.2
  unpack bytes := (unpackUnsigned bytes).bind fun front =>
    if h : front.1 < n then
      ((alternative ⟨front.1, h⟩).unpack front.2).map fun value => (⟨_, value.1⟩, value.2)
    else none
  restored x := ⟨x.1, (alternative x.1).restored x.2⟩
  unpack_pack x rest := by
    rw [List.append_assoc, unpackUnsigned_pack, Option.bind_some, dif_pos x.1.isLt]
    simp only [Fin.eta]
    rw [(alternative x.1).unpack_pack, Option.map_some]

/-- A list is read from a packed alternative by taking the tag for the length. -/
theorem vector_unpack_variant (alternative : ∀ t, Codec (Value t)) (x : Σ t, Value t) :
    (Codec.vector (Codec.variant alternative)).unpack ((Codec.variant alternative).pack x) =
      readMany (Codec.variant alternative).unpack x.1 ((alternative x.1).pack x.2) := by
  change (unpackUnsigned (packUnsigned x.1 ++ (alternative x.1).pack x.2)).bind _ = _
  rw [unpackUnsigned_pack]
  rfl

end Products

end Whaleshares.RawFormat
