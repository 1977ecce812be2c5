import Mathlib
import Whaleshares.ByteOrder
import Whaleshares.Fc
import Whaleshares.RawFormat

/-!
# Strings in fixed storage

`fixed_string.hpp`: a string of bounded length kept in place as one or more 64-bit words.
The constructor copies the bytes into zeroed memory and turns every word into the number
with the first byte the highest, so that comparing the words in their order compares the
strings. The machine stores words with the lowest byte first, so that the conversions
between big and native byte order reverse the bytes of every word.
-/

namespace Whaleshares.FixedStrings

open Fc FileStream ByteOrder RawFormat

/-- What `fixed_string` uses of its storage type. -/
structure Storage (α : Type) where
  /-- `sizeof` -/
  size : ℕ
  /-- The value whose memory holds some bytes. -/
  load : Bytes → α
  /-- The memory of a value. -/
  store : α → Bytes
  /-- `endian_reverse` -/
  endianReverse : α → α
  /-- `<` -/
  less : α → α → Bool

/-- `uint64_t` -/
def uint64 : Storage UInt64 where
  size := 8
  load bytes := .ofNat (ofBytes bytes)
  store w := toBytes 8 w.toNat
  endianReverse w := .ofNat (ofBytes (toBytes 8 w.toNat).reverse)
  less a b := a < b

variable {α β : Type}

/-- `erpair`: the first component in front, also in the order. -/
def erpair (A : Storage α) (B : Storage β) : Storage (α × β) where
  size := A.size + B.size
  load bytes := (A.load (bytes.take A.size), B.load (bytes.drop A.size))
  store p := A.store p.1 ++ B.store p.2
  endianReverse p := (A.endianReverse p.1, B.endianReverse p.2)
  -- std::tie( a.first, a.second ) < std::tie( b.first, b.second )
  less a b := A.less a.1 b.1 || (!A.less b.1 a.1 && B.less a.2 b.2)

/-- `fc::uint128`: `hi`, then `lo`, reversed word by word. -/
def uint128 : Storage (UInt64 × UInt64) := erpair uint64 uint64

section FixedString

variable (S : Storage α)

/-- `fixed_string( str )`: the bytes that fit, in zeroed memory. -/
def ofString (str : Bytes) : α := S.endianReverse (S.load (pad S.size str))

/-- `strnlen` -/
def strnlen (bytes : Bytes) (n : ℕ) : ℕ := ((bytes.take n).takeWhile (· ≠ 0)).length

/-- `size` -/
def length (data : α) : ℕ :=
  let d := S.store (S.endianReverse data)
  if d.getD (S.size - 1) 0 ≠ 0 then S.size else strnlen d S.size

/-- `operator std::string` -/
def toString (data : α) : Bytes :=
  let d := S.store (S.endianReverse data)
  let s := if d.getD (S.size - 1) 0 ≠ 0 then S.size else strnlen d S.size
  d.take s

/-- `pack` -/
def pack (data : α) : Bytes := Codec.bytes.pack (toString S data)

/-- `unpack` -/
def unpack (bytes : Bytes) : Option (α × Bytes) :=
  (Codec.bytes.unpack bytes).map fun front => (ofString S front.1, front.2)

end FixedString

section Laws

/-- The memory of a value in big-endian order is the bytes it was made from, and the order
of values is the order of these bytes. -/
structure Storage.Lawful (S : Storage α) : Prop where
  store_native : ∀ bytes, bytes.length = S.size →
    S.store (S.endianReverse (S.endianReverse (S.load bytes))) = bytes
  less_native : ∀ xs ys, xs.length = S.size → ys.length = S.size →
    (S.less (S.endianReverse (S.load xs)) (S.endianReverse (S.load ys)) = true ↔ xs < ys)

/-- Eight bytes fit into a 64-bit word. -/
theorem toNat_ofNat_ofBytes {bytes : Bytes} (h : bytes.length = 8) :
    (UInt64.ofNat (ofBytes bytes)).toNat = ofBytes bytes := by
  have hlt := ofBytes_lt bytes
  rw [h] at hlt
  rw [UInt64.toNat_ofNat']
  exact Nat.mod_eq_of_lt (by omega)

/-- Reversing a word that was loaded gives the number with the first byte the highest. -/
theorem uint64_native {bytes : Bytes} (h : bytes.length = 8) :
    uint64.endianReverse (uint64.load bytes) = .ofNat (bigEndian bytes) := by
  have hback := toBytes_ofBytes bytes
  rw [h] at hback
  change UInt64.ofNat (ofBytes (toBytes 8 (UInt64.ofNat (ofBytes bytes)).toNat).reverse) = _
  rw [toNat_ofNat_ofBytes h, hback]
  rfl

/-- The 64-bit storage is lawful. -/
theorem uint64_lawful : uint64.Lawful where
  store_native := by
    intro bytes h
    have hlength : bytes.reverse.length = 8 := by rw [List.length_reverse, h]; rfl
    have hback := toBytes_ofBytes bytes.reverse
    rw [hlength] at hback
    have hforth := toBytes_ofBytes bytes
    rw [h] at hforth
    rw [uint64_native h]
    change toBytes 8 (UInt64.ofNat (ofBytes (toBytes 8
      (UInt64.ofNat (ofBytes bytes.reverse)).toNat).reverse)).toNat = bytes
    rw [toNat_ofNat_ofBytes hlength, hback, List.reverse_reverse, toNat_ofNat_ofBytes h]
    exact hforth
  less_native := by
    intro xs ys hxs hys
    have hlength : ∀ {bytes : Bytes}, bytes.length = 8 → bytes.reverse.length = 8 := by
      intro bytes h
      rw [List.length_reverse, h]
    rw [uint64_native hxs, uint64_native hys, ← bigEndian_lt_iff (hxs.trans hys.symm)]
    change decide (UInt64.ofNat (ofBytes xs.reverse) < UInt64.ofNat (ofBytes ys.reverse)) = true ↔ _
    rw [decide_eq_true_iff, UInt64.lt_iff_toNat_lt, toNat_ofNat_ofBytes (hlength hxs),
      toNat_ofNat_ofBytes (hlength hys)]
    rfl

/-- Pairs of lawful storage are lawful. -/
theorem erpair_lawful {A : Storage α} {B : Storage β} (hA : A.Lawful) (hB : B.Lawful) :
    (erpair A B).Lawful where
  store_native := by
    intro bytes h
    have hlength : bytes.length = A.size + B.size := h
    change A.store (A.endianReverse (A.endianReverse (A.load (bytes.take A.size)))) ++
      B.store (B.endianReverse (B.endianReverse (B.load (bytes.drop A.size)))) = bytes
    rw [hA.store_native _ (by rw [List.length_take]; omega),
      hB.store_native _ (by rw [List.length_drop]; omega), List.take_append_drop]
  less_native := by
    intro xs ys hxs hys
    have hx : xs.length = A.size + B.size := hxs
    have hy : ys.length = A.size + B.size := hys
    have htake : ∀ {bytes : Bytes}, bytes.length = A.size + B.size →
        (bytes.take A.size).length = A.size := by
      intro bytes h
      rw [List.length_take]
      omega
    have hdrop : ∀ {bytes : Bytes}, bytes.length = A.size + B.size →
        (bytes.drop A.size).length = B.size := by
      intro bytes h
      rw [List.length_drop]
      omega
    have hfirst := hA.less_native _ _ (htake hx) (htake hy)
    have hback := hA.less_native _ _ (htake hy) (htake hx)
    have hsecond := hB.less_native _ _ (hdrop hx) (hdrop hy)
    have hparts : xs.take A.size ++ xs.drop A.size < ys.take A.size ++ ys.drop A.size ↔ _ :=
      append_lt_iff ((htake hx).trans (htake hy).symm)
    rw [List.take_append_drop, List.take_append_drop] at hparts
    rw [hparts, ← hfirst, ← hback, ← hsecond]
    simp only [erpair, Bool.or_eq_true, Bool.and_eq_true, Bool.not_eq_true']
    simp

/-- The 128-bit storage is lawful. -/
theorem uint128_lawful : uint128.Lawful := erpair_lawful uint64_lawful uint64_lawful

end Laws

section Strings

/-- A text without zero bytes. -/
def NulFree (s : Bytes) : Prop := ∀ b ∈ s, b ≠ 0

/-- Fixed strings behave as the strings that they were made from: they convert back,
compare, are packed and are unpacked as these. -/
structure BehavesAsString (S : Storage α) : Prop where
  round_trip : ∀ s, NulFree s → s.length ≤ S.size → toString S (ofString S s) = s
  length_eq : ∀ s, NulFree s → s.length ≤ S.size → length S (ofString S s) = s.length
  eq_iff : ∀ s t, NulFree s → NulFree t → s.length ≤ S.size → t.length ≤ S.size →
    (ofString S s = ofString S t ↔ s = t)
  less_iff : ∀ s t, NulFree s → NulFree t → s.length ≤ S.size → t.length ≤ S.size →
    (S.less (ofString S s) (ofString S t) = true ↔ s < t)
  pack_eq : ∀ s, NulFree s → s.length ≤ S.size → pack S (ofString S s) = Codec.bytes.pack s
  unpack_eq : ∀ s rest, NulFree s → s.length ≤ S.size →
    unpack S (Codec.bytes.pack s ++ rest) = some (ofString S s, rest)

variable {S : Storage α} (hS : S.Lawful)
include hS

/-- The memory of a fixed string, in big-endian order. -/
theorem store_ofString (s : Bytes) : S.store (S.endianReverse (ofString S s)) = pad S.size s :=
  hS.store_native _ (pad_length S.size s)

/-- The size of a fixed string is the length of what it was made from. -/
theorem length_ofString {s : Bytes} (hs : NulFree s) (h : s.length ≤ S.size) :
    length S (ofString S s) = s.length := by
  unfold length
  rw [store_ofString hS]
  by_cases hlast : (pad S.size s).getD (S.size - 1) 0 = 0
  · have hwhole : (pad S.size s).take S.size = pad S.size s :=
      List.take_of_length_le (by rw [pad_length])
    simp only [hlast, ne_eq, not_true_eq_false, if_false, strnlen]
    rw [hwhole, takeWhile_pad hs h]
  -- a last byte that is not zero belongs to the text
  · have hfull : ¬ s.length < S.size := fun hshort => hlast (pad_last hshort)
    simp only [ne_eq, hlast, not_false_eq_true, if_true]
    omega

/-- A text that fits and has no zero is read back. -/
theorem toString_ofString {s : Bytes} (hs : NulFree s) (h : s.length ≤ S.size) :
    toString S (ofString S s) = s := by
  have htake : toString S (ofString S s) =
      (S.store (S.endianReverse (ofString S s))).take (length S (ofString S s)) := rfl
  rw [htake, length_ofString hS hs h, store_ofString hS, take_pad h]

/-- The fixed string behaves as a string. -/
theorem behavesAsString : BehavesAsString S where
  round_trip _ := toString_ofString hS
  length_eq _ := length_ofString hS
  eq_iff := by
    intro s t hs ht hslength htlength
    constructor
    · intro heq
      rw [← toString_ofString hS hs hslength, heq, toString_ofString hS ht htlength]
    · rintro rfl
      rfl
  less_iff := by
    intro s t hs ht hslength htlength
    unfold ofString
    rw [hS.less_native _ _ (pad_length _ _) (pad_length _ _), pad_lt_iff hs ht hslength htlength]
  pack_eq := by
    intro s hs h
    rw [pack, toString_ofString hS hs h]
  unpack_eq := by
    intro s rest _ _
    rw [unpack, Codec.bytes.unpack_pack]
    rfl

end Strings

section Names

/-- The packed number of a name is the number of its memory. -/
theorem packBytes_eq (width : ℕ) (s : Bytes) : packBytes width s = bigEndian (pad width s) := by
  induction width generalizing s with
  | zero => rfl
  | succ width ih =>
    cases s with
    | nil =>
      have hzero : bigEndian (pad width []) = 0 := by
        rw [← ih]
        cases width <;> rfl
      rw [pad, bigEndian_cons, hzero]
      simp [packBytes]
    | cons b rest =>
      rw [packBytes, pad, bigEndian_cons, pad_length, ih, Nat.add_comm, Nat.mul_comm]

/-- The bytes come back from the packed number. -/
theorem unpackBytes_bigEndian (bytes : Bytes) :
    unpackBytes (bigEndian bytes) bytes.length = bytes := by
  induction bytes with
  | nil => rfl
  | cons b rest ih =>
    have hlt := bigEndian_lt rest
    have hpos : 0 < 256 ^ rest.length := Nat.pow_pos (by omega)
    have hhigh : (bigEndian rest + 256 ^ rest.length * b.toNat) / 256 ^ rest.length = b.toNat := by
      rw [Nat.add_mul_div_left _ _ hpos, Nat.div_eq_of_lt hlt, Nat.zero_add]
    have hlow : (bigEndian rest + 256 ^ rest.length * b.toNat) % 256 ^ rest.length =
        bigEndian rest := by
      rw [Nat.add_mul_mod_self_left, Nat.mod_eq_of_lt hlt]
    rw [bigEndian_cons, List.length_cons, unpackBytes, hhigh, hlow, ih, UInt8.ofNat_toNat]

/-- The last byte of a packed number. -/
theorem bigEndian_mod (bytes : Bytes) :
    bigEndian bytes % 256 = (bytes.getD (bytes.length - 1) 0).toNat := by
  have hbyte := ofBytes_byte bytes.reverse 0
  rw [Nat.pow_zero, Nat.div_one] at hbyte
  rw [bigEndian, hbyte]
  cases bytes using List.reverseRecOn with
  | nil => rfl
  | append_singleton front b => simp

/-- Account names have the order of their fixed strings. -/
theorem less_iff_packed (s t : Bytes) :
    uint128.less (ofString uint128 s) (ofString uint128 t) = true ↔
      (AccountName.ofBytes s).packed < (AccountName.ofBytes t).packed := by
  unfold ofString AccountName.ofBytes
  rw [uint128_lawful.less_native _ _ (pad_length _ _) (pad_length _ _), packBytes_eq, packBytes_eq,
    bigEndian_lt_iff (by rw [pad_length, pad_length])]
  rfl

/-- Account names convert to the text of their fixed strings. -/
theorem toString_eq_toBytes (s : Bytes) :
    toString uint128 (ofString uint128 s) = (AccountName.ofBytes s).toBytes := by
  have hbytes : unpackBytes (bigEndian (pad 16 s)) 16 = pad 16 s := by
    have hback := unpackBytes_bigEndian (pad 16 s)
    rwa [pad_length] at hback
  have hlast : bigEndian (pad 16 s) % 256 = ((pad 16 s).getD 15 0).toNat := by
    have hmod := bigEndian_mod (pad 16 s)
    rwa [pad_length] at hmod
  have hstore : uint128.store (uint128.endianReverse (ofString uint128 s)) = pad 16 s :=
    store_ofString uint128_lawful s
  have hwhole : (pad 16 s).take 16 = pad 16 s := List.take_of_length_le (by rw [pad_length])
  have hzero : ((pad 16 s).getD 15 0).toNat ≠ 0 ↔ (pad 16 s).getD 15 0 ≠ 0 :=
    not_congr ⟨fun h => UInt8.toNat_inj.mp h, fun h => by rw [h]; rfl⟩
  unfold toString AccountName.toBytes AccountName.ofBytes
  simp only [hstore, packBytes_eq, hbytes, hlast, hzero]
  change (pad 16 s).take (if (pad 16 s).getD 15 0 ≠ 0 then 16 else strnlen (pad 16 s) 16) = _
  by_cases h : (pad 16 s).getD 15 0 ≠ 0
  · rw [if_pos h, if_pos h, hwhole]
  · rw [if_neg h, if_neg h, strnlen, hwhole]
    exact (List.prefix_iff_eq_take.mp (List.takeWhile_prefix _)).symm

end Names

/-- The three storage types hold 16, 24 and 32 bytes, and in each of them strings that fit
behave as strings do. -/
theorem fixed_strings_behave :
    (uint128.size = 16 ∧ BehavesAsString uint128) ∧
      ((erpair uint128 uint64).size = 24 ∧ BehavesAsString (erpair uint128 uint64)) ∧
      ((erpair uint128 uint128).size = 32 ∧ BehavesAsString (erpair uint128 uint128)) :=
  ⟨⟨rfl, behavesAsString uint128_lawful⟩,
    ⟨rfl, behavesAsString (erpair_lawful uint128_lawful uint64_lawful)⟩,
    ⟨rfl, behavesAsString (erpair_lawful uint128_lawful uint128_lawful)⟩⟩

end Whaleshares.FixedStrings
