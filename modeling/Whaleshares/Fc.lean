import Mathlib
import Whaleshares.Config

/-!
# What the code uses of the fc library

The fc library is not part of the repository. Its checked 64-bit integer
`fc::safe<int64_t>`, its UTF-8 and JSON checks and its string order enter the
model as the fields of `FcLib`. The 128-bit unsigned integer is modelled by
natural numbers with the reduction modulo `2 ^ 128` written out, and a time point
by its seconds, reduced modulo `2 ^ 32`.

An exception carries its type and the text that the source gives it.
-/

namespace Whaleshares.Fc

/-- The exception types that the modelled code throws. -/
inductive ExcKind where
  /-- `fc::assert_exception`, from `FC_ASSERT`. -/
  | assertion
  /-- An operation of `fc::safe` or `fc::uint128` that has no value. -/
  | overflow
  /-- `std::out_of_range`, from a lookup that finds nothing. -/
  | outOfRange
  /-- `std::logic_error`, from an index that refuses an object. -/
  | logicError
  | txMissingActiveAuth
  | txMissingOwnerAuth
  | txMissingPostingAuth
  | txMissingOtherAuth
  | txIrrelevantSig
  | txDuplicateSig
  | transactionTapos
  | transactionExpiration
  | undoDatabase
  | unknownHardfork
  | unlinkableBlock
  | popEmptyChain
  | blockLog
  | blockOlderThanUndoHistory
  | peerIsOnAnUnreachableFork
  /-- A loop of the source that does not end, or undefined behaviour. -/
  | undefinedBehaviour
  deriving DecidableEq

/-- A thrown exception. -/
structure Exc where
  /-- Its type. -/
  kind : ExcKind
  /-- Its text, without the values put into it. -/
  message : String
  deriving DecidableEq

/-- A failed `FC_ASSERT`. -/
def failed (message : String) : Exc := ⟨.assertion, message⟩

/-- `FC_ASSERT( condition, message )` -/
def fcAssert (condition : Bool) (message : String) : Except Exc Unit :=
  if condition then .ok () else .error (failed message)

/-- Bytes of a string. -/
abbrev Bytes := List UInt8

/-- The operations of fc that the modelled code calls. -/
structure FcLib where
  /-- The result of an operation of `fc::safe<int64_t>` from its mathematical value: a
  value, or nothing when it throws. -/
  safe : ℤ → Option ℤ
  /-- The `fc::safe<int64_t>` that is made from a value of type `uint64_t`, or nothing when
  the conversion throws. -/
  ofUInt64 : ℕ → Option ℤ
  /-- `fc::is_utf8` -/
  isUtf8 : Bytes → Bool
  /-- `fc::json::is_valid` -/
  jsonIsValid : Bytes → Bool

/-- No conversion overflows: none returns for a number that does not fit. The conversions of fc
wrap there, so this is an assumption about the amounts of a run. -/
def FcLib.ConversionsFit (fc : FcLib) : Prop := ∀ n w, fc.ofUInt64 n = some w → n < 2 ^ 63

/-- Operations of `fc::safe<int64_t>` are exact or throw, and their results have 64 bits.
Conversions to it are exact where the number fits, and no conversion overflows. -/
structure FcLib.SafeExact (fc : FcLib) : Prop where
  /-- Operations. -/
  safe : ∀ z w, fc.safe z = some w → w = z ∧ -2 ^ 63 ≤ z ∧ z < 2 ^ 63
  /-- Conversions. -/
  ofUInt64 : ∀ n w, n < 2 ^ 63 → fc.ofUInt64 n = some w → w = n
  /-- The assumption. -/
  conversionsFit : fc.ConversionsFit

/-- Operations of `fc::safe<int64_t>` throw only where their result does not fit. -/
def FcLib.SafeTotal (fc : FcLib) : Prop :=
  ∀ z, -2 ^ 63 ≤ z → z < 2 ^ 63 → fc.safe z = some z

section SafeArithmetic

variable (fc : FcLib)

/-- The checked result of an operation. -/
def FcLib.checked (z : ℤ) : Except Exc ℤ :=
  match fc.safe z with
  | some w => .ok w
  | none => .error ⟨.overflow, "Integer Overflow"⟩

/-- A `uint64_t` that is stored in an `fc::safe<int64_t>`. -/
def FcLib.stored (n : ℕ) : Except Exc ℤ :=
  match fc.ofUInt64 n with
  | some w => .ok w
  | none => .error ⟨.overflow, "Integer Overflow"⟩

/-- Checked addition. -/
def FcLib.add (a b : ℤ) : Except Exc ℤ := fc.checked (a + b)

/-- Checked subtraction. -/
def FcLib.sub (a b : ℤ) : Except Exc ℤ := fc.checked (a - b)

/-- Checked negation. -/
def FcLib.neg (a : ℤ) : Except Exc ℤ := fc.checked (-a)

/-- Checked multiplication. -/
def FcLib.mul (a b : ℤ) : Except Exc ℤ := fc.checked (a * b)

/-- Checked division, which rounds towards zero. -/
def FcLib.div (a b : ℤ) : Except Exc ℤ :=
  if b = 0 then .error ⟨.overflow, "Integer Overflow"⟩ else fc.checked (a.tdiv b)

/-- Checked remainder, with the sign of the dividend. -/
def FcLib.mod (a b : ℤ) : Except Exc ℤ :=
  if b = 0 then .error ⟨.overflow, "Integer Overflow"⟩ else fc.checked (a.tmod b)

end SafeArithmetic

/-- An assertion that returns holds. -/
theorem fcAssert_eq_ok {condition : Bool} {message : String} {u : Unit}
    (h : fcAssert condition message = .ok u) : condition = true := by
  unfold fcAssert at h
  by_cases hc : condition = true
  · exact hc
  · rw [if_neg hc] at h
    cases h

/-- An assertion that holds returns. -/
theorem fcAssert_of {condition : Bool} {message : String} (h : condition = true) :
    fcAssert condition message = .ok () :=
  if_pos h

section Exactness

variable {fc : FcLib} {a b z w : ℤ}

/-- A checked number is itself and fits into 64 bits. -/
theorem FcLib.SafeExact.checked (h : fc.SafeExact) (hc : fc.checked z = .ok w) :
    w = z ∧ -2 ^ 63 ≤ w ∧ w < 2 ^ 63 := by
  unfold FcLib.checked at hc
  cases hz : fc.safe z with
  | none =>
    rw [hz] at hc
    cases hc
  | some v =>
    rw [hz] at hc
    have hv : v = w := Except.ok.inj hc
    have hexact := h.safe z v hz
    omega

/-- A stored number is itself and fits into 64 bits. -/
theorem FcLib.SafeExact.stored {n : ℕ} (h : fc.SafeExact) (hc : fc.stored n = .ok w) :
    w = n ∧ -2 ^ 63 ≤ w ∧ w < 2 ^ 63 := by
  unfold FcLib.stored at hc
  cases hn : fc.ofUInt64 n with
  | none =>
    rw [hn] at hc
    cases hc
  | some v =>
    rw [hn] at hc
    have hv : v = w := Except.ok.inj hc
    have hfits := h.conversionsFit n v hn
    have hexact := h.ofUInt64 n v hfits hn
    omega

/-- A checked quotient fits into 64 bits. -/
theorem FcLib.SafeExact.div (h : fc.SafeExact) (hd : fc.div a b = .ok w) :
    -2 ^ 63 ≤ w ∧ w < 2 ^ 63 := by
  unfold FcLib.div at hd
  by_cases hb : b = 0
  · rw [if_pos hb] at hd
    cases hd
  · rw [if_neg hb] at hd
    exact (h.checked hd).2

/-- A number that fits into 64 bits is checked. -/
theorem FcLib.SafeTotal.checked (h : fc.SafeTotal) (hlow : -2 ^ 63 ≤ z) (hhigh : z < 2 ^ 63) :
    fc.checked z = .ok z := by
  unfold FcLib.checked
  rw [h z hlow hhigh]

end Exactness

section UInt128

/-- The bound of `fc::uint128`. -/
def uint128Bound : ℕ := 2 ^ 128

/-- `uint128_t( v )` of a signed value, which extends the sign. -/
def uint128 (v : ℤ) : ℕ := (v % (uint128Bound : ℤ)).toNat

/-- Multiplication of 128-bit values. -/
def uint128Mul (a b : ℕ) : ℕ := a * b % uint128Bound

/-- Addition of 128-bit values. -/
def uint128Add (a b : ℕ) : ℕ := (a + b) % uint128Bound

/-- Subtraction of 128-bit values. -/
def uint128Sub (a b : ℕ) : ℕ := (a + (uint128Bound - b)) % uint128Bound

/-- Division of 128-bit values. -/
def uint128Div (a b : ℕ) : Except Exc ℕ :=
  if b = 0 then .error ⟨.overflow, "Division by zero"⟩ else .ok (a / b)

/-- `to_uint64`, which asserts that the high word is zero. -/
def toUint64 (a : ℕ) : Except Exc ℕ :=
  if a < 2 ^ 64 then .ok a else .error (failed "hi == 0")

end UInt128

section Time

/-- `fc::time_point_sec`: seconds since the epoch. -/
abbrev TimePointSec := ℕ

/-- `fc::time_point_sec::maximum()` -/
def timePointSecMaximum : TimePointSec := 2 ^ 32 - 1

/-- `time + seconds`, in 32 bits. -/
def TimePointSec.plus (time seconds : ℕ) : TimePointSec := (time + seconds) % 2 ^ 32

end Time

section Names

/-- `account_name_type`, a `fixed_string` of 16 bytes: the bytes, padded with
zeros, as one number with the first byte the most significant. Its order is the
lexicographic order of the bytes. -/
structure AccountName where
  /-- The sixteen bytes as a number. -/
  packed : ℕ
  deriving DecidableEq

/-- The value of sixteen bytes, those missing being zero. -/
def packBytes : ℕ → Bytes → ℕ
  | 0, _ => 0
  | _ + 1, [] => 0
  | n + 1, b :: rest => b.toNat * 256 ^ n + packBytes n rest

/-- A name from its bytes; what does not fit into sixteen bytes is cut off. -/
def AccountName.ofBytes (bytes : Bytes) : AccountName := ⟨packBytes 16 bytes⟩

/-- The first `n` of sixteen bytes of a packed value, from the front. -/
def unpackBytes (packed : ℕ) : ℕ → Bytes
  | 0 => []
  | n + 1 => UInt8.ofNat (packed / 256 ^ n) :: unpackBytes (packed % 256 ^ n) n

/-- The bytes of a name: all sixteen where the last one is not zero, else those up to
the first zero byte. -/
def AccountName.toBytes (name : AccountName) : Bytes :=
  let bytes := unpackBytes name.packed 16
  if name.packed % 256 ≠ 0 then bytes else bytes.takeWhile (· ≠ 0)

/-- `size()` -/
def AccountName.size (name : AccountName) : ℕ := name.toBytes.length

/-- The empty name. -/
def AccountName.empty : AccountName := ⟨0⟩

/-- The bytes of an ASCII text of the source. -/
def bytesOf (text : String) : Bytes := text.toList.map fun c => UInt8.ofNat c.toNat

/-- `fc::to_string` of a natural number. -/
def decimalBytes (n : ℕ) : Bytes := (Nat.toDigits 10 n).map fun c => UInt8.ofNat c.toNat

end Names

/-- A public key; the null key is the default value of `public_key_type`. -/
structure PublicKey where
  /-- The key data as a number. -/
  data : ℕ
  deriving DecidableEq

/-- `public_key_type()` -/
def PublicKey.null : PublicKey := ⟨0⟩

end Whaleshares.Fc
