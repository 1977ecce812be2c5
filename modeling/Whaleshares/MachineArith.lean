import Mathlib

/-!
# Arithmetic on machine integers

The value of an expression is kept together with what happened on the way to it: whether every
result was in the range of its type and whether every divisor was different from zero. A result
outside of its type wraps. An expression all of whose results are in range has the value that
the integers give it.
-/

namespace Whaleshares.MachineArith

section IntType

/-- An integer type with its width. -/
structure IntType where
  /-- The type holds negative values. -/
  signed : Bool
  /-- The number of bits. -/
  bits : ℕ

namespace IntType

/-- `int` and `int32_t`. -/
def int32 : IntType := ⟨true, 32⟩

/-- `int64_t`. -/
def int64 : IntType := ⟨true, 64⟩

/-- `uint64_t` and `size_t`. -/
def uint64 : IntType := ⟨false, 64⟩

/-- An unsigned integer of 128 bits. -/
def uint128 : IntType := ⟨false, 128⟩

/-- The least value of a type. -/
def least (t : IntType) : ℤ := if t.signed then -2 ^ (t.bits - 1) else 0

/-- The integer is a value of the type. -/
def InRange (t : IntType) (n : ℤ) : Prop := t.least ≤ n ∧ n < t.least + 2 ^ t.bits

instance (t : IntType) (n : ℤ) : Decidable (t.InRange n) :=
  inferInstanceAs (Decidable (_ ∧ _))

/-- The value of the type that differs by a multiple of the number of its values. -/
def wrap (t : IntType) (n : ℤ) : ℤ := t.least + (n - t.least) % 2 ^ t.bits

/-- A wrapped number is in the range of its type. -/
theorem wrap_inRange (t : IntType) (n : ℤ) : t.InRange (t.wrap n) := by
  have hpos : (0 : ℤ) < 2 ^ t.bits := by positivity
  have hnonneg := Int.emod_nonneg (n - t.least) hpos.ne'
  have hlt := Int.emod_lt_of_pos (n - t.least) hpos
  constructor <;> unfold wrap <;> omega

/-- A number in range is stored as it is. -/
theorem InRange.wrap_eq {t : IntType} {n : ℤ} (h : t.InRange n) : t.wrap n = n := by
  unfold wrap
  rw [Int.emod_eq_of_lt (by have := h.1; omega) (by have := h.2; omega)]
  omega

/-- The range of `int32_t` in figures. -/
theorem inRange_int32 {n : ℤ} : int32.InRange n ↔ -2147483648 ≤ n ∧ n < 2147483648 := Iff.rfl

/-- The range of `int64_t` in figures. -/
theorem inRange_int64 {n : ℤ} :
    int64.InRange n ↔ -9223372036854775808 ≤ n ∧ n < 9223372036854775808 := Iff.rfl

/-- The range of `uint64_t` in figures. -/
theorem inRange_uint64 {n : ℤ} : uint64.InRange n ↔ 0 ≤ n ∧ n < 18446744073709551616 := Iff.rfl

/-- The range of a 128-bit unsigned number in figures. -/
theorem inRange_uint128 {n : ℤ} :
    uint128.InRange n ↔ 0 ≤ n ∧ n < 340282366920938463463374607431768211456 := Iff.rfl

end IntType

end IntType

section Traced

/-- A value with the record of the operations that led to it. -/
structure Traced (α : Type) where
  /-- The value. -/
  value : α
  /-- Every result was in the range of its type. -/
  inRange : Bool
  /-- Every divisor was different from zero. -/
  divides : Bool

variable {α β : Type}

instance : Monad Traced where
  pure value := ⟨value, true, true⟩
  bind x f :=
    let y := f x.value
    ⟨y.value, x.inRange && y.inRange, x.divides && y.divides⟩

/-- A value alone leaves no range and divides by nothing. -/
theorem Traced.pure_eq (value : α) : (pure value : Traced α) = ⟨value, true, true⟩ := rfl

/-- A computation is in range and divides well if both of its parts do. -/
theorem Traced.bind_eq (x : Traced α) (f : α → Traced β) :
    x >>= f = ⟨(f x.value).value, x.inRange && (f x.value).inRange,
      x.divides && (f x.value).divides⟩ := rfl

/-- A value that is passed on changes nothing. -/
@[simp] theorem Traced.pure_bind (value : α) (f : α → Traced β) : pure value >>= f = f value := rfl

/-- The parts of a computation in range are in range. -/
theorem Traced.inRange_bind {x : Traced α} {f : α → Traced β} (h : (x >>= f).inRange = true) :
    x.inRange = true ∧ (f x.value).inRange = true := Bool.and_eq_true_iff.mp h

/-- A result of a type. -/
def held (t : IntType) (n : ℤ) : Traced ℤ := ⟨t.wrap n, decide (t.InRange n), true⟩

/-- A product. -/
def mul (t : IntType) (a b : ℤ) : Traced ℤ := held t (a * b)

/-- A sum. -/
def add (t : IntType) (a b : ℤ) : Traced ℤ := held t (a + b)

/-- A difference. -/
def sub (t : IntType) (a b : ℤ) : Traced ℤ := held t (a - b)

/-- A quotient, rounded to zero. -/
def div (t : IntType) (a b : ℤ) : Traced ℤ :=
  ⟨t.wrap (a.tdiv b), decide (t.InRange (a.tdiv b)), decide (b ≠ 0)⟩

/-- A stored number in range is that number. -/
theorem held_of_inRange {t : IntType} {n : ℤ} (h : t.InRange n) : held t n = pure n := by
  unfold held
  rw [h.wrap_eq, decide_eq_true h]
  rfl

/-- A store that stays in range stores a number in range. -/
theorem inRange_of_held {t : IntType} {n : ℤ} (h : (held t n).inRange = true) : t.InRange n :=
  of_decide_eq_true h

/-- A product in range is exact. -/
theorem mul_of_inRange {t : IntType} {a b : ℤ} (h : t.InRange (a * b)) :
    mul t a b = pure (a * b) := held_of_inRange h

/-- A sum in range is exact. -/
theorem add_of_inRange {t : IntType} {a b : ℤ} (h : t.InRange (a + b)) :
    add t a b = pure (a + b) := held_of_inRange h

/-- A difference in range is exact. -/
theorem sub_of_inRange {t : IntType} {a b : ℤ} (h : t.InRange (a - b)) :
    sub t a b = pure (a - b) := held_of_inRange h

/-- A quotient in range is exact where the divisor is not zero. -/
theorem div_of_inRange {t : IntType} {a b : ℤ} (hb : b ≠ 0) (h : t.InRange (a.tdiv b)) :
    div t a b = pure (a.tdiv b) := by
  unfold div
  rw [h.wrap_eq, decide_eq_true h, decide_eq_true hb]
  rfl

end Traced

end Whaleshares.MachineArith
