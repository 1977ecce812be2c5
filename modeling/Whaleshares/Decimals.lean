import Mathlib

/-!
# Decimal texts

Digits as bytes: the value that a list of digits has, the digits that a number is written
with, and the same number written in a fixed width with zeros in front. A number between
`10 ^ w` and `2 * 10 ^ w` is written as a one and then its remainder in the width `w`,
which is how a width is put into a number and taken out of it again.

A text of an integer has at least one digit and may have a sign.
-/

namespace Whaleshares.Decimals

/-- All bytes are digits. -/
def AllDigits (text : List UInt8) : Prop := ∀ b ∈ text, 48 ≤ b.toNat ∧ b.toNat ≤ 57

instance (text : List UInt8) : Decidable (AllDigits text) :=
  List.decidableBAll (fun b : UInt8 => 48 ≤ b.toNat ∧ b.toNat ≤ 57) text

/-- The number that digits stand for. -/
def value (text : List UInt8) : ℕ := text.foldl (fun v b => 10 * v + (b.toNat - 48)) 0

/-- No digits have the value zero. -/
@[simp] theorem value_nil : value [] = 0 := rfl

/-- The last digit counts once, what stands before it ten times. -/
@[simp] theorem value_append_digit (text : List UInt8) (b : UInt8) :
    value (text ++ [b]) = 10 * value text + (b.toNat - 48) := by
  unfold value
  rw [List.foldl_append]
  rfl

/-- The first digit counts the power of ten of the digits behind it. -/
theorem value_cons (b : UInt8) (text : List UInt8) :
    value (b :: text) = (b.toNat - 48) * 10 ^ text.length + value text := by
  induction text using List.reverseRecOn with
  | nil => simp [value]
  | append_singleton front c ih =>
    rw [← List.cons_append, value_append_digit, value_append_digit, ih, List.length_append,
      List.length_singleton, Nat.pow_succ, ← Nat.mul_assoc]
    generalize (b.toNat - 48) * 10 ^ front.length = lead
    omega

/-- Digits of some number do not reach the next power of ten. -/
theorem value_lt {text : List UInt8} (h : AllDigits text) : value text < 10 ^ text.length := by
  induction text using List.reverseRecOn with
  | nil => simp [value]
  | append_singleton front c ih =>
    have hfront : AllDigits front := fun b hb => h b (by simp [hb])
    have hc := h c (by simp)
    have hlt := ih hfront
    rw [value_append_digit, List.length_append, List.length_singleton, Nat.pow_succ]
    omega

/-- The byte of a digit. -/
def digitByte (d : ℕ) : UInt8 := UInt8.ofNat (48 + d)

/-- A digit is its distance from the digit zero. -/
theorem digitByte_toNat {d : ℕ} (h : d < 10) : (digitByte d).toNat = 48 + d := by
  rw [digitByte, UInt8.toNat_ofNat', Nat.mod_eq_of_lt (by omega)]

section Writing

/-- A number in digits. -/
def digits (n : ℕ) : List UInt8 := (Nat.toDigits 10 n).map fun c => UInt8.ofNat c.toNat

/-- The character of a digit is its byte. -/
theorem digitChar_byte {d : ℕ} (h : d < 10) :
    UInt8.ofNat (Nat.digitChar d).toNat = digitByte d := by
  interval_cases d <;> rfl

/-- The last digit comes off the end. -/
theorem digits_eq (n : ℕ) :
    digits n = if n < 10 then [digitByte n] else digits (n / 10) ++ [digitByte (n % 10)] := by
  unfold digits
  rw [Nat.toDigits_eq_if (by omega)]
  split
  · next hlt => simp [digitChar_byte hlt]
  · simp [digitChar_byte (Nat.mod_lt n (by omega : 10 > 0))]

/-- Every number has digits. -/
theorem digits_ne_nil (n : ℕ) : digits n ≠ [] := by
  rw [digits_eq]
  split <;> simp

/-- The digits of a number are digits. -/
theorem digits_allDigits (n : ℕ) : AllDigits (digits n) := by
  induction n using Nat.strong_induction_on with
  | _ n ih =>
  intro b hb
  rw [digits_eq] at hb
  split at hb
  · next hlt =>
    rw [List.mem_singleton.mp hb, digitByte_toNat hlt]
    omega
  · next hge =>
    rw [List.mem_append, List.mem_singleton] at hb
    obtain hb | rfl := hb
    · exact ih (n / 10) (by omega) b hb
    · rw [digitByte_toNat (by omega)]
      omega

/-- Reading what was written. -/
theorem value_digits (n : ℕ) : value (digits n) = n := by
  induction n using Nat.strong_induction_on with
  | _ n ih =>
  rw [digits_eq]
  split
  · next hlt =>
    rw [← List.nil_append [digitByte n], value_append_digit, digitByte_toNat hlt, value_nil]
    omega
  · next hge =>
    rw [value_append_digit, ih (n / 10) (by omega), digitByte_toNat (by omega)]
    omega

/-- A number in `width` digits, zeros in front. -/
def fixed : ℕ → ℕ → List UInt8
  | 0, _ => []
  | width + 1, n => fixed width (n / 10) ++ [digitByte (n % 10)]

/-- A fixed text has its width. -/
@[simp] theorem fixed_length (width n : ℕ) : (fixed width n).length = width := by
  induction width generalizing n with
  | zero => rfl
  | succ width ih => simp [fixed, ih]

/-- A fixed text has digits alone. -/
theorem fixed_allDigits (width n : ℕ) : AllDigits (fixed width n) := by
  induction width generalizing n with
  | zero => simp [fixed, AllDigits]
  | succ width ih =>
    intro b hb
    rw [fixed, List.mem_append, List.mem_singleton] at hb
    obtain hb | rfl := hb
    · exact ih (n / 10) b hb
    · rw [digitByte_toNat (by omega)]
      omega

/-- A number that fits is the value of its fixed text. -/
theorem value_fixed {width n : ℕ} (h : n < 10 ^ width) : value (fixed width n) = n := by
  induction width generalizing n with
  | zero =>
    have hzero : n = 0 := by
      rw [Nat.pow_zero] at h
      omega
    rw [hzero]
    rfl
  | succ width ih =>
    rw [Nat.pow_succ] at h
    rw [fixed, value_append_digit, ih (by omega), digitByte_toNat (by omega)]
    omega

/-- The leading one keeps the zeros in front of what follows it. -/
theorem digits_lead {width n : ℕ} (h : n < 10 ^ width) :
    digits (10 ^ width + n) = digitByte 1 :: fixed width n := by
  induction width generalizing n with
  | zero =>
    have hzero : n = 0 := by
      rw [Nat.pow_zero] at h
      omega
    rw [hzero]
    rfl
  | succ width ih =>
    have hpos : 0 < 10 ^ width := Nat.pow_pos (by omega)
    rw [Nat.pow_succ] at h
    have hten : ¬ 10 ^ width * 10 + n < 10 := by omega
    have hfront : (10 ^ width * 10 + n) / 10 = 10 ^ width + n / 10 := by omega
    have hlast : (10 ^ width * 10 + n) % 10 = n % 10 := by omega
    rw [Nat.pow_succ, digits_eq, if_neg hten, hfront, hlast, ih (by omega)]
    rfl

end Writing

section Integers

/-- The text of an integer: digits, at least one, with or without a sign. -/
inductive IntegerText : List UInt8 → ℤ → Prop where
  /-- No sign. -/
  | plain {text : List UInt8} (digits : AllDigits text) (some : text ≠ []) :
      IntegerText text (value text)
  /-- A plus sign. -/
  | plus {text : List UInt8} (digits : AllDigits text) (some : text ≠ []) :
      IntegerText (43 :: text) (value text)
  /-- A minus sign. -/
  | minus {text : List UInt8} (digits : AllDigits text) (some : text ≠ []) :
      IntegerText (45 :: text) (-value text)

/-- The text of an integer as it is written. -/
def integerDigits (n : ℤ) : List UInt8 :=
  if n < 0 then 45 :: digits n.natAbs else digits n.natAbs

/-- The integer of a text. -/
def readInteger : List UInt8 → Option ℤ
  | [] => none
  | b :: rest =>
    if b = 43 then
      if rest ≠ [] ∧ AllDigits rest then some (value rest) else none
    else if b = 45 then
      if rest ≠ [] ∧ AllDigits rest then some (-value rest) else none
    else if AllDigits (b :: rest) then some (value (b :: rest)) else none

/-- A sign is no digit. -/
theorem not_sign {b : UInt8} {rest : List UInt8} (h : AllDigits (b :: rest)) :
    b ≠ 43 ∧ b ≠ 45 := by
  have hb := h b (List.mem_cons_self ..)
  constructor <;> rintro rfl <;> revert hb <;> decide

/-- The reader reads exactly the texts of integers. -/
theorem readInteger_eq_some {text : List UInt8} {v : ℤ} :
    readInteger text = some v ↔ IntegerText text v := by
  constructor
  · intro h
    cases text with
    | nil => cases h
    | cons b rest =>
      simp only [readInteger] at h
      split at h
      · next hplus =>
        split at h
        · next hdigits =>
          cases h
          rw [hplus]
          exact .plus hdigits.2 hdigits.1
        · cases h
      · split at h
        · next hminus =>
          split at h
          · next hdigits =>
            cases h
            rw [hminus]
            exact .minus hdigits.2 hdigits.1
          · cases h
        · split at h
          · next hdigits =>
            cases h
            exact .plain hdigits (List.cons_ne_nil _ _)
          · cases h
  · rintro (⟨hdigits, hsome⟩ | ⟨hdigits, hsome⟩ | ⟨hdigits, hsome⟩)
    · cases text with
      | nil => exact absurd rfl hsome
      | cons b rest =>
        obtain ⟨hplus, hminus⟩ := not_sign hdigits
        rw [readInteger, if_neg hplus, if_neg hminus, if_pos hdigits]
    · simp [readInteger, hdigits, hsome]
    · simp [readInteger, hdigits, hsome]

end Integers

end Whaleshares.Decimals
