import Mathlib
import Whaleshares.Rewards

/-!
# The approximate square root

`approx_sqrt` halves the logarithm of its argument and takes the leading bits of the mantissa
along. Between two powers of four it is the tangent to the square root at the power, and
between an odd power of two and the next power of four the tangent at that one, both rounded
down. So it grows with its argument, and lies between the integer square root and its own
square's bound of nine eighths of the argument.
-/

namespace Whaleshares.ApproxSqrt

open Fc Rewards

variable {x y k : ℕ}

/-- The number of halvings of the logarithm, and what remains. -/
theorem findMsb_cases (hx : x ≠ 0) : ∃ k,
    (findMsb x = 2 * k ∧ 4 ^ k ≤ x ∧ x < 2 * 4 ^ k) ∨
      (findMsb x = 2 * k + 1 ∧ 2 * 4 ^ k ≤ x ∧ x < 4 * 4 ^ k) := by
  have hlow : 2 ^ findMsb x ≤ x := Nat.log2_self_le hx
  have hhigh : x < 2 ^ (findMsb x + 1) := Nat.lt_log2_self
  have heven : ∀ n : ℕ, 2 ^ (2 * n) = 4 ^ n := fun n => by
    rw [Nat.pow_mul]
  refine ⟨findMsb x / 2, ?_⟩
  rcases Nat.mod_two_eq_zero_or_one (findMsb x) with hmod | hmod
  · have hmsb : findMsb x = 2 * (findMsb x / 2) := by omega
    have hpow := heven (findMsb x / 2)
    rw [← hmsb] at hpow
    rw [Nat.pow_succ] at hhigh
    exact .inl ⟨hmsb, by omega, by omega⟩
  · have hmsb : findMsb x = 2 * (findMsb x / 2) + 1 := by omega
    have hpow : 2 ^ findMsb x = 2 * 4 ^ (findMsb x / 2) := by
      have hdouble : 2 ^ (2 * (findMsb x / 2) + 1) = 2 * 4 ^ (findMsb x / 2) := by
        rw [Nat.pow_succ, heven, Nat.mul_comm]
      rwa [← hmsb] at hdouble
    rw [Nat.pow_succ] at hhigh
    exact .inr ⟨hmsb, by omega, by omega⟩

/-- The leading bit and the bits below it are put together without a carry. -/
theorem join_bits {m : ℕ} (hm : m < 2 ^ k) : 2 ^ k ||| m = 2 ^ k + m := by
  have hadd := Nat.two_pow_add_eq_or_of_lt hm 1
  rw [Nat.mul_one] at hadd
  exact hadd.symm

/-- A power of four is the square of that of two. -/
theorem four_pow (k : ℕ) : 4 ^ k = 2 ^ k * 2 ^ k := by
  rw [← Nat.mul_pow]

/-- The bits of the mantissa that are taken along fit below the leading bit. -/
theorem even_bits (hhigh : x < 2 * 4 ^ k) : (x - 4 ^ k) / 2 ^ k < 2 ^ k := by
  have hpos : 0 < 4 ^ k := Nat.pow_pos (by decide)
  have hsquare := four_pow k
  refine Nat.div_lt_of_lt_mul ?_
  omega

/-- Below the next power of four the mantissa stays below its width. -/
theorem odd_bits (hhigh : x < 4 * 4 ^ k) : (x - 2 * 4 ^ k) / (2 * 2 ^ k) < 2 ^ k := by
  have hpos : 0 < 4 ^ k := Nat.pow_pos (by decide)
  refine Nat.div_lt_of_lt_mul ?_
  rw [Nat.mul_assoc, ← four_pow]
  omega

/-- Above a power of four. -/
theorem approxSqrt_even (hk : k < 64) (hmsb : findMsb x = 2 * k) (hlow : 4 ^ k ≤ x)
    (hhigh : x < 2 * 4 ^ k) : approxSqrt x = 2 ^ k + (x - 4 ^ k) / 2 ^ k / 2 := by
  have hpos : 0 < 4 ^ k := Nat.pow_pos (by decide)
  have hbits : 2 ^ (2 * k) = 4 ^ k := by
    rw [Nat.pow_mul]
  have hmantissa : x % 4 ^ k = x - 4 ^ k := by
    rw [Nat.mod_eq_sub_mod hlow, Nat.mod_eq_of_lt (by omega)]
  have hsmall := even_bits hhigh
  have hword : (x - 4 ^ k) / 2 ^ k < 2 ^ 64 :=
    hsmall.trans (Nat.pow_lt_pow_right (by decide) hk)
  have hhalf : 2 * k / 2 = k := by omega
  have hmod : ¬ 2 * k % 2 = 1 := by omega
  have hrest : 2 * k - k = k := by omega
  unfold approxSqrt
  rw [if_neg (by omega)]
  simp only [hmsb, hhalf, hrest, hbits, hmantissa, if_neg hmod, Nat.zero_or,
    Nat.mod_eq_of_lt hword]
  exact join_bits ((Nat.div_le_self _ _).trans_lt hsmall)

/-- Above an odd power of two. -/
theorem approxSqrt_odd (hk : k < 64) (hmsb : findMsb x = 2 * k + 1) (hlow : 2 * 4 ^ k ≤ x)
    (hhigh : x < 4 * 4 ^ k) :
    approxSqrt x = 2 ^ k + (2 ^ k + (x - 2 * 4 ^ k) / (2 * 2 ^ k)) / 2 := by
  have hpos : 0 < 4 ^ k := Nat.pow_pos (by decide)
  have hbits : 2 ^ (2 * k + 1) = 2 * 4 ^ k := by
    rw [Nat.pow_succ, Nat.pow_mul, Nat.mul_comm]
  have hmantissa : x % (2 * 4 ^ k) = x - 2 * 4 ^ k := by
    rw [Nat.mod_eq_sub_mod hlow, Nat.mod_eq_of_lt (by omega)]
  have hsmall := odd_bits hhigh
  have hword : (x - 2 * 4 ^ k) / (2 * 2 ^ k) < 2 ^ 64 :=
    hsmall.trans (Nat.pow_lt_pow_right (by decide) hk)
  have hhalf : (2 * k + 1) / 2 = k := by omega
  have hmod : (2 * k + 1) % 2 = 1 := by omega
  have hrest : 2 * k + 1 - k = k + 1 := by omega
  have hshift : 2 ^ (k + 1) = 2 * 2 ^ k := Nat.pow_succ'
  unfold approxSqrt
  rw [if_neg (by omega)]
  simp only [hmsb, hhalf, hrest, hbits, hshift, hmantissa, if_pos hmod,
    Nat.mod_eq_of_lt hword, join_bits hsmall]
  exact join_bits (by omega)

/-- The value at a power of two. -/
def rootOfPower (n : ℕ) : ℕ := 2 ^ (n / 2) + if n % 2 = 1 then 2 ^ (n / 2) / 2 else 0

/-- The root of a power grows with the power. -/
theorem rootOfPower_le_succ (n : ℕ) : rootOfPower n ≤ rootOfPower (n + 1) := by
  unfold rootOfPower
  rcases Nat.mod_two_eq_zero_or_one n with hmod | hmod
  · have hhalf : (n + 1) / 2 = n / 2 := by omega
    rw [hhalf, if_neg (by omega), if_pos (by omega)]
    exact Nat.le_add_right _ _
  · have hhalf : (n + 1) / 2 = n / 2 + 1 := by omega
    have hle : 2 ^ (n / 2) / 2 ≤ 2 ^ (n / 2) := Nat.div_le_self _ _
    rw [hhalf, if_pos hmod, if_neg (by omega), Nat.pow_succ, Nat.mul_two]
    exact Nat.add_le_add_left hle _

/-- The root of a power is monotone. -/
theorem rootOfPower_mono {m n : ℕ} (h : m ≤ n) : rootOfPower m ≤ rootOfPower n :=
  monotone_nat_of_le_succ rootOfPower_le_succ h

/-- The root of an even power is exact. -/
theorem rootOfPower_even (k : ℕ) : rootOfPower (2 * k) = 2 ^ k := by
  have hhalf : 2 * k / 2 = k := by omega
  unfold rootOfPower
  rw [hhalf, if_neg (by omega), Nat.add_zero]

/-- The root of an odd power is one and a half times that of the one below. -/
theorem rootOfPower_odd (k : ℕ) : rootOfPower (2 * k + 1) = 2 ^ k + 2 ^ k / 2 := by
  have hhalf : (2 * k + 1) / 2 = k := by omega
  unfold rootOfPower
  rw [hhalf, if_pos (by omega)]

/-- A power of four below a number of 128 bits. -/
theorem exponent_lt (hlow : 4 ^ k ≤ x) (hx : x < 2 ^ 128) : k < 64 := by
  have hpow : 4 ^ k < 4 ^ 64 := hlow.trans_lt (by rwa [show 4 ^ 64 = 2 ^ 128 from rfl])
  exact (Nat.pow_lt_pow_iff_right (by decide)).mp hpow

/-- A root lies between those of the powers of two around its argument. -/
theorem approxSqrt_between (hx : x ≠ 0) (hword : x < 2 ^ 128) :
    rootOfPower (findMsb x) ≤ approxSqrt x ∧ approxSqrt x ≤ rootOfPower (findMsb x + 1) := by
  obtain ⟨k, ⟨hmsb, hlow, hhigh⟩ | ⟨hmsb, hlow, hhigh⟩⟩ := findMsb_cases hx
  · have hk := exponent_lt hlow hword
    have hbits := even_bits hhigh
    rw [hmsb, approxSqrt_even hk hmsb hlow hhigh, rootOfPower_even, rootOfPower_odd]
    exact ⟨Nat.le_add_right _ _, Nat.add_le_add_left (Nat.div_le_div_right hbits.le) _⟩
  · have hpower : 4 ^ k ≤ x := by omega
    have hk := exponent_lt hpower hword
    have hbits := odd_bits hhigh
    have hnext : 2 * k + 1 + 1 = 2 * (k + 1) := by omega
    rw [hmsb, approxSqrt_odd hk hmsb hlow hhigh, hnext, rootOfPower_even, rootOfPower_odd,
      Nat.pow_succ, Nat.mul_two]
    constructor
    · exact Nat.add_le_add_left (Nat.div_le_div_right (Nat.le_add_right _ _)) _
    · refine Nat.add_le_add_left ?_ _
      generalize (x - 2 * 4 ^ k) / (2 * 2 ^ k) = bits at hbits ⊢
      generalize 2 ^ k = leading at hbits ⊢
      omega

/-- The root of a number below a power of two. -/
theorem approxSqrt_le_rootOfPower {n : ℕ} (hx : x < 2 ^ n) (hn : n ≤ 128) :
    approxSqrt x ≤ rootOfPower n := by
  rcases Nat.eq_zero_or_pos x with rfl | hpos
  · exact Nat.zero_le _
  have hne : x ≠ 0 := by omega
  have hword : x < 2 ^ 128 := hx.trans_le (Nat.pow_le_pow_right (by decide) hn)
  have hmsb : findMsb x < n := (Nat.log2_lt hne).mpr hx
  exact (approxSqrt_between hne hword).2.trans (rootOfPower_mono hmsb)

/-- The approximate square root grows with its argument. -/
theorem approxSqrt_mono (h : x ≤ y) (hy : y < 2 ^ 128) : approxSqrt x ≤ approxSqrt y := by
  rcases Nat.eq_zero_or_pos x with rfl | hx
  · exact Nat.zero_le _
  have hx : x ≠ 0 := by omega
  have hy0 : y ≠ 0 := by omega
  have hmsb : findMsb x ≤ findMsb y := by
    exact (Nat.le_log2 hy0).mpr ((Nat.log2_self_le hx).trans h)
  rcases Nat.eq_or_lt_of_le hmsb with hsame | hless
  · obtain ⟨k, ⟨heven, hlow, hhigh⟩ | ⟨hodd, hlow, hhigh⟩⟩ := findMsb_cases hx
    · obtain ⟨l, ⟨heven', hlow', hhigh'⟩ | ⟨hodd', -, -⟩⟩ := findMsb_cases hy0
      · obtain rfl : l = k := by omega
        have hk := exponent_lt hlow' hy
        rw [approxSqrt_even hk heven hlow hhigh, approxSqrt_even hk heven' hlow' hhigh']
        exact Nat.add_le_add_left (Nat.div_le_div_right (Nat.div_le_div_right (by omega))) _
      · omega
    · obtain ⟨l, ⟨heven', -, -⟩ | ⟨hodd', hlow', hhigh'⟩⟩ := findMsb_cases hy0
      · omega
      · obtain rfl : l = k := by omega
        have hpower : 4 ^ l ≤ y := by omega
        have hk := exponent_lt hpower hy
        rw [approxSqrt_odd hk hodd hlow hhigh, approxSqrt_odd hk hodd' hlow' hhigh']
        have hbits : (x - 2 * 4 ^ l) / (2 * 2 ^ l) ≤ (y - 2 * 4 ^ l) / (2 * 2 ^ l) :=
          Nat.div_le_div_right (by omega)
        exact Nat.add_le_add_left (Nat.div_le_div_right (Nat.add_le_add_left hbits _)) _
  · have hbelow := (approxSqrt_between hx (h.trans_lt hy)).2
    have habove := (approxSqrt_between hy0 hy).1
    exact hbelow.trans ((rootOfPower_mono hless).trans habove)

section Bounds

/-- Above a power of four, with one division. -/
theorem approxSqrt_even_eq (hk : k < 64) (hmsb : findMsb x = 2 * k) (hlow : 4 ^ k ≤ x)
    (hhigh : x < 2 * 4 ^ k) : approxSqrt x = 2 ^ k + (x - 4 ^ k) / (2 ^ k * 2) := by
  rw [approxSqrt_even hk hmsb hlow hhigh, Nat.div_div_eq_div_mul]

/-- The tangent at a power of four, rounded down, against the root. -/
theorem even_bounds {p d : ℕ} (hp : 0 < p) (hd : d < p * p) :
    p * p + d < (p + d / (p * 2) + 1) * (p + d / (p * 2) + 1) ∧
      8 * ((p + d / (p * 2)) * (p + d / (p * 2))) ≤ 9 * (p * p + d) ∧ d / (p * 2) < p := by
  have hpos : 0 < p * 2 := by omega
  have hlow : p * 2 * (d / (p * 2)) ≤ d := Nat.mul_div_le d (p * 2)
  have hhigh : d < p * 2 * (d / (p * 2) + 1) := Nat.lt_mul_div_succ d hpos
  generalize d / (p * 2) = q at hlow hhigh ⊢
  have hhalf : 2 * q < p := by
    by_contra hle
    have hsquare : p * p ≤ p * (2 * q) := Nat.mul_le_mul_left p (Nat.le_of_not_lt hle)
    have hsame : p * (2 * q) = p * 2 * q := (Nat.mul_assoc p 2 q).symm
    omega
  refine ⟨?_, ?_, by omega⟩
  · nlinarith only [hhigh]
  · have hq : 4 * (q * q) ≤ 2 * (p * q) := by nlinarith only [hhalf]
    have hp : 4 * (q * q) ≤ p * p := by nlinarith only [hhalf]
    nlinarith only [hlow, hq, hp]

/-- The tangent at the next power of four, rounded down, against the root. -/
theorem odd_bounds {p d : ℕ} (hp : 0 < p) (hd : d < 2 * (p * p)) :
    2 * (p * p) + d <
        (p + (p + d / (2 * p)) / 2 + 1) * (p + (p + d / (2 * p)) / 2 + 1) ∧
      8 * ((p + (p + d / (2 * p)) / 2) * (p + (p + d / (2 * p)) / 2)) ≤ 9 * (2 * (p * p) + d) ∧
      (p + d / (2 * p)) / 2 < p := by
  have hpos : 0 < 2 * p := by omega
  have hlow : 2 * p * (d / (2 * p)) ≤ d := Nat.mul_div_le d (2 * p)
  have hhigh : d < 2 * p * (d / (2 * p) + 1) := Nat.lt_mul_div_succ d hpos
  have hless : d / (2 * p) < p := Nat.div_lt_of_lt_mul (by rwa [Nat.mul_assoc])
  generalize d / (2 * p) = r at hlow hhigh hless ⊢
  obtain ⟨h, hh⟩ : ∃ h, h = (p + r) / 2 := ⟨_, rfl⟩
  rw [← hh]
  have hup : 2 * h ≤ p + r := by omega
  have hdown : p + r ≤ 2 * h + 1 := by omega
  refine ⟨?_, ?_, by omega⟩
  · -- Four times the square is at least (3p + r + 1)², and the rest is (p - (r + 1))².
    have hsquare : (3 * p + r + 1) * (3 * p + r + 1) ≤ (2 * (p + h + 1)) * (2 * (p + h + 1)) :=
      Nat.mul_le_mul (by omega) (by omega)
    obtain ⟨e, he⟩ : ∃ e, p = r + 1 + e := ⟨p - (r + 1), by omega⟩
    rw [he] at hsquare hhigh ⊢
    nlinarith only [hsquare, hhigh, Nat.zero_le (e * e)]
  · have hsquare : (2 * (p + h)) * (2 * (p + h)) ≤ (3 * p + r) * (3 * p + r) :=
      Nat.mul_le_mul (by omega) (by omega)
    have hr : r * r ≤ p * r := Nat.mul_le_mul_right r hless.le
    nlinarith only [hsquare, hlow, hr]

/-- The approximate root is at least the integer root, its square is at most nine eighths of
the argument, and it fits a word. -/
theorem approxSqrt_bounds (hword : x < 2 ^ 128) :
    Nat.sqrt x ≤ approxSqrt x ∧ 8 * approxSqrt x ^ 2 ≤ 9 * x ∧ approxSqrt x < 2 ^ 64 := by
  rcases Nat.eq_zero_or_pos x with rfl | hpos
  · exact ⟨Nat.le_of_eq rfl, Nat.le_of_eq rfl, by decide⟩
  have hfits : ∀ {k q : ℕ}, k < 64 → q < 2 ^ k → 2 ^ k + q < 2 ^ 64 := by
    intro k q hk hq
    have hle : 2 ^ (k + 1) ≤ 2 ^ 64 := Nat.pow_le_pow_right (by decide) hk
    rw [Nat.pow_succ] at hle
    omega
  obtain ⟨k, ⟨hmsb, hlow, hhigh⟩ | ⟨hmsb, hlow, hhigh⟩⟩ := findMsb_cases (Nat.ne_of_gt hpos)
  · have hk := exponent_lt hlow hword
    obtain ⟨d, rfl⟩ := Nat.exists_eq_add_of_le hlow
    rw [approxSqrt_even_eq hk hmsb hlow hhigh, Nat.add_sub_cancel_left]
    obtain ⟨hroot, hsquare, hsmall⟩ := even_bounds (p := 2 ^ k) (d := d) (Nat.pow_pos (by decide))
      (by rw [← four_pow]; omega)
    refine ⟨?_, ?_, hfits hk hsmall⟩
    · rw [← Nat.lt_succ_iff, Nat.sqrt_lt, four_pow]
      exact hroot
    · rw [Nat.pow_two, four_pow]
      exact hsquare
  · have hk := exponent_lt (by omega : 4 ^ k ≤ x) hword
    obtain ⟨d, rfl⟩ := Nat.exists_eq_add_of_le hlow
    rw [approxSqrt_odd hk hmsb hlow hhigh, Nat.add_sub_cancel_left]
    obtain ⟨hroot, hsquare, hsmall⟩ := odd_bounds (p := 2 ^ k) (d := d) (Nat.pow_pos (by decide))
      (by rw [← four_pow]; omega)
    refine ⟨?_, ?_, hfits hk hsmall⟩
    · rw [← Nat.lt_succ_iff, Nat.sqrt_lt, four_pow]
      exact hroot
    · rw [Nat.pow_two, four_pow]
      exact hsquare

end Bounds

section Words

/-- The lower word of a number of 128 bits. -/
def lowWord (u : ℕ) : ℕ := u % 2 ^ 64

/-- The upper word of a number of 128 bits. -/
def highWord (u : ℕ) : ℕ := u / 2 ^ 64

/-- `find_msb` on the two words. -/
def findMsbWords (u : ℕ) : ℕ :=
  let x := if lowWord u ≠ 0 then lowWord u else 1
  let places := if highWord u ≠ 0 then 64 else 0
  let x := if highWord u ≠ 0 then highWord u else x
  (Nat.log2 x + places) % 2 ^ 8

/-- `approx_sqrt` with the shifts and masks of the two words. -/
def approxSqrtWords (x : ℕ) : ℕ :=
  if lowWord x = 0 ∧ highWord x = 0 then 0
  else
    let msbX := findMsbWords x
    let msbZ := msbX >>> 1
    let msbXBit := (1 <<< msbX) % 2 ^ 128
    let msbZBit := (1 <<< msbZ) % 2 ^ 64
    let mantissaMask := msbXBit - 1
    let mantissaX := x &&& mantissaMask
    let mantissaZHi := if msbX &&& 1 ≠ 0 then msbZBit else 0
    let mantissaZLo := lowWord (mantissaX >>> (msbX - msbZ))
    let mantissaZ := (mantissaZHi ||| mantissaZLo) >>> 1
    msbZBit ||| mantissaZ

/-- The highest bit of a 128-bit number is one of 128. -/
theorem findMsb_lt (hx : x ≠ 0) (hword : x < 2 ^ 128) : findMsb x < 128 :=
  (Nat.log2_lt hx).mpr hword

/-- The search in two words finds the highest bit. -/
theorem findMsbWords_eq (hx : x ≠ 0) (hword : x < 2 ^ 128) : findMsbWords x = findMsb x := by
  have hmsb := findMsb_lt hx hword
  have hbyte : findMsb x % 2 ^ 8 = findMsb x := Nat.mod_eq_of_lt (by omega)
  unfold findMsbWords
  by_cases hhigh : highWord x = 0
  · have hlow : lowWord x = x := by
      unfold lowWord highWord at *
      omega
    simp only [hlow, hhigh, hx, ne_eq, not_true, not_false_iff, if_true, if_false, Nat.add_zero]
    exact hbyte
  · have hlog : Nat.log2 (highWord x) + 64 = findMsb x := by
      refine ((Nat.log2_eq_iff hx).mpr ⟨?_, ?_⟩).symm
      · rw [Nat.pow_add]
        exact (Nat.le_div_iff_mul_le (by decide)).mp (Nat.log2_self_le hhigh)
      · rw [Nat.add_right_comm, Nat.pow_add]
        exact (Nat.div_lt_iff_lt_mul (by decide)).mp Nat.lt_log2_self
    simp only [hhigh, ne_eq, not_false_iff, if_true, hlog]
    exact hbyte

/-- The shifts and masks compute the approximate root. -/
theorem approxSqrtWords_eq (hword : x < 2 ^ 128) : approxSqrtWords x = approxSqrt x := by
  by_cases hx : x = 0
  · rw [hx]
    rfl
  have hsplit : ¬ (lowWord x = 0 ∧ highWord x = 0) := by
    unfold lowWord highWord
    omega
  have hmsb := findMsb_lt hx hword
  have hxbit : 2 ^ findMsb x % 2 ^ 128 = 2 ^ findMsb x :=
    Nat.mod_eq_of_lt (Nat.pow_lt_pow_right (by decide) hmsb)
  have hzbit : 2 ^ (findMsb x / 2) % 2 ^ 64 = 2 ^ (findMsb x / 2) :=
    Nat.mod_eq_of_lt (Nat.pow_lt_pow_right (by decide) (by omega))
  have hodd : (findMsb x &&& 1 ≠ 0) ↔ findMsb x % 2 = 1 := by
    rw [Nat.and_one_is_mod]
    omega
  unfold approxSqrtWords approxSqrt
  rw [if_neg hsplit, if_neg hx]
  simp only [findMsbWords_eq hx hword, Nat.shiftRight_eq_div_pow, Nat.shiftLeft_eq, Nat.one_mul,
    Nat.pow_one, hxbit, hzbit, Nat.and_two_pow_sub_one_eq_mod, hodd, lowWord]

end Words

section Documented

/-- `to_log` of the document; a negative shift is an error. -/
def toLog (x wordsize ebits : ℕ) : Option ℕ :=
  if x ≤ 1 then some x
  else
    let mantissaBits := wordsize - ebits
    let mantissaMask := 1 <<< mantissaBits - 1
    let msb := Nat.log2 x
    if mantissaBits < msb then none
    else
      let mantissaShift := mantissaBits - msb
      some ((msb <<< mantissaBits) ||| ((x <<< mantissaShift) &&& mantissaMask))

/-- `from_log` of the document; a negative shift is an error. -/
def fromLog (y wordsize ebits : ℕ) : Option ℕ :=
  if y ≤ 1 then some y
  else
    let mantissaBits := wordsize - ebits
    let leading := 1 <<< mantissaBits
    let mantissaMask := leading - 1
    let msb := y >>> mantissaBits
    if mantissaBits < msb then none
    else
      let mantissaShift := mantissaBits - msb
      some ((leading ||| (y &&& mantissaMask)) >>> mantissaShift)

/-- `from_log(to_log(x) >> 1)` -/
def halvedLog (x wordsize ebits : ℕ) : Option ℕ :=
  (toLog x wordsize ebits).bind fun y => fromLog (y >>> 1) wordsize ebits

/-- The logarithm of a number with enough bits for the mantissa. -/
theorem toLog_eq {wordsize ebits : ℕ} (hx : 1 < x) (hbits : findMsb x ≤ wordsize - ebits) :
    toLog x wordsize ebits = some (findMsb x * 2 ^ (wordsize - ebits) +
      x % 2 ^ findMsb x * 2 ^ (wordsize - ebits - findMsb x)) := by
  have hsplit : 2 ^ (wordsize - ebits) =
      2 ^ findMsb x * 2 ^ (wordsize - ebits - findMsb x) := by
    rw [← Nat.pow_add, Nat.add_sub_cancel' hbits]
  have hmantissa : x * 2 ^ (wordsize - ebits - findMsb x) % 2 ^ (wordsize - ebits) =
      x % 2 ^ findMsb x * 2 ^ (wordsize - ebits - findMsb x) := by
    rw [hsplit, Nat.mul_mod_mul_right]
  have hsmall : x % 2 ^ findMsb x * 2 ^ (wordsize - ebits - findMsb x) < 2 ^ (wordsize - ebits) := by
    rw [← hmantissa]
    exact Nat.mod_lt _ (Nat.pow_pos (by decide))
  have hmsb : Nat.log2 x = findMsb x := rfl
  unfold toLog
  rw [if_neg (Nat.not_le.mpr hx)]
  simp only [hmsb, if_neg (Nat.not_lt.mpr hbits), Nat.shiftLeft_eq, Nat.one_mul,
    Nat.and_two_pow_sub_one_eq_mod, hmantissa]
  rw [Nat.mul_comm (findMsb x), ← Nat.two_pow_add_eq_or_of_lt hsmall]

/-- The number of a logarithm. -/
theorem fromLog_eq {y wordsize ebits : ℕ} (hy : 1 < y)
    (hbits : y / 2 ^ (wordsize - ebits) ≤ wordsize - ebits) :
    fromLog y wordsize ebits = some ((2 ^ (wordsize - ebits) + y % 2 ^ (wordsize - ebits)) /
      2 ^ (wordsize - ebits - y / 2 ^ (wordsize - ebits))) := by
  have hsmall : y % 2 ^ (wordsize - ebits) < 2 ^ (wordsize - ebits) :=
    Nat.mod_lt _ (Nat.pow_pos (by decide))
  unfold fromLog
  rw [if_neg (Nat.not_le.mpr hy)]
  simp only [Nat.shiftRight_eq_div_pow, Nat.shiftLeft_eq, Nat.one_mul,
    Nat.and_two_pow_sub_one_eq_mod, if_neg (Nat.not_lt.mpr hbits), join_bits hsmall]

/-- The approximate root, with the mantissa as one number. -/
theorem approxSqrt_mantissa (hx : x ≠ 0) (hword : x < 2 ^ 128) :
    approxSqrt x = 2 ^ (findMsb x / 2) +
      ((if findMsb x % 2 = 1 then 2 ^ (findMsb x / 2) else 0) +
        x % 2 ^ findMsb x / 2 ^ (findMsb x - findMsb x / 2)) / 2 := by
  obtain ⟨k, ⟨hmsb, hlow, hhigh⟩ | ⟨hmsb, hlow, hhigh⟩⟩ := findMsb_cases hx
  · have hk := exponent_lt hlow hword
    have hpow : 2 ^ (2 * k) = 4 ^ k := Nat.pow_mul 2 2 k
    have hmantissa : x % 4 ^ k = x - 4 ^ k := by
      rw [Nat.mod_eq_sub_mod hlow, Nat.mod_eq_of_lt (by omega)]
    have hhalf : 2 * k / 2 = k := by omega
    have hrest : 2 * k - k = k := by omega
    rw [approxSqrt_even hk hmsb hlow hhigh, hmsb, hhalf, hrest, if_neg (by omega), hpow,
      hmantissa, Nat.zero_add]
  · have hk := exponent_lt (by omega : 4 ^ k ≤ x) hword
    have hpow : 2 ^ (2 * k + 1) = 2 * 4 ^ k := by
      rw [Nat.pow_succ, Nat.pow_mul, Nat.mul_comm]
    have hmantissa : x % (2 * 4 ^ k) = x - 2 * 4 ^ k := by
      rw [Nat.mod_eq_sub_mod hlow, Nat.mod_eq_of_lt (by omega)]
    have hhalf : (2 * k + 1) / 2 = k := by omega
    have hrest : 2 * k + 1 - k = k + 1 := by omega
    rw [approxSqrt_odd hk hmsb hlow hhigh, hmsb, hhalf, hrest, if_pos (by omega), hpow,
      hmantissa, Nat.pow_succ']

/-- A logarithm with the parity of its exponent moved to the mantissa. -/
theorem half_log (msb : ℕ) {B M : ℕ} (hM : M < B) :
    (msb * B + M) / 2 / B = msb / 2 ∧
      (msb * B + M) / 2 % B = ((if msb % 2 = 1 then B else 0) + M) / 2 := by
  have hB : 0 < B := Nat.zero_lt_of_lt hM
  have hsplit : (msb * B + M) / 2 =
      msb / 2 * B + ((if msb % 2 = 1 then B else 0) + M) / 2 := by
    have hmsb : msb * B = msb / 2 * B * 2 + if msb % 2 = 1 then B else 0 := by
      rcases Nat.mod_two_eq_zero_or_one msb with hmod | hmod
      · have heven : msb = msb / 2 * 2 := by omega
        rw [if_neg (by omega), Nat.add_zero, Nat.mul_right_comm, ← heven]
      · have hodd : msb = msb / 2 * 2 + 1 := by omega
        rw [if_pos hmod, Nat.mul_right_comm, ← Nat.succ_mul, Nat.succ_eq_add_one, ← hodd]
    rw [hmsb]
    omega
  have hsmall : ((if msb % 2 = 1 then B else 0) + M) / 2 < B := by
    split <;> omega
  rw [hsplit]
  constructor
  · rw [Nat.add_comm, Nat.add_mul_div_right _ _ hB, Nat.div_eq_of_lt hsmall, Nat.zero_add]
  · rw [Nat.add_comm, Nat.add_mul_mod_self_right, Nat.mod_eq_of_lt hsmall]

/-- The bits below the leading one are those of the mantissa, shifted once. -/
theorem shifted_mantissa {bits msb k m : ℕ} {odd : Prop} [Decidable odd] (hbits : msb ≤ bits)
    (hk : k ≤ msb) :
    (2 ^ bits + ((if odd then 2 ^ bits else 0) + m * 2 ^ (bits - msb)) / 2) / 2 ^ (bits - k) =
      2 ^ k + ((if odd then 2 ^ k else 0) + m / 2 ^ (msb - k)) / 2 := by
  have hpos : 0 < 2 ^ (bits - k) := Nat.pow_pos (by decide)
  have hlead : 2 ^ bits = 2 ^ k * 2 ^ (bits - k) := by
    rw [← Nat.pow_add, Nat.add_sub_cancel' (hk.trans hbits)]
  have hshift : 2 ^ (bits - k) = 2 ^ (msb - k) * 2 ^ (bits - msb) := by
    rw [← Nat.pow_add]
    exact congrArg (2 ^ ·) (by omega)
  have hlow : m * 2 ^ (bits - msb) / 2 ^ (bits - k) = m / 2 ^ (msb - k) := by
    rw [hshift, Nat.mul_div_mul_right _ _ (Nat.pow_pos (by decide))]
  rw [hlead, Nat.add_comm, Nat.add_mul_div_right _ _ hpos, Nat.add_comm, Nat.div_div_eq_div_mul,
    Nat.mul_comm 2, ← Nat.div_div_eq_div_mul]
  refine congrArg (fun rest => 2 ^ k + rest / 2) ?_
  split
  · rw [Nat.add_comm, Nat.add_mul_div_right _ _ hpos, hlow, Nat.add_comm]
  · rw [Nat.zero_add, Nat.zero_add, hlow]

/-- Half of the logarithm gives the approximate root. -/
theorem halvedLog_eq {wordsize ebits : ℕ} (hx : x ≠ 1) (hword : x < 2 ^ 128)
    (hbits : findMsb x ≤ wordsize - ebits) : halvedLog x wordsize ebits = some (approxSqrt x) := by
  by_cases hzero : x = 0
  · rw [hzero]
    rfl
  have hgt : 1 < x := by omega
  have hmsb : 1 ≤ findMsb x := (Nat.le_log2 hzero).mpr (by omega)
  have hsplit : 2 ^ (wordsize - ebits) =
      2 ^ findMsb x * 2 ^ (wordsize - ebits - findMsb x) := by
    rw [← Nat.pow_add, Nat.add_sub_cancel' hbits]
  have hsmall : x % 2 ^ findMsb x * 2 ^ (wordsize - ebits - findMsb x) < 2 ^ (wordsize - ebits) := by
    rw [hsplit]
    exact Nat.mul_lt_mul_of_pos_right (Nat.mod_lt _ (Nat.pow_pos (by decide)))
      (Nat.pow_pos (by decide))
  obtain ⟨hexponent, hmantissa⟩ := half_log (findMsb x) hsmall
  have hroot := approxSqrt_mantissa hzero hword
  unfold halvedLog
  rw [toLog_eq hgt hbits, Option.bind_some, Nat.shiftRight_eq_div_pow, Nat.pow_one]
  by_cases hlast : 1 < (findMsb x * 2 ^ (wordsize - ebits) +
      x % 2 ^ findMsb x * 2 ^ (wordsize - ebits - findMsb x)) / 2
  · rw [fromLog_eq hlast (by rw [hexponent]; omega), hexponent, hmantissa, hroot,
      shifted_mantissa hbits (by omega)]
  · -- The logarithm is 2 or 3: one bit for the mantissa, and the argument is 2 or 3.
    have hle : findMsb x * 2 ^ (wordsize - ebits) ≤ 3 := by omega
    have hbits' : wordsize - ebits < 2 := by
      by_contra hge
      have hpow : 2 ^ 2 ≤ 2 ^ (wordsize - ebits) := Nat.pow_le_pow_right (by decide) (by omega)
      have hmul : 1 * 2 ^ 2 ≤ findMsb x * 2 ^ (wordsize - ebits) := Nat.mul_le_mul hmsb hpow
      omega
    have hone : wordsize - ebits = 1 := by omega
    have hlog : findMsb x = 1 := by omega
    have hhigh : x < 2 ^ (findMsb x + 1) := Nat.lt_log2_self
    rw [hlog] at hhigh
    rw [hone, hlog]
    have hcases : x = 2 ∨ x = 3 := by omega
    rcases hcases with rfl | rfl
    · rfl
    · rfl

end Documented

section Correctness

/-- The approximate square root is at least the integer square root, its square is at most nine
eighths of the argument, it grows with the argument and fits a word; except at one, it is
what the halved logarithm gives when the mantissa has enough bits. -/
theorem approx_sqrt_correct (x : ℕ) (hx : x < 2 ^ 128) :
    Nat.sqrt x ≤ approxSqrtWords x ∧ 8 * approxSqrtWords x ^ 2 ≤ 9 * x ∧
      (∀ y, x ≤ y → y < 2 ^ 128 → approxSqrtWords x ≤ approxSqrtWords y) ∧
      approxSqrtWords x < 2 ^ 64 ∧
      ∀ wordsize ebits, x ≠ 1 → Nat.log2 x ≤ wordsize - ebits →
        halvedLog x wordsize ebits = some (approxSqrtWords x) := by
  obtain ⟨hroot, hsquare, hfits⟩ := approxSqrt_bounds hx
  rw [approxSqrtWords_eq hx]
  refine ⟨hroot, hsquare, fun y hxy hy => ?_, hfits, fun _ _ hne hbits =>
    halvedLog_eq hne hx hbits⟩
  rw [approxSqrtWords_eq hy]
  exact approxSqrt_mono hxy hy

/-- The facts about the approximation, at eight. -/
theorem approx_sqrt_correct_eight : Nat.sqrt 8 ≤ approxSqrtWords 8 ∧
    approxSqrtWords 8 ≤ approxSqrtWords 9 ∧ halvedLog 8 32 5 = some (approxSqrtWords 8) := by
  obtain ⟨hroot, -, hmono, -, hlog⟩ := approx_sqrt_correct 8 (by decide)
  exact ⟨hroot, hmono 9 (by decide) (by decide), hlog 32 5 (by decide) (by decide)⟩

/-- With any number of bits the halved logarithm of one is not the root of one. -/
theorem halved_log_of_one :
    ¬ ∃ wordsize ebits, halvedLog 1 wordsize ebits = some (approxSqrtWords 1) := by
  rintro ⟨wordsize, ebits, heq⟩
  have hlog : halvedLog 1 wordsize ebits = some 0 := rfl
  have hroot : approxSqrtWords 1 = 1 := by decide
  rw [hlog, hroot] at heq
  exact absurd (Option.some.inj heq) (by decide)

end Correctness

end Whaleshares.ApproxSqrt
