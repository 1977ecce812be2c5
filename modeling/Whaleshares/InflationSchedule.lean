import Mathlib
import Whaleshares.Rewards

/-!
# The inflation rate over the years

`get_current_inflation_rate`: within a year the rate falls along a line, in steps of whole
units, from the rate that the year starts with towards half of it; the next year starts
with that half. A floor ends the fall, and from the ninth year on only the floor keeps the
line from starting over.
-/

namespace Whaleshares.InflationSchedule

open Config Rewards

/-- The rate that a year starts with. -/
def startRate (year : ℕ) : ℕ := wlsInflationRateStartPercent / 2 ^ year

/-- The line of a year, `block` blocks into it. -/
def lineRate (year block : ℕ) : ℤ :=
  startRate year -
    (block * (startRate year - startRate year / 2) / wlsBlocksPerYear : ℕ)

/-- The rate is the line of the year, or the floor. -/
theorem getCurrentInflationRate_eq (n : ℕ) :
    getCurrentInflationRate n =
      max (lineRate (min (n / wlsBlocksPerYear) 8) (n % wlsBlocksPerYear))
        wlsInflationRateStopPercent :=
  rfl

/-- A year starts with half of what the year before started with. -/
theorem startRate_succ (year : ℕ) : startRate (year + 1) = startRate year / 2 := by
  rw [startRate, startRate, Nat.pow_succ, Nat.div_div_eq_div_mul]

/-- Later years start lower. -/
theorem startRate_antitone : Antitone startRate := by
  intro a b hab
  exact Nat.div_le_div_left (Nat.pow_le_pow_right (by decide) hab) (Nat.pow_pos (by decide))

/-- A line falls. -/
theorem lineRate_antitone (year : ℕ) : Antitone (lineRate year) := by
  intro a b hab
  have hstep : a * (startRate year - startRate year / 2) / wlsBlocksPerYear ≤
      b * (startRate year - startRate year / 2) / wlsBlocksPerYear :=
    Nat.div_le_div_right (Nat.mul_le_mul_right _ hab)
  unfold lineRate
  omega

/-- A line starts with the rate of its year. -/
theorem lineRate_le (year block : ℕ) : lineRate year block ≤ startRate year :=
  Int.sub_le_self _ (Int.natCast_nonneg _)

/-- Within its year a line does not fall below the rate of the next one. -/
theorem startRate_succ_le_lineRate {year block : ℕ} (h : block ≤ wlsBlocksPerYear) :
    (startRate (year + 1) : ℤ) ≤ lineRate year block := by
  have hmost : block * (startRate year - startRate year / 2) / wlsBlocksPerYear ≤
      startRate year - startRate year / 2 := by
    have hscaled : block * (startRate year - startRate year / 2) ≤
        wlsBlocksPerYear * (startRate year - startRate year / 2) := Nat.mul_le_mul_right _ h
    exact Nat.div_le_of_le_mul hscaled
  rw [startRate_succ]
  unfold lineRate
  omega

/-- From the sixth year on no line reaches the floor. -/
theorem lineRate_late {year : ℕ} (h : 5 ≤ year) (block : ℕ) :
    lineRate year block ≤ wlsInflationRateStopPercent := by
  have hstart : startRate year ≤ startRate 5 := startRate_antitone h
  have hfive : startRate 5 ≤ wlsInflationRateStopPercent := by decide
  have hline := lineRate_le year block
  omega

/-- The rate never rises from a block to a later one, and it stays between its floor and
the rate it starts with. -/
theorem getCurrentInflationRate_antitone :
    Antitone getCurrentInflationRate ∧
      ∀ n, (wlsInflationRateStopPercent : ℤ) ≤ getCurrentInflationRate n ∧
        getCurrentInflationRate n ≤ wlsInflationRateStartPercent := by
  constructor
  · intro n m hnm
    rw [getCurrentInflationRate_eq, getCurrentInflationRate_eq]
    have hyears : n / wlsBlocksPerYear ≤ m / wlsBlocksPerYear := Nat.div_le_div_right hnm
    by_cases hlate : 5 ≤ m / wlsBlocksPerYear
    · have hlast : 5 ≤ min (m / wlsBlocksPerYear) 8 := by omega
      have hfloor := lineRate_late hlast (m % wlsBlocksPerYear)
      rw [max_eq_right hfloor]
      exact le_max_right _ _
    · have hm : min (m / wlsBlocksPerYear) 8 = m / wlsBlocksPerYear := by omega
      have hn : min (n / wlsBlocksPerYear) 8 = n / wlsBlocksPerYear := by omega
      rw [hm, hn]
      refine max_le_max ?_ (le_refl _)
      have hpos : 0 < wlsBlocksPerYear := by decide
      obtain hsame | hlater := Nat.eq_or_lt_of_le hyears
      -- the same year: the same line, further down
      · have hblock : n % wlsBlocksPerYear ≤ m % wlsBlocksPerYear := by
          have hn' := Nat.div_add_mod n wlsBlocksPerYear
          have hm' := Nat.div_add_mod m wlsBlocksPerYear
          rw [hsame] at hn'
          omega
        rw [hsame]
        exact lineRate_antitone _ hblock
      -- a later year starts no higher than the earlier one ended
      · calc lineRate (m / wlsBlocksPerYear) (m % wlsBlocksPerYear)
            ≤ startRate (m / wlsBlocksPerYear) := lineRate_le _ _
          _ ≤ startRate (n / wlsBlocksPerYear + 1) := by
              exact_mod_cast startRate_antitone hlater
          _ ≤ lineRate (n / wlsBlocksPerYear) (n % wlsBlocksPerYear) :=
              startRate_succ_le_lineRate (Nat.mod_lt n hpos).le
  · intro n
    rw [getCurrentInflationRate_eq]
    refine ⟨le_max_right _ _, max_le ?_ (by decide)⟩
    have hline := lineRate_le (min (n / wlsBlocksPerYear) 8) (n % wlsBlocksPerYear)
    have hstart : startRate (min (n / wlsBlocksPerYear) 8) ≤ startRate 0 :=
      startRate_antitone (Nat.zero_le _)
    have hzero : startRate 0 = wlsInflationRateStartPercent := rfl
    omega

end Whaleshares.InflationSchedule
