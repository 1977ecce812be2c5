import Mathlib

/-!
# Pools of shares

A pool holds a fund, and shares of it are outstanding. Who deposits gets shares at the current
price, who redeems shares gets their value, and both are rounded down. So the value of a share
never falls, and a deposit that is redeemed at once returns at most what was deposited.
-/

namespace Whaleshares.SharePool

/-- A fund and the shares of it. -/
structure Pool where
  /-- What the pool holds. -/
  fund : ℤ
  /-- The shares that are outstanding. -/
  shares : ℤ
  deriving DecidableEq

namespace Pool

/-- The shares that a deposit buys. -/
def sharesFor (p : Pool) (amount : ℤ) : ℤ := amount * p.shares / p.fund

/-- The value of some shares. -/
def valueOf (p : Pool) (shares : ℤ) : ℤ := shares * p.fund / p.shares

/-- The pool after a deposit. -/
def deposit (p : Pool) (amount : ℤ) : Pool := ⟨p.fund + amount, p.shares + p.sharesFor amount⟩

/-- The pool after shares were redeemed. -/
def redeem (p : Pool) (shares : ℤ) : Pool := ⟨p.fund - p.valueOf shares, p.shares - shares⟩

/-- A share of the second pool is worth at least as much as one of the first, as fractions with
the denominators cleared. -/
def Appreciates (p q : Pool) : Prop := p.fund * q.shares ≤ q.fund * p.shares

variable {p q r : Pool} {amount shares : ℤ}

/-- A pool appreciates against itself. -/
theorem Appreciates.refl (p : Pool) : p.Appreciates p := le_refl _

/-- Worth compares through a pool that has shares. -/
theorem Appreciates.trans (hpq : p.Appreciates q) (hqr : q.Appreciates r) (hq : 0 < q.shares)
    (hp : 0 ≤ p.shares) (hr : 0 ≤ r.shares) : p.Appreciates r := by
  unfold Appreciates at *
  have hfirst : p.fund * q.shares * r.shares ≤ q.fund * p.shares * r.shares :=
    mul_le_mul_of_nonneg_right hpq hr
  have hsecond : q.fund * r.shares * p.shares ≤ r.fund * q.shares * p.shares :=
    mul_le_mul_of_nonneg_right hqr hp
  have hboth : p.fund * r.shares * q.shares ≤ r.fund * p.shares * q.shares := by linarith
  exact le_of_mul_le_mul_right hboth hq

/-- The shares that a deposit buys are at most its exact part of the pool. -/
theorem sharesFor_mul_le (amount : ℤ) (hfund : 0 < p.fund) : p.sharesFor amount * p.fund ≤ amount * p.shares :=
  Int.ediv_mul_le _ hfund.ne'

/-- The value of shares is at most their exact part of the fund. -/
theorem valueOf_mul_le (p : Pool) (shares : ℤ) (hshares : 0 < p.shares) :
    p.valueOf shares * p.shares ≤ shares * p.fund :=
  Int.ediv_mul_le _ hshares.ne'

/-- A deposit that is not negative gets no negative shares. -/
theorem sharesFor_nonneg (hfund : 0 < p.fund) (hshares : 0 ≤ p.shares) (hamount : 0 ≤ amount) :
    0 ≤ p.sharesFor amount :=
  Int.ediv_nonneg (mul_nonneg hamount hshares) hfund.le

/-- A deposit lets the pool appreciate. -/
theorem deposit_appreciates (hfund : 0 < p.fund) : p.Appreciates (p.deposit amount) := by
  have hbought := sharesFor_mul_le amount hfund
  unfold Appreciates deposit
  linarith

/-- A redemption lets the pool appreciate. -/
theorem redeem_appreciates (hshares : 0 < p.shares) : p.Appreciates (p.redeem shares) := by
  have hpaid := valueOf_mul_le p shares hshares
  unfold Appreciates redeem
  linarith

/-- While shares remain, so does a part of the fund. -/
theorem redeem_fund_pos (hfund : 0 < p.fund) (hremain : 0 < (p.redeem shares).shares)
    (hnonneg : 0 ≤ shares) : 0 < (p.redeem shares).fund := by
  change 0 < p.shares - shares at hremain
  have hpaid := valueOf_mul_le p shares (by omega)
  have hpart : shares * p.fund < p.shares * p.fund := mul_lt_mul_of_pos_right (by omega) hfund
  have hless : p.valueOf shares * p.shares < p.fund * p.shares := by linarith
  have hvalue : p.valueOf shares < p.fund := lt_of_mul_lt_mul_right hless (by omega)
  change 0 < p.fund - p.valueOf shares
  omega

/-- A deposit that is redeemed at once returns at most what was deposited. -/
theorem round_trip_le (hfund : 0 < p.fund) (hshares : 0 < p.shares) (hamount : 0 ≤ amount) :
    (p.deposit amount).valueOf (p.sharesFor amount) ≤ amount := by
  have hbought := sharesFor_mul_le amount hfund
  have hnonneg := sharesFor_nonneg hfund hshares.le hamount
  have hafter : 0 < (p.deposit amount).shares := by
    change 0 < p.shares + p.sharesFor amount
    omega
  refine Int.ediv_le_of_le_mul hafter ?_
  change p.sharesFor amount * (p.fund + amount) ≤ amount * (p.shares + p.sharesFor amount)
  linarith

end Pool

end Whaleshares.SharePool
