import Mathlib
import Whaleshares.Database

/-!
# The books of the chain

The amounts that a state holds: those of each account, those of the reward funds and
the totals of the global properties, and the conditions under which they agree.
Everything else in a state is of no account here.
-/

namespace Whaleshares.Ledger

open Fc Objects

/-- What an account holds. -/
structure Purse where
  id : ℕ
  name : AccountName
  balance : ℤ
  rewardSteemBalance : ℤ
  rewardVestingBalance : ℤ
  rewardVestingSteem : ℤ
  vestingShares : ℤ

/-- The purse of an account. -/
def purse (a : AccountObject) : Purse :=
  ⟨a.id, a.name, a.balance, a.rewardSteemBalance, a.rewardVestingBalance, a.rewardVestingSteem,
    a.vestingShares⟩

/-- The totals of the global properties. -/
structure Totals where
  currentSupply : ℤ
  totalVestingFundSteem : ℤ
  totalVestingShares : ℤ
  totalRewardFundSteem : ℤ
  pendingRewardedVestingShares : ℤ
  pendingRewardedVestingSteem : ℤ

/-- The totals in the global properties. -/
def totals (dgp : DynamicGlobalPropertyObject) : Totals :=
  ⟨dgp.currentSupply, dgp.totalVestingFundSteem, dgp.totalVestingShares, dgp.totalRewardFundSteem,
    dgp.pendingRewardedVestingShares, dgp.pendingRewardedVestingSteem⟩

/-- The books: purses, reward funds and totals. -/
structure Books where
  purses : List Purse
  funds : List ℤ
  totals : Totals

/-- The books of a state. -/
def books (s : ChainState) : Books :=
  ⟨s.accounts.rows.map purse, s.rewardFunds.rows.map (·.rewardBalance), totals s.dgp⟩

section Balance

/-- The sum of an amount over all purses. -/
def Books.sum (b : Books) (amount : Purse → ℤ) : ℤ := (b.purses.map amount).sum

/-- A purse holds no negative amount of shares or of tokens behind claimable shares,
and what is claimable has 63 bits. -/
structure Purse.Sound (p : Purse) : Prop where
  vestingShares : 0 ≤ p.vestingShares
  rewardVestingBalance : 0 ≤ p.rewardVestingBalance
  rewardVestingBalance_lt : p.rewardVestingBalance < 2 ^ 63
  rewardVestingSteem : 0 ≤ p.rewardVestingSteem
  rewardVestingSteem_lt : p.rewardVestingSteem < 2 ^ 63

/-- The books are sound and agree up to a number of tokens in excess of what is held
somewhere and a number of shares in excess of what the accounts hold. -/
structure Balanced (tokens shares : ℤ) (b : Books) : Prop where
  currentSupply : b.totals.currentSupply = b.sum (·.balance) + b.sum (·.rewardSteemBalance) +
    b.funds.sum + b.totals.totalVestingFundSteem + b.totals.totalRewardFundSteem +
    b.totals.pendingRewardedVestingSteem + tokens
  totalVestingShares : b.totals.totalVestingShares = b.sum (·.vestingShares) + shares
  pendingShares : b.totals.pendingRewardedVestingShares = b.sum (·.rewardVestingBalance)
  pendingSteem : b.totals.pendingRewardedVestingSteem = b.sum (·.rewardVestingSteem)
  sound : ∀ p ∈ b.purses, p.Sound
  shares_lt : b.totals.totalVestingShares < 2 ^ 63
  fund_lt : b.totals.totalVestingFundSteem < 2 ^ 63

/-- One purse of a list is replaced. -/
def Replaces (purses : List Purse) (x y : Purse) (purses' : List Purse) : Prop :=
  ∃ before after, purses = before ++ x :: after ∧ purses' = before ++ y :: after

/-- The purse of a name. -/
def Holds (purses : List Purse) (name : AccountName) (p : Purse) : Prop :=
  purses.find? (fun q => q.name = name) = some p

variable {purses purses' : List Purse} {x y p q : Purse} {name : AccountName}

/-- The replaced purse was among the purses. -/
theorem Replaces.mem (h : Replaces purses x y purses') : x ∈ purses := by
  obtain ⟨before, after, hp, -⟩ := h
  rw [hp]
  exact List.mem_append_right _ List.mem_cons_self

/-- A replaced purse changes a sum by the difference. -/
theorem Replaces.sum (h : Replaces purses x y purses') (amount : Purse → ℤ) :
    (purses'.map amount).sum = (purses.map amount).sum - amount x + amount y := by
  obtain ⟨before, after, hp, hp'⟩ := h
  rw [hp, hp']
  simp only [List.map_append, List.map_cons, List.sum_append, List.sum_cons]
  omega

/-- A sound purse for a sound one keeps all purses sound. -/
theorem Replaces.sound (h : Replaces purses x y purses') (hall : ∀ p ∈ purses, p.Sound)
    (hy : y.Sound) : ∀ p ∈ purses', p.Sound := by
  obtain ⟨before, after, hp, hp'⟩ := h
  intro p hmem
  rw [hp'] at hmem
  rw [hp] at hall
  rcases List.mem_append.mp hmem with hb | ha
  · exact hall p (List.mem_append_left _ hb)
  · rcases List.mem_cons.mp ha with heq | ha
    · rwa [heq]
    · exact hall p (List.mem_append_right _ (List.mem_cons_of_mem _ ha))

/-- The purse that is held is among the purses. -/
theorem Holds.mem (h : Holds purses name p) : p ∈ purses := List.mem_of_find?_eq_some h

/-- Under one name only one purse is held. -/
theorem Holds.unique (hp : Holds purses name p) (hq : Holds purses name q) : p = q :=
  Option.some.inj (hp.symm.trans hq)

/-- A replacement that keeps the name keeps the purse of every name, up to itself. -/
theorem Holds.replaced (hp : Holds purses name p) (h : Replaces purses x y purses')
    (hname : y.name = x.name) :
    Holds purses' name p ∨ (p = x ∧ Holds purses' name y) := by
  obtain ⟨before, after, hpurses, hpurses'⟩ := h
  unfold Holds at *
  rw [hpurses, List.find?_append] at hp
  rw [hpurses', List.find?_append]
  cases hbefore : before.find? (fun q => q.name = name) with
  | some r =>
    rw [hbefore] at hp
    exact .inl hp
  | none =>
    rw [hbefore, Option.none_or] at hp
    rw [Option.none_or]
    by_cases hx : x.name = name
    · rw [List.find?_cons_of_pos (by simpa using hx)] at hp
      rw [List.find?_cons_of_pos (by simpa [hname] using hx)]
      exact .inr ⟨(Option.some.inj hp).symm, rfl⟩
    · rw [List.find?_cons_of_neg (by simpa using hx)] at hp
      rw [List.find?_cons_of_neg (by simpa [hname] using hx)]
      exact .inl hp

/-- The balance after the change of one purse and of the totals. -/
theorem Balanced.change {tokens shares tokens' shares' : ℤ} {b : Books} (b' : Books)
    (h : Balanced tokens shares b) (hpurses : Replaces b.purses x y b'.purses)
    (hfunds : b'.funds = b.funds) (hy : y.Sound)
    (htokens : tokens' = tokens + (b'.totals.currentSupply - b.totals.currentSupply) -
      (y.balance - x.balance) - (y.rewardSteemBalance - x.rewardSteemBalance) -
      (b'.totals.totalVestingFundSteem - b.totals.totalVestingFundSteem) -
      (b'.totals.totalRewardFundSteem - b.totals.totalRewardFundSteem) -
      (b'.totals.pendingRewardedVestingSteem - b.totals.pendingRewardedVestingSteem))
    (hshares : shares' = shares + (b'.totals.totalVestingShares - b.totals.totalVestingShares) -
      (y.vestingShares - x.vestingShares))
    (hpendingShares : b'.totals.pendingRewardedVestingShares =
      b.totals.pendingRewardedVestingShares + (y.rewardVestingBalance - x.rewardVestingBalance))
    (hpendingSteem : b'.totals.pendingRewardedVestingSteem =
      b.totals.pendingRewardedVestingSteem + (y.rewardVestingSteem - x.rewardVestingSteem))
    (hlt : b'.totals.totalVestingShares < 2 ^ 63) (hfund : b'.totals.totalVestingFundSteem < 2 ^ 63) :
    Balanced tokens' shares' b' := by
  have hsum : ∀ amount : Purse → ℤ, b'.sum amount = b.sum amount - amount x + amount y :=
    hpurses.sum
  have hsupply := h.currentSupply
  have htotal := h.totalVestingShares
  have hps := h.pendingShares
  have hpt := h.pendingSteem
  constructor
  · rw [hsum, hsum, hfunds]
    omega
  · rw [hsum]
    omega
  · rw [hsum]
    omega
  · rw [hsum]
    omega
  · exact hpurses.sound h.sound hy
  · exact hlt
  · exact hfund

/-- The balance after a change of the totals that keeps the claimable ones. -/
theorem Balanced.retotal {tokens shares tokens' shares' : ℤ} {b : Books} {t : Totals}
    (h : Balanced tokens shares b)
    (htokens : tokens' = tokens + (t.currentSupply - b.totals.currentSupply) -
      (t.totalVestingFundSteem - b.totals.totalVestingFundSteem))
    (hshares : shares' = shares + (t.totalVestingShares - b.totals.totalVestingShares))
    (hreward : t.totalRewardFundSteem = b.totals.totalRewardFundSteem)
    (hpendingShares : t.pendingRewardedVestingShares = b.totals.pendingRewardedVestingShares)
    (hpendingSteem : t.pendingRewardedVestingSteem = b.totals.pendingRewardedVestingSteem)
    (hlt : t.totalVestingShares < 2 ^ 63) (hfund : t.totalVestingFundSteem < 2 ^ 63) :
    Balanced tokens' shares' { b with totals := t } := by
  have hsupply := h.currentSupply
  have htotal := h.totalVestingShares
  have hps := h.pendingShares
  have hpt := h.pendingSteem
  constructor
  · change t.currentSupply = b.sum (·.balance) + b.sum (·.rewardSteemBalance) + b.funds.sum +
      t.totalVestingFundSteem + t.totalRewardFundSteem + t.pendingRewardedVestingSteem + tokens'
    omega
  · change t.totalVestingShares = b.sum (·.vestingShares) + shares'
    omega
  · exact hpendingShares.trans hps
  · exact hpendingSteem.trans hpt
  · exact h.sound
  · exact hlt
  · exact hfund

/-- The balance after a change of the reward funds. -/
theorem Balanced.refund {tokens shares tokens' : ℤ} {b : Books} {funds : List ℤ}
    (h : Balanced tokens shares b) (htokens : tokens' = tokens - (funds.sum - b.funds.sum)) :
    Balanced tokens' shares { b with funds := funds } := by
  have hsupply := h.currentSupply
  refine ⟨?_, h.totalVestingShares, h.pendingShares, h.pendingSteem, h.sound, h.shares_lt,
    h.fund_lt⟩
  change b.totals.currentSupply = b.sum (·.balance) + b.sum (·.rewardSteemBalance) +
    funds.sum + b.totals.totalVestingFundSteem + b.totals.totalRewardFundSteem +
    b.totals.pendingRewardedVestingSteem + tokens'
  omega

/-- The purse of a new account. -/
def Purse.new (id : ℕ) (name : AccountName) : Purse := ⟨id, name, 0, 0, 0, 0, 0⟩

/-- The balance after a new account. -/
theorem Balanced.newPurse {tokens shares : ℤ} {b : Books} {id : ℕ} (h : Balanced tokens shares b) :
    Balanced tokens shares { b with purses := b.purses ++ [Purse.new id name] } := by
  have hsum : ∀ amount : Purse → ℤ, amount (Purse.new id name) = 0 →
      Books.sum { b with purses := b.purses ++ [Purse.new id name] } amount = b.sum amount := by
    intro amount hzero
    simp [Books.sum, hzero]
  have hsound : (Purse.new id name).Sound := by
    constructor <;> simp [Purse.new]
  constructor
  · rw [hsum _ rfl, hsum _ rfl]
    exact h.currentSupply
  · rw [hsum _ rfl]
    exact h.totalVestingShares
  · rw [hsum _ rfl]
    exact h.pendingShares
  · rw [hsum _ rfl]
    exact h.pendingSteem
  · intro p hp
    rcases List.mem_append.mp hp with hp | hp
    · exact h.sound p hp
    · have hp : p = Purse.new id name := by simpa using hp
      rw [hp]
      exact hsound
  · exact h.shares_lt
  · exact h.fund_lt

/-- No shares are missing, so their total is not negative. -/
theorem Balanced.shares_nonneg {tokens : ℤ} {b : Books} (h : Balanced tokens 0 b) :
    0 ≤ b.totals.totalVestingShares := by
  have hsum : 0 ≤ b.sum (·.vestingShares) := by
    refine List.sum_nonneg fun z hz => ?_
    obtain ⟨p, hp, hpz⟩ := List.mem_map.mp hz
    have hsound := (h.sound p hp).vestingShares
    omega
  have htotal := h.totalVestingShares
  omega

/-- The total of the claimable shares is not negative. -/
theorem Balanced.pendingShares_nonneg {tokens shares : ℤ} {b : Books}
    (h : Balanced tokens shares b) : 0 ≤ b.totals.pendingRewardedVestingShares := by
  have hsum : 0 ≤ b.sum (·.rewardVestingBalance) := by
    refine List.sum_nonneg fun z hz => ?_
    obtain ⟨p, hp, hpz⟩ := List.mem_map.mp hz
    have hsound := (h.sound p hp).rewardVestingBalance
    omega
  have htotal := h.pendingShares
  omega

end Balance

end Whaleshares.Ledger
