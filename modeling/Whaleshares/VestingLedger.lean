import Mathlib
import Whaleshares.Footprint

/-!
# Vesting in the books

What `create_vesting`, the burning of the null account and the weekly withdrawals do to
the books of the chain. Shares are never created in a negative amount: the product of a
negative amount and a price of shares does not fit into 64 bits.
-/

namespace Whaleshares.VestingLedger

open Config Fc Assets Protocol Objects Program Database WitnessVotes Vesting Ledger Footprint

variable {fc : FcLib}

section Conversion

/-- A number that is not negative keeps its value in 128 bits. -/
theorem uint128_of_nonneg {v : ℤ} (h : 0 ≤ v) (hlt : v < 2 ^ 128) : (uint128 v : ℤ) = v := by
  unfold uint128 uint128Bound
  omega

/-- A negative number wraps in 128 bits. -/
theorem uint128_of_neg {v : ℤ} (h : v < 0) (hge : -2 ^ 128 ≤ v) : (uint128 v : ℤ) = v + 2 ^ 128 := by
  unfold uint128 uint128Bound
  omega

/-- The conversion to 64 bits returns its argument, which fits. -/
theorem toUint64_eq_ok {a b : ℕ} (h : toUint64 a = .ok b) : b = a ∧ a < 2 ^ 64 := by
  unfold toUint64 at h
  by_cases hlt : a < 2 ^ 64
  · rw [if_pos hlt] at h
    exact ⟨(Except.ok.inj h).symm, hlt⟩
  · rw [if_neg hlt] at h
    cases h

/-- The division returns the quotient, and its divisor was positive. -/
theorem uint128Div_eq_ok {a b c : ℕ} (h : uint128Div a b = .ok c) : 0 < b ∧ c = a / b := by
  unfold uint128Div at h
  by_cases hb : b = 0
  · rw [if_pos hb] at h
    cases h
  · rw [if_neg hb] at h
    exact ⟨Nat.pos_of_ne_zero hb, (Except.ok.inj h).symm⟩

/-- A conversion at the price of shares is never negative. -/
theorem convert_nonneg (hexact : fc.SafeExact) {message : String} {a source target w : ℤ}
    (h : convert fc message a source target = .ok w) : 0 ≤ w := by
  obtain ⟨_, -, h⟩ := bind_eq_ok h
  obtain ⟨result, -, h⟩ := bind_eq_ok h
  obtain ⟨small, -, h⟩ := bind_eq_ok h
  have hw := (hexact.stored h).1
  omega

/-- A product with a price is never negative. -/
theorem times_nonneg (hexact : fc.SafeExact) {a v : Asset} {price : Price}
    (h : a.times fc price = .ok v) : 0 ≤ v.amount := by
  obtain ⟨name, -, h⟩ := bind_eq_ok h
  obtain ⟨base, -, h⟩ := bind_eq_ok h
  split at h
  · obtain ⟨amount, hamount, h⟩ := bind_eq_ok h
    rw [← Except.ok.inj h]
    exact convert_nonneg hexact hamount
  · obtain ⟨quote, -, h⟩ := bind_eq_ok h
    split at h
    · obtain ⟨amount, hamount, h⟩ := bind_eq_ok h
      rw [← Except.ok.inj h]
      exact convert_nonneg hexact hamount
    · cases h

/-- The 128-bit product of a negative amount and a positive one is close to the bound. -/
theorem uint128Mul_of_neg {a target : ℤ} (ha : a < 0) (hge : -2 ^ 63 ≤ a) (ht : 0 < target)
    (hlt : target < 2 ^ 63) : 2 ^ 127 ≤ uint128Mul (uint128 a) (uint128 target) := by
  have hA := uint128_of_neg ha (by omega)
  have hT := uint128_of_nonneg ht.le (by omega)
  have hlow : -2 ^ 126 ≤ a * target := by nlinarith
  have hneg : a * target < 0 := by nlinarith
  have hmod : ((uint128Mul (uint128 a) (uint128 target) : ℕ) : ℤ) = a * target + 2 ^ 128 := by
    unfold uint128Mul uint128Bound
    have hexpand : (a + 2 ^ 128) * target = a * target + target * 2 ^ 128 := by ring
    rw [Int.natCast_mod, Int.natCast_mul, hA, hT, hexpand]
    omega
  omega

/-- A conversion into shares does not succeed with a negative amount. -/
theorem convert_source_nonneg {message : String} {a source target w : ℤ} (hge : -2 ^ 63 ≤ a)
    (hsource : source < 2 ^ 63) (ht : 0 < target) (hlt : target < 2 ^ 63)
    (h : convert fc message a source target = .ok w) : 0 ≤ a := by
  by_contra hneg
  obtain ⟨_, hpos, h⟩ := bind_eq_ok h
  obtain ⟨result, hresult, h⟩ := bind_eq_ok h
  obtain ⟨small, hsmall, h⟩ := bind_eq_ok h
  have hpos : 0 < source := by simpa using fcAssert_eq_ok hpos
  have hproduct := uint128Mul_of_neg (by omega) hge ht hlt
  obtain ⟨hdivisor, hquotient⟩ := uint128Div_eq_ok hresult
  have hS := uint128_of_nonneg hpos.le (by omega)
  have hbig : 2 ^ 64 ≤ result := by
    rw [hquotient, Nat.le_div_iff_mul_le hdivisor]
    omega
  have hfits := (toUint64_eq_ok hsmall).2
  omega

/-- The letters of the symbol of the token. -/
theorem symbolName_wls : symbolName wlsSymbol = .ok [87, 76, 83] := by rfl

/-- The letters of the symbol of the shares. -/
theorem symbolName_vests : symbolName vestsSymbol = .ok [86, 69, 83, 84, 83] := by rfl

/-- A price that converts an amount of tokens from `source` to `target`. -/
theorem times_tokens {a source target : ℤ} {v : Asset} {price : Price}
    (hprice : price = ⟨wls source, vests target⟩ ∨ price = ⟨vests target, wls source⟩)
    (h : (wls a).times fc price = .ok v) :
    ∃ message, convert fc message a source target = .ok v.amount := by
  obtain ⟨name, hname, h⟩ := bind_eq_ok h
  obtain ⟨base, hbase, h⟩ := bind_eq_ok h
  have hname : name = [87, 76, 83] := (Except.ok.inj (symbolName_wls.symm.trans hname)).symm
  rcases hprice with rfl | rfl
  · have hbase : base = [87, 76, 83] := (Except.ok.inj (symbolName_wls.symm.trans hbase)).symm
    rw [if_pos (hname.trans hbase.symm)] at h
    obtain ⟨amount, hamount, h⟩ := bind_eq_ok h
    rw [← Except.ok.inj h]
    exact ⟨_, hamount⟩
  · have hbase : base = [86, 69, 83, 84, 83] :=
      (Except.ok.inj (symbolName_vests.symm.trans hbase)).symm
    rw [if_neg (by rw [hname, hbase]; decide)] at h
    obtain ⟨quote, hquote, h⟩ := bind_eq_ok h
    have hquote : quote = [87, 76, 83] := (Except.ok.inj (symbolName_wls.symm.trans hquote)).symm
    rw [if_pos (hname.trans hquote.symm)] at h
    obtain ⟨amount, hamount, h⟩ := bind_eq_ok h
    rw [← Except.ok.inj h]
    exact ⟨_, hamount⟩

end Conversion

section Changes

variable {s t u : ChainState} {x y : Purse} {tokens shares tokens' shares' : ℤ}

/-- The states have the same books. -/
def SameBooks (s t : ChainState) : Prop := books t = books s

instance : IsPreorder ChainState SameBooks where
  refl _ := rfl
  trans _ _ _ hst htu := Eq.trans htu hst

/-- What the footprint leaves alone keeps the books. -/
theorem sameBooks_stepFrame : StepFrame SameBooks where
  accounts s x h := by
    change Books.mk (x.rows.map purse) _ _ = Books.mk (s.accounts.rows.map purse) _ _
    rw [h]
  accountAuthorities _ _ := rfl
  comments _ _ := rfl
  commentVotes _ _ := rfl
  witnessVotes _ _ := rfl
  withdrawVestingRoutes _ _ := rfl
  transactions _ _ := rfl
  witnesses _ _ _ _ := rfl
  dgp s d h := by
    change Books.mk _ _ (totals d) = Books.mk _ _ (totals s.dgp)
    rw [h]
  wso _ _ _ := rfl
  hardforks _ _ := rfl
  blockSummaries _ _ := rfl
  signingWitness _ _ _ _ := rfl

/-- The same books stay balanced. -/
theorem SameBooks.balanced (hst : SameBooks s t) (h : Balanced tokens shares (books s)) :
    Balanced tokens shares (books t) := by
  rw [hst]
  exact h

/-- From `s` to `t`, the purse `x` of an account became `y`, and nothing else of the books
changed. -/
structure Moves (s t : ChainState) (x y : Purse) : Prop where
  purses : Replaces (books s).purses x y (books t).purses
  dgp : t.dgp = s.dgp
  rewardFunds : t.rewardFunds = s.rewardFunds

/-- A change of an account moves its purse from the old to the new value. -/
theorem modifyAccount_moves {p : AccountObject → Bool}
    {f : AccountObject → Except Exc AccountObject} {r : Unit}
    (h : Returns (modifyAccount p f) s r t) :
    ∃ a b, s.accounts.find p = some a ∧ f a = .ok b ∧ Moves s t (purse a) (purse b) := by
  obtain ⟨x, hx, rfl⟩ := map_eq_ok h.update
  obtain ⟨before, a, b, after, hrows, hrows', hbefore, ha, hf⟩ := Table.modify_rows hx
  have hfind : s.accounts.find p = some a := by
    unfold Table.find
    rw [hrows, List.find?_append, List.find?_eq_none.mpr (by simpa using hbefore)]
    simp [ha]
  refine ⟨a, b, hfind, hf, ⟨before.map purse, after.map purse, ?_, ?_⟩, rfl, rfl⟩
  · simp [books, hrows]
  · simp [books, hrows']

/-- An account that is found holds its purse under its name. -/
theorem holds_of_find {name : AccountName} {a : AccountObject}
    (h : s.accounts.find (named name) = some a) : Holds (books s).purses name (purse a) := by
  unfold Holds books
  rw [List.find?_map]
  have hsame : (fun q : Purse => decide (q.name = name)) ∘ purse = named name := rfl
  rw [hsame]
  exact congrArg (Option.map purse) h

/-- A change of the global properties writes the changed properties and nothing else. -/
theorem modifyDgp_totals {f : DynamicGlobalPropertyObject → Except Exc DynamicGlobalPropertyObject}
    {r : Unit} (h : Returns (modifyDgp f) s r t) :
    ∃ d, f s.dgp = .ok d ∧ t = { s with dgp := d } :=
  map_eq_ok h.update

/-- The balance after the change of a purse that keeps what is claimable in shares. -/
theorem Moves.balanced (hm : Moves s t x y) (h : Balanced tokens shares (books s)) (hy : y.Sound)
    (hbalance : y.rewardVestingBalance = x.rewardVestingBalance)
    (hsteem : y.rewardVestingSteem = x.rewardVestingSteem)
    (htokens : tokens' = tokens - (y.balance - x.balance) -
      (y.rewardSteemBalance - x.rewardSteemBalance))
    (hshares : shares' = shares - (y.vestingShares - x.vestingShares)) :
    Balanced tokens' shares' (books t) := by
  have htotals : (books t).totals = (books s).totals := congrArg totals hm.dgp
  have hfunds : (books t).funds = (books s).funds := by simp [books, hm.rewardFunds]
  refine h.change _ hm.purses hfunds hy ?_ ?_ ?_ ?_ ?_ ?_
  · rw [htotals]
    omega
  · rw [htotals]
    omega
  · rw [htotals]
    omega
  · rw [htotals]
    omega
  · rw [htotals]
    exact h.shares_lt
  · rw [htotals]
    exact h.fund_lt

/-- The balance after the change of a purse and then of the totals, with the supply and
the undistributed rewards kept. -/
theorem Moves.balanced_totals {d : DynamicGlobalPropertyObject} (hm : Moves s t x y)
    (h : Balanced tokens shares (books s)) (hy : y.Sound)
    (hsupply : d.currentSupply = s.dgp.currentSupply)
    (hreward : d.totalRewardFundSteem = s.dgp.totalRewardFundSteem)
    (htokens : tokens' = tokens - (y.balance - x.balance) -
      (y.rewardSteemBalance - x.rewardSteemBalance) -
      (d.totalVestingFundSteem - s.dgp.totalVestingFundSteem) -
      (d.pendingRewardedVestingSteem - s.dgp.pendingRewardedVestingSteem))
    (hshares : shares' = shares + (d.totalVestingShares - s.dgp.totalVestingShares) -
      (y.vestingShares - x.vestingShares))
    (hpendingShares : d.pendingRewardedVestingShares =
      s.dgp.pendingRewardedVestingShares + (y.rewardVestingBalance - x.rewardVestingBalance))
    (hpendingSteem : d.pendingRewardedVestingSteem =
      s.dgp.pendingRewardedVestingSteem + (y.rewardVestingSteem - x.rewardVestingSteem))
    (hlt : d.totalVestingShares < 2 ^ 63) (hfund : d.totalVestingFundSteem < 2 ^ 63) :
    Balanced tokens' shares' (books { t with dgp := d }) := by
  have hfunds : (books { t with dgp := d }).funds = (books s).funds := by
    simp [books, hm.rewardFunds]
  refine h.change (books { t with dgp := d }) hm.purses hfunds hy ?_ ?_ ?_ ?_ hlt hfund
  · simp only [books, totals]
    omega
  · exact hshares
  · exact hpendingShares
  · exact hpendingSteem

end Changes

section CreateVesting

variable {s t : ChainState} {tokens shares : ℤ} {name : AccountName} {steem v : Asset}

/-- Shares paid at once are added to the vesting shares of the purse. -/
theorem creditVesting_shares (hexact : fc.SafeExact) {a b : AccountObject}
    (h : creditVesting fc false steem v a = .ok b) :
    purse b = { purse a with vestingShares := a.vestingShares + v.amount } := by
  obtain ⟨value, hvalue, h⟩ := bind_eq_ok h
  have hsum := (increase_eq_ok hexact hvalue).1
  rw [← Except.ok.inj h]
  simp only [purse, hsum]

/-- Shares paid as a reward are added to the reward shares of the purse. -/
theorem creditVesting_reward (hexact : fc.SafeExact) {a b : AccountObject}
    (h : creditVesting fc true steem v a = .ok b) :
    (purse b = { purse a with
      rewardVestingBalance := a.rewardVestingBalance + v.amount
      rewardVestingSteem := a.rewardVestingSteem + steem.amount }) ∧
    a.rewardVestingBalance + v.amount < 2 ^ 63 ∧ a.rewardVestingSteem + steem.amount < 2 ^ 63 := by
  obtain ⟨balance, hbalance, h⟩ := bind_eq_ok h
  obtain ⟨value, hvalue, h⟩ := bind_eq_ok h
  have hsum := increase_eq_ok hexact hbalance
  have hsteem := increase_eq_ok hexact hvalue
  rw [← Except.ok.inj h]
  refine ⟨?_, by omega, by omega⟩
  simp only [purse, hsum, hsteem]

/-- Tokens that are turned into shares of an account leave the tokens that are not held
anywhere. -/
theorem createVesting_balanced (hexact : fc.SafeExact) {r : Asset}
    (h : Returns (createVesting fc name steem false) s r t)
    (hs : Balanced tokens shares (books s)) : Balanced (tokens - steem.amount) shares (books t) := by
  obtain ⟨price, -, h⟩ := h.gets_bind.lift_bind
  obtain ⟨v, hv, h⟩ := h.lift_bind
  obtain ⟨_, u, hu, h⟩ := h.bind
  obtain ⟨_, w, hw, h⟩ := h.bind
  obtain ⟨_, w', hw', h⟩ := h.bind
  obtain ⟨-, rfl⟩ := h.pure
  obtain ⟨a, b, ha, hab, hm⟩ := modifyAccount_moves hu
  obtain ⟨d, hd, rfl⟩ := modifyDgp_totals hw
  rw [hm.dgp] at hd
  obtain ⟨value, hvalue, hd⟩ := bind_eq_ok hd
  obtain ⟨total, htotal, hd⟩ := bind_eq_ok hd
  have hvalue := increase_eq_ok hexact hvalue
  have htotal := increase_eq_ok hexact htotal
  have hpurse := creditVesting_shares hexact hab
  have hnonneg := times_nonneg hexact hv
  have hsound := hs.sound _ hm.purses.mem
  have hVa : 0 ≤ a.vestingShares := hsound.vestingShares
  have hy : (purse b).Sound := by
    rw [hpurse]
    exact ⟨by change 0 ≤ a.vestingShares + v.amount; omega, hsound.2, hsound.3, hsound.4, hsound.5⟩
  have hbooks : SameBooks { u with dgp := d } t :=
    (Keeps.whenever (adjustProxiedWitnessVotes_keeps fc (sameBooks_stepFrame.toVoteFrame fc) name _)).rel
      _ _ _ hw'
  refine hbooks.balanced ?_
  have hd := Except.ok.inj hd
  rw [hpurse] at hm hy
  rw [← hd]
  refine hm.balanced_totals hs hy rfl rfl ?_ ?_ ?_ ?_ ?_ ?_
  all_goals
    simp only [purse]
    omega

/-- The price of claimable shares converts into a positive number of shares. -/
theorem vestingPrice_reward (hexact : fc.SafeExact) {price : Price}
    (hs : Balanced tokens 0 (books s)) (h : vestingPrice fc true s.dgp = .ok price) :
    ∃ source target, (price = ⟨wls source, vests target⟩ ∨ price = ⟨vests target, wls source⟩) ∧
      source < 2 ^ 63 ∧ 0 < target ∧ target < 2 ^ 63 := by
  have hshares : 0 ≤ s.dgp.totalVestingShares := hs.shares_nonneg
  have hpending : 0 ≤ s.dgp.pendingRewardedVestingShares := hs.pendingShares_nonneg
  have hlt : s.dgp.totalVestingShares < 2 ^ 63 := hs.shares_lt
  have hfund : s.dgp.totalVestingFundSteem < 2 ^ 63 := hs.fund_lt
  change s.dgp.getRewardVestingSharePrice fc = .ok price at h
  unfold DynamicGlobalPropertyObject.getRewardVestingSharePrice at h
  split at h
  · have h := Except.ok.inj h
    unfold DynamicGlobalPropertyObject.getVestingSharePrice at h
    split at h
    · exact ⟨1, 1000, .inl h.symm, by omega⟩
    · exact ⟨s.dgp.totalVestingFundSteem, s.dgp.totalVestingShares, .inr h.symm, by omega⟩
  · obtain ⟨shares, hsum, h⟩ := bind_eq_ok h
    obtain ⟨steem, hsteem, h⟩ := bind_eq_ok h
    have hsum := hexact.checked hsum
    have hsteem := hexact.checked hsteem
    exact ⟨steem, shares, .inr (Except.ok.inj h).symm, by omega⟩

/-- Tokens that are turned into claimable shares of an account leave the tokens that are
not held anywhere; they are not negative. -/
theorem createVesting_reward_balanced (hexact : fc.SafeExact) {r : Asset} {amount : ℤ}
    (hamount : -2 ^ 63 ≤ amount) (h : Returns (createVesting fc name (wls amount) true) s r t)
    (hs : Balanced tokens 0 (books s)) : Balanced (tokens - amount) 0 (books t) := by
  obtain ⟨price, hprice, h⟩ := h.gets_bind.lift_bind
  obtain ⟨v, hv, h⟩ := h.lift_bind
  obtain ⟨_, u, hu, h⟩ := h.bind
  obtain ⟨_, w, hw, h⟩ := h.bind
  obtain ⟨_, w', hw', h⟩ := h.bind
  obtain ⟨-, rfl⟩ := h.pure
  obtain ⟨a, b, ha, hab, hm⟩ := modifyAccount_moves hu
  obtain ⟨d, hd, rfl⟩ := modifyDgp_totals hw
  have hsame : t = { u with dgp := d } := hw'.pure.2
  rw [hm.dgp] at hd
  obtain ⟨total, htotal, hd⟩ := bind_eq_ok hd
  obtain ⟨value, hvalue, hd⟩ := bind_eq_ok hd
  have hvalue := increase_eq_ok hexact hvalue
  have htotal := increase_eq_ok hexact htotal
  obtain ⟨hpurse, hbalance, hsteem⟩ := creditVesting_reward hexact hab
  have hnonneg := times_nonneg hexact hv
  have htokens : 0 ≤ amount := by
    obtain ⟨source, target, hform, hsource, hpos, hlt⟩ := vestingPrice_reward hexact hs hprice
    obtain ⟨message, hconvert⟩ := times_tokens hform hv
    exact convert_source_nonneg hamount hsource hpos hlt hconvert
  have hsound := hs.sound _ hm.purses.mem
  have hbalanceA : 0 ≤ a.rewardVestingBalance := hsound.rewardVestingBalance
  have hsteemA : 0 ≤ a.rewardVestingSteem := hsound.rewardVestingSteem
  have hy : (purse b).Sound := by
    rw [hpurse]
    refine ⟨hsound.1, ?_, hbalance, ?_, hsteem⟩
    · change 0 ≤ a.rewardVestingBalance + v.amount
      omega
    · change 0 ≤ a.rewardVestingSteem + amount
      omega
  have hd := Except.ok.inj hd
  rw [hpurse] at hm hy
  rw [hsame, ← hd]
  have hlt : s.dgp.totalVestingShares < 2 ^ 63 := hs.shares_lt
  have hfund : s.dgp.totalVestingFundSteem < 2 ^ 63 := hs.fund_lt
  refine hm.balanced_totals hs hy rfl rfl ?_ ?_ ?_ ?_ hlt hfund
  all_goals
    simp only [purse, wls] at *
    omega

end CreateVesting

section Balances

variable {s t : ChainState} {tokens shares : ℤ} {delta : Asset} {p : AccountObject → Bool} {r : Unit}

/-- An adjusted balance moves the purse by the change. -/
theorem adjustBalance_moves (hexact : fc.SafeExact) (h : Returns (adjustBalance fc p delta) s r t) :
    ∃ a, s.accounts.find p = some a ∧
      Moves s t (purse a) { purse a with balance := a.balance + delta.amount } := by
  obtain ⟨a, b, ha, hab, hm⟩ := modifyAccount_moves h
  refine ⟨a, ha, ?_⟩
  split at hab
  · obtain ⟨balance, hbalance, hab⟩ := bind_eq_ok hab
    rw [← Except.ok.inj hab, (increase_eq_ok hexact hbalance).1] at hm
    exact hm
  · cases hab

/-- An adjusted balance takes its change out of the tokens that are held nowhere. -/
theorem adjustBalance_balanced (hexact : fc.SafeExact)
    (h : Returns (adjustBalance fc p delta) s r t) (hs : Balanced tokens shares (books s)) :
    Balanced (tokens - delta.amount) shares (books t) := by
  obtain ⟨a, ha, hm⟩ := adjustBalance_moves hexact h
  have hsound := hs.sound _ hm.purses.mem
  refine hm.balanced hs ⟨hsound.1, hsound.2, hsound.3, hsound.4, hsound.5⟩ rfl rfl ?_ ?_
  all_goals
    simp only [purse]
    omega

/-- An adjusted reward balance moves the purse by the change. -/
theorem adjustRewardBalance_moves (hexact : fc.SafeExact)
    (h : Returns (adjustRewardBalance fc p delta) s r t) :
    ∃ a, s.accounts.find p = some a ∧
      Moves s t (purse a) { purse a with rewardSteemBalance := a.rewardSteemBalance + delta.amount } := by
  obtain ⟨a, b, ha, hab, hm⟩ := modifyAccount_moves h
  refine ⟨a, ha, ?_⟩
  split at hab
  · obtain ⟨balance, hbalance, hab⟩ := bind_eq_ok hab
    rw [← Except.ok.inj hab, (increase_eq_ok hexact hbalance).1] at hm
    exact hm
  · cases hab

/-- An adjusted reward balance takes its change out of the tokens that are held nowhere. -/
theorem adjustRewardBalance_balanced (hexact : fc.SafeExact)
    (h : Returns (adjustRewardBalance fc p delta) s r t) (hs : Balanced tokens shares (books s)) :
    Balanced (tokens - delta.amount) shares (books t) := by
  obtain ⟨a, ha, hm⟩ := adjustRewardBalance_moves hexact h
  have hsound := hs.sound _ hm.purses.mem
  refine hm.balanced hs ⟨hsound.1, hsound.2, hsound.3, hsound.4, hsound.5⟩ rfl rfl ?_ ?_
  all_goals
    simp only [purse]
    omega

/-- The negative of an asset has the negative amount. -/
theorem neg_amount (hexact : fc.SafeExact) {a b : Asset} (h : a.neg fc = .ok b) :
    b.amount = -a.amount := by
  obtain ⟨amount, hamount, h⟩ := bind_eq_ok h
  rw [← Except.ok.inj h]
  exact (hexact.checked hamount).1

end Balances

section NullAccount

variable {s t : ChainState} {tokens shares : ℤ} {total r : Asset}

/-- A routine that takes tokens out of what the null account holds: the tokens that are
not held anywhere grow by what the routine adds to its total. -/
def Collects (m : Asset → Chain Asset) : Prop :=
  ∀ total s r t tokens shares, Returns (m total) s r t → Balanced tokens shares (books s) →
    total.amount ≤ r.amount ∧
      Balanced (tokens + (r.amount - total.amount)) shares (books t)

/-- A step that takes nothing keeps the balance. -/
theorem collects_nothing (hs : Balanced tokens shares (books s))
    (h : Returns (Pure.pure total : Chain Asset) s r t) :
    total.amount ≤ r.amount ∧ Balanced (tokens + (r.amount - total.amount)) shares (books t) := by
  obtain ⟨rfl, rfl⟩ := h.pure
  have hzero : tokens + (r.amount - r.amount) = tokens := by omega
  rw [hzero]
  exact ⟨le_refl _, hs⟩

/-- A change of a purse after one of the totals, as a change before it. -/
theorem Moves.before_totals {d : DynamicGlobalPropertyObject} {x y : Purse}
    (h : Moves { s with dgp := d } t x y) :
    Moves s { t with dgp := s.dgp } x y ∧ t = { { t with dgp := s.dgp } with dgp := d } := by
  refine ⟨⟨h.purses, rfl, h.rewardFunds⟩, ?_⟩
  have hdgp : t.dgp = d := h.dgp
  rw [← hdgp]

/-- The balance of the null account is collected. -/
theorem clearNullBalance_collects (hexact : fc.SafeExact) : Collects (clearNullBalance fc) := by
  intro total s r t tokens shares h hs
  obtain ⟨a, ha, h⟩ := lookup_bind h
  split at h
  next hpos =>
    obtain ⟨sum, hsum, h⟩ := h.lift_bind
    obtain ⟨delta, hdelta, h⟩ := h.lift_bind
    obtain ⟨_, u, hu, h⟩ := h.bind
    obtain ⟨rfl, rfl⟩ := h.pure
    have hsum : sum = total.amount + a.balance := (increase_eq_ok hexact hsum).1
    have hdelta : delta.amount = -a.balance := neg_amount hexact hdelta
    have hbalanced := adjustBalance_balanced hexact hu hs
    have htokens : tokens + ((wls sum).amount - total.amount) = tokens - delta.amount := by
      simp only [wls]
      omega
    rw [htokens]
    refine ⟨?_, hbalanced⟩
    simp only [wls]
    omega
  next => exact collects_nothing hs h

/-- The reward balance of the null account is collected. -/
theorem clearNullReward_collects (hexact : fc.SafeExact) : Collects (clearNullReward fc) := by
  intro total s r t tokens shares h hs
  obtain ⟨a, ha, h⟩ := lookup_bind h
  split at h
  next hpos =>
    obtain ⟨sum, hsum, h⟩ := h.lift_bind
    obtain ⟨delta, hdelta, h⟩ := h.lift_bind
    obtain ⟨_, u, hu, h⟩ := h.bind
    obtain ⟨rfl, rfl⟩ := h.pure
    have hsum : sum = total.amount + a.rewardSteemBalance := (increase_eq_ok hexact hsum).1
    have hdelta : delta.amount = -a.rewardSteemBalance := neg_amount hexact hdelta
    have hbalanced := adjustRewardBalance_balanced hexact hu hs
    have htokens : tokens + ((wls sum).amount - total.amount) = tokens - delta.amount := by
      simp only [wls]
      omega
    rw [htokens]
    refine ⟨?_, hbalanced⟩
    simp only [wls]
    omega
  next => exact collects_nothing hs h

/-- The vesting shares of the null account are collected. -/
theorem clearNullVesting_collects (hexact : fc.SafeExact) : Collects (clearNullVesting fc) := by
  intro total s r t tokens shares h hs
  obtain ⟨a, ha, h⟩ := lookup_bind h
  split at h
  next hpos =>
    obtain ⟨converted, hconverted, h⟩ := h.gets_bind.lift_bind
    obtain ⟨_, u, hu, h⟩ := h.bind
    obtain ⟨_, v, hv, h⟩ := h.bind
    obtain ⟨sum, hsum, h⟩ := h.lift_bind
    obtain ⟨rfl, rfl⟩ := h.pure
    obtain ⟨d, hd, rfl⟩ := modifyDgp_totals hu
    obtain ⟨left, hleft, hd⟩ := bind_eq_ok hd
    obtain ⟨fund, hfund, hd⟩ := bind_eq_ok hd
    have hleft := decrease_eq_ok hexact hleft
    have hfund := decrease_eq_ok hexact hfund
    have hsum : sum = total.amount + converted.amount := (increase_eq_ok hexact hsum).1
    have hnonneg := times_nonneg hexact hconverted
    obtain ⟨a', b, ha', hb, hm⟩ := modifyAccount_moves hv
    have hsame : a' = a := Option.some.inj (ha'.symm.trans ha)
    rw [← Except.ok.inj hb, hsame] at hm
    obtain ⟨hm, ht⟩ := hm.before_totals
    have hsound := hs.sound _ hm.purses.mem
    refine ⟨by simp only [wls]; omega, ?_⟩
    rw [ht, ← Except.ok.inj hd]
    refine hm.balanced_totals hs ⟨le_refl _, hsound.2, hsound.3, hsound.4, hsound.5⟩ rfl rfl
      ?_ ?_ ?_ ?_ ?_ ?_
    all_goals
      simp only [purse, wls, vests] at *
      omega
  next => exact collects_nothing hs h

/-- The reward shares of the null account are collected. -/
theorem clearNullRewardVesting_collects (hexact : fc.SafeExact) :
    Collects (clearNullRewardVesting fc) := by
  intro total s r t tokens shares h hs
  obtain ⟨a, ha, h⟩ := lookup_bind h
  split at h
  next hpos =>
    obtain ⟨sum, hsum, h⟩ := h.lift_bind
    obtain ⟨_, u, hu, h⟩ := h.bind
    obtain ⟨_, v, hv, h⟩ := h.bind
    obtain ⟨rfl, rfl⟩ := h.pure
    obtain ⟨d, hd, rfl⟩ := modifyDgp_totals hu
    obtain ⟨left, hleft, hd⟩ := bind_eq_ok hd
    obtain ⟨fund, hfund, hd⟩ := bind_eq_ok hd
    have hleft := decrease_eq_ok hexact hleft
    have hfund := decrease_eq_ok hexact hfund
    have hsum : sum = total.amount + a.rewardVestingSteem := (increase_eq_ok hexact hsum).1
    obtain ⟨a', b, ha', hb, hm⟩ := modifyAccount_moves hv
    have hsame : a' = a := Option.some.inj (ha'.symm.trans ha)
    rw [← Except.ok.inj hb, hsame] at hm
    obtain ⟨hm, ht⟩ := hm.before_totals
    have hsound := hs.sound _ hm.purses.mem
    have hsteem : 0 ≤ a.rewardVestingSteem := hsound.rewardVestingSteem
    have hlt : s.dgp.totalVestingShares < 2 ^ 63 := hs.shares_lt
    have hfundLt : s.dgp.totalVestingFundSteem < 2 ^ 63 := hs.fund_lt
    refine ⟨by simp only [wls]; omega, ?_⟩
    rw [ht, ← Except.ok.inj hd]
    have hzero : (0 : ℤ) < 2 ^ 63 := by decide
    refine hm.balanced_totals hs ⟨hsound.1, le_refl _, hzero, le_refl _, hzero⟩ rfl rfl
      ?_ ?_ ?_ ?_ hlt hfundLt
    all_goals
      simp only [purse, wls, vests] at *
      omega
  next => exact collects_nothing hs h

/-- Burning what was collected settles the books. -/
theorem burn_balanced (hexact : fc.SafeExact) {u : Unit} (h : Returns (burn fc total) s u t)
    (hnonneg : 0 ≤ total.amount) (hs : Balanced (tokens + total.amount) shares (books s)) :
    Balanced tokens shares (books t) := by
  rcases h.whenever with ⟨hpos, h⟩ | ⟨hpos, rfl⟩
  · obtain ⟨delta, hdelta, h⟩ := h.lift_bind
    have hdelta := neg_amount hexact hdelta
    obtain ⟨d, hd, rfl⟩ := modifyDgp_totals h
    split at hd
    · obtain ⟨supply, hsupply, hd⟩ := bind_eq_ok hd
      have hsupply := (increase_eq_ok hexact hsupply).1
      rw [← Except.ok.inj hd]
      refine hs.retotal (t := totals { s.dgp with currentSupply := supply }) ?_ ?_ rfl rfl rfl
        hs.shares_lt hs.fund_lt
      all_goals
        simp only [totals, books]
        omega
    · cases hd
  · have hzero : tokens + total.amount = tokens := by omega
    rwa [hzero] at hs

/-- What the null account holds is burned, and the supply falls by as much. -/
theorem clearNullAccountBalance_balanced (hexact : fc.SafeExact) {u : Unit}
    (h : Returns (clearNullAccountBalance fc) s u t) (hs : Balanced tokens shares (books s)) :
    Balanced tokens shares (books t) := by
  obtain ⟨total₁, s₁, h₁, h⟩ := h.bind
  obtain ⟨total₂, s₂, h₂, h⟩ := h.bind
  obtain ⟨total₃, s₃, h₃, h⟩ := h.bind
  obtain ⟨total₄, s₄, h₄, h⟩ := h.bind
  obtain ⟨hle₁, hb₁⟩ := clearNullBalance_collects hexact _ _ _ _ _ _ h₁ hs
  obtain ⟨hle₂, hb₂⟩ := clearNullVesting_collects hexact _ _ _ _ _ _ h₂ hb₁
  obtain ⟨hle₃, hb₃⟩ := clearNullReward_collects hexact _ _ _ _ _ _ h₃ hb₂
  obtain ⟨hle₄, hb₄⟩ := clearNullRewardVesting_collects hexact _ _ _ _ _ _ h₄ hb₃
  have hzero : (wls 0).amount = 0 := rfl
  refine burn_balanced hexact h (by omega) ?_
  have htokens : tokens + total₄.amount = tokens + (total₁.amount - (wls 0).amount) +
      (total₂.amount - total₁.amount) + (total₃.amount - total₂.amount) +
      (total₄.amount - total₃.amount) := by omega
  rw [htokens]
  exact hb₄

end NullAccount

section Withdrawals

variable {s t : ChainState} {tokens shares toWithdraw : ℤ}

/-- No name loses shares. -/
def Grows (s t : ChainState) : Prop :=
  ∀ name p, Holds (books s).purses name p →
    ∃ q, Holds (books t).purses name q ∧ p.vestingShares ≤ q.vestingShares

instance : IsPreorder ChainState Grows where
  refl _ _ p h := ⟨p, h, le_refl _⟩
  trans _ _ _ hst htu name p h := by
    obtain ⟨q, hq, hpq⟩ := hst name p h
    obtain ⟨r, hr, hqr⟩ := htu name q hq
    exact ⟨r, hr, hpq.trans hqr⟩

/-- The same books lose no shares. -/
theorem SameBooks.grows (h : SameBooks s t) : Grows s t := by
  intro name p hp
  rw [← h] at hp
  exact ⟨p, hp, le_refl _⟩

/-- A purse that moves to more shares loses none. -/
theorem Moves.grows {x y : Purse} (hm : Moves s t x y) (hname : y.name = x.name)
    (hle : x.vestingShares ≤ y.vestingShares) : Grows s t := by
  intro name p hp
  rcases hp.replaced hm.purses hname with h | ⟨rfl, h⟩
  · exact ⟨p, h, le_refl _⟩
  · exact ⟨y, h, hle⟩

/-- The part of a route is never negative. -/
theorem routeDeposit_nonneg (hexact : fc.SafeExact) {percent : ℕ} {deposit : ℤ}
    (h : routeDeposit fc toWithdraw percent = .ok deposit) : 0 ≤ deposit := by
  obtain ⟨share, -, h⟩ := bind_eq_ok h
  obtain ⟨small, -, h⟩ := bind_eq_ok h
  have hdeposit := (hexact.stored h).1
  omega

/-- Shares that are deposited in an account are missing until the account that withdraws
them gives them up. -/
theorem depositShares_balanced (hexact : fc.SafeExact) {p : AccountObject → Bool} {deposit : ℤ}
    {r : Unit} (hnonneg : 0 ≤ deposit)
    (h : Returns (modifyAccount p (depositShares fc deposit)) s r t)
    (hs : Balanced tokens shares (books s)) :
    Balanced tokens (shares - deposit) (books t) ∧ Grows s t := by
  obtain ⟨a, b, -, hab, hm⟩ := modifyAccount_moves h
  obtain ⟨sum, hsum, hab⟩ := bind_eq_ok hab
  have hsum := (hexact.checked hsum).1
  rw [← Except.ok.inj hab] at hm
  have hsound := hs.sound _ hm.purses.mem
  have hshares : 0 ≤ a.vestingShares := hsound.vestingShares
  constructor
  · refine hm.balanced hs ⟨?_, hsound.2, hsound.3, hsound.4, hsound.5⟩ rfl rfl ?_ ?_
    all_goals
      simp only [purse]
      omega
  · refine hm.grows rfl ?_
    simp only [purse]
    omega

/-- The routes into shares take from the shares what they pay, and no name loses any. -/
theorem depositAsVests_balanced (hexact : fc.SafeExact) {deposited r : ℤ}
    {routes : List WithdrawVestingRouteObject}
    (h : Returns (depositAsVests fc toWithdraw deposited routes) s r t)
    (hs : Balanced tokens shares (books s)) :
    Balanced tokens (shares - (r - deposited)) (books t) ∧ Grows s t := by
  induction routes generalizing deposited s shares with
  | nil =>
    obtain ⟨rfl, rfl⟩ := h.pure
    have hzero : shares - (r - r) = shares := by omega
    rw [hzero]
    exact ⟨hs, Std.Refl.refl t⟩
  | cons route rest ih =>
    unfold depositAsVests at h
    split at h
    · obtain ⟨deposit, hdeposit, h⟩ := h.lift_bind
      obtain ⟨sum, hsum, h⟩ := h.lift_bind
      obtain ⟨_, u, hu, h⟩ := h.bind
      have hnonneg := routeDeposit_nonneg hexact hdeposit
      have hsum := (hexact.checked hsum).1
      have hstep : Balanced tokens (shares - deposit) (books u) ∧ Grows s u := by
        rcases hu.whenever with ⟨-, hu⟩ | ⟨hpos, rfl⟩
        · obtain ⟨target, -, hu⟩ := lookup_bind hu
          obtain ⟨_, v, hv, hu⟩ := hu.bind
          obtain ⟨hbalanced, hgrows⟩ := depositShares_balanced hexact hnonneg hv hs
          have hbooks : SameBooks v u :=
            (adjustProxiedWitnessVotes_keeps fc (sameBooks_stepFrame.toVoteFrame fc) _ _).rel _ _ _ hu
          exact ⟨hbooks.balanced hbalanced, Trans.trans hgrows hbooks.grows⟩
        · have hzero : shares - deposit = shares := by omega
          rw [hzero]
          exact ⟨hs, Std.Refl.refl u⟩
      obtain ⟨hbalanced, hgrows⟩ := ih h hstep.1
      have hshares : shares - (r - deposited) = shares - deposit - (r - sum) := by omega
      rw [hshares]
      exact ⟨hbalanced, Trans.trans hstep.2 hgrows⟩
    · exact ih h hs

/-- Shares that are deposited as tokens are missing until the account that withdraws them
gives them up; the tokens come from the fund. -/
theorem redeem_balanced (hexact : fc.SafeExact) {p : AccountObject → Bool} {deposit : ℤ}
    {converted : Asset} {u : ChainState} {q r : Unit}
    (h : Returns (modifyAccount p (depositBalance fc converted)) s q u)
    (hredeem : Returns (modifyDgp (redeemShares fc deposit converted)) u r t)
    (hs : Balanced tokens shares (books s)) :
    Balanced tokens (shares - deposit) (books t) ∧ Grows s t := by
  obtain ⟨a, b, -, hab, hm⟩ := modifyAccount_moves h
  obtain ⟨d, hd, rfl⟩ := modifyDgp_totals hredeem
  obtain ⟨sum, hsum, hab⟩ := bind_eq_ok hab
  obtain ⟨fund, hfund, hd⟩ := bind_eq_ok hd
  obtain ⟨left, hleft, hd⟩ := bind_eq_ok hd
  have hsum := (increase_eq_ok hexact hsum).1
  have hfund := decrease_eq_ok hexact hfund
  have hleft := hexact.checked hleft
  rw [hm.dgp] at hfund hleft hd
  rw [← Except.ok.inj hab] at hm
  rw [← Except.ok.inj hd]
  have hsound := hs.sound _ hm.purses.mem
  have hgrows : Grows s u := hm.grows rfl (le_refl _)
  refine ⟨?_, hgrows⟩
  refine hm.balanced_totals hs ⟨hsound.1, hsound.2, hsound.3, hsound.4, hsound.5⟩ rfl rfl
    ?_ ?_ ?_ ?_ ?_ ?_
  all_goals
    simp only [purse]
    omega

/-- The routes into tokens take from the shares what they pay, and no name loses any. -/
theorem depositAsSteem_balanced (hexact : fc.SafeExact) {deposited steem r : ℤ}
    {routes : List WithdrawVestingRouteObject}
    (h : Returns (depositAsSteem fc toWithdraw deposited steem routes) s r t)
    (hs : Balanced tokens shares (books s)) :
    Balanced tokens (shares - (r - deposited)) (books t) ∧ Grows s t := by
  induction routes generalizing deposited steem s shares with
  | nil =>
    obtain ⟨rfl, rfl⟩ := h.pure
    have hzero : shares - (r - r) = shares := by omega
    rw [hzero]
    exact ⟨hs, Std.Refl.refl t⟩
  | cons route rest ih =>
    unfold depositAsSteem at h
    split at h
    · exact ih h hs
    · obtain ⟨_, -, h⟩ := lookup_bind h
      obtain ⟨deposit, hdeposit, h⟩ := h.lift_bind
      obtain ⟨sum, hsum, h⟩ := h.lift_bind
      obtain ⟨converted, -, h⟩ := h.gets_bind.lift_bind
      obtain ⟨steem', -, h⟩ := h.lift_bind
      obtain ⟨_, u, hu, h⟩ := h.bind
      have hnonneg := routeDeposit_nonneg hexact hdeposit
      have hsum := (hexact.checked hsum).1
      have hstep : Balanced tokens (shares - deposit) (books u) ∧ Grows s u := by
        rcases hu.whenever with ⟨-, hu⟩ | ⟨hpos, rfl⟩
        · obtain ⟨_, v, hv, hu⟩ := hu.bind
          exact redeem_balanced hexact hv hu hs
        · have hzero : shares - deposit = shares := by omega
          rw [hzero]
          exact ⟨hs, Std.Refl.refl u⟩
      obtain ⟨hbalanced, hgrows⟩ := ih h hstep.1
      have hshares : shares - (r - deposited) = shares - deposit - (r - sum) := by omega
      rw [hshares]
      exact ⟨hbalanced, Trans.trans hstep.2 hgrows⟩

/-- A withdrawal is at most what the account holds. -/
theorem withdrawalOf_le {a : AccountObject} (h : withdrawalOf fc a = .ok toWithdraw) :
    toWithdraw ≤ a.vestingShares := by
  obtain ⟨remaining, -, h⟩ := bind_eq_ok h
  split at h
  · obtain ⟨rest, -, h⟩ := bind_eq_ok h
    rw [← Except.ok.inj h]
    exact min_le_left _ _
  · rw [← Except.ok.inj h]
    exact min_le_left _ _

/-- The end of a withdrawal takes the shares and adds the converted tokens. -/
theorem finishWithdrawal_purse (hexact : fc.SafeExact) {converted : Asset} {a b : AccountObject}
    (h : finishWithdrawal fc toWithdraw converted a = .ok b) :
    purse b = { purse a with
      balance := a.balance + converted.amount, vestingShares := a.vestingShares - toWithdraw } := by
  obtain ⟨left, balance, withdrawn, hleft, hbalance, -, rfl⟩ := finishWithdrawal_eq_ok h
  have hleft := (hexact.checked hleft).1
  have hbalance := (increase_eq_ok hexact hbalance).1
  simp only [purse, hleft, hbalance]

/-- A withdrawal takes as many shares from the account as it turned into tokens or
deposited in other accounts. -/
theorem processVestingWithdrawal_balanced (hexact : fc.SafeExact) {source : AccountObject}
    {name : AccountName} {u : Unit} (hsource : s.accounts.find (named name) = some source)
    (h : Returns (processVestingWithdrawal fc source) s u t)
    (hs : Balanced tokens shares (books s)) : Balanced tokens shares (books t) := by
  obtain ⟨toWithdraw, hwithdraw, h⟩ := h.lift_bind
  have h := h.gets_bind
  obtain ⟨asVests, s₁, h₁, h⟩ := h.bind
  obtain ⟨asSteem, s₂, h₂, h⟩ := h.bind
  obtain ⟨rest, hrest, h⟩ := h.lift_bind
  obtain ⟨toConvert, htoConvert, h⟩ := h.lift_bind
  obtain ⟨_, -, h⟩ := h.lift_bind
  obtain ⟨converted, -, h⟩ := h.gets_bind.lift_bind
  obtain ⟨_, s₃, h₃, h⟩ := h.bind
  obtain ⟨_, s₄, h₄, h⟩ := h.bind
  have hrest := (hexact.checked hrest).1
  have htoConvert := (hexact.checked htoConvert).1
  obtain ⟨hb₁, hg₁⟩ := depositAsVests_balanced hexact h₁ hs
  obtain ⟨hb₂, hg₂⟩ := depositAsSteem_balanced hexact h₂ hb₁
  obtain ⟨a, b, ha, hab, hm⟩ := modifyAccount_moves h₃
  have hname : source.name = name := by
    have hnamed : named name source = true := List.find?_some hsource
    simpa [named] using hnamed
  have hgrows : Grows s s₂ := Trans.trans hg₁ hg₂
  obtain ⟨q, hq, hle⟩ := hgrows name (purse source) (holds_of_find hsource)
  have hqa : q = purse a := hq.unique (hname ▸ holds_of_find ha)
  have henough : toWithdraw ≤ a.vestingShares := by
    have hlimit := withdrawalOf_le hwithdraw
    rw [hqa] at hle
    exact hlimit.trans hle
  obtain ⟨d, hd, rfl⟩ := modifyDgp_totals h₄
  obtain ⟨fund, hfund, hd⟩ := bind_eq_ok hd
  obtain ⟨left, hleft, hd⟩ := bind_eq_ok hd
  have hfund := decrease_eq_ok hexact hfund
  have hleft := hexact.checked hleft
  rw [hm.dgp] at hfund hleft hd
  have hsound := hb₂.sound _ hm.purses.mem
  rw [finishWithdrawal_purse hexact hab] at hm
  have hbalanced : Balanced tokens shares (books { s₃ with dgp := d }) := by
    rw [← Except.ok.inj hd]
    refine hm.balanced_totals hb₂ ⟨?_, hsound.2, hsound.3, hsound.4, hsound.5⟩ rfl rfl
      ?_ ?_ ?_ ?_ ?_ ?_
    all_goals
      simp only [purse]
      omega
  have hbooks : SameBooks { s₃ with dgp := d } t := by
    have hkeeps : Keeps SameBooks (whenever (0 < toWithdraw) do
        let delta ← lift (fc.neg toWithdraw)
        adjustProxiedWitnessVotes fc source.name delta) :=
      .whenever (.bind (.lift _) fun _ =>
        adjustProxiedWitnessVotes_keeps fc (sameBooks_stepFrame.toVoteFrame fc) _ _)
    exact hkeeps.rel _ _ _ h
  exact hbooks.balanced hbalanced

/-- The loop of the withdrawals keeps the books balanced. -/
theorem vestingWithdrawalLoop_balanced (hexact : fc.SafeExact) {rounds : ℕ}
    {current : Option AccountObject} {u : Unit}
    (h : Returns (vestingWithdrawalLoop fc rounds current) s u t)
    (hs : Balanced tokens shares (books s)) : Balanced tokens shares (books t) := by
  induction rounds generalizing current s with
  | zero =>
    cases current with
    | none =>
      rw [(Returns.pure h).2]
      exact hs
    | some a => cases h
  | succ rounds ih =>
    cases current with
    | none =>
      rw [(Returns.pure h).2]
      exact hs
    | some a =>
      obtain ⟨source, hsource, h⟩ := lookup_bind h
      have h := h.gets_bind
      split at h
      · have h := h.gets_bind
        obtain ⟨_, v, hv, h⟩ := h.bind
        exact ih h (processVestingWithdrawal_balanced hexact hsource hv hs)
      · rw [(Returns.pure h).2]
        exact hs

/-- The withdrawals of a block keep the balance. -/
theorem processVestingWithdrawals_balanced (hexact : fc.SafeExact) {u : Unit}
    (h : Returns (processVestingWithdrawals fc) s u t)
    (hs : Balanced tokens shares (books s)) : Balanced tokens shares (books t) :=
  vestingWithdrawalLoop_balanced hexact h.gets_bind.gets_bind hs

end Withdrawals

end Whaleshares.VestingLedger
