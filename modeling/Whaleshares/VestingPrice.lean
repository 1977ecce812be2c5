import Whaleshares.AssetProduct
import Whaleshares.SharePool

/-!
# The price of vesting shares

The vesting fund and the vesting shares are a pool. `create_vesting` is a deposit into it, the
conversions of a withdrawal and the burning of the shares of the null account redeem shares.
All of them convert at the current price and round down, so a share is never worth less
afterwards.
-/

namespace Whaleshares.VestingPrice

open Config Fc Assets Protocol Objects Program Database WitnessVotes Vesting Ledger Footprint
  VestingLedger AssetProduct SharePool Genesis ChainRun

variable {fc : FcLib} {s t u : ChainState}

section Prices

/-- The pool of vesting shares. -/
def vestingPool (s : ChainState) : Pool := ⟨s.dgp.totalVestingFundSteem, s.dgp.totalVestingShares⟩

/-- The pool depends on the books alone. -/
theorem vestingPool_sameBooks (h : SameBooks s t) : vestingPool t = vestingPool s :=
  congrArg (fun b : Books => (⟨b.totals.totalVestingFundSteem, b.totals.totalVestingShares⟩ : Pool)) h

/-- The fund and the shares are positive 64-bit amounts. -/
structure Priced (s : ChainState) : Prop where
  fund : 0 < (vestingPool s).fund
  fund_lt : (vestingPool s).fund < 2 ^ 63
  shares : 0 < (vestingPool s).shares
  shares_lt : (vestingPool s).shares < 2 ^ 63

/-- The price is that of the pool. -/
theorem Priced.price (h : Priced s) : s.dgp.getVestingSharePrice =
    ⟨vests (vestingPool s).shares, wls (vestingPool s).fund⟩ := by
  have hpositive : ¬ (s.dgp.totalVestingFundSteem = 0 ∨ s.dgp.totalVestingShares = 0) := by
    have hfund : 0 < s.dgp.totalVestingFundSteem := h.fund
    have hshares : 0 < s.dgp.totalVestingShares := h.shares
    omega
  exact if_neg hpositive

/-- A conversion that returns is exact but for the rounding. -/
theorem convert_exact (hexact : fc.SafeExact) {message : String} {a source target w : ℤ}
    (ha : 0 ≤ a) (haLt : a < 2 ^ 63) (hsource : 0 < source) (hsourceLt : source < 2 ^ 63)
    (htarget : 0 < target) (htargetLt : target < 2 ^ 63)
    (h : convert fc message a source target = .ok w) : w = a * target / source := by
  obtain ⟨q, hq, hconvert⟩ :=
    convert_quotient fc message ha haLt hsource hsourceLt htarget htargetLt
  rw [hconvert] at h
  obtain ⟨small, hsmall, h⟩ := bind_eq_ok h
  rw [(hexact.stored h).1, (toUint64_eq_ok hsmall).1]
  exact hq

/-- Tokens buy shares at the price of the pool. -/
theorem Priced.tokens (h : Priced s) (hexact : fc.SafeExact) {amount : ℤ} {v : Asset}
    (hamount : 0 ≤ amount) (hlt : amount < 2 ^ 63)
    (hv : (wls amount).times fc s.dgp.getVestingSharePrice = .ok v) :
    v = vests ((vestingPool s).sharesFor amount) := by
  rw [h.price] at hv
  obtain ⟨name, hname, hv⟩ := bind_eq_ok hv
  obtain ⟨base, hbase, hv⟩ := bind_eq_ok hv
  have hname : name = [87, 76, 83] := (Except.ok.inj (symbolName_wls.symm.trans hname)).symm
  have hbase : base = [86, 69, 83, 84, 83] :=
    (Except.ok.inj (symbolName_vests.symm.trans hbase)).symm
  rw [if_neg (by rw [hname, hbase]; decide)] at hv
  obtain ⟨quote, hquote, hv⟩ := bind_eq_ok hv
  have hquote : quote = [87, 76, 83] := (Except.ok.inj (symbolName_wls.symm.trans hquote)).symm
  rw [if_pos (hname.trans hquote.symm)] at hv
  obtain ⟨value, hvalue, hv⟩ := bind_eq_ok hv
  have hvalue :=
    convert_exact hexact hamount hlt h.fund h.fund_lt h.shares h.shares_lt hvalue
  rw [← Except.ok.inj hv, hvalue]
  rfl

/-- Shares are worth their part of the fund. -/
theorem Priced.value (h : Priced s) (hexact : fc.SafeExact) {shares : ℤ} {v : Asset}
    (hshares : 0 ≤ shares) (hlt : shares < 2 ^ 63)
    (hv : (vests shares).times fc s.dgp.getVestingSharePrice = .ok v) :
    v = wls ((vestingPool s).valueOf shares) := by
  rw [h.price] at hv
  obtain ⟨name, hname, hv⟩ := bind_eq_ok hv
  obtain ⟨base, hbase, hv⟩ := bind_eq_ok hv
  rw [if_pos (Except.ok.inj (hname.symm.trans hbase))] at hv
  obtain ⟨value, hvalue, hv⟩ := bind_eq_ok hv
  have hvalue :=
    convert_exact hexact hshares hlt h.shares h.shares_lt h.fund h.fund_lt hvalue
  rw [← Except.ok.inj hv, hvalue]
  rfl

end Prices

section Redeeming

/-- From one state to another shares were redeemed, each time for at most their value. -/
structure Redeems (s t : ChainState) : Prop where
  fewer : (vestingPool t).shares ≤ (vestingPool s).shares
  fair : Priced s → 0 < (vestingPool t).shares →
    (vestingPool s).Appreciates (vestingPool t) ∧ Priced t

instance : IsPreorder ChainState Redeems where
  refl s := ⟨le_refl _, fun h _ => ⟨.refl _, h⟩⟩
  trans s t u hst htu := by
    refine ⟨htu.fewer.trans hst.fewer, fun hs hu => ?_⟩
    obtain ⟨hfirst, ht⟩ := hst.fair hs (hu.trans_le htu.fewer)
    obtain ⟨hsecond, hu'⟩ := htu.fair ht hu
    exact ⟨hfirst.trans hsecond ht.shares hs.shares.le hu.le, hu'⟩

/-- The same pool has redeemed nothing. -/
theorem Redeems.of_same (h : vestingPool t = vestingPool s) : Redeems s t := by
  constructor
  · rw [h]
  · intro hs _
    have ht : Priced t := ⟨h ▸ hs.fund, h ▸ hs.fund_lt, h ▸ hs.shares, h ▸ hs.shares_lt⟩
    rw [h]
    exact ⟨.refl _, ht⟩

/-- One redemption at the current price. -/
theorem Redeems.of_redeem {shares : ℤ} (hshares : 0 ≤ shares)
    (ht : Priced s → 0 < (vestingPool t).shares → vestingPool t = (vestingPool s).redeem shares)
    (hfewer : (vestingPool t).shares ≤ (vestingPool s).shares) : Redeems s t := by
  refine ⟨hfewer, fun hs hremain => ?_⟩
  have hpool := ht hs hremain
  have happreciates : (vestingPool s).Appreciates (vestingPool t) := by
    rw [hpool]
    exact Pool.redeem_appreciates hs.shares
  have hfund : 0 < (vestingPool t).fund := by
    rw [hpool] at hremain ⊢
    exact Pool.redeem_fund_pos hs.fund hremain hshares
  have hpaid : (vestingPool t).fund ≤ (vestingPool s).fund := by
    rw [hpool]
    have hvalue : 0 ≤ (vestingPool s).valueOf shares :=
      Int.ediv_nonneg (Int.mul_nonneg hshares hs.fund.le) hs.shares.le
    change (vestingPool s).fund - (vestingPool s).valueOf shares ≤ (vestingPool s).fund
    omega
  exact ⟨happreciates, hfund, hpaid.trans_lt hs.fund_lt, hremain, hfewer.trans_lt hs.shares_lt⟩

/-- What the footprint leaves alone redeems nothing. -/
theorem redeems_stepFrame : StepFrame Redeems :=
  sameBooks_stepFrame.mono fun _ _ h => .of_same (vestingPool_sameBooks h)

/-- A change of accounts redeems nothing. -/
theorem modifyAccount_redeems {p : AccountObject → Bool}
    {f : AccountObject → Except Exc AccountObject} : Keeps Redeems (modifyAccount p f) :=
  replace_keeps fun _ _ _ => .of_same rfl

/-- A change of proxied votes redeems nothing. -/
theorem adjustProxiedWitnessVotes_redeems {name : AccountName} {delta : ℤ} :
    Keeps Redeems (adjustProxiedWitnessVotes fc name delta) :=
  adjustProxiedWitnessVotes_keeps fc (redeems_stepFrame.toVoteFrame fc) _ _

/-- A conversion of a withdrawal. -/
theorem redeemShares_redeems (hexact : fc.SafeExact) {shares : ℤ} {converted : Asset} {r : Unit}
    (hshares : 0 ≤ shares) (hlt : shares < 2 ^ 63)
    (hconverted : (vests shares).times fc s.dgp.getVestingSharePrice = .ok converted)
    (h : Returns (modifyDgp (redeemShares fc shares converted)) s r t) : Redeems s t := by
  obtain ⟨d, hd, rfl⟩ := modifyDgp_totals h
  obtain ⟨fund, hfund, hd⟩ := bind_eq_ok hd
  obtain ⟨left, hleft, hd⟩ := bind_eq_ok hd
  have hfund := (decrease_eq_ok hexact hfund).1
  have hleft := (hexact.checked hleft).1
  have hpool : vestingPool { s with dgp := d } =
      ⟨s.dgp.totalVestingFundSteem - converted.amount, s.dgp.totalVestingShares - shares⟩ := by
    rw [← Except.ok.inj hd, hfund, hleft]
    rfl
  refine .of_redeem hshares (fun hs _ => ?_) ?_
  · rw [hpool, hs.value hexact hshares hlt hconverted]
    rfl
  · rw [hpool]
    change s.dgp.totalVestingShares - shares ≤ s.dgp.totalVestingShares
    omega

/-- The routes into shares redeem nothing. -/
theorem depositAsVests_redeems (toWithdraw deposited : ℤ)
    (routes : List WithdrawVestingRouteObject) :
    Keeps Redeems (depositAsVests fc toWithdraw deposited routes) := by
  induction routes generalizing deposited with
  | nil => exact .pure _
  | cons route rest ih =>
    exact .ite (.bind (.lift _) fun _ => .bind (.lift _) fun deposited =>
      .bind (.whenever (.bind (lookup_keeps _ _) fun _ => .bind modifyAccount_redeems fun _ =>
      adjustProxiedWitnessVotes_redeems)) fun _ => ih deposited) (ih deposited)

/-- The routes into tokens redeem shares for at most their value. -/
theorem depositAsSteem_redeems (hexact : fc.SafeExact) (toWithdraw deposited steem : ℤ)
    (routes : List WithdrawVestingRouteObject) :
    Keeps Redeems (depositAsSteem fc toWithdraw deposited steem routes) := by
  induction routes generalizing deposited steem with
  | nil => exact .pure _
  | cons route rest ih =>
    refine .ite (ih deposited steem) (.bind (lookup_keeps _ _) fun _ => ⟨fun s r t h => ?_⟩)
    obtain ⟨deposit, hdeposit, h⟩ := h.lift_bind
    obtain ⟨sum, -, h⟩ := h.lift_bind
    obtain ⟨converted, hconverted, h⟩ := h.gets_bind.lift_bind
    obtain ⟨steem', -, h⟩ := h.lift_bind
    obtain ⟨_, u, hu, h⟩ := h.bind
    have hstep : Redeems s u := by
      rcases hu.whenever with ⟨hpos, hu⟩ | ⟨-, rfl⟩
      · obtain ⟨_, v, hv, hu⟩ := hu.bind
        obtain ⟨x, -, rfl⟩ := map_eq_ok hv.update
        have hlt : deposit < 2 ^ 63 := by
          obtain ⟨_, -, hdeposit⟩ := bind_eq_ok hdeposit
          obtain ⟨_, -, hdeposit⟩ := bind_eq_ok hdeposit
          exact (hexact.stored hdeposit).2.2
        have hfirst : Redeems s { s with accounts := x } := .of_same rfl
        have hsecond : Redeems { s with accounts := x } u :=
          redeemShares_redeems hexact hpos.le hlt hconverted hu
        exact Trans.trans hfirst hsecond
      · exact Std.Refl.refl u
    have hrest : Redeems u t := (ih sum steem').rel _ _ _ h
    exact Trans.trans hstep hrest

/-- A withdrawal redeems shares. -/
theorem processVestingWithdrawal_redeems (hexact : fc.SafeExact) (source : AccountObject) :
    Keeps Redeems (processVestingWithdrawal fc source) := by
  refine .bind (.lift _) fun toWithdraw => .bind (.gets _) fun routes =>
    .bind (depositAsVests_redeems _ _ _) fun asVests =>
    .bind (depositAsSteem_redeems hexact _ _ _ _) fun asSteem => ⟨fun s r t h => ?_⟩
  obtain ⟨rest, -, h⟩ := h.lift_bind
  obtain ⟨toConvert, htoConvert, h⟩ := h.lift_bind
  obtain ⟨_, hnonneg, h⟩ := h.lift_bind
  obtain ⟨converted, hconverted, h⟩ := h.gets_bind.lift_bind
  obtain ⟨_, u, hu, h⟩ := h.bind
  obtain ⟨_, v, hv, h⟩ := h.bind
  have hnonneg : 0 ≤ toConvert := by simpa using fcAssert_eq_ok hnonneg
  have hlt := (hexact.checked htoConvert).2.2
  obtain ⟨x, -, hstate⟩ := map_eq_ok hu.update
  rw [hstate] at hv
  have hfirst : Redeems s { s with accounts := x } := .of_same rfl
  have hsecond : Redeems { s with accounts := x } v :=
    redeemShares_redeems hexact hnonneg hlt hconverted hv
  have hvotes : Redeems v t := by
    refine Keeps.rel (R := Redeems) ?_ _ _ _ h
    exact .whenever (.bind (.lift _) fun _ => adjustProxiedWitnessVotes_redeems)
  exact Trans.trans hfirst (Trans.trans hsecond hvotes)

/-- The burning of the shares of the null account redeems them. -/
theorem clearNullVesting_redeems (hexact : fc.SafeExact) (total : Asset) :
    Keeps Redeems (clearNullVesting fc total) := by
  refine .bind (lookup_keeps _ _) fun a => ⟨fun s r t h => ?_⟩
  split at h
  next hpos =>
    obtain ⟨converted, hconverted, h⟩ := h.gets_bind.lift_bind
    obtain ⟨_, u, hu, h⟩ := h.bind
    have hrest : Redeems u t := by
      refine Keeps.rel (R := Redeems) ?_ _ _ _ h
      exact .bind modifyAccount_redeems fun _ => .bind (.lift _) fun _ => .pure _
    obtain ⟨d, hd, rfl⟩ := modifyDgp_totals hu
    obtain ⟨left, hleft, hd⟩ := bind_eq_ok hd
    obtain ⟨fund, hfund, hd⟩ := bind_eq_ok hd
    have hleft := (decrease_eq_ok hexact hleft).1
    have hfund := (decrease_eq_ok hexact hfund).1
    have hpool : vestingPool { s with dgp := d } = ⟨s.dgp.totalVestingFundSteem - converted.amount,
        s.dgp.totalVestingShares - a.vestingShares⟩ := by
      rw [← Except.ok.inj hd, hfund, hleft]
      rfl
    have hstep : Redeems s { s with dgp := d } := by
      refine .of_redeem hpos.le (fun hs hremain => ?_) ?_
      · have hlt : a.vestingShares < 2 ^ 63 := by
          have hbound := hs.shares_lt
          rw [hpool] at hremain
          change 0 < s.dgp.totalVestingShares - a.vestingShares at hremain
          change s.dgp.totalVestingShares < 2 ^ 63 at hbound
          omega
        rw [hpool, hs.value hexact hpos.le hlt hconverted]
        rfl
      · rw [hpool]
        change s.dgp.totalVestingShares - a.vestingShares ≤ s.dgp.totalVestingShares
        omega
    exact Trans.trans hstep hrest
  next =>
    obtain ⟨-, rfl⟩ := h.pure
    exact Std.Refl.refl t

/-- What the null account holds is burned at the price of the pool. -/
theorem clearNullAccountBalance_redeems (hexact : fc.SafeExact) :
    Keeps Redeems (clearNullAccountBalance fc) := by
  refine .bind ?_ fun _ => .bind (clearNullVesting_redeems hexact _) fun _ =>
    .bind ?_ fun _ => .bind ?_ fun _ => .whenever (.bind (.lift _) fun _ => ?_)
  · exact .bind (lookup_keeps _ _) fun a => .ite (.bind (.lift _) fun _ => .bind (.lift _) fun _ =>
      .bind modifyAccount_redeems fun _ => .pure _) (.pure _)
  · exact .bind (lookup_keeps _ _) fun a => .ite (.bind (.lift _) fun _ => .bind (.lift _) fun _ =>
      .bind modifyAccount_redeems fun _ => .pure _) (.pure _)
  · refine .bind (lookup_keeps _ _) fun a => .ite (.bind (.lift _) fun _ => .bind ?_ fun _ =>
      .bind modifyAccount_redeems fun _ => .pure _) (.pure _)
    refine replace_keeps fun s d hd => .of_same ?_
    obtain ⟨_, -, hd⟩ := bind_eq_ok hd
    obtain ⟨_, -, hd⟩ := bind_eq_ok hd
    rw [← Except.ok.inj hd]
    rfl
  · refine replace_keeps fun s d hd => .of_same ?_
    split at hd
    · obtain ⟨_, -, hd⟩ := bind_eq_ok hd
      rw [← Except.ok.inj hd]
      rfl
    · cases hd

end Redeeming

section Depositing

/-- `create_vesting` is a deposit into the pool. -/
theorem createVesting_deposits (hexact : fc.SafeExact) (hs : Priced s) {name : AccountName}
    {amount : ℤ} {newVesting : Asset} (hamount : 0 ≤ amount)
    (h : Returns (createVesting fc name (wls amount) false) s newVesting t) :
    newVesting = vests ((vestingPool s).sharesFor amount) ∧
      vestingPool t = (vestingPool s).deposit amount ∧
      (vestingPool t).fund < 2 ^ 63 ∧ (vestingPool t).shares < 2 ^ 63 := by
  obtain ⟨price, hprice, h⟩ := h.gets_bind.lift_bind
  obtain ⟨v, hv, h⟩ := h.lift_bind
  obtain ⟨_, u, hu, h⟩ := h.bind
  obtain ⟨_, w, hw, h⟩ := h.bind
  obtain ⟨_, w', hw', h⟩ := h.bind
  obtain ⟨rfl, rfl⟩ := h.pure
  obtain ⟨x, -, rfl⟩ := map_eq_ok hu.update
  obtain ⟨d, hd, rfl⟩ := modifyDgp_totals hw
  obtain ⟨value, hvalue, hd⟩ := bind_eq_ok hd
  obtain ⟨total, htotal, hd⟩ := bind_eq_ok hd
  have hvalue : value = s.dgp.totalVestingFundSteem + amount ∧ -2 ^ 63 ≤ value ∧ value < 2 ^ 63 :=
    increase_eq_ok hexact hvalue
  have htotal := increase_eq_ok hexact htotal
  have hfund : 0 < s.dgp.totalVestingFundSteem := hs.fund
  have hprice : price = s.dgp.getVestingSharePrice := (Except.ok.inj hprice).symm
  rw [hprice] at hv
  have hbought := hs.tokens hexact hamount (by omega) hv
  have hvotes : SameBooks { s with accounts := x, dgp := d } t :=
    (Keeps.whenever (adjustProxiedWitnessVotes_keeps fc (sameBooks_stepFrame.toVoteFrame fc) name
      _)).rel _ _ _ hw'
  have hpool : vestingPool t = (vestingPool s).deposit amount := by
    rw [vestingPool_sameBooks hvotes, ← Except.ok.inj hd]
    change (⟨value, total⟩ : Pool) = _
    rw [hvalue.1, htotal.1, hbought]
    rfl
  refine ⟨hbought, hpool, ?_⟩
  rw [vestingPool_sameBooks hvotes, ← Except.ok.inj hd]
  exact ⟨hvalue.2.2, htotal.2.2⟩

end Depositing

section Monotone

/-- The vesting price is monotone: from a state with a positive fund and positive shares, a
deposit by `create_vesting`, a conversion of a withdrawal, a whole withdrawal, and the burning of
what the null account holds leave the ratio of fund and shares at least as large, while shares
remain; and the shares that a deposit bought are worth at most the deposit at the new price. -/
theorem vesting_price_monotone (hexact : fc.SafeExact) (s : ChainState) (hs : Priced s) :
    (∀ name amount newVesting t, 0 ≤ amount →
      Returns (createVesting fc name (wls amount) false) s newVesting t →
      (vestingPool s).Appreciates (vestingPool t) ∧
        ∀ back, newVesting.times fc t.dgp.getVestingSharePrice = .ok back →
          back.amount ≤ amount) ∧
      (∀ shares converted t, 0 ≤ shares → shares < 2 ^ 63 →
        (vests shares).times fc s.dgp.getVestingSharePrice = .ok converted →
        Returns (modifyDgp (redeemShares fc shares converted)) s () t →
        0 < (vestingPool t).shares → (vestingPool s).Appreciates (vestingPool t)) ∧
      (∀ source t, Returns (processVestingWithdrawal fc source) s () t →
        0 < (vestingPool t).shares → (vestingPool s).Appreciates (vestingPool t)) ∧
      ∀ t, Returns (clearNullAccountBalance fc) s () t →
        0 < (vestingPool t).shares → (vestingPool s).Appreciates (vestingPool t) := by
  refine ⟨fun name amount newVesting t hamount h => ?_,
    fun shares converted t hshares hlt hconverted h hremain => ?_,
    fun source t h hremain => ?_, fun t h hremain => ?_⟩
  · obtain ⟨hbought, hpool, hfundLt, hsharesLt⟩ := createVesting_deposits hexact hs hamount h
    refine ⟨hpool ▸ Pool.deposit_appreciates hs.fund, fun back hback => ?_⟩
    have hnonneg := Pool.sharesFor_nonneg hs.fund hs.shares.le hamount
    have hfund : (vestingPool t).fund = (vestingPool s).fund + amount := by
      rw [hpool]
      rfl
    have hshares : (vestingPool t).shares =
        (vestingPool s).shares + (vestingPool s).sharesFor amount := by
      rw [hpool]
      rfl
    have hsFund := hs.fund
    have hsShares := hs.shares
    have ht : Priced t := ⟨by omega, hfundLt, by omega, hsharesLt⟩
    rw [hbought] at hback
    rw [ht.value hexact hnonneg (by omega) hback, hpool]
    exact Pool.round_trip_le hs.fund hs.shares hamount
  · exact ((redeemShares_redeems hexact hshares hlt hconverted h).fair hs hremain).1
  · have hredeems : Redeems s t := (processVestingWithdrawal_redeems hexact source).rel _ _ _ h
    exact (hredeems.fair hs hremain).1
  · have hredeems : Redeems s t := (clearNullAccountBalance_redeems hexact).rel _ _ _ h
    exact (hredeems.fair hs hremain).1

/-- Seven tokens become shares at the current price, and that does not fall. -/
theorem vesting_price_monotone_sevenTokens : ∃ s newVesting t,
    Priced s ∧ Returns (createVesting sampleEnv.toFcLib (initMinerName 0) (wls 7) false) s newVesting t ∧
      newVesting = vests 7000 ∧ (vestingPool s).Appreciates (vestingPool t) := by
  have hends : endsIn (createVesting sampleEnv.toFcLib (initMinerName 0) (wls 1000) false)
      (initGenesis sampleEnv 1000000) (fun _ s =>
        decide (vestingPool s = ⟨1000, 1000000⟩) &&
        endsIn (createVesting sampleEnv.toFcLib (initMinerName 0) (wls 7) false) s
          fun newVesting _ => decide (newVesting = vests 7000)) = true := by
    decide +kernel
  obtain ⟨_, s, -, hend⟩ := returns_of_endsIn hends
  obtain ⟨hpool, hend⟩ := Bool.and_eq_true_iff.mp hend
  obtain ⟨newVesting, t, ht, hbought⟩ := returns_of_endsIn hend
  have hpool : vestingPool s = ⟨1000, 1000000⟩ := of_decide_eq_true hpool
  have hs : Priced s := by
    constructor
    all_goals
      rw [hpool]
      decide
  exact ⟨s, newVesting, t, hs, ht, of_decide_eq_true hbought,
    ((vesting_price_monotone sampleEnv_safeExact s hs).1 _ _ _ _ (by decide) ht).1⟩

end Monotone

end Whaleshares.VestingPrice
