import Whaleshares.WitnessVotes

/-!
# Vesting

`create_vesting`, `clear_null_account_balance` and `process_vesting_withdrawals` of
`chain/database.cpp`: tokens turned into vesting shares at the current price, the
burning of what the null account holds, and the weekly withdrawals with their routes.
-/

namespace Whaleshares.Vesting

open Config Fc Assets Protocol Objects Program Database WitnessVotes

variable (fc : FcLib)

section CreateVesting

/-- The price that `create_vesting` uses. -/
def vestingPrice (toRewardBalance : Bool) (props : DynamicGlobalPropertyObject) :
    Except Exc Price :=
  if toRewardBalance then props.getRewardVestingSharePrice fc else .ok props.getVestingSharePrice

/-- The change that `create_vesting` makes to the account. -/
def creditVesting (toRewardBalance : Bool) (steem newVesting : Asset) (target : AccountObject) :
    Except Exc AccountObject :=
  if toRewardBalance then do
    let balance ← increase fc vestsSymbol target.rewardVestingBalance newVesting
    let value ← increase fc wlsSymbol target.rewardVestingSteem steem
    pure { target with rewardVestingBalance := balance, rewardVestingSteem := value }
  else do
    let shares ← increase fc vestsSymbol target.vestingShares newVesting
    pure { target with vestingShares := shares }

/-- The change that `create_vesting` makes to the global properties. -/
def creditVestingTotals (toRewardBalance : Bool) (steem newVesting : Asset)
    (props : DynamicGlobalPropertyObject) : Except Exc DynamicGlobalPropertyObject :=
  if toRewardBalance then do
    let shares ← increase fc vestsSymbol props.pendingRewardedVestingShares newVesting
    let value ← increase fc wlsSymbol props.pendingRewardedVestingSteem steem
    pure { props with pendingRewardedVestingShares := shares, pendingRewardedVestingSteem := value }
  else do
    let value ← increase fc wlsSymbol props.totalVestingFundSteem steem
    let shares ← increase fc vestsSymbol props.totalVestingShares newVesting
    pure { props with totalVestingFundSteem := value, totalVestingShares := shares }

/-- `create_vesting` -/
def createVesting (toAccount : AccountName) (steem : Asset) (toRewardBalance : Bool) :
    Chain Asset := do
  let props ← gets (·.dgp)
  let price ← lift (vestingPrice fc toRewardBalance props)
  let newVesting ← lift (steem.times fc price)
  modifyAccount (named toAccount) (creditVesting fc toRewardBalance steem newVesting)
  modifyDgp (creditVestingTotals fc toRewardBalance steem newVesting)
  whenever (toRewardBalance = false) (adjustProxiedWitnessVotes fc toAccount newVesting.amount)
  pure newVesting

end CreateVesting

section NullAccount

/-- `WLS_NULL_ACCOUNT` -/
def nullAccount : AccountName := nameOf "null"

/-- The liquid balance of the null account, added to what is burned. -/
def clearNullBalance (total : Asset) : Chain Asset := do
  let a ← getAccount nullAccount
  if 0 < a.balance then do
    let total ← lift (increase fc wlsSymbol total.amount (wls a.balance))
    let delta ← lift ((wls a.balance).neg fc)
    adjustBalance fc (named nullAccount) delta
    pure (wls total)
  else pure total

/-- The vesting shares of the null account, added to what is burned. -/
def clearNullVesting (total : Asset) : Chain Asset := do
  let a ← getAccount nullAccount
  if 0 < a.vestingShares then do
    let gpo ← gets (·.dgp)
    let converted ← lift ((vests a.vestingShares).times fc gpo.getVestingSharePrice)
    modifyDgp fun g => do
      let shares ← decrease fc vestsSymbol g.totalVestingShares (vests a.vestingShares)
      let steem ← decrease fc wlsSymbol g.totalVestingFundSteem converted
      pure { g with totalVestingShares := shares, totalVestingFundSteem := steem }
    modifyAccount (named nullAccount) fun a => .ok { a with vestingShares := 0 }
    let total ← lift (increase fc wlsSymbol total.amount converted)
    pure (wls total)
  else pure total

/-- The claimable balance of the null account, added to what is burned. -/
def clearNullReward (total : Asset) : Chain Asset := do
  let a ← getAccount nullAccount
  if 0 < a.rewardSteemBalance then do
    let total ← lift (increase fc wlsSymbol total.amount (wls a.rewardSteemBalance))
    let delta ← lift ((wls a.rewardSteemBalance).neg fc)
    adjustRewardBalance fc (named nullAccount) delta
    pure (wls total)
  else pure total

/-- The claimable vesting shares of the null account, added to what is burned. -/
def clearNullRewardVesting (total : Asset) : Chain Asset := do
  let a ← getAccount nullAccount
  if 0 < a.rewardVestingBalance then do
    let total ← lift (increase fc wlsSymbol total.amount (wls a.rewardVestingSteem))
    modifyDgp fun g => do
      let shares ←
        decrease fc vestsSymbol g.pendingRewardedVestingShares (vests a.rewardVestingBalance)
      let steem ←
        decrease fc wlsSymbol g.pendingRewardedVestingSteem (wls a.rewardVestingSteem)
      pure { g with pendingRewardedVestingShares := shares, pendingRewardedVestingSteem := steem }
    modifyAccount (named nullAccount) fun a =>
      .ok { a with rewardVestingSteem := 0, rewardVestingBalance := 0 }
    pure (wls total)
  else pure total

/-- The end of `clear_null_account_balance`. -/
def burn (total : Asset) : Chain Unit :=
  whenever (0 < total.amount) do
    let delta ← lift (total.neg fc)
    adjustSupply fc delta

/-- `clear_null_account_balance` -/
def clearNullAccountBalance : Chain Unit := do
  let total ← clearNullBalance fc (wls 0)
  let total ← clearNullVesting fc total
  let total ← clearNullReward fc total
  let total ← clearNullRewardVesting fc total
  burn fc total

end NullAccount

section Withdrawals

/-- The shares that an account withdraws this time. -/
def withdrawalOf (a : AccountObject) : Except Exc ℤ := do
  let remaining ← fc.sub a.toWithdraw a.withdrawn
  if remaining < a.vestingWithdrawRate then do
    let rest ← fc.mod a.toWithdraw a.vestingWithdrawRate
    pure (min a.vestingShares rest)
  else pure (min a.vestingShares a.vestingWithdrawRate)

/-- The routes that are visited for an account: the search starts above the route to
account zero. -/
def routesOf (account : ℕ) : Chain (List WithdrawVestingRouteObject) :=
  gets fun s => s.withdrawVestingRoutes.select
    (fun route => route.fromAccount = account && 0 < route.toAccount)
    WithdrawVestingRouteObject.byToAccount

/-- The part of a withdrawal that goes along a route. -/
def routeDeposit (toWithdraw : ℤ) (percent : ℕ) : Except Exc ℤ := do
  let share ← uint128Div (uint128Mul (uint128 toWithdraw) percent) wls100Percent
  let share ← toUint64 share
  fc.stored share

/-- `a.vesting_shares.amount += deposit` -/
def depositShares (deposit : ℤ) (a : AccountObject) : Except Exc AccountObject := do
  let shares ← fc.add a.vestingShares deposit
  pure { a with vestingShares := shares }

/-- The first pass of `process_vesting_withdrawals` over the routes of an account;
returns the shares that were deposited as shares. -/
def depositAsVests (toWithdraw : ℤ) : ℤ → List WithdrawVestingRouteObject → Chain ℤ
  | deposited, [] => pure deposited
  | deposited, route :: rest =>
    if route.autoVest then do
      let deposit ← lift (routeDeposit fc toWithdraw route.percent)
      let deposited ← lift (fc.add deposited deposit)
      whenever (0 < deposit) do
        let target ← accountWhere (accountId route.toAccount)
        modifyAccount (accountId route.toAccount) (depositShares fc deposit)
        adjustProxiedWitnessVotes fc target.name deposit
      depositAsVests toWithdraw deposited rest
    else depositAsVests toWithdraw deposited rest

/-- `a.balance += converted` -/
def depositBalance (converted : Asset) (a : AccountObject) : Except Exc AccountObject := do
  let balance ← increase fc wlsSymbol a.balance converted
  pure { a with balance := balance }

/-- The totals after shares were turned into tokens. -/
def redeemShares (shares : ℤ) (converted : Asset) (o : DynamicGlobalPropertyObject) :
    Except Exc DynamicGlobalPropertyObject := do
  let steem ← decrease fc wlsSymbol o.totalVestingFundSteem converted
  let shares ← fc.sub o.totalVestingShares shares
  pure { o with totalVestingFundSteem := steem, totalVestingShares := shares }

/-- The second pass of `process_vesting_withdrawals` over the routes of an account;
returns the shares that were deposited as tokens. The sum of the tokens is computed
and not used. -/
def depositAsSteem (toWithdraw : ℤ) : ℤ → ℤ → List WithdrawVestingRouteObject → Chain ℤ
  | deposited, _, [] => pure deposited
  | deposited, steem, route :: rest =>
    if route.autoVest then depositAsSteem toWithdraw deposited steem rest
    else do
      let _ ← accountWhere (accountId route.toAccount)
      let deposit ← lift (routeDeposit fc toWithdraw route.percent)
      let deposited ← lift (fc.add deposited deposit)
      let props ← gets (·.dgp)
      let converted ← lift ((vests deposit).times fc props.getVestingSharePrice)
      let steem ← lift (increase fc wlsSymbol steem converted)
      whenever (0 < deposit) do
        modifyAccount (accountId route.toAccount) (depositBalance fc converted)
        modifyDgp (redeemShares fc deposit converted)
      depositAsSteem toWithdraw deposited steem rest

/-- The change of the account at the end of its withdrawal. -/
def finishWithdrawal (toWithdraw : ℤ) (converted : Asset) (a : AccountObject) :
    Except Exc AccountObject := do
  let shares ← fc.sub a.vestingShares toWithdraw
  let balance ← increase fc wlsSymbol a.balance converted
  let withdrawn ← fc.add a.withdrawn toWithdraw
  if withdrawn ≥ a.toWithdraw || shares = 0 then
    pure { a with
      vestingShares := shares, balance := balance, withdrawn := withdrawn
      vestingWithdrawRate := 0, nextVestingWithdrawal := timePointSecMaximum }
  else
    pure { a with
      vestingShares := shares, balance := balance, withdrawn := withdrawn
      nextVestingWithdrawal :=
        TimePointSec.plus a.nextVestingWithdrawal wlsVestingWithdrawIntervalSeconds }

/-- The account after its withdrawal: the power-down ends when all is withdrawn or no shares are
left. -/
theorem finishWithdrawal_eq_ok {fc : FcLib} {toWithdraw : ℤ} {converted : Asset}
    {a b : AccountObject} (h : finishWithdrawal fc toWithdraw converted a = .ok b) :
    ∃ shares balance withdrawn, fc.sub a.vestingShares toWithdraw = .ok shares ∧
      increase fc wlsSymbol a.balance converted = .ok balance ∧
      fc.add a.withdrawn toWithdraw = .ok withdrawn ∧
      b = { a with
        vestingShares := shares, balance := balance, withdrawn := withdrawn
        vestingWithdrawRate :=
          if withdrawn ≥ a.toWithdraw ∨ shares = 0 then 0 else a.vestingWithdrawRate
        nextVestingWithdrawal :=
          if withdrawn ≥ a.toWithdraw ∨ shares = 0 then timePointSecMaximum
          else TimePointSec.plus a.nextVestingWithdrawal wlsVestingWithdrawIntervalSeconds } := by
  obtain ⟨shares, hshares, h⟩ := bind_eq_ok h
  obtain ⟨balance, hbalance, h⟩ := bind_eq_ok h
  obtain ⟨withdrawn, hwithdrawn, h⟩ := bind_eq_ok h
  refine ⟨shares, balance, withdrawn, hshares, hbalance, hwithdrawn, ?_⟩
  simp only [Bool.or_eq_true, decide_eq_true_eq] at h
  split at h
  next hdone => rw [← Except.ok.inj h, if_pos hdone, if_pos hdone]
  next hmore => rw [← Except.ok.inj h, if_neg hmore, if_neg hmore]

/-- One round of `process_vesting_withdrawals`. -/
def processVestingWithdrawal (source : AccountObject) : Chain Unit := do
  let toWithdraw ← lift (withdrawalOf fc source)
  let routes ← routesOf source.id
  let asVests ← depositAsVests fc toWithdraw 0 routes
  let asSteem ← depositAsSteem fc toWithdraw 0 0 routes
  let rest ← lift (fc.sub toWithdraw asSteem)
  let toConvert ← lift (fc.sub rest asVests)
  lift (fcAssert (0 ≤ toConvert) "Deposited more vests than were supposed to be withdrawn")
  let props ← gets (·.dgp)
  let converted ← lift ((vests toConvert).times fc props.getVestingSharePrice)
  modifyAccount (named source.name) (finishWithdrawal fc toWithdraw converted)
  modifyDgp (redeemShares fc toConvert converted)
  whenever (0 < toWithdraw) do
    let delta ← lift (fc.neg toWithdraw)
    adjustProxiedWitnessVotes fc source.name delta

/-- The account after `a` in `by_next_vesting_withdrawal`. -/
def nextInWithdrawalOrder (a : AccountObject) : Chain (Option AccountObject) :=
  gets fun s => s.accounts.first (fun b => !b.byNextVestingWithdrawal a)
    AccountObject.byNextVestingWithdrawal

/-- The loop of `process_vesting_withdrawals`. The iterator has moved on to the next
account before the current one is processed; that account is read again when its
turn comes. -/
def vestingWithdrawalLoop : ℕ → Option AccountObject → Chain Unit
  | _, none => pure ()
  | 0, some _ => lift (.error ⟨.undefinedBehaviour, "process_vesting_withdrawals"⟩)
  | rounds + 1, some current => do
    let source ← getAccount current.name
    let now ← headBlockTime
    if source.nextVestingWithdrawal ≤ now then do
      let next ← nextInWithdrawalOrder source
      processVestingWithdrawal fc source
      vestingWithdrawalLoop rounds next
    else pure ()

/-- More rounds than `process_vesting_withdrawals` can make: the times that it visits
for one account are a week apart and fit into 32 bits. -/
def withdrawalRounds (s : ChainState) : ℕ :=
  s.accounts.rows.length * (2 ^ 32 / wlsVestingWithdrawIntervalSeconds + 2)

/-- `process_vesting_withdrawals` -/
def processVestingWithdrawals : Chain Unit := do
  let rounds ← gets withdrawalRounds
  let first ← gets fun s =>
    s.accounts.first (fun _ => true) AccountObject.byNextVestingWithdrawal
  vestingWithdrawalLoop fc rounds first

end Withdrawals

end Whaleshares.Vesting
