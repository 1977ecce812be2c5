import Whaleshares.Rewards

/-!
# Evaluators of account, transfer and witness operations

`chain/wls_evaluator.cpp`, the evaluators that create and update accounts, move
tokens and vesting shares, and change witnesses, votes and proxies. The operations
on comments are in `CommentEvaluators`. Selling and buying of accounts is disabled
in the source; custom operations have no effect unless a plugin registers an
interpreter.
-/

namespace Whaleshares.Evaluators

open Config Fc Assets Protocol Objects Program Database WitnessVotes Vesting Rewards

section Accounts

variable (ctx : Context)

/-- The values that `witness_update_evaluator` takes over from the operation. -/
def updatedWitness (o : WitnessUpdateOperation) (w : WitnessObject) : WitnessObject :=
  { w with url := o.url, signingKey := o.blockSigningKey, props := o.props }

/-- `witness_update_evaluator::do_apply` -/
def applyWitnessUpdate (o : WitnessUpdateOperation) : Chain Unit := do
  let _ ← getAccount o.owner
  lift (fcAssert (o.url.length ≤ wlsMaxWitnessUrlLength) "URL is too long")
  lift (fcAssert (o.props.accountCreationFee.symbol = wlsSymbol)
    "o.props.account_creation_fee.symbol == WLS_SYMBOL")
  lift (fcAssert (!ctx.producing || o.props.maximumBlockSize ≤ wlsSoftMaxBlockSize)
    "Max block size cannot be more than 2MiB")
  let found ← gets fun s => s.witnesses.find (ownedBy o.owner)
  let now ← headBlockTime
  if found.isSome then modifyWitness (ownedBy o.owner) fun w => .ok (updatedWitness o w)
  else createWitness fun id => .ok (updatedWitness o
    { id := id, owner := o.owner, signingKey := .null, created := now })

/-- `WLS_WHALESHARE_ACC_NAME` -/
def whaleshareAccount : AccountName := nameOf "wls"

/-- The accounts of an authority must exist. -/
def checkAccountAuths (auth : Authority) : Chain Unit :=
  forEach (fun item => do
    let _ ← getAccount item.1
    pure ()) auth.accountAuths

/-- The account that `account_create_evaluator` creates. -/
def newAccount (o : AccountCreateOperation) (now : TimePointSec) (id : ℕ) : AccountObject :=
  { id := id, name := o.newAccountName, memoKey := o.memoKey, created := now
    lastVoteTime := now, recoveryAccount := o.creator, jsonMetadata := o.jsonMetadata }

/-- `account_create_evaluator::do_apply` -/
def applyAccountCreate (o : AccountCreateOperation) : Chain Unit := do
  lift (fcAssert (o.creator = whaleshareAccount)
    "only wls account can create new account at prelauch period.")
  let creator ← getAccount o.creator
  let enough ← lift ((wls creator.balance).ge o.fee)
  lift (fcAssert enough "Insufficient balance to create account.")
  let wso ← gets (·.wso)
  let paid ← lift (o.fee.ge (wls wso.medianProps.accountCreationFee.amount))
  lift (fcAssert paid "Insufficient Fee: ${f} required, ${p} provided.")
  checkAccountAuths o.owner
  checkAccountAuths o.active
  checkAccountAuths o.posting
  modifyAccount (named o.creator) fun c => do
    let balance ← decrease ctx.env.toFcLib wlsSymbol c.balance o.fee
    pure { c with balance := balance }
  let now ← headBlockTime
  createAccount fun id => .ok (newAccount o now id)
  createAccountAuthority fun id => .ok
    { id := id, account := o.newAccountName
      owner := o.owner, active := o.active, posting := o.posting, lastOwnerUpdate := 0 }
  whenever (0 < o.fee.amount) do
    let _ ← createVesting ctx.env.toFcLib o.newAccountName o.fee false

/-- `update_owner_authority` -/
def updateOwnerAuthority (account : AccountName) (owner : Authority) : Chain Unit := do
  let now ← headBlockTime
  modifyAccountAuthority account fun auth => .ok
    { auth with owner := owner, lastOwnerUpdate := now }

/-- The change of the owner authority in `account_update_evaluator`. -/
def changeOwner (o : AccountUpdateOperation) (owner : Authority) : Chain Unit := do
  let auth ← getAccountAuthority o.account
  let now ← headBlockTime
  lift (fcAssert ((wlsOwnerUpdateLimit : ℤ) < now - auth.lastOwnerUpdate)
    "Owner authority can only be updated once an hour.")
  checkAccountAuths owner
  updateOwnerAuthority o.account owner

/-- `account_update_evaluator::do_apply` -/
def applyAccountUpdate (o : AccountUpdateOperation) : Chain Unit := do
  lift (fcAssert (o.account ≠ nameOf "temp") "Cannot update temp account.")
  lift (o.posting.forM Authority.validate)
  let _ ← getAccount o.account
  let _ ← getAccountAuthority o.account
  forEach (changeOwner o) o.owner.toList
  forEach checkAccountAuths o.active.toList
  forEach checkAccountAuths o.posting.toList
  let now ← headBlockTime
  modifyAccount (named o.account) fun acc => .ok
    { acc with
      memoKey := if o.memoKey = .null then acc.memoKey else o.memoKey
      lastAccountUpdate := now
      jsonMetadata := if 0 < o.jsonMetadata.length then o.jsonMetadata else acc.jsonMetadata }
  whenever (o.active.isSome || o.posting.isSome) do
    modifyAccountAuthority o.account fun auth => .ok
      { auth with active := o.active.getD auth.active, posting := o.posting.getD auth.posting }

end Accounts

section Transfers

variable (fc : FcLib)

/-- `transfer_evaluator::do_apply` -/
def applyTransfer (o : TransferOperation) : Chain Unit := do
  let source ← getAccount o.source
  let _ ← getAccount o.target
  let balance ← lift (getBalance source o.amount.symbol)
  let enough ← lift (balance.ge o.amount)
  lift (fcAssert enough "Account does not have sufficient funds for transfer.")
  let delta ← lift (o.amount.neg fc)
  adjustBalance fc (named o.source) delta
  adjustBalance fc (named o.target) o.amount

/-- `transfer_to_vesting_evaluator::do_apply` -/
def applyTransferToVesting (o : TransferToVestingOperation) : Chain Unit := do
  let source ← getAccount o.source
  let target ← getAccount (if o.target.size ≠ 0 then o.target else o.source)
  let balance ← lift (getBalance source wlsSymbol)
  let enough ← lift (balance.ge o.amount)
  lift (fcAssert enough "Account does not have sufficient WLS for transfer.")
  let delta ← lift (o.amount.neg fc)
  adjustBalance fc (named o.source) delta
  let _ ← createVesting fc target.name o.amount false

/-- An `int64_t` value, wrapped. -/
def int64 (v : ℤ) : ℤ := (v + 2 ^ 63) % 2 ^ 64 - 2 ^ 63

/-- The checks of `withdraw_vesting_evaluator` on the amount. -/
def checkWithdrawal (o : WithdrawVestingOperation) (account : AccountObject)
    (props : DynamicGlobalPropertyObject) (wso : WitnessScheduleObject) : Except Exc Unit := do
  fcAssert (0 ≤ o.vestingShares.amount)
    "Cannot withdraw negative VESTS. account: ${account}, vests:${vests}"
  fcAssert (0 ≤ account.vestingShares) "Account does not have sufficient vesting for withdraw."
  let enough ← (vests account.vestingShares).ge o.vestingShares
  fcAssert enough "Account does not have sufficient Steem Power for withdraw."
  let product ← fc.mul account.vestingShares
    (wls100Percent - getCurrentInflationRate props.headBlockNumber)
  let most ← fc.div product wls100Percent
  fcAssert (o.vestingShares.amount ≤ most)
    "Max amount withdraw vesting is ${max_amount_powerdown_allowed}"
  let minVests ← wso.medianProps.accountCreationFee.times fc props.getVestingSharePrice
  let powered ← (vests account.vestingShares).gt ⟨int64 (minVests.amount * 10), minVests.symbol⟩
  fcAssert (powered || o.vestingShares.amount = 0)
    "Account registered by another account requires 10x account creation fee worth of Steem Power before it can be powered down."

/-- The account after a request to stop its withdrawals. -/
def stopWithdrawal (a : AccountObject) : AccountObject :=
  { a with
    vestingWithdrawRate := 0, nextVestingWithdrawal := timePointSecMaximum
    toWithdraw := 0, withdrawn := 0 }

/-- The account after a request to withdraw `amount`. -/
def startWithdrawal (now : TimePointSec) (amount : ℤ) (a : AccountObject) :
    Except Exc AccountObject := do
  let rate ← fc.div amount wlsVestingWithdrawIntervals
  let rate := if rate = 0 then 1 else rate
  fcAssert (a.vestingWithdrawRate ≠ rate)
    "This operation would not change the vesting withdraw rate."
  pure { a with
    vestingWithdrawRate := rate
    nextVestingWithdrawal := TimePointSec.plus now wlsVestingWithdrawIntervalSeconds
    toWithdraw := amount
    withdrawn := 0 }

/-- `withdraw_vesting_evaluator::do_apply` -/
def applyWithdrawVesting (o : WithdrawVestingOperation) : Chain Unit := do
  let account ← getAccount o.account
  let props ← gets (·.dgp)
  let wso ← gets (·.wso)
  lift (checkWithdrawal fc o account props wso)
  if o.vestingShares.amount = 0 then do
    lift (fcAssert (account.vestingWithdrawRate ≠ 0)
      "This operation would not change the vesting withdraw rate.")
    modifyAccount (named o.account) fun a => .ok (stopWithdrawal a)
  else
    modifyAccount (named o.account) (startWithdrawal fc props.time o.vestingShares.amount)

/-- The change of the routes in `set_withdraw_vesting_route_evaluator`. -/
def changeRoute (o : SetWithdrawVestingRouteOperation) (source target : AccountObject)
    (found : Option WithdrawVestingRouteObject) : Chain Unit :=
  match found with
  | none => do
    lift (fcAssert (o.percent ≠ 0) "Cannot create a 0% destination.")
    lift (fcAssert (source.withdrawRoutes < wlsMaxWithdrawRoutes)
      "Account already has the maximum number of routes.")
    createRoute fun id => .ok ⟨id, source.id, target.id, o.percent, o.autoVest⟩
    modifyAccount (named o.fromAccount) fun a => .ok
      { a with withdrawRoutes := (a.withdrawRoutes + 1) % 2 ^ 16 }
  | some route =>
    if o.percent = 0 then do
      removeRoute route.id
      modifyAccount (named o.fromAccount) fun a => .ok
        { a with withdrawRoutes := (a.withdrawRoutes + (2 ^ 16 - 1)) % 2 ^ 16 }
    else
      modifyRoute route.id fun r => .ok ⟨r.id, source.id, target.id, o.percent, o.autoVest⟩

/-- `set_withdraw_vesting_route_evaluator::do_apply` -/
def applySetWithdrawVestingRoute (o : SetWithdrawVestingRouteOperation) : Chain Unit := do
  let source ← getAccount o.fromAccount
  let target ← getAccount o.toAccount
  let found ← gets fun s => s.withdrawVestingRoutes.find fun route =>
    route.fromAccount = source.id && route.toAccount = target.id
  changeRoute o source target found
  -- the source reads `itr->from_account` before it tests `itr != wd_idx.end()`, so its loop looks
  -- behind the last route of the table; here it ends there
  let routes ← routesOf source.id
  lift (fcAssert ((routes.map (·.percent)).sum % 2 ^ 16 ≤ wls100Percent)
    "More than 100% of vesting withdrawals allocated to destinations.")

/-- The tokens behind the vesting shares that a claim moves. -/
def rewardVestingSteemToMove (op : ClaimRewardBalanceOperation) (acnt : AccountObject) :
    Except Exc ℤ :=
  if op.rewardVests = vests acnt.rewardVestingBalance then .ok acnt.rewardVestingSteem
  else do
    let product := uint128Mul (uint128 op.rewardVests.amount) (uint128 acnt.rewardVestingSteem)
    let share ← uint128Div product (uint128 acnt.rewardVestingBalance)
    let share ← toUint64 share
    fc.stored share

/-- The change of the account in `claim_reward_balance_evaluator`. -/
def claimShares (rewardVests toMove : Asset) (a : AccountObject) : Except Exc AccountObject := do
  let shares ← increase fc vestsSymbol a.vestingShares rewardVests
  let balance ← decrease fc vestsSymbol a.rewardVestingBalance rewardVests
  let steem ← decrease fc wlsSymbol a.rewardVestingSteem toMove
  pure { a with
    vestingShares := shares, rewardVestingBalance := balance, rewardVestingSteem := steem }

/-- The change of the totals in `claim_reward_balance_evaluator`. -/
def claimTotals (rewardVests toMove : Asset) (gpo : DynamicGlobalPropertyObject) :
    Except Exc DynamicGlobalPropertyObject := do
  let shares ← increase fc vestsSymbol gpo.totalVestingShares rewardVests
  let fund ← increase fc wlsSymbol gpo.totalVestingFundSteem toMove
  let pendingShares ← decrease fc vestsSymbol gpo.pendingRewardedVestingShares rewardVests
  let pendingSteem ← decrease fc wlsSymbol gpo.pendingRewardedVestingSteem toMove
  pure { gpo with
    totalVestingShares := shares, totalVestingFundSteem := fund
    pendingRewardedVestingShares := pendingShares, pendingRewardedVestingSteem := pendingSteem }

/-- `claim_reward_balance_evaluator::do_apply` -/
def applyClaimRewardBalance (op : ClaimRewardBalanceOperation) : Chain Unit := do
  let acnt ← getAccount op.account
  let steem ← lift (op.rewardSteem.le (wls acnt.rewardSteemBalance))
  lift (fcAssert steem "Cannot claim that much WLS. Claim: ${c} Actual: ${a}")
  let shares ← lift (op.rewardVests.le (vests acnt.rewardVestingBalance))
  lift (fcAssert shares "Cannot claim that much VESTS. Claim: ${c} Actual: ${a}")
  let toMove ← lift (rewardVestingSteemToMove fc op acnt)
  let delta ← lift (op.rewardSteem.neg fc)
  adjustRewardBalance fc (named op.account) delta
  adjustBalance fc (named op.account) op.rewardSteem
  modifyAccount (named op.account) (claimShares fc op.rewardVests (wls toMove))
  modifyDgp (claimTotals fc op.rewardVests (wls toMove))
  adjustProxiedWitnessVotes fc op.account op.rewardVests.amount

end Transfers

section Votes

variable (fc : FcLib)

/-- The changes that `account_witness_proxy_evaluator` takes away first. -/
def proxyDeltas (a : AccountObject) : Except Exc (List ℤ) :=
  (a.vestingShares :: a.proxiedVsfVotes).mapM fc.neg

/-- The walk along the proxies of a new proxy, which must not be long or meet an
account twice. -/
def checkProxyChain : ℕ → List ℕ → AccountObject → Chain Unit
  | 0, _, _ => lift (.error (failed "Proxy chain is too long."))
  | steps + 1, proxyChain, cprox =>
    if cprox.proxy.size ≠ 0 then do
      let next ← getAccount cprox.proxy
      lift (fcAssert (!proxyChain.contains next.id) "This proxy would create a proxy loop.")
      let proxyChain := next.id :: proxyChain
      lift (fcAssert (proxyChain.length ≤ wlsMaxProxyRecursionDepth) "Proxy chain is too long.")
      checkProxyChain steps proxyChain next
    else pure ()

/-- Sets the proxy of an account. -/
def setProxy (o : AccountWitnessProxyOperation) : Chain Unit :=
  modifyAccount (named o.account) fun a => .ok { a with proxy := o.proxy }

/-- The part of `account_witness_proxy_evaluator` that sets a proxy. -/
def setNewProxy (o : AccountWitnessProxyOperation) (account : AccountObject) (deltas : List ℤ) :
    Chain Unit := do
  let newProxy ← getAccount o.proxy
  let proxyChain := if account.id = newProxy.id then [account.id] else [account.id, newProxy.id]
  checkProxyChain (wlsMaxProxyRecursionDepth + 1) proxyChain newProxy
  clearWitnessVotes o.account
  setProxy o
  let deltas ← lift (deltas.mapM fc.neg)
  adjustProxiedWitnessVotesArray fc o.account deltas

/-- `account_witness_proxy_evaluator::do_apply` -/
def applyAccountWitnessProxy (o : AccountWitnessProxyOperation) : Chain Unit := do
  let account ← getAccount o.account
  lift (fcAssert (account.proxy ≠ o.proxy) "Proxy must change.")
  let deltas ← lift (proxyDeltas fc account)
  adjustProxiedWitnessVotesArray fc o.account deltas
  if o.proxy.size ≠ 0 then setNewProxy fc o account deltas else setProxy o

/-- Changes the number of witnesses that an account votes for. -/
def setVotedFor (name : AccountName) (f : ℕ → ℕ) : Chain Unit :=
  modifyAccount (named name) fun a => .ok { a with witnessesVotedFor := f a.witnessesVotedFor }

/-- The part of `account_witness_vote_evaluator` that adds a vote. -/
def approveWitness (o : AccountWitnessVoteOperation) (voter : AccountObject)
    (witness : WitnessObject) : Chain Unit := do
  lift (fcAssert o.approve "Vote doesn't exist, user must indicate a desire to approve witness.")
  lift (fcAssert (voter.witnessesVotedFor < wlsMaxAccountWitnessVotes)
    "Account has voted for too many witnesses.")
  createWitnessVote fun id => .ok ⟨id, witness.id, voter.id⟩
  let weight ← lift (voter.witnessVoteWeight fc)
  adjustWitnessVote fc witness.id weight
  setVotedFor o.account fun n => (n + 1) % 2 ^ 16

/-- The part of `account_witness_vote_evaluator` that takes a vote back. -/
def rejectWitness (o : AccountWitnessVoteOperation) (voter : AccountObject)
    (witness : WitnessObject) (vote : WitnessVoteObject) : Chain Unit := do
  lift (fcAssert (!o.approve) "Vote currently exists, user must indicate a desire to reject witness.")
  let weight ← lift (voter.witnessVoteWeight fc)
  let delta ← lift (fc.neg weight)
  adjustWitnessVote fc witness.id delta
  setVotedFor o.account fun n => (n + (2 ^ 16 - 1)) % 2 ^ 16
  removeWitnessVotes fun v => v.id = vote.id

/-- `account_witness_vote_evaluator::do_apply` -/
def applyAccountWitnessVote (o : AccountWitnessVoteOperation) : Chain Unit := do
  let voter ← getAccount o.account
  lift (fcAssert (voter.proxy.size = 0)
    "A proxy is currently set, please clear the proxy before voting for a witness.")
  let witness ← getWitness o.witness
  let found ← gets fun s => s.witnessVotes.find fun v =>
    v.account = voter.id && v.witness = witness.id
  match found with
  | none => approveWitness fc o voter witness
  | some vote => rejectWitness fc o voter witness vote

end Votes

end Whaleshares.Evaluators
