import Whaleshares.Vesting

/-!
# Rewards

`chain/util/reward.cpp` and the routines of `chain/database.cpp` that create and pay
out tokens: the inflation of each block, the shares of reward funds, witnesses and
the development fund, and the payout of comments to curators, beneficiaries and
authors.
-/

namespace Whaleshares.Rewards

open Config Fc Assets Protocol Objects Program Database WitnessVotes Vesting

section Curves

/-- `find_msb`; zero counts as one. -/
def findMsb (u : ℕ) : ℕ := Nat.log2 u

/-- `approx_sqrt` -/
def approxSqrt (x : ℕ) : ℕ :=
  if x = 0 then 0
  else
    let msbX := findMsb x
    let msbZ := msbX / 2
    let msbZBit := 2 ^ msbZ
    let mantissaX := x % 2 ^ msbX
    let mantissaZHi := if msbX % 2 = 1 then msbZBit else 0
    let mantissaZLo := mantissaX / 2 ^ (msbX - msbZ) % 2 ^ 64
    let mantissaZ := (mantissaZHi ||| mantissaZLo) / 2
    msbZBit ||| mantissaZ

/-- `evaluate_reward_curve` -/
def evaluateRewardCurve (rshares : ℕ) (curve : CurveId) (contentConstant : ℕ) : Except Exc ℕ :=
  match curve with
  | .quadratic =>
    let rsharesPlusS := uint128Add rshares contentConstant
    .ok (uint128Sub (uint128Mul rsharesPlusS rsharesPlusS)
      (uint128Mul contentConstant contentConstant))
  | .quadraticCuration =>
    let twoAlpha := uint128Mul contentConstant 2
    uint128Div (rshares % 2 ^ 64 * 2 ^ 64) (uint128Add twoAlpha rshares)
  | .linear => .ok rshares
  | .squareRoot => .ok (approxSqrt rshares)

/-- `comment_reward_context` -/
structure CommentRewardContext where
  rshares : ℤ
  rewardWeight : ℕ
  maxPayout : Asset
  totalRewardShares2 : ℕ
  totalRewardFundSteem : ℤ
  rewardCurve : CurveId
  contentConstant : ℕ

/-- `get_rshare_reward` -/
def getRshareReward (ctx : CommentRewardContext) : Except Exc ℕ := do
  fcAssert (0 < ctx.rshares) "ctx.rshares > 0"
  fcAssert (0 < ctx.totalRewardShares2) "ctx.total_reward_shares2 > 0"
  let rf := (ctx.totalRewardFundSteem % 2 ^ 256).toNat
  let claim ← evaluateRewardCurve (uint128 ctx.rshares) ctx.rewardCurve ctx.contentConstant
  let claim := claim * ctx.rewardWeight / wls100Percent
  let payout := rf * claim % 2 ^ 256 / ctx.totalRewardShares2
  fcAssert (payout ≤ 2 ^ 63 - 1) "payout_u256 <= u256( uint64_t( std::numeric_limits<int64_t>::max() ) )"
  let payout := if payout < wlsMinPayoutSteem then 0 else payout
  pure (min payout (ctx.maxPayout.amount % 2 ^ 64).toNat)

end Curves

variable (fc : FcLib)

section Inflation

/-- `WLS_DEV_FUND_ACC_NAME` -/
def devFundAccount : AccountName := nameOf "devfund"

/-- `get_current_inflation_rate` -/
def getCurrentInflationRate (headBlockNum : ℕ) : ℤ :=
  let atYear := min (headBlockNum / wlsBlocksPerYear) 8
  let start := wlsInflationRateStartPercent / 2 ^ atYear
  let dif := start - start / 2
  let adjustment := headBlockNum % wlsBlocksPerYear * dif / wlsBlocksPerYear
  max ((start : ℤ) - adjustment) wlsInflationRateStopPercent

/-- The loop of `pay_reward_funds` over the funds in the order of their ids. -/
def payRewardFunds (reward : ℤ) : ℤ → List RewardFundObject → Chain ℤ
  | used, [] => pure used
  | used, rf :: rest => do
    let r ← lift (fc.mul reward rf.percentContentRewards)
    let r ← lift (fc.div r wls100Percent)
    modifyRewardFund rf.id fun rfo => do
      let balance ← increase fc wlsSymbol rfo.rewardBalance (wls r)
      pure { rfo with rewardBalance := balance }
    let used ← lift (fc.add used r)
    lift (fcAssert (used ≤ reward) "used_rewards <= reward")
    payRewardFunds reward used rest

/-- A percentage of an amount. -/
def percentOf (amount : ℤ) (percent : ℕ) : Except Exc ℤ := do
  let product ← fc.mul amount percent
  fc.div product wls100Percent

/-- The factor of the pay of a witness, by how it was scheduled. -/
def payWeight (wso : WitnessScheduleObject) : ScheduleType → Option ℕ
  | .timeshare => some wso.timeshareWeight
  | .miner => some wso.top19Weight
  | .top19 => some wso.top19Weight
  | .none => none

/-- The pay of the witness of a block, from the share of all witnesses. -/
def witnessPay (wso : WitnessScheduleObject) (schedule : ScheduleType) (share : ℤ) :
    Except Exc ℤ := do
  let reward ← fc.mul share wlsMaxWitnesses
  let reward ← match payWeight wso schedule with
    | some weight => fc.mul reward weight
    | none => .ok reward
  fc.div reward wso.witnessPayNormalizationFactor

/-- `process_funds` -/
def processFunds : Chain Unit := do
  let props ← gets (·.dgp)
  let wso ← gets (·.wso)
  let newSteem ← lift (fc.mul props.currentSupply (getCurrentInflationRate props.headBlockNumber))
  let newSteem ← lift (fc.div newSteem (wls100Percent * wlsBlocksPerYear))
  let contentReward ← lift (percentOf fc newSteem wlsContentRewardPercent)
  let funds ← gets (·.rewardFunds.rows)
  let contentReward ← payRewardFunds fc contentReward 0 funds
  let devfundReward ← lift (percentOf fc newSteem wlsDevFundPercent)
  let share ← lift (fc.sub newSteem contentReward)
  let share ← lift (fc.sub share devfundReward)
  let cwit ← getWitness props.currentWitness
  let witnessReward ← lift (witnessPay fc wso cwit.schedule share)
  let paid ← lift (fc.add contentReward devfundReward)
  let newSteem ← lift (fc.add paid witnessReward)
  modifyDgp fun p => do
    let supply ← increase fc wlsSymbol p.currentSupply (wls newSteem)
    pure { p with currentSupply := supply }
  let _ ← createVesting fc cwit.owner (wls witnessReward) false
  modifyAccount (named devFundAccount) (depositBalance fc (wls devfundReward))

end Inflation

section Payout

/-- The loop of `pay_curators` over the votes of a comment; returns the rewards that
are left unclaimed. -/
def payCuratorLoop (maxRewards : ℤ) (totalWeight : ℕ) : ℤ → List CommentVoteObject → Chain ℤ
  | unclaimed, [] => pure unclaimed
  | unclaimed, vote :: rest => do
    let claim ← lift (uint128Div (uint128Mul (uint128 maxRewards) vote.weight) totalWeight)
    let claim ← lift (toUint64 claim)
    if 0 < claim then do
      let claim ← lift (fc.stored claim)
      let unclaimed ← lift (fc.sub unclaimed claim)
      let voter ← accountWhere (accountId vote.voter)
      let _ ← createVesting fc voter.name (wls claim) true
      modifyAccount (named voter.name) fun a => do
        let rewards ← fc.add a.curationRewards claim
        pure { a with curationRewards := rewards }
      payCuratorLoop maxRewards totalWeight unclaimed rest
    else payCuratorLoop maxRewards totalWeight unclaimed rest

/-- `pay_curators`: the unclaimed rewards, and the rewards that were paid. -/
def payCurators (c : CommentObject) (maxRewards : ℤ) : Chain (ℤ × ℤ) :=
  if c.allowCurationRewards = false then pure (0, 0)
  else if 0 < c.totalVoteWeight then do
    let votes ← gets fun s => s.commentVotes.select (fun v => v.comment = c.id)
      CommentVoteObject.byWeightVoter
    let unclaimed ← payCuratorLoop fc maxRewards c.totalVoteWeight maxRewards votes
    let paid ← lift (fc.sub maxRewards unclaimed)
    pure (unclaimed, paid)
  else do
    let paid ← lift (fc.sub maxRewards maxRewards)
    pure (maxRewards, paid)

/-- The loop over the beneficiaries of a comment; returns what they get together. -/
def payBeneficiaries (authorTokens : ℤ) : ℤ → List BeneficiaryRoute → Chain ℤ
  | total, [] => pure total
  | total, b :: rest => do
    let tokens ← lift (percentOf fc authorTokens b.weight)
    let account ← getAccount b.account
    let _ ← createVesting fc account.name (wls tokens) true
    let total ← lift (fc.add total tokens)
    payBeneficiaries authorTokens total rest

/-- `adjust_total_payout`, whose amounts are all in WLS. -/
def adjustTotalPayout (cur : ℕ) (total curator beneficiary : ℤ) : Chain Unit :=
  modifyComment cur fun c => do
    let total ← increase fc wlsSymbol c.totalPayoutValue (wls total)
    let curator ← increase fc wlsSymbol c.curatorPayoutValue (wls curator)
    let beneficiary ← increase fc wlsSymbol c.beneficiaryPayoutValue (wls beneficiary)
    pure { c with
      totalPayoutValue := total, curatorPayoutValue := curator
      beneficiaryPayoutValue := beneficiary }

/-- The payout of a reward that is not zero; returns what was paid in all. -/
def payComment (comment : CommentObject) (percentCuration reward : ℕ) : Chain ℤ := do
  let curation ← lift (uint128Div (uint128Mul reward percentCuration) wls100Percent)
  let curation ← lift (toUint64 curation)
  let curationTokens ← lift (fc.stored curation)
  let author ← lift (toUint64 reward)
  let authorTokens ← lift (fc.sub author curationTokens)
  let (unclaimed, curationTokens) ← payCurators fc comment curationTokens
  let authorTokens ← lift (fc.add authorTokens unclaimed)
  let claimed ← lift (fc.add authorTokens curationTokens)
  let totalBeneficiary ← payBeneficiaries fc authorTokens 0 comment.beneficiaries
  let authorTokens ← lift (fc.sub authorTokens totalBeneficiary)
  let author ← getAccount comment.author
  let _ ← createVesting fc author.name (wls authorTokens) true
  adjustTotalPayout fc comment.id authorTokens curationTokens totalBeneficiary
  modifyComment comment.id fun c => do
    let rewards ← fc.add c.authorRewards authorTokens
    pure { c with authorRewards := rewards }
  modifyAccount (named comment.author) fun a => do
    let rewards ← fc.add a.postingRewards authorTokens
    pure { a with postingRewards := rewards }
  pure claimed

/-- The state of a reward fund that a payout round works on. -/
structure RewardFundContext where
  recentClaims : ℕ
  rewardBalance : ℤ
  steemAwarded : ℤ

/-- The comment after its payout. -/
def paidOut (now : TimePointSec) (c : CommentObject) : CommentObject :=
  { c with
    netRshares := if 0 < c.netRshares then 0 else c.netRshares
    childrenAbsRshares := 0
    absRshares := 0
    voteRshares := 0
    totalVoteWeight := 0
    maxCashoutTime := timePointSecMaximum
    cashoutTime := timePointSecMaximum
    lastPayout := now }

/-- The reward part of `cashout_comment_helper`. -/
def rewardComment (fund : RewardFundContext) (comment : CommentObject) : Chain ℤ :=
  if 0 < comment.netRshares then do
    let rf ← getRewardFund
    let reward ← lift (getRshareReward
      { rshares := comment.netRshares
        rewardWeight := comment.rewardWeight
        maxPayout := comment.maxAcceptedPayout
        totalRewardShares2 := fund.recentClaims
        totalRewardFundSteem := fund.rewardBalance
        rewardCurve := rf.authorRewardCurve
        contentConstant := rf.contentConstant })
    if 0 < reward then payComment fc comment rf.percentCurationRewards reward else pure 0
  else pure 0

/-- `cashout_comment_helper` -/
def cashoutCommentHelper (fund : RewardFundContext) (comment : CommentObject) : Chain ℤ := do
  let claimed ← rewardComment fc fund comment
  let now ← headBlockTime
  modifyComment comment.id fun c => .ok (paidOut now c)
  let comment ← getCommentById comment.id
  whenever (comment.cashoutTime ≠ timePointSecMaximum) do
    let votes ← gets fun s => s.commentVotes.select (fun v => v.comment = comment.id)
      CommentVoteObject.byVoter
    forEach (fun v => modifyCommentVote v.id fun cvo => .ok { cvo with numChanges := -1 }) votes
  pure claimed

/-- The decay of the recent claims of a fund. -/
def decayed (now : TimePointSec) (rfo : RewardFundObject) :
    Except Exc RewardFundObject := do
  let delta := (now : ℤ) - rfo.lastUpdate
  if delta < wlsRecentRsharesDecayRate then do
    let decay ← uint128Div (uint128Mul rfo.recentClaims (uint128 delta)) wlsRecentRsharesDecayRate
    pure { rfo with recentClaims := uint128Sub rfo.recentClaims decay, lastUpdate := now }
  else pure { rfo with lastUpdate := now }

/-- The first loop of `process_comment_cashout`, over the funds. -/
def decayFunds (now : TimePointSec) : List RewardFundObject → Chain (List RewardFundContext)
  | [] => pure []
  | rf :: rest => do
    modifyRewardFund rf.id (decayed now)
    let rf ← lookup (·.rewardFunds) fun rfo => rfo.id = rf.id
    let funds ← decayFunds now rest
    pure (⟨rf.recentClaims, rf.rewardBalance, 0⟩ :: funds)

/-- `funds[ id ]`, which must exist. -/
def fundAt (funds : List RewardFundContext) (id : ℕ) : Except Exc RewardFundContext :=
  match funds[id]? with
  | some fund => .ok fund
  | none => .error ⟨.undefinedBehaviour, "funds[ fund_id ]"⟩

/-- The second loop of `process_comment_cashout`: the claims of all comments that are
due are added to the funds. -/
def addClaims : List RewardFundContext → List CommentObject → Chain (List RewardFundContext)
  | funds, [] => pure funds
  | funds, comment :: rest =>
    if 0 < comment.netRshares then do
      let rf ← getRewardFund
      let fund ← lift (fundAt funds rf.id)
      let claim ← lift (evaluateRewardCurve (uint128 comment.netRshares) rf.authorRewardCurve
        rf.contentConstant)
      addClaims
        (funds.set rf.id { fund with recentClaims := uint128Add fund.recentClaims claim }) rest
    else addClaims funds rest

/-- The first comment, where it is due. -/
def dueComment : Chain (Option CommentObject) := do
  let now ← headBlockTime
  let current ← gets fun s => s.comments.first (fun _ => true) CommentObject.byCashoutTime
  pure (current.filter fun c => c.cashoutTime ≤ now)

/-- The third loop of `process_comment_cashout`: the first comment that is due is paid
until none is due. -/
def payDueComments : ℕ → List RewardFundContext → Chain (List RewardFundContext)
  | 0, funds => do
    let current ← dueComment
    match current with
    | none => pure funds
    | some _ => lift (.error ⟨.undefinedBehaviour, "process_comment_cashout"⟩)
  | rounds + 1, funds => do
    let current ← dueComment
    match current with
    | none => pure funds
    | some comment => do
      let rf ← getRewardFund
      let fund ← lift (fundAt funds rf.id)
      let claimed ← cashoutCommentHelper fc fund comment
      let awarded ← lift (fc.add fund.steemAwarded claimed)
      payDueComments rounds (funds.set rf.id { fund with steemAwarded := awarded })

/-- The last loop of `process_comment_cashout`: the funds are written back. -/
def writeFunds : ℕ → List RewardFundContext → Chain Unit
  | _, [] => pure ()
  | id, fund :: rest => do
    modifyRewardFund id fun rfo => do
      let balance ← decrease fc wlsSymbol rfo.rewardBalance (wls fund.steemAwarded)
      pure { rfo with recentClaims := fund.recentClaims, rewardBalance := balance }
    writeFunds (id + 1) rest

/-- `process_comment_cashout` -/
def processCommentCashout : Chain Unit := do
  let now ← headBlockTime
  let rows ← gets (·.rewardFunds.rows)
  let funds ← decayFunds now rows
  let due ← gets fun s =>
    s.comments.select (fun c => c.cashoutTime ≤ now) CommentObject.byCashoutTime
  let funds ← addClaims funds due
  let funds ← payDueComments fc due.length funds
  writeFunds fc 0 funds

end Payout

end Whaleshares.Rewards
