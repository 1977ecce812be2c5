import Whaleshares.Protocol
import Whaleshares.Table

/-!
# The objects of the chain state

The object types of `chain/account_object.hpp`, `comment_object.hpp`,
`witness_objects.hpp`, `wls_objects.hpp`, `transaction_object.hpp`,
`global_property_object.hpp`, `block_summary_object.hpp` and the hardfork table,
with their defaults, the orders of the indices that the chain walks, and the state
that consists of one table for each of them.

An amount whose symbol never changes is kept as the number alone. Fields that no
modelled function reads or writes (`last_work` of a witness, `total_reward_shares2`
of the global properties, the packed transaction of the duplicate check) are left
out; so are the objects of plugins.
-/

namespace Whaleshares.Objects

open Config Fc Assets Protocol

/-- A name that the source gives as a text. -/
def nameOf (text : String) : AccountName := .ofBytes (bytesOf text)

section Accounts

/-- `account_object` -/
structure AccountObject where
  id : ℕ
  name : AccountName := .empty
  memoKey : PublicKey := .null
  jsonMetadata : Bytes := []
  proxy : AccountName := .empty
  lastAccountUpdate : TimePointSec := 0
  created : TimePointSec := 0
  recoveryAccount : AccountName := .empty
  commentCount : ℕ := 0
  lifetimeVoteCount : ℕ := 0
  postCount : ℕ := 0
  votingPower : ℕ := wls100Percent
  lastVoteTime : TimePointSec := 0
  /-- WLS -/
  balance : ℤ := 0
  /-- WLS -/
  rewardSteemBalance : ℤ := 0
  /-- VESTS -/
  rewardVestingBalance : ℤ := 0
  /-- WLS -/
  rewardVestingSteem : ℤ := 0
  curationRewards : ℤ := 0
  postingRewards : ℤ := 0
  /-- VESTS -/
  vestingShares : ℤ := 0
  /-- VESTS -/
  vestingWithdrawRate : ℤ := 0
  nextVestingWithdrawal : TimePointSec := timePointSecMaximum
  withdrawn : ℤ := 0
  toWithdraw : ℤ := 0
  withdrawRoutes : ℕ := 0
  /-- `WLS_MAX_PROXY_RECURSION_DEPTH` values. -/
  proxiedVsfVotes : List ℤ := [0, 0, 0, 0]
  witnessesVotedFor : ℕ := 0
  lastPost : TimePointSec := 0
  lastRootPost : TimePointSec := 0
  postBandwidth : ℕ := 0

/-- `witness_vote_weight` -/
def AccountObject.witnessVoteWeight (fc : FcLib) (a : AccountObject) : Except Exc ℤ :=
  a.proxiedVsfVotes.foldlM fc.add a.vestingShares

/-- `by_next_vesting_withdrawal` -/
def AccountObject.byNextVestingWithdrawal (a b : AccountObject) : Bool :=
  a.nextVestingWithdrawal < b.nextVestingWithdrawal ||
    (a.nextVestingWithdrawal = b.nextVestingWithdrawal && a.id ≤ b.id)

/-- `account_authority_object` -/
structure AccountAuthorityObject where
  id : ℕ
  account : AccountName
  owner : Authority
  active : Authority
  posting : Authority
  lastOwnerUpdate : TimePointSec := 0

end Accounts

section Comments

/-- `comment_object` -/
structure CommentObject where
  id : ℕ
  category : Bytes := []
  parentAuthor : AccountName := .empty
  parentPermlink : Bytes := []
  author : AccountName
  permlink : Bytes
  title : Bytes := []
  body : Bytes := []
  jsonMetadata : Bytes := []
  lastUpdate : TimePointSec
  created : TimePointSec
  active : TimePointSec
  lastPayout : TimePointSec := 0
  depth : ℕ := 0
  children : ℕ := 0
  netRshares : ℤ := 0
  absRshares : ℤ := 0
  voteRshares : ℤ := 0
  childrenAbsRshares : ℤ := 0
  cashoutTime : TimePointSec
  maxCashoutTime : TimePointSec
  totalVoteWeight : ℕ := 0
  rewardWeight : ℕ := 0
  /-- WLS -/
  totalPayoutValue : ℤ := 0
  /-- WLS -/
  curatorPayoutValue : ℤ := 0
  /-- WLS -/
  beneficiaryPayoutValue : ℤ := 0
  authorRewards : ℤ := 0
  netVotes : Int32 := 0
  rootComment : ℕ
  maxAcceptedPayout : Asset := wls 1000000000
  allowReplies : Bool := true
  allowVotes : Bool := true
  allowCurationRewards : Bool := true
  beneficiaries : List BeneficiaryRoute := []

/-- The text that `std::strcmp` sees: up to the first zero byte. -/
def cString (s : Bytes) : Bytes := s.takeWhile (· ≠ 0)

/-- The key of `by_permlink`, which compares permlinks by `strcmp_less`. -/
def CommentObject.hasPermlink (author : AccountName) (permlink : Bytes) (c : CommentObject) :
    Bool :=
  c.author = author && cString c.permlink = cString permlink

/-- `by_cashout_time` -/
def CommentObject.byCashoutTime (a b : CommentObject) : Bool :=
  a.cashoutTime < b.cashoutTime || (a.cashoutTime = b.cashoutTime && a.id ≤ b.id)

/-- `comment_vote_object` -/
structure CommentVoteObject where
  id : ℕ
  voter : ℕ
  comment : ℕ
  weight : ℕ := 0
  rshares : ℤ := 0
  votePercent : ℤ := 0
  lastUpdate : TimePointSec
  numChanges : ℤ := 0

/-- `by_comment_voter`, among the votes of one comment. -/
def CommentVoteObject.byVoter (a b : CommentVoteObject) : Bool := a.voter ≤ b.voter

/-- `by_comment_weight_voter`, among the votes of one comment. -/
def CommentVoteObject.byWeightVoter (a b : CommentVoteObject) : Bool :=
  b.weight < a.weight || (a.weight = b.weight && a.voter ≤ b.voter)

end Comments

section Witnesses

/-- `witness_schedule_type` -/
inductive ScheduleType where
  | top19
  | timeshare
  | miner
  | none
  deriving DecidableEq

/-- `witness_object` -/
structure WitnessObject where
  id : ℕ
  owner : AccountName
  created : TimePointSec := 0
  url : Bytes := []
  totalMissed : ℕ := 0
  lastAslot : ℕ := 0
  lastConfirmedBlockNum : ℕ := 0
  signingKey : PublicKey
  props : ChainProperties := {}
  votes : ℤ := 0
  schedule : ScheduleType := .none
  virtualLastUpdate : ℕ := 0
  virtualPosition : ℕ := 0
  virtualScheduledTime : ℕ := virtualScheduleLapLength2
  runningVersion : Version := ⟨0⟩
  hardforkVersionVote : Version := ⟨0⟩
  hardforkTimeVote : TimePointSec := wlsGenesisTime

/-- `by_vote_name` -/
def WitnessObject.byVoteName (a b : WitnessObject) : Bool :=
  b.votes < a.votes || (a.votes = b.votes && a.owner.packed ≤ b.owner.packed)

/-- `by_schedule_time` -/
def WitnessObject.byScheduleTime (a b : WitnessObject) : Bool :=
  a.virtualScheduledTime < b.virtualScheduledTime ||
    (a.virtualScheduledTime = b.virtualScheduledTime && a.id ≤ b.id)

/-- `witness_vote_object` -/
structure WitnessVoteObject where
  id : ℕ
  witness : ℕ
  account : ℕ

/-- `by_account_witness`, among the votes of one account. -/
def WitnessVoteObject.byWitness (a b : WitnessVoteObject) : Bool := a.witness ≤ b.witness

/-- `witness_schedule_object` -/
structure WitnessScheduleObject where
  currentVirtualTime : ℕ := 0
  nextShuffleBlockNum : ℕ := 1
  /-- `WLS_MAX_WITNESSES` names. -/
  currentShuffledWitnesses : List AccountName
  numScheduledWitnesses : ℕ := 1
  top19Weight : ℕ := 1
  timeshareWeight : ℕ := 5
  witnessPayNormalizationFactor : ℕ := 25
  medianProps : ChainProperties := {}
  majorityVersion : Version := ⟨0⟩
  maxVotedWitnesses : ℕ := wlsMaxVotedWitnesses
  maxRunnerWitnesses : ℕ := wlsMaxRunnerWitnesses
  hardforkRequiredWitnesses : ℕ := wlsHardforkRequiredWitnesses

end Witnesses

section Globals

/-- `dynamic_global_property_object` -/
structure DynamicGlobalPropertyObject where
  headBlockNumber : ℕ := 0
  headBlockId : BlockId := .null
  time : TimePointSec := 0
  currentWitness : AccountName := .empty
  /-- WLS -/
  currentSupply : ℤ := 0
  /-- WLS -/
  totalVestingFundSteem : ℤ := 0
  /-- VESTS -/
  totalVestingShares : ℤ := 0
  /-- WLS -/
  totalRewardFundSteem : ℤ := 0
  /-- VESTS -/
  pendingRewardedVestingShares : ℤ := 0
  /-- WLS -/
  pendingRewardedVestingSteem : ℤ := 0
  maximumBlockSize : ℕ := 0
  currentAslot : ℕ := 0
  /-- 128 bits. -/
  recentSlotsFilled : ℕ := 0
  participationCount : ℕ := 0
  lastIrreversibleBlockNum : ℕ := 0
  votePowerReserveRate : ℕ := 40

/-- `get_vesting_share_price` -/
def DynamicGlobalPropertyObject.getVestingSharePrice (p : DynamicGlobalPropertyObject) : Price :=
  if p.totalVestingFundSteem = 0 ∨ p.totalVestingShares = 0 then ⟨wls 1, vests 1000⟩
  else ⟨vests p.totalVestingShares, wls p.totalVestingFundSteem⟩

/-- `get_reward_vesting_share_price` -/
def DynamicGlobalPropertyObject.getRewardVestingSharePrice (fc : FcLib)
    (p : DynamicGlobalPropertyObject) : Except Exc Price :=
  if p.pendingRewardedVestingShares = 0 ∨ p.pendingRewardedVestingSteem = 0 then
    .ok p.getVestingSharePrice
  else do
    let shares ← fc.add p.totalVestingShares p.pendingRewardedVestingShares
    let steem ← fc.add p.totalVestingFundSteem p.pendingRewardedVestingSteem
    pure ⟨vests shares, wls steem⟩

/-- `curve_id` -/
inductive CurveId where
  | quadratic
  | quadraticCuration
  | linear
  | squareRoot
  deriving DecidableEq

/-- `reward_fund_object` -/
structure RewardFundObject where
  id : ℕ
  name : AccountName
  /-- WLS -/
  rewardBalance : ℤ := 0
  recentClaims : ℕ := 0
  lastUpdate : TimePointSec := 0
  contentConstant : ℕ := 0
  percentCurationRewards : ℕ := 0
  percentContentRewards : ℕ := 0
  authorRewardCurve : CurveId := .linear
  curationRewardCurve : CurveId := .squareRoot

/-- `withdraw_vesting_route_object` -/
structure WithdrawVestingRouteObject where
  id : ℕ
  fromAccount : ℕ
  toAccount : ℕ
  percent : ℕ := 0
  autoVest : Bool := false

/-- `by_withdraw_route`, among the routes of one account. -/
def WithdrawVestingRouteObject.byToAccount (a b : WithdrawVestingRouteObject) : Bool :=
  a.toAccount ≤ b.toAccount

/-- `transaction_object` -/
structure TransactionObject where
  id : ℕ
  trxId : ℕ
  expiration : TimePointSec

/-- `hardfork_property_object` -/
structure HardforkPropertyObject where
  processedHardforks : List TimePointSec := []
  lastHardfork : ℕ := 0
  currentHardforkVersion : Version := ⟨0⟩
  nextHardfork : Version := ⟨0⟩
  nextHardforkTime : TimePointSec := 0

end Globals

/-- The object database: a table for each object type. The 65536 block summaries
are a function of their id. -/
structure ChainState where
  accounts : Table AccountObject
  accountAuthorities : Table AccountAuthorityObject
  comments : Table CommentObject
  commentVotes : Table CommentVoteObject
  witnesses : Table WitnessObject
  witnessVotes : Table WitnessVoteObject
  withdrawVestingRoutes : Table WithdrawVestingRouteObject
  rewardFunds : Table RewardFundObject
  transactions : Table TransactionObject
  dgp : DynamicGlobalPropertyObject
  wso : WitnessScheduleObject
  hardforks : HardforkPropertyObject
  blockSummaries : ℕ → BlockId

end Whaleshares.Objects
