import Whaleshares.Evaluators

/-!
# Evaluators of comment operations

`chain/wls_evaluator.cpp`, the evaluators that create, edit and delete comments, set
their options and vote on them.
-/

namespace Whaleshares.CommentEvaluators

open Config Fc Assets Protocol Objects Program Database Rewards Evaluators

section Comments

variable (env : Env)

/-- A character that `validate_permlink_0_1` accepts. -/
def isPermlinkCharacter (c : UInt8) : Bool := isLetter c || isDigit c || c = 45

/-- `validate_permlink_0_1` -/
def validatePermlink01 (permlink : Bytes) : Except Exc Unit := do
  fcAssert (wlsMinPermlinkLength < permlink.length && permlink.length < wlsMaxPermlinkLength)
    "Permlink is not a valid size."
  fcAssert (permlink.all isPermlinkCharacter) "Invalid permlink character: ${s}"

/-- `strcmp_equal` -/
def strcmpEqual (a b : Bytes) : Bool := a.length = b.length || cString a = cString b

/-- The loop that changes the number of children of a comment and of all comments
above it. -/
def updateAncestors (f : ℕ → ℕ) (now : TimePointSec) : ℕ → CommentObject → Chain Unit
  | 0, _ => lift (.error ⟨.undefinedBehaviour, "a cycle of comments"⟩)
  | steps + 1, parent => do
    modifyComment parent.id fun p => .ok { p with children := f p.children, active := now }
    whenever (parent.parentAuthor ≠ .empty) do
      let next ← getComment parent.parentAuthor parent.parentPermlink
      updateAncestors f now steps next

/-- `children++` -/
def increment (n : ℕ) : ℕ := (n + 1) % 2 ^ 32

/-- `children--` -/
def decrement (n : ℕ) : ℕ := (n + (2 ^ 32 - 1)) % 2 ^ 32

/-- The parent that a comment operation names. -/
def findParent (o : CommentOperation) : Chain (Option CommentObject) :=
  if o.parentAuthor = .empty then pure none
  else do
    let parent ← getComment o.parentAuthor o.parentPermlink
    lift (fcAssert (parent.depth < wlsMaxCommentDepth)
      "Comment is nested ${x} posts deep, maximum depth is ${y}.")
    pure (some parent)

/-- The checks before a comment is created. -/
def checkNewComment (o : CommentOperation) (parent : Option CommentObject) (auth : AccountObject)
    (now : TimePointSec) : Chain Unit := do
  forEach (fun parent => do
    let root ← getCommentById parent.rootComment
    lift (fcAssert root.allowReplies "The parent comment has disabled replies.")) parent.toList
  let headNum ← headBlockNum
  whenever (28800 < headNum) do
    if o.parentAuthor = .empty then
      lift (fcAssert ((wlsMinRootCommentInterval : ℤ) < now - auth.lastRootPost)
        "You may only post once every 5 minutes.")
    else
      lift (fcAssert ((wlsMinReplyInterval : ℤ) < now - auth.lastPost)
        "You may only comment once every 20 seconds.")

/-- The author of a new comment. -/
def countPost (o : CommentOperation) (now : TimePointSec) (a : AccountObject) : AccountObject :=
  { a with
    lastRootPost := if o.parentAuthor = .empty then now else a.lastRootPost
    lastPost := now
    postCount := (a.postCount + 1) % 2 ^ 32 }

/-- The object of a new comment. -/
def newComment (o : CommentOperation) (parent : Option CommentObject) (now : TimePointSec)
    (id : ℕ) : Except Exc CommentObject := do
  validatePermlink01 o.parentPermlink
  validatePermlink01 o.permlink
  pure
    { id := id
      author := o.author
      permlink := o.permlink
      lastUpdate := now
      created := now
      active := now
      lastPayout := 0
      maxCashoutTime := timePointSecMaximum
      rewardWeight := wls100Percent
      parentAuthor := (parent.map (·.author)).getD .empty
      parentPermlink := (parent.map (·.permlink)).getD o.parentPermlink
      depth := (parent.map fun p => (p.depth + 1) % 2 ^ 16).getD 0
      category := (parent.map (·.category)).getD o.parentPermlink
      rootComment := (parent.map (·.rootComment)).getD id
      cashoutTime := TimePointSec.plus now wlsCashoutWindowSeconds
      title := o.title
      body := if o.body.length < 1024 * 1024 * 128 then o.body else []
      jsonMetadata := if env.isUtf8 o.jsonMetadata then o.jsonMetadata else [] }

/-- The part of `comment_evaluator` that creates a comment. -/
def createNewComment (o : CommentOperation) (parent : Option CommentObject)
    (auth : AccountObject) (now : TimePointSec) : Chain Unit := do
  checkNewComment o parent auth now
  modifyAccount (named o.author) fun a => .ok (countPost o now a)
  createComment (newComment env o parent now)
  let comments ← gets (·.comments.rows.length)
  forEach (updateAncestors increment now comments) parent.toList

/-- The change of a comment that is edited. -/
def editedComment (o : CommentOperation) (now : TimePointSec) (com : CommentObject) :
    Except Exc CommentObject := do
  fcAssert (com.parentAuthor = o.parentAuthor) "The parent of a comment cannot change."
  fcAssert (strcmpEqual com.parentPermlink o.parentPermlink)
    "The permlink of a comment cannot change."
  pure { com with
    lastUpdate := now
    active := now
    title := if 0 < o.title.length then o.title else com.title
    jsonMetadata :=
      if 0 < o.jsonMetadata.length && env.isUtf8 o.jsonMetadata then o.jsonMetadata
      else com.jsonMetadata
    body := if 0 < o.body.length then env.patchBody com.body o.body else com.body }

/-- `comment_evaluator::do_apply` -/
def applyComment (o : CommentOperation) : Chain Unit := do
  lift (fcAssert (0 < o.title.length + o.body.length + o.jsonMetadata.length)
    "Cannot update comment because nothing appears to be changing.")
  let found ← gets fun s => s.comments.find (CommentObject.hasPermlink o.author o.permlink)
  let auth ← getAccount o.author
  let parent ← findParent o
  lift (fcAssert (o.jsonMetadata.length = 0 || env.isUtf8 o.jsonMetadata)
    "JSON Metadata must be UTF-8")
  let now ← headBlockTime
  match found with
  | none => createNewComment env o parent auth now
  | some comment => modifyComment comment.id (editedComment env o now)

/-- The change of the ancestors when a comment is deleted. -/
def discountAncestors (comment : CommentObject) : Chain Unit := do
  let parent ← getComment comment.parentAuthor comment.parentPermlink
  let now ← headBlockTime
  let comments ← gets (·.comments.rows.length)
  updateAncestors decrement now comments parent

/-- `delete_comment_evaluator::do_apply` -/
def applyDeleteComment (o : DeleteCommentOperation) : Chain Unit := do
  let comment ← getComment o.author o.permlink
  lift (fcAssert (comment.children = 0) "Cannot delete a comment with replies.")
  lift (fcAssert (comment.cashoutTime ≠ timePointSecMaximum)
    "comment.cashout_time != fc::time_point_sec::maximum()")
  lift (fcAssert (comment.netRshares ≤ 0) "Cannot delete a comment with net positive votes.")
  removeCommentVotes fun v => v.comment = comment.id
  whenever (comment.parentAuthor ≠ .empty) (discountAncestors comment)
  removeComment comment.id

/-- A beneficiary must exist. -/
def checkBeneficiary (s : ChainState) (b : BeneficiaryRoute) : Except Exc Unit :=
  fcAssert (s.accounts.find (named b.account)).isSome "Beneficiary \"${a}\" must exist."

/-- `comment_options_extension_visitor` -/
def applyBeneficiaries (id : ℕ) (cpb : CommentPayoutBeneficiaries) : Chain Unit := do
  let c ← getCommentById id
  lift (fcAssert (c.beneficiaries.length = 0) "Comment already has beneficiaries specified.")
  lift (fcAssert (c.absRshares = 0)
    "Comment must not have been voted on before specifying beneficiaries.")
  let s ← gets fun s => s
  modifyComment id fun c => do
    cpb.beneficiaries.forM (checkBeneficiary s)
    pure { c with beneficiaries := c.beneficiaries ++ cpb.beneficiaries }

/-- `comment_options_evaluator::do_apply` -/
def applyCommentOptions (o : CommentOptionsOperation) : Chain Unit := do
  let comment ← getComment o.author o.permlink
  lift (fcAssert ((o.allowCurationRewards && o.allowVotes &&
      comment.maxAcceptedPayout.amount ≤ o.maxAcceptedPayout.amount) || comment.absRshares = 0)
    "One of the included comment options requires the comment to have no rshares allocated to it.")
  lift (fcAssert (comment.allowCurationRewards || !o.allowCurationRewards)
    "Curation rewards cannot be re-enabled.")
  lift (fcAssert (comment.allowVotes || !o.allowVotes) "Voting cannot be re-enabled.")
  lift (fcAssert (o.maxAcceptedPayout.amount ≤ comment.maxAcceptedPayout.amount)
    "A comment cannot accept a greater payout.")
  modifyComment comment.id fun c => .ok
    { c with
      maxAcceptedPayout := o.maxAcceptedPayout
      allowVotes := o.allowVotes
      allowCurationRewards := o.allowCurationRewards }
  forEach (applyBeneficiaries comment.id) o.extensions

end Comments

section Votes

variable (fc : FcLib)

/-- The voting power that an account has regenerated to. -/
def currentPower (voter : AccountObject) (elapsedSeconds : ℤ) : ℤ :=
  min (voter.votingPower +
    ((wls100Percent : ℤ) * elapsedSeconds).tdiv wlsVoteRegenerationSeconds) wls100Percent

/-- The voting power that a vote uses. -/
def usedPower (votePowerReserveRate : ℕ) (power weight : ℤ) : Except Exc ℤ := do
  let used := (power * weight.natAbs).tdiv wls100Percent
  let maxVoteDenom : ℤ :=
    (votePowerReserveRate * wlsVoteRegenerationSeconds % 2 ^ 32 / (60 * 60 * 24) : ℕ)
  fcAssert (0 < maxVoteDenom) "max_vote_denom > 0"
  pure ((used + maxVoteDenom - 1).tdiv maxVoteDenom)

/-- The shares behind a vote, before the sign; a downvote counts a third. -/
def voteShares (vestingShares used weight : ℤ) : Except Exc ℤ := do
  let shares ← uint128Div (uint128Mul (uint128 vestingShares) (uint128 used)) wls100Percent
  let shares ← toUint64 shares
  let shares := int64 shares
  pure (if weight < 0 then shares.tdiv 3 else shares)

/-- What the common part of `vote_evaluator` computes. -/
structure VotePower where
  /-- The voting power that is left. -/
  left : ℤ
  /-- The shares behind the vote. -/
  absRshares : ℤ

/-- The common checks of `vote_evaluator`. -/
def votePower (o : VoteOperation) (voter : AccountObject) (dgp : DynamicGlobalPropertyObject) :
    Except Exc VotePower := do
  let elapsed := (dgp.time : ℤ) - voter.lastVoteTime
  fcAssert (wlsMinVoteIntervalSec ≤ elapsed) "Can only vote once every 3 seconds."
  let power := currentPower voter elapsed
  fcAssert (0 < power) "Account currently does not have voting power."
  let used ← usedPower dgp.votePowerReserveRate power o.weight
  fcAssert (used ≤ power) "Account does not have enough power to vote."
  let absRshares ← voteShares voter.vestingShares used o.weight
  fcAssert (wlsVoteDustThreshold < absRshares || o.weight = 0)
    "Voting weight is too small, please accumulate more WHALESTAKE."
  pure ⟨power - used, absRshares⟩

/-- An increase of a payout is not allowed shortly before it. -/
def checkLockout (now : TimePointSec) (comment : CommentObject) : Except Exc Unit :=
  fcAssert ((now : ℤ) < comment.cashoutTime - wlsUpvoteLockout)
    "Cannot increase payout within last twelve hours before payout."

/-- The voter after a vote. -/
def voted (now : TimePointSec) (power : VotePower) (a : AccountObject) : AccountObject :=
  { a with votingPower := (power.left % 2 ^ 16).toNat, lastVoteTime := now }

/-- The weight of a vote that takes part in curation: the whole one, and the part that
its time leaves. -/
def voteWeight (rf : RewardFundObject) (comment : CommentObject) (oldVoteRshares : ℤ)
    (now : TimePointSec) : Except Exc (ℕ × ℕ) :=
  if 0 < rf.percentCurationRewards then do
    let old ← evaluateRewardCurve (uint128 oldVoteRshares) rf.curationRewardCurve rf.contentConstant
    let old ← toUint64 old
    let new ← evaluateRewardCurve (uint128 comment.voteRshares) rf.curationRewardCurve
      rf.contentConstant
    let new ← toUint64 new
    let maxWeight := (new + (2 ^ 64 - old)) % 2 ^ 64
    let age := (((now : ℤ) - comment.created) % 2 ^ 64).toNat
    let delta := min age wlsReverseAuctionWindowSeconds
    let w ← uint128Div (uint128Mul maxWeight delta) wlsReverseAuctionWindowSeconds
    let w ← toUint64 w
    pure (maxWeight, w)
  else pure (0, 0)

/-- The weight of a new vote, zero where it takes no part in curation. -/
def curationWeight (comment : CommentObject) (oldVoteRshares rshares : ℤ) (now : TimePointSec) :
    Chain (ℕ × ℕ) :=
  if 0 < rshares && comment.lastPayout = 0 && comment.allowCurationRewards then do
    let rf ← getRewardFund
    lift (voteWeight rf comment oldVoteRshares now)
  else pure (0, 0)

/-- The comment after a new vote. -/
def addVote (rshares absRshares : ℤ) (c : CommentObject) : Except Exc CommentObject := do
  let net ← fc.add c.netRshares rshares
  let abs ← fc.add c.absRshares absRshares
  let vote ← if 0 < rshares then fc.add c.voteRshares rshares else .ok c.voteRshares
  pure { c with
    netRshares := net, absRshares := abs, voteRshares := vote
    netVotes := if 0 < rshares then c.netVotes + 1 else c.netVotes - 1 }

/-- The root of the discussion after a vote. -/
def addChildrenShares (absRshares : ℤ) (c : CommentObject) : Except Exc CommentObject := do
  let shares ← fc.add c.childrenAbsRshares absRshares
  pure { c with childrenAbsRshares := shares }

/-- The shares of a vote with their sign. -/
def signedShares (weight absRshares : ℤ) : ℤ := if weight < 0 then -absRshares else absRshares

/-- The part of `vote_evaluator` that makes a new vote. -/
def castVote (o : VoteOperation) (comment : CommentObject) (voter : AccountObject)
    (power : VotePower) : Chain Unit := do
  let now ← headBlockTime
  let rshares := signedShares o.weight power.absRshares
  lift (fcAssert (o.weight ≠ 0) "Vote weight cannot be 0.")
  whenever (0 < rshares) (lift (checkLockout now comment))
  modifyAccount (named o.voter) fun a => .ok (voted now power a)
  let root ← getCommentById comment.rootComment
  lift (fcAssert (0 < power.absRshares) "Cannot vote with 0 rshares.")
  modifyComment comment.id (addVote fc rshares power.absRshares)
  modifyComment root.id (addChildrenShares fc power.absRshares)
  let counted ← getCommentById comment.id
  let weights ← curationWeight counted comment.voteRshares rshares now
  createCommentVote fun id => .ok
    { id := id, voter := voter.id, comment := comment.id, rshares := rshares
      votePercent := o.weight, lastUpdate := now, weight := weights.2 }
  whenever (weights.1 ≠ 0) do
    modifyComment comment.id fun c => .ok
      { c with totalVoteWeight := (c.totalVoteWeight + weights.1) % 2 ^ 64 }

/-- The change of the number of votes when a vote changes. -/
def netVotesChange (old new : ℤ) : ℤ :=
  if 0 < new && old < 0 then 2
  else if 0 < new && old = 0 then 1
  else if new = 0 && old < 0 then 1
  else if new = 0 && 0 < old then -1
  else if new < 0 && old = 0 then -1
  else if new < 0 && 0 < old then -2
  else 0

/-- The comment after a changed vote. -/
def changeCommentVote (old rshares absRshares : ℤ) (c : CommentObject) :
    Except Exc CommentObject := do
  let net ← fc.sub c.netRshares old
  let net ← fc.add net rshares
  let abs ← fc.add c.absRshares absRshares
  pure { c with
    netRshares := net, absRshares := abs
    netVotes := c.netVotes + .ofInt (netVotesChange old rshares) }

/-- The part of `vote_evaluator` that changes a vote. -/
def changeVote (o : VoteOperation) (comment : CommentObject) (vote : CommentVoteObject)
    (power : VotePower) : Chain Unit := do
  let now ← headBlockTime
  lift (fcAssert (vote.numChanges < wlsMaxVoteChanges)
    "Voter has used the maximum number of vote changes on this comment.")
  lift (fcAssert (vote.votePercent ≠ o.weight) "You have already voted in a similar way.")
  let rshares := signedShares o.weight power.absRshares
  whenever (vote.rshares < rshares) (lift (checkLockout now comment))
  modifyAccount (named o.voter) fun a => .ok (voted now power a)
  let root ← getCommentById comment.rootComment
  modifyComment comment.id (changeCommentVote fc vote.rshares rshares power.absRshares)
  modifyComment root.id (addChildrenShares fc power.absRshares)
  modifyComment comment.id fun c => .ok
    { c with totalVoteWeight := (c.totalVoteWeight + (2 ^ 64 - vote.weight)) % 2 ^ 64 }
  modifyCommentVote vote.id fun cv => .ok
    { cv with
      rshares := rshares, votePercent := o.weight, lastUpdate := now, weight := 0
      numChanges := cv.numChanges + 1 }

/-- The part of `vote_evaluator` for a comment that is paid out: the vote is only
recorded. -/
def recordVote (o : VoteOperation) (comment : CommentObject) (voter : AccountObject)
    (found : Option CommentVoteObject) : Chain Unit := do
  let now ← headBlockTime
  match found with
  | none =>
    createCommentVote fun id => .ok
      { id := id, voter := voter.id, comment := comment.id, votePercent := o.weight
        lastUpdate := now }
  | some vote =>
    modifyCommentVote vote.id fun cvo => .ok
      { cvo with votePercent := o.weight, lastUpdate := now }

/-- The part of `vote_evaluator` for a comment that is not paid out. -/
def countVote (o : VoteOperation) (comment : CommentObject) (voter : AccountObject)
    (found : Option CommentVoteObject) : Chain Unit := do
  let dgp ← gets (·.dgp)
  let power ← lift (votePower o voter dgp)
  match found with
  | none => castVote fc o comment voter power
  | some vote => do
    lift (fcAssert (vote.numChanges ≠ -1) "Cannot vote again on a comment after payout.")
    changeVote fc o comment vote power

/-- `vote_evaluator::do_apply`. The squares of the shares that the source computes
after each vote are not used. -/
def applyVote (o : VoteOperation) : Chain Unit := do
  let comment ← getComment o.author o.permlink
  let voter ← getAccount o.voter
  lift (fcAssert (o.weight ≤ 0 || comment.allowVotes) "Votes are not allowed on the comment.")
  let found ← gets fun s => s.commentVotes.find fun v =>
    v.comment = comment.id && v.voter = voter.id
  if comment.cashoutTime = timePointSecMaximum then recordVote o comment voter found
  else countVote fc o comment voter found

end Votes

section Operations

variable (ctx : Context)

/-- `apply_operation` -/
def applyOperation : Operation → Chain Unit
  | .vote o => applyVote ctx.env.toFcLib o
  | .comment o => applyComment ctx.env o
  | .transfer o => applyTransfer ctx.env.toFcLib o
  | .transferToVesting o => applyTransferToVesting ctx.env.toFcLib o
  | .withdrawVesting o => applyWithdrawVesting ctx.env.toFcLib o
  | .accountCreate o => applyAccountCreate ctx o
  | .accountUpdate o => applyAccountUpdate o
  | .accountForsale _ => lift (.error (failed "Temporary disabled."))
  | .accountBuying _ => lift (.error (failed "Temporary disabled."))
  | .witnessUpdate o => applyWitnessUpdate ctx o
  | .accountWitnessVote o => applyAccountWitnessVote ctx.env.toFcLib o
  | .accountWitnessProxy o => applyAccountWitnessProxy ctx.env.toFcLib o
  | .custom _ => pure ()
  | .deleteComment o => applyDeleteComment o
  | .customJson _ => pure ()
  | .commentOptions o => applyCommentOptions o
  | .setWithdrawVestingRoute o => applySetWithdrawVestingRoute o
  | .customBinary _ => pure ()
  | .claimRewardBalance o => applyClaimRewardBalance ctx.env.toFcLib o

end Operations

end Whaleshares.CommentEvaluators
