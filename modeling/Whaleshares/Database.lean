import Whaleshares.Objects
import Whaleshares.Program

/-!
# Access to the chain state

What `chain/database.cpp` builds everything else from: lookups that throw where
nothing is found, `modify`, `create` and `remove` of each object type, the moves of
balances and supply, and slot times. A reference that the source holds across a
change sees the changed object; the model reads it again.
-/

namespace Whaleshares.Database

open Config Fc Assets Protocol Objects Program

/-- The skip flags of `validation_steps`. -/
structure SkipFlags where
  witnessSignature : Bool := false
  transactionSignatures : Bool := false
  transactionDupeCheck : Bool := false
  forkDb : Bool := false
  blockSizeCheck : Bool := false
  taposCheck : Bool := false
  authorityCheck : Bool := false
  merkleCheck : Bool := false
  undoHistoryCheck : Bool := false
  witnessScheduleCheck : Bool := false
  validate : Bool := false
  validateInvariants : Bool := false
  undoBlock : Bool := false
  blockLog : Bool := false
  deriving DecidableEq

/-- What the code reads besides the chain state. -/
structure Context where
  /-- The functions of other libraries. -/
  env : Env
  /-- `get_node_properties().skip_flags` -/
  skip : SkipFlags
  /-- `is_producing()` -/
  producing : Bool
  /-- `get_max_undo()` -/
  maxUndo : ℕ

/-- A routine of the chain. -/
abbrev Chain := StateT ChainState (Except Exc)

/-- The exception of a lookup that finds nothing. -/
def unknownKey : Exc := ⟨.outOfRange, "unknown key"⟩

/-- The exception of an insertion that an index refuses. -/
def couldNotInsert : Exc :=
  ⟨.logicError, "could not insert object, most likely a uniqueness constraint was violated"⟩

/-- A value, or the exception of a lookup that finds nothing. -/
def orUnknown {α : Type} (value : Option α) : Except Exc α :=
  match value with
  | some a => .ok a
  | none => .error unknownKey

section Lookups

/-- The account of a name. -/
def named (name : AccountName) (a : AccountObject) : Bool := a.name = name

/-- The account of an id. -/
def accountId (id : ℕ) (a : AccountObject) : Bool := a.id = id

/-- The witness of an owner. -/
def ownedBy (owner : AccountName) (w : WitnessObject) : Bool := w.owner = owner

/-- The row that a search finds in a table of the state. -/
def lookup {α : Type} (table : ChainState → Table α) (p : α → Bool) : Chain α := do
  let found ← gets fun s => (table s).find p
  lift (orUnknown found)

/-- A lookup that is followed by a routine has found its row. -/
theorem lookup_bind {α β : Type} {table : ChainState → Table α} {p : α → Bool}
    {k : α → Chain β} {s t : ChainState} {b : β} (h : Returns (lookup table p >>= k) s b t) :
    ∃ a, (table s).find p = some a ∧ Returns (k a) s b t := by
  obtain ⟨a, u, hm, hk⟩ := h.bind
  obtain ⟨hfound, hu⟩ := hm.gets_bind.lift
  rw [hu] at hk
  refine ⟨a, ?_, hk⟩
  cases hf : (table s).find p with
  | none =>
    rw [hf] at hfound
    cases hfound
  | some row =>
    rw [hf] at hfound
    rw [Except.ok.inj hfound]

/-- A lookup of a row that is there returns it. -/
theorem lookup_returns {α : Type} {table : ChainState → Table α} {p : α → Bool} {s : ChainState}
    {a : α} (h : (table s).find p = some a) : Returns (lookup table p) s a s := by
  refine Returns.intro_bind (a := (table s).find p) rfl (Returns.intro_lift ?_)
  rw [h]
  rfl

/-- The account that a condition picks. -/
def accountWhere (p : AccountObject → Bool) : Chain AccountObject := lookup (·.accounts) p

/-- `get_account` -/
def getAccount (name : AccountName) : Chain AccountObject := accountWhere (named name)

/-- `get< account_authority_object, by_account >` -/
def getAccountAuthority (account : AccountName) : Chain AccountAuthorityObject :=
  lookup (·.accountAuthorities) fun auth => auth.account = account

/-- `get_witness` -/
def getWitness (name : AccountName) : Chain WitnessObject := lookup (·.witnesses) (ownedBy name)

/-- `get_comment` -/
def getComment (author : AccountName) (permlink : Bytes) : Chain CommentObject :=
  lookup (·.comments) (CommentObject.hasPermlink author permlink)

/-- `get( comment_id )` -/
def getCommentById (id : ℕ) : Chain CommentObject := lookup (·.comments) fun c => c.id = id

/-- `WLS_POST_REWARD_FUND_NAME` -/
def postRewardFundName : AccountName := nameOf "post"

/-- `get_reward_fund`, the same for every comment. -/
def getRewardFund : Chain RewardFundObject :=
  lookup (·.rewardFunds) fun rf => rf.name = postRewardFundName

/-- `head_block_time` -/
def headBlockTime : Chain TimePointSec := gets (·.dgp.time)

/-- `head_block_num` -/
def headBlockNum : Chain ℕ := gets (·.dgp.headBlockNumber)

end Lookups

section Changes

/-- `modify` of an account. -/
def modifyAccount (p : AccountObject → Bool) (f : AccountObject → Except Exc AccountObject) :
    Chain Unit :=
  update fun s => (s.accounts.modify unknownKey p f).map fun accounts =>
    { s with accounts := accounts }

/-- `modify` of an account authority. -/
def modifyAccountAuthority (account : AccountName)
    (f : AccountAuthorityObject → Except Exc AccountAuthorityObject) : Chain Unit :=
  update fun s =>
    (s.accountAuthorities.modify unknownKey (fun auth => auth.account = account) f).map
      fun auths => { s with accountAuthorities := auths }

/-- `modify` of a comment. -/
def modifyComment (id : ℕ) (f : CommentObject → Except Exc CommentObject) : Chain Unit :=
  update fun s => (s.comments.modify unknownKey (fun c => c.id = id) f).map fun comments =>
    { s with comments := comments }

/-- `modify` of a vote on a comment. -/
def modifyCommentVote (id : ℕ) (f : CommentVoteObject → Except Exc CommentVoteObject) :
    Chain Unit :=
  update fun s => (s.commentVotes.modify unknownKey (fun v => v.id = id) f).map fun votes =>
    { s with commentVotes := votes }

/-- `modify` of a witness. -/
def modifyWitness (p : WitnessObject → Bool) (f : WitnessObject → Except Exc WitnessObject) :
    Chain Unit :=
  update fun s => (s.witnesses.modify unknownKey p f).map fun witnesses =>
    { s with witnesses := witnesses }

/-- `modify` of a reward fund. -/
def modifyRewardFund (id : ℕ) (f : RewardFundObject → Except Exc RewardFundObject) :
    Chain Unit :=
  update fun s => (s.rewardFunds.modify unknownKey (fun rf => rf.id = id) f).map fun funds =>
    { s with rewardFunds := funds }

/-- `modify` of a withdrawal route. -/
def modifyRoute (id : ℕ)
    (f : WithdrawVestingRouteObject → Except Exc WithdrawVestingRouteObject) : Chain Unit :=
  update fun s =>
    (s.withdrawVestingRoutes.modify unknownKey (fun route => route.id = id) f).map
      fun routes => { s with withdrawVestingRoutes := routes }

/-- `modify` of the dynamic global properties. -/
def modifyDgp (f : DynamicGlobalPropertyObject → Except Exc DynamicGlobalPropertyObject) :
    Chain Unit :=
  update fun s => (f s.dgp).map fun dgp => { s with dgp := dgp }

/-- `modify` of the witness schedule. -/
def modifyWso (f : WitnessScheduleObject → WitnessScheduleObject) : Chain Unit :=
  update fun s => .ok { s with wso := f s.wso }

/-- `modify` of the hardfork properties. -/
def modifyHardforks (f : HardforkPropertyObject → HardforkPropertyObject) : Chain Unit :=
  update fun s => .ok { s with hardforks := f s.hardforks }

/-- `create` of an account; names are unique. -/
def createAccount (f : ℕ → Except Exc AccountObject) : Chain Unit :=
  update fun s =>
    (s.accounts.create couldNotInsert (fun a b => a.name = b.name) f).map fun accounts =>
      { s with accounts := accounts }

/-- `create` of an account authority. -/
def createAccountAuthority (f : ℕ → Except Exc AccountAuthorityObject) : Chain Unit :=
  update fun s =>
    (s.accountAuthorities.create couldNotInsert (fun _ _ => false) f).map fun auths =>
      { s with accountAuthorities := auths }

/-- `create` of a comment; authors and permlinks are unique. -/
def createComment (f : ℕ → Except Exc CommentObject) : Chain Unit :=
  update fun s =>
    (s.comments.create couldNotInsert (fun a b => b.hasPermlink a.author a.permlink) f).map
      fun comments => { s with comments := comments }

/-- `create` of a vote on a comment; comments and voters are unique. -/
def createCommentVote (f : ℕ → Except Exc CommentVoteObject) : Chain Unit :=
  update fun s =>
    (s.commentVotes.create couldNotInsert
      (fun a b => a.comment = b.comment && a.voter = b.voter) f).map
      fun votes => { s with commentVotes := votes }

/-- `create` of a witness; owners are unique. -/
def createWitness (f : ℕ → Except Exc WitnessObject) : Chain Unit :=
  update fun s =>
    (s.witnesses.create couldNotInsert (fun a b => a.owner = b.owner) f).map fun witnesses =>
      { s with witnesses := witnesses }

/-- `create` of a witness vote; accounts and witnesses are unique. -/
def createWitnessVote (f : ℕ → Except Exc WitnessVoteObject) : Chain Unit :=
  update fun s =>
    (s.witnessVotes.create couldNotInsert
      (fun a b => a.account = b.account && a.witness = b.witness) f).map
      fun votes => { s with witnessVotes := votes }

/-- `create` of a withdrawal route; pairs of accounts are unique. -/
def createRoute (f : ℕ → Except Exc WithdrawVestingRouteObject) : Chain Unit :=
  update fun s =>
    (s.withdrawVestingRoutes.create couldNotInsert
      (fun a b => a.fromAccount = b.fromAccount && a.toAccount = b.toAccount) f).map
      fun routes => { s with withdrawVestingRoutes := routes }

/-- `create` of a transaction object; transaction ids are unique. -/
def createTransaction (f : ℕ → Except Exc TransactionObject) : Chain Unit :=
  update fun s =>
    (s.transactions.create couldNotInsert (fun a b => a.trxId = b.trxId) f).map
      fun transactions => { s with transactions := transactions }

/-- `remove` of a comment. -/
def removeComment (id : ℕ) : Chain Unit :=
  update fun s => .ok { s with comments := s.comments.remove fun c => c.id = id }

/-- `remove` of votes on comments. -/
def removeCommentVotes (p : CommentVoteObject → Bool) : Chain Unit :=
  update fun s => .ok { s with commentVotes := s.commentVotes.remove p }

/-- `remove` of witness votes. -/
def removeWitnessVotes (p : WitnessVoteObject → Bool) : Chain Unit :=
  update fun s => .ok { s with witnessVotes := s.witnessVotes.remove p }

/-- `remove` of a withdrawal route. -/
def removeRoute (id : ℕ) : Chain Unit :=
  update fun s =>
    .ok { s with withdrawVestingRoutes := s.withdrawVestingRoutes.remove fun r => r.id = id }

end Changes

section Balances

variable (fc : FcLib)

/-- `adjust_balance` -/
def adjustBalance (p : AccountObject → Bool) (delta : Asset) : Chain Unit :=
  modifyAccount p fun a =>
    if delta.symbol = wlsSymbol then do
      let balance ← increase fc wlsSymbol a.balance delta
      pure { a with balance := balance }
    else .error (failed "invalid symbol")

/-- `adjust_reward_balance` -/
def adjustRewardBalance (p : AccountObject → Bool) (delta : Asset) : Chain Unit :=
  modifyAccount p fun a =>
    if delta.symbol = wlsSymbol then do
      let balance ← increase fc wlsSymbol a.rewardSteemBalance delta
      pure { a with rewardSteemBalance := balance }
    else .error (failed "invalid symbol")

/-- `adjust_supply`, called without `adjust_vesting`. -/
def adjustSupply (delta : Asset) : Chain Unit :=
  modifyDgp fun p =>
    if delta.symbol = wlsSymbol then do
      let supply ← increase fc wlsSymbol p.currentSupply delta
      pure { p with currentSupply := supply }
    else .error (failed "invalid symbol")

/-- `get_balance` -/
def getBalance (a : AccountObject) (symbol : Symbol) : Except Exc Asset :=
  if symbol = wlsSymbol then .ok (wls a.balance) else .error (failed "invalid symbol")

end Balances

section Slots

/-- `get_scheduled_witness`; the schedule holds `WLS_MAX_WITNESSES` names. -/
def getScheduledWitness (slotNum : ℕ) : Chain AccountName := do
  let aslot ← gets (·.dgp.currentAslot)
  let wso ← gets (·.wso)
  let current := (aslot + slotNum) % 2 ^ 64
  pure (wso.currentShuffledWitnesses.getD (current % wso.numScheduledWitnesses) .empty)

/-- `get_slot_time` -/
def slotTime (dpo : DynamicGlobalPropertyObject) (slotNum : ℕ) : TimePointSec :=
  if slotNum = 0 then 0
  else if dpo.headBlockNumber = 0 then
    TimePointSec.plus dpo.time (slotNum * wlsBlockInterval % 2 ^ 32)
  else
    TimePointSec.plus (dpo.time / wlsBlockInterval * wlsBlockInterval)
      (slotNum * wlsBlockInterval % 2 ^ 32)

/-- `get_slot_at_time` -/
def slotAtTime (dpo : DynamicGlobalPropertyObject) (time : TimePointSec) : ℕ :=
  if time < slotTime dpo 1 then 0
  else ((time - slotTime dpo 1) / wlsBlockInterval + 1) % 2 ^ 32

end Slots

end Whaleshares.Database
