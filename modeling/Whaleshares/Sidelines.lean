import Whaleshares.Footprint

/-!
# What moves of tokens and votes leave alone

Besides its tokens and its part in the election of witnesses an account has a voting power,
a power-down and withdrawal routes; comments and the votes on them are objects of their own.
Few routines touch these. A relation between states that allows every change that leaves
them alone (`SideFrame`) is kept by all other routines, and for each of the few there is a
lemma that says what the relation has to allow in addition.
-/

namespace Whaleshares.Sidelines

open Config Fc Assets Protocol Objects Program Database WitnessVotes Vesting Rewards
  Evaluators CommentEvaluators WitnessSchedule ApplyBlock Footprint

section Frames

/-- The voting power of an account and the time at which it was computed. -/
def power (a : AccountObject) : ℕ × TimePointSec := (a.votingPower, a.lastVoteTime)

/-- The power-down of an account. -/
def powerDown (a : AccountObject) : ℤ × TimePointSec × ℤ × ℤ :=
  (a.vestingWithdrawRate, a.nextVestingWithdrawal, a.withdrawn, a.toWithdraw)

/-- What an account does besides holding tokens and electing witnesses. -/
def conduct (a : AccountObject) :
    (ℕ × AccountName) × (ℕ × TimePointSec) × (ℤ × TimePointSec × ℤ × ℤ) × ℕ :=
  ((a.id, a.name), power a, powerDown a, a.withdrawRoutes)

/-- The place of a comment in its discussion. -/
structure Thread where
  id : ℕ
  author : AccountName
  permlink : Bytes
  parentAuthor : AccountName
  parentPermlink : Bytes
  depth : ℕ
  children : ℕ
  rootComment : ℕ

/-- The thread of a comment. -/
def thread (c : CommentObject) : Thread :=
  ⟨c.id, c.author, c.permlink, c.parentAuthor, c.parentPermlink, c.depth, c.children,
    c.rootComment⟩

/-- What the votes on a comment add up to. -/
structure Poll where
  id : ℕ
  netRshares : ℤ
  voteRshares : ℤ
  totalVoteWeight : ℕ
  netVotes : Int32
  cashoutTime : TimePointSec
  lastPayout : TimePointSec

/-- The poll of a comment. -/
def poll (c : CommentObject) : Poll :=
  ⟨c.id, c.netRshares, c.voteRshares, c.totalVoteWeight, c.netVotes, c.cashoutTime, c.lastPayout⟩

/-- The terms of a reward fund. -/
def terms (rf : RewardFundObject) : (ℕ × AccountName) × (CurveId × CurveId × ℕ) × ℕ × ℕ :=
  ((rf.id, rf.name), (rf.authorRewardCurve, rf.curationRewardCurve, rf.contentConstant),
    rf.percentCurationRewards, rf.percentContentRewards)

/-- The relation allows every change that keeps the conduct of each account, the thread and
the poll of each comment and the terms of each fund, and neither votes on comments nor routes. -/
structure SideFrame (R : ChainState → ChainState → Prop) : Prop where
  accounts : ∀ s x, x.rows.map conduct = s.accounts.rows.map conduct →
    x.nextId = s.accounts.nextId → R s { s with accounts := x }
  comments : ∀ s x, x.rows.map (fun c => (thread c, poll c)) =
      s.comments.rows.map (fun c => (thread c, poll c)) →
    x.nextId = s.comments.nextId → R s { s with comments := x }
  accountAuthorities : ∀ s x, R s { s with accountAuthorities := x }
  witnesses : ∀ s x, R s { s with witnesses := x }
  witnessVotes : ∀ s x, R s { s with witnessVotes := x }
  rewardFunds : ∀ s x, x.rows.map terms = s.rewardFunds.rows.map terms →
    R s { s with rewardFunds := x }
  transactions : ∀ s x, R s { s with transactions := x }
  dgp : ∀ s d, R s { s with dgp := d }
  wso : ∀ s w, R s { s with wso := w }
  hardforks : ∀ s h, R s { s with hardforks := h }
  blockSummaries : ∀ s f, R s { s with blockSummaries := f }

/-- The relation allows changes of voting powers. -/
def AllowsPower (R : ChainState → ChainState → Prop) : Prop :=
  ∀ s x, x.rows.map (fun a => ((a.id, a.name), powerDown a, a.withdrawRoutes)) =
      s.accounts.rows.map (fun a => ((a.id, a.name), powerDown a, a.withdrawRoutes)) →
    x.nextId = s.accounts.nextId → R s { s with accounts := x }

/-- The relation allows changes of power-downs. -/
def AllowsPowerDown (R : ChainState → ChainState → Prop) : Prop :=
  ∀ s x, x.rows.map (fun a => ((a.id, a.name), power a, a.withdrawRoutes)) =
      s.accounts.rows.map (fun a => ((a.id, a.name), power a, a.withdrawRoutes)) →
    x.nextId = s.accounts.nextId → R s { s with accounts := x }

/-- The relation allows changes of routes. -/
structure AllowsRoutes (R : ChainState → ChainState → Prop) : Prop where
  accounts : ∀ s x, x.rows.map (fun a => ((a.id, a.name), power a, powerDown a)) =
      s.accounts.rows.map (fun a => ((a.id, a.name), power a, powerDown a)) →
    x.nextId = s.accounts.nextId → R s { s with accounts := x }
  routes : ∀ s x, R s { s with withdrawVestingRoutes := x }

/-- The relation allows changes of polls. -/
def AllowsPolls (R : ChainState → ChainState → Prop) : Prop :=
  ∀ s x, x.rows.map thread = s.comments.rows.map thread → x.nextId = s.comments.nextId →
    R s { s with comments := x }

/-- The relation allows changes of the votes on comments. -/
def AllowsCommentVotes (R : ChainState → ChainState → Prop) : Prop :=
  ∀ s x, R s { s with commentVotes := x }

/-- The relation allows a new account with a new name, with full voting power and neither a
power-down nor routes. -/
def AllowsAccount (R : ChainState → ChainState → Prop) : Prop :=
  ∀ s x a, x.rows = s.accounts.rows ++ [a] → (∀ old ∈ s.accounts.rows, a.name ≠ old.name) →
    conduct a = ((s.accounts.nextId, a.name), (wls100Percent, s.dgp.time),
      (0, timePointSecMaximum, 0, 0), 0) →
    x.nextId = s.accounts.nextId + 1 → R s { s with accounts := x }

/-- The relation allows every change of comments. -/
def AllowsComments (R : ChainState → ChainState → Prop) : Prop :=
  ∀ s x, R s { s with comments := x }

end Frames

variable {R : ChainState → ChainState → Prop}

section Primitives

/-- A change of an account that keeps its conduct is aside. -/
theorem modifyAccount_aside (hR : SideFrame R) {p : AccountObject → Bool}
    {f : AccountObject → Except Exc AccountObject} (hf : ∀ a b, f a = .ok b → conduct b = conduct a) :
    Keeps R (modifyAccount p f) :=
  replace_keeps fun s x hx =>
    hR.accounts s x (Table.modify_map_eq hx hf) (Table.modify_eq_ok hx).2

/-- Setting fields of an account besides its conduct is aside. -/
theorem setAccount_aside (hR : SideFrame R) {p : AccountObject → Bool}
    {f : AccountObject → AccountObject} (hf : ∀ a, conduct (f a) = conduct a) :
    Keeps R (modifyAccount p fun a => .ok (f a)) := by
  refine modifyAccount_aside hR fun a b h => ?_
  rw [← Except.ok.inj h]
  exact hf a

/-- A change of a comment that keeps its thread and its poll is aside. -/
theorem modifyComment_aside (hR : SideFrame R) {id : ℕ}
    {f : CommentObject → Except Exc CommentObject}
    (hf : ∀ a b, f a = .ok b → (thread b, poll b) = (thread a, poll a)) :
    Keeps R (modifyComment id f) :=
  replace_keeps fun s x hx =>
    hR.comments s x (Table.modify_map_eq hx hf) (Table.modify_eq_ok hx).2

/-- A change of a comment that keeps its thread is one of its poll. -/
theorem modifyPoll_keeps (hR : AllowsPolls R) {id : ℕ}
    {f : CommentObject → Except Exc CommentObject}
    (hf : ∀ a b, f a = .ok b → thread b = thread a) : Keeps R (modifyComment id f) :=
  replace_keeps fun s x hx => hR s x (Table.modify_map_eq hx hf) (Table.modify_eq_ok hx).2

/-- Setting fields of a comment besides its thread changes its poll. -/
theorem setPoll_keeps (hR : AllowsPolls R) {id : ℕ} {f : CommentObject → CommentObject}
    (hf : ∀ a, thread (f a) = thread a) : Keeps R (modifyComment id fun c => .ok (f c)) := by
  refine modifyPoll_keeps hR fun a b h => ?_
  rw [← Except.ok.inj h]
  exact hf a

/-- Every change of a witness is aside. -/
theorem modifyWitness_aside (hR : SideFrame R) (p : WitnessObject → Bool)
    (f : WitnessObject → Except Exc WitnessObject) : Keeps R (modifyWitness p f) :=
  replace_keeps fun s x _ => hR.witnesses s x

/-- Every change of the global properties is aside. -/
theorem modifyDgp_aside (hR : SideFrame R)
    (f : DynamicGlobalPropertyObject → Except Exc DynamicGlobalPropertyObject) :
    Keeps R (modifyDgp f) :=
  replace_keeps fun s d _ => hR.dgp s d

/-- A change of a reward fund that keeps its terms is aside. -/
theorem modifyRewardFund_aside (hR : SideFrame R) {id : ℕ}
    {f : RewardFundObject → Except Exc RewardFundObject}
    (hf : ∀ a b, f a = .ok b → terms b = terms a) : Keeps R (modifyRewardFund id f) :=
  replace_keeps fun s x hx => hR.rewardFunds s x (Table.modify_map_eq hx hf)

/-- A new record of a transaction is aside. -/
theorem createTransaction_aside (hR : SideFrame R) (f : ℕ → Except Exc TransactionObject) :
    Keeps R (createTransaction f) :=
  replace_keeps fun s x _ => hR.transactions s x

/-- An update of the schedule is aside. -/
theorem SideFrame.toTurnFrame (hR : SideFrame R) : TurnFrame R where
  turns s x _ _ := hR.witnesses s x
  blockSize s _ := hR.dgp s _
  wso s w _ := hR.wso s w
  hardforks := hR.hardforks

end Primitives

variable [IsPreorder ChainState R]

section Elections

variable (fc : FcLib)

/-- A change of the votes of one witness is aside. -/
theorem adjustWitnessVote_aside (hR : SideFrame R) (witness : ℕ) (delta : ℤ) :
    Keeps R (adjustWitnessVote fc witness delta) :=
  .bind (.gets _) fun _ => .bind (.gets _) fun _ => modifyWitness_aside hR _ _

/-- A change of the votes of the witnesses of an account is aside. -/
theorem adjustWitnessVotes_aside (hR : SideFrame R) (account : ℕ) (delta : ℤ) :
    Keeps R (adjustWitnessVotes fc account delta) := by
  refine .bind (m := witnessVotesOf account) (.gets _) fun votes => ?_
  exact .forEach (fun v => adjustWitnessVote_aside fc hR v.witness delta) votes

/-- Proxied votes are no part of the conduct. -/
theorem addProxied_conduct {depth : ℕ} {deltas : List ℤ} {a b : AccountObject}
    (h : addProxied fc depth deltas a = .ok b) : conduct b = conduct a := by
  obtain ⟨votes, -, h⟩ := bind_eq_ok h
  rw [← Except.ok.inj h]
  rfl

/-- The way along the proxies is aside. -/
theorem adjustProxiedLevels_aside (hR : SideFrame R) (delta : ℤ) (levels : ℕ)
    (name : AccountName) : Keeps R (adjustProxiedLevels fc delta levels name) := by
  induction levels generalizing name with
  | zero => exact .bind (lookup_keeps _ _) fun a => .whenever (adjustWitnessVotes_aside fc hR _ _)
  | succ levels ih =>
    refine .bind (lookup_keeps _ _) fun a => .ite (adjustWitnessVotes_aside fc hR _ _) ?_
    exact .bind (modifyAccount_aside hR fun _ _ h => addProxied_conduct fc h) fun _ => ih a.proxy

/-- A change of proxied votes is aside. -/
theorem adjustProxiedWitnessVotes_aside (hR : SideFrame R) (name : AccountName) (delta : ℤ) :
    Keeps R (adjustProxiedWitnessVotes fc name delta) :=
  adjustProxiedLevels_aside fc hR delta _ name

/-- A change by the sum of the levels is aside. -/
theorem adjustByTotal_aside (hR : SideFrame R) (deltas : List ℤ) (levels account : ℕ) :
    Keeps R (adjustByTotal fc deltas levels account) :=
  .bind (.lift _) fun _ => adjustWitnessVotes_aside fc hR _ _

/-- The way along the proxies with a change for each level is aside. -/
theorem adjustProxiedArrayLevels_aside (hR : SideFrame R) (deltas : List ℤ) (levels : ℕ)
    (name : AccountName) : Keeps R (adjustProxiedArrayLevels fc deltas levels name) := by
  induction levels generalizing name with
  | zero => exact .bind (lookup_keeps _ _) fun a => .whenever (adjustByTotal_aside fc hR _ _ _)
  | succ levels ih =>
    refine .bind (lookup_keeps _ _) fun a => .ite (adjustByTotal_aside fc hR _ _ _) ?_
    exact .bind (modifyAccount_aside hR fun _ _ h => addProxied_conduct fc h) fun _ => ih a.proxy

omit [IsPreorder ChainState R] in
/-- The removal of witness votes is aside. -/
theorem removeWitnessVotes_aside (hR : SideFrame R) (p : WitnessVoteObject → Bool) :
    Keeps R (removeWitnessVotes p) :=
  .update fun s _ h => Except.ok.inj h ▸ hR.witnessVotes s _

omit [IsPreorder ChainState R] in
/-- The number of the witnesses voted for is aside. -/
theorem setVotedFor_aside (hR : SideFrame R) (name : AccountName) (f : ℕ → ℕ) :
    Keeps R (setVotedFor name f) :=
  setAccount_aside hR fun _ => by rfl

/-- `account_witness_vote` is aside. -/
theorem applyAccountWitnessVote_aside (hR : SideFrame R) (o : AccountWitnessVoteOperation) :
    Keeps R (applyAccountWitnessVote fc o) := by
  refine .bind (lookup_keeps _ _) fun voter => .bind (.lift _) fun _ =>
    .bind (lookup_keeps _ _) fun witness => .bind (.gets _) fun found => ?_
  cases found with
  | none =>
    exact .bind (.lift _) fun _ => .bind (.lift _) fun _ =>
      .bind (replace_keeps fun s x _ => hR.witnessVotes s x) fun _ => .bind (.lift _) fun _ =>
      .bind (adjustWitnessVote_aside fc hR _ _) fun _ => setVotedFor_aside hR _ _
  | some vote =>
    exact .bind (.lift _) fun _ => .bind (.lift _) fun _ => .bind (.lift _) fun _ =>
      .bind (adjustWitnessVote_aside fc hR _ _) fun _ =>
      .bind (setVotedFor_aside hR _ _) fun _ => removeWitnessVotes_aside hR _

/-- `account_witness_proxy` is aside. -/
theorem applyAccountWitnessProxy_aside (hR : SideFrame R) (o : AccountWitnessProxyOperation) :
    Keeps R (applyAccountWitnessProxy fc o) := by
  have hset : Keeps R (setProxy o) := setAccount_aside hR fun _ => by rfl
  refine .bind (lookup_keeps _ _) fun account => .bind (.lift _) fun _ =>
    .bind (.lift _) fun deltas => .bind (adjustProxiedArrayLevels_aside fc hR deltas _ _) fun _ =>
    .ite (.bind (lookup_keeps _ _) fun _ => .bind (checkProxyChain_keeps _ _ _) fun _ =>
      .bind ?_ fun _ => .bind hset fun _ => .bind (.lift _) fun deltas => ?_) hset
  · exact .bind (lookup_keeps _ _) fun _ => .bind (removeWitnessVotes_aside hR _) fun _ =>
      setAccount_aside hR fun _ => by rfl
  · exact adjustProxiedArrayLevels_aside fc hR deltas _ _

/-- `witness_update` is aside. -/
theorem applyWitnessUpdate_aside (hR : SideFrame R) (ctx : Context) (o : WitnessUpdateOperation) :
    Keeps R (applyWitnessUpdate ctx o) :=
  .bind (lookup_keeps _ _) fun _ => .bind (.lift _) fun _ => .bind (.lift _) fun _ =>
    .bind (.lift _) fun _ => .bind (.gets _) fun _ => .bind (.gets _) fun _ =>
    .ite (modifyWitness_aside hR _ _) (replace_keeps fun s x _ => hR.witnesses s x)

/-- `account_update` is aside. -/
theorem applyAccountUpdate_aside (hR : SideFrame R) (o : AccountUpdateOperation) :
    Keeps R (applyAccountUpdate o) := by
  refine .bind (.lift _) fun _ => .bind (.lift _) fun _ => .bind (lookup_keeps _ _) fun _ =>
    .bind (lookup_keeps _ _) fun _ => .bind (.forEach (fun owner => ?_) _) fun _ =>
    .bind (.forEach (fun auth => ?_) _) fun _ => .bind (.forEach (fun auth => ?_) _) fun _ =>
    .bind (.gets _) fun now => .bind ?_ fun _ => .whenever ?_
  · exact changeOwner_keeps hR.accountAuthorities o owner
  · exact checkAccountAuths_keeps auth
  · exact checkAccountAuths_keeps auth
  · exact setAccount_aside hR fun _ => by rfl
  · exact modifyAccountAuthority_keeps hR.accountAuthorities _ _

end Elections

section Tokens

variable (fc : FcLib)

/-- Credited shares leave the conduct. -/
theorem creditVesting_conduct {toRewardBalance : Bool} {steem newVesting : Asset}
    {a b : AccountObject} (h : creditVesting fc toRewardBalance steem newVesting a = .ok b) :
    conduct b = conduct a := by
  unfold creditVesting at h
  split at h
  · obtain ⟨x, -, h⟩ := bind_eq_ok h
    obtain ⟨y, -, h⟩ := bind_eq_ok h
    rw [← Except.ok.inj h]
    rfl
  · obtain ⟨x, -, h⟩ := bind_eq_ok h
    rw [← Except.ok.inj h]
    rfl

/-- The creation of vesting shares is aside. -/
theorem createVesting_aside (hR : SideFrame R) (toAccount : AccountName) (steem : Asset)
    (toRewardBalance : Bool) : Keeps R (createVesting fc toAccount steem toRewardBalance) := by
  refine .bind (.gets _) fun props => .bind (.lift _) fun price => .bind (.lift _) fun newVesting =>
    .bind (modifyAccount_aside hR fun _ _ h => creditVesting_conduct fc h) fun _ =>
    .bind (modifyDgp_aside hR _) fun _ => .bind (.whenever ?_) fun _ => .pure _
  exact adjustProxiedWitnessVotes_aside fc hR _ _

omit [IsPreorder ChainState R] in
/-- A change of a balance is aside. -/
theorem adjustBalance_aside (hR : SideFrame R) (p : AccountObject → Bool) (delta : Asset) :
    Keeps R (adjustBalance fc p delta) := by
  refine modifyAccount_aside hR fun a b h => ?_
  split at h
  · obtain ⟨x, -, h⟩ := bind_eq_ok h
    rw [← Except.ok.inj h]
    rfl
  · cases h

omit [IsPreorder ChainState R] in
/-- A change of a reward balance is aside. -/
theorem adjustRewardBalance_aside (hR : SideFrame R) (p : AccountObject → Bool) (delta : Asset) :
    Keeps R (adjustRewardBalance fc p delta) := by
  refine modifyAccount_aside hR fun a b h => ?_
  split at h
  · obtain ⟨x, -, h⟩ := bind_eq_ok h
    rw [← Except.ok.inj h]
    rfl
  · cases h

/-- `clear_null_account_balance` is aside. -/
theorem clearNullAccountBalance_aside (hR : SideFrame R) :
    Keeps R (clearNullAccountBalance fc) := by
  refine .bind ?_ fun _ => .bind ?_ fun _ => .bind ?_ fun _ => .bind ?_ fun _ =>
    .whenever (.bind (.lift _) fun _ => modifyDgp_aside hR _)
  · exact .bind (lookup_keeps _ _) fun a => .ite (.bind (.lift _) fun _ => .bind (.lift _) fun _ =>
      .bind (adjustBalance_aside fc hR _ _) fun _ => .pure _) (.pure _)
  · exact .bind (lookup_keeps _ _) fun a => .ite (.bind (.gets _) fun _ => .bind (.lift _) fun _ =>
      .bind (modifyDgp_aside hR _) fun _ => .bind (setAccount_aside hR fun _ => by rfl) fun _ =>
      .bind (.lift _) fun _ => .pure _) (.pure _)
  · exact .bind (lookup_keeps _ _) fun a => .ite (.bind (.lift _) fun _ => .bind (.lift _) fun _ =>
      .bind (adjustRewardBalance_aside fc hR _ _) fun _ => .pure _) (.pure _)
  · exact .bind (lookup_keeps _ _) fun a => .ite (.bind (.lift _) fun _ =>
      .bind (modifyDgp_aside hR _) fun _ => .bind (setAccount_aside hR fun _ => by rfl) fun _ =>
      .pure _) (.pure _)

/-- A deposited balance leaves the conduct. -/
theorem depositBalance_conduct {converted : Asset} {a b : AccountObject}
    (h : depositBalance fc converted a = .ok b) : conduct b = conduct a := by
  obtain ⟨x, -, h⟩ := bind_eq_ok h
  rw [← Except.ok.inj h]
  rfl

/-- The payment of the reward funds is aside. -/
theorem payRewardFunds_aside (hR : SideFrame R) (reward used : ℤ) (funds : List RewardFundObject) :
    Keeps R (payRewardFunds fc reward used funds) := by
  induction funds generalizing used with
  | nil => exact .pure _
  | cons rf rest ih =>
    refine .bind (.lift _) fun _ => .bind (.lift _) fun _ =>
      .bind (modifyRewardFund_aside hR fun a b h => ?_) fun _ => .bind (.lift _) fun used =>
      .bind (.lift _) fun _ => ?_
    · obtain ⟨x, -, h⟩ := bind_eq_ok h
      rw [← Except.ok.inj h]
      rfl
    · exact ih used

/-- `process_funds` is aside. -/
theorem processFunds_aside (hR : SideFrame R) : Keeps R (processFunds fc) :=
  .bind (.gets _) fun _ => .bind (.gets _) fun _ => .bind (.lift _) fun _ =>
    .bind (.lift _) fun _ => .bind (.lift _) fun _ => .bind (.gets _) fun _ =>
    .bind (payRewardFunds_aside fc hR _ _ _) fun _ => .bind (.lift _) fun _ =>
    .bind (.lift _) fun _ => .bind (.lift _) fun _ => .bind (lookup_keeps _ _) fun _ =>
    .bind (.lift _) fun _ => .bind (.lift _) fun _ => .bind (.lift _) fun _ =>
    .bind (modifyDgp_aside hR _) fun _ => .bind (createVesting_aside fc hR _ _ _) fun _ =>
    modifyAccount_aside hR fun _ _ h => depositBalance_conduct fc h

/-- `transfer` is aside. -/
theorem applyTransfer_aside (hR : SideFrame R) (o : TransferOperation) :
    Keeps R (applyTransfer fc o) :=
  .bind (lookup_keeps _ _) fun _ => .bind (lookup_keeps _ _) fun _ => .bind (.lift _) fun _ =>
    .bind (.lift _) fun _ => .bind (.lift _) fun _ => .bind (.lift _) fun _ =>
    .bind (adjustBalance_aside fc hR _ _) fun _ => adjustBalance_aside fc hR _ _

/-- `transfer_to_vesting` is aside. -/
theorem applyTransferToVesting_aside (hR : SideFrame R) (o : TransferToVestingOperation) :
    Keeps R (applyTransferToVesting fc o) :=
  .bind (lookup_keeps _ _) fun _ => .bind (lookup_keeps _ _) fun _ => .bind (.lift _) fun _ =>
    .bind (.lift _) fun _ => .bind (.lift _) fun _ => .bind (.lift _) fun _ =>
    .bind (adjustBalance_aside fc hR _ _) fun _ => .bind (createVesting_aside fc hR _ _ _) fun _ =>
    .pure _

/-- Claimed shares leave the conduct. -/
theorem claimShares_conduct {rewardVests toMove : Asset} {a b : AccountObject}
    (h : claimShares fc rewardVests toMove a = .ok b) : conduct b = conduct a := by
  obtain ⟨x, -, h⟩ := bind_eq_ok h
  obtain ⟨y, -, h⟩ := bind_eq_ok h
  obtain ⟨z, -, h⟩ := bind_eq_ok h
  rw [← Except.ok.inj h]
  rfl

/-- `claim_reward_balance` is aside. -/
theorem applyClaimRewardBalance_aside (hR : SideFrame R) (op : ClaimRewardBalanceOperation) :
    Keeps R (applyClaimRewardBalance fc op) :=
  .bind (lookup_keeps _ _) fun _ => .bind (.lift _) fun _ => .bind (.lift _) fun _ =>
    .bind (.lift _) fun _ => .bind (.lift _) fun _ => .bind (.lift _) fun _ =>
    .bind (.lift _) fun _ => .bind (adjustRewardBalance_aside fc hR _ _) fun _ =>
    .bind (adjustBalance_aside fc hR _ _) fun _ =>
    .bind (modifyAccount_aside hR fun _ _ h => claimShares_conduct fc h) fun _ =>
    .bind (modifyDgp_aside hR _) fun _ => adjustProxiedWitnessVotes_aside fc hR _ _

/-- `account_create` is aside but for the new account. -/
theorem applyAccountCreate_aside (ctx : Context) (hR : SideFrame R) (hnew : AllowsAccount R)
    (o : AccountCreateOperation) : Keeps R (applyAccountCreate ctx o) := by
  refine .bind (.lift _) fun _ => .bind (lookup_keeps _ _) fun _ => .bind (.lift _) fun _ =>
    .bind (.lift _) fun _ => .bind (.gets _) fun _ => .bind (.lift _) fun _ =>
    .bind (.lift _) fun _ => .bind (checkAccountAuths_keeps _) fun _ =>
    .bind (checkAccountAuths_keeps _) fun _ => .bind (checkAccountAuths_keeps _) fun _ =>
    .bind (modifyAccount_aside hR fun a b h => ?_) fun _ => ?_
  · obtain ⟨x, -, h⟩ := bind_eq_ok h
    rw [← Except.ok.inj h]
    rfl
  · constructor
    intro s u t h
    have h := h.gets_bind
    obtain ⟨_, v, hv, h⟩ := h.bind
    obtain ⟨x, hx, rfl⟩ := map_eq_ok hv.update
    obtain ⟨a, ha, hclash, hrows, hnext⟩ := Table.create_rows hx
    have ha := Except.ok.inj ha
    have hfirst : R s { s with accounts := x } := by
      refine hnew s x a hrows (fun old hold => of_decide_eq_false (hclash old hold)) ?_ hnext
      rw [← ha]
      rfl
    obtain ⟨_, v, hv, h⟩ := h.bind
    have hsecond : R { s with accounts := x } v :=
      (createAccountAuthority_keeps hR.accountAuthorities _).rel _ _ _ hv
    have hthird : R v t := by
      rcases h.whenever with ⟨-, h⟩ | ⟨-, rfl⟩
      · obtain ⟨_, w, hw, h⟩ := h.bind
        obtain ⟨-, rfl⟩ := h.pure
        exact (createVesting_aside _ hR _ _ _).rel _ _ _ hw
      · exact Std.Refl.refl t
    exact Trans.trans hfirst (Trans.trans hsecond hthird)

end Tokens

section Withdrawals

variable (fc : FcLib)

omit [IsPreorder ChainState R] in
/-- A deposit of shares is aside. -/
theorem depositShares_aside (hR : SideFrame R) (p : AccountObject → Bool) (deposit : ℤ) :
    Keeps R (modifyAccount p (depositShares fc deposit)) := by
  refine modifyAccount_aside hR fun a b h => ?_
  obtain ⟨x, -, h⟩ := bind_eq_ok h
  rw [← Except.ok.inj h]
  rfl

/-- Deposits of shares along the routes are aside. -/
theorem depositAsVests_aside (hR : SideFrame R) (toWithdraw deposited : ℤ)
    (routes : List WithdrawVestingRouteObject) :
    Keeps R (depositAsVests fc toWithdraw deposited routes) := by
  induction routes generalizing deposited with
  | nil => exact .pure _
  | cons route rest ih =>
    refine .ite (.bind (.lift _) fun deposit => .bind (.lift _) fun deposited =>
      .bind (.whenever (.bind (lookup_keeps _ _) fun target =>
        .bind (depositShares_aside fc hR _ _) fun _ => ?_)) fun _ => ih deposited) (ih deposited)
    exact adjustProxiedWitnessVotes_aside fc hR _ _

/-- Deposits of tokens along the routes are aside. -/
theorem depositAsSteem_aside (hR : SideFrame R) (toWithdraw deposited steem : ℤ)
    (routes : List WithdrawVestingRouteObject) :
    Keeps R (depositAsSteem fc toWithdraw deposited steem routes) := by
  induction routes generalizing deposited steem with
  | nil => exact .pure _
  | cons route rest ih =>
    refine .ite (ih deposited steem) (.bind (lookup_keeps _ _) fun _ => .bind (.lift _) fun deposit =>
      .bind (.lift _) fun deposited => .bind (.gets _) fun _ => .bind (.lift _) fun _ =>
      .bind (.lift _) fun steem => .bind (.whenever (.bind ?_ fun _ => modifyDgp_aside hR _))
        fun _ => ih deposited steem)
    exact modifyAccount_aside hR fun _ _ h => depositBalance_conduct fc h

/-- A withdrawal takes its shares from the account that withdraws; the rest are deposits, the
totals and the votes. -/
theorem processVestingWithdrawal_finishes
    (hvests : ∀ toWithdraw routes, Keeps R (depositAsVests fc toWithdraw 0 routes))
    (hsteem : ∀ toWithdraw routes, Keeps R (depositAsSteem fc toWithdraw 0 0 routes))
    (htotals : ∀ f, Keeps R (modifyDgp f))
    (hvotes : ∀ name delta, Keeps R (adjustProxiedWitnessVotes fc name delta))
    {source : AccountObject} {s t : ChainState} {r : Unit}
    (h : Returns (processVestingWithdrawal fc source) s r t) :
    ∃ toWithdraw converted u v, withdrawalOf fc source = .ok toWithdraw ∧ R s u ∧
      Returns (modifyAccount (named source.name) (finishWithdrawal fc toWithdraw converted)) u () v ∧
      R v t := by
  obtain ⟨toWithdraw, hwithdraw, h⟩ := h.lift_bind
  have h := h.gets_bind
  obtain ⟨asVests, s₁, h₁, h⟩ := h.bind
  obtain ⟨asSteem, s₂, h₂, h⟩ := h.bind
  obtain ⟨_, -, h⟩ := h.lift_bind
  obtain ⟨_, -, h⟩ := h.lift_bind
  obtain ⟨_, -, h⟩ := h.lift_bind
  obtain ⟨converted, -, h⟩ := h.gets_bind.lift_bind
  obtain ⟨_, s₃, h₃, h⟩ := h.bind
  have hfirst : R s s₂ :=
    Trans.trans ((hvests _ _).rel _ _ _ h₁) ((hsteem _ _).rel _ _ _ h₂)
  refine ⟨toWithdraw, converted, s₂, s₃, hwithdraw, hfirst, h₃, Keeps.rel (R := R) ?_ _ _ _ h⟩
  exact .bind (htotals _) fun _ => .whenever (.bind (.lift _) fun delta => hvotes _ delta)

omit [IsPreorder ChainState R] in
/-- The end of a withdrawal changes the power-down of its account. -/
theorem finishWithdrawal_aside (hdown : AllowsPowerDown R) (p : AccountObject → Bool)
    (toWithdraw : ℤ) (converted : Asset) :
    Keeps R (modifyAccount p (finishWithdrawal fc toWithdraw converted)) := by
  refine replace_keeps fun s x hx => hdown s x (Table.modify_map_eq hx fun a b h => ?_)
    (Table.modify_eq_ok hx).2
  obtain ⟨_, _, _, -, -, -, rfl⟩ := finishWithdrawal_eq_ok h
  rfl

/-- A withdrawal changes only the power-down of its account. -/
theorem processVestingWithdrawal_aside (hR : SideFrame R) (hdown : AllowsPowerDown R)
    (source : AccountObject) : Keeps R (processVestingWithdrawal fc source) := by
  constructor
  intro s r t h
  obtain ⟨_, _, u, v, -, hsu, huv, hvt⟩ := processVestingWithdrawal_finishes fc
    (fun _ _ => depositAsVests_aside fc hR _ _ _) (fun _ _ => depositAsSteem_aside fc hR _ _ _ _)
    (fun _ => modifyDgp_aside hR _) (fun _ _ => adjustProxiedWitnessVotes_aside fc hR _ _) h
  have hfinish : R u v := (finishWithdrawal_aside fc hdown _ _ _).rel _ _ _ huv
  exact Trans.trans hsu (Trans.trans hfinish hvt)

/-- `withdraw_vesting` changes the power-down of its account. -/
theorem applyWithdrawVesting_aside (hdown : AllowsPowerDown R) (o : WithdrawVestingOperation) :
    Keeps R (applyWithdrawVesting fc o) := by
  refine .bind (lookup_keeps _ _) fun _ => .bind (.gets _) fun _ => .bind (.gets _) fun _ =>
    .bind (.lift _) fun _ => .ite (.bind (.lift _) fun _ => ?_) ?_
  · refine replace_keeps fun s x hx => hdown s x (Table.modify_map_eq hx fun a b h => ?_)
      (Table.modify_eq_ok hx).2
    rw [← Except.ok.inj h]
    rfl
  · refine replace_keeps fun s x hx => hdown s x (Table.modify_map_eq hx fun a b h => ?_)
      (Table.modify_eq_ok hx).2
    obtain ⟨_, -, h⟩ := bind_eq_ok h
    obtain ⟨_, -, h⟩ := bind_eq_ok h
    rw [← Except.ok.inj h]
    rfl

omit [IsPreorder ChainState R] in
/-- A change of the number of routes is one of routes. -/
theorem setRouteCount_aside (hR : AllowsRoutes R) {p : AccountObject → Bool}
    {f : AccountObject → AccountObject}
    (hf : ∀ a, (((f a).id, (f a).name), power (f a), powerDown (f a)) =
      ((a.id, a.name), power a, powerDown a)) : Keeps R (modifyAccount p fun a => .ok (f a)) := by
  refine replace_keeps fun s x hx => hR.accounts s x (Table.modify_map_eq hx fun a b h => ?_)
    (Table.modify_eq_ok hx).2
  rw [← Except.ok.inj h]
  exact hf a

/-- `set_withdraw_vesting_route` changes routes only. -/
theorem applySetWithdrawVestingRoute_aside (hR : AllowsRoutes R)
    (o : SetWithdrawVestingRouteOperation) : Keeps R (applySetWithdrawVestingRoute o) := by
  refine .bind (lookup_keeps _ _) fun source => .bind (lookup_keeps _ _) fun target =>
    .bind (.gets _) fun found => .bind ?_ fun _ => .bind (m := routesOf source.id) (.gets _)
      fun _ => .lift _
  cases found with
  | none =>
    exact .bind (.lift _) fun _ => .bind (.lift _) fun _ =>
      .bind (replace_keeps fun s x _ => hR.routes s x) fun _ =>
      setRouteCount_aside hR fun _ => by rfl
  | some route =>
    refine .ite (.bind (.update fun s _ h => ?_) fun _ => setRouteCount_aside hR fun _ => ?_)
      (replace_keeps fun s x _ => hR.routes s x)
    · exact Except.ok.inj h ▸ hR.routes s _
    · simp only [power, powerDown]

end Withdrawals

section Discussions

variable (fc : FcLib)

/-- Beneficiaries are aside. -/
theorem applyBeneficiaries_aside (hR : SideFrame R) (id : ℕ) (cpb : CommentPayoutBeneficiaries) :
    Keeps R (applyBeneficiaries id cpb) := by
  refine .bind (lookup_keeps _ _) fun _ => .bind (.lift _) fun _ => .bind (.lift _) fun _ =>
    .bind (.gets _) fun _ => modifyComment_aside hR fun a b h => ?_
  obtain ⟨_, -, h⟩ := bind_eq_ok h
  rw [← Except.ok.inj h]
  rfl

/-- `comment_options` is aside. -/
theorem applyCommentOptions_aside (hR : SideFrame R) (o : CommentOptionsOperation) :
    Keeps R (applyCommentOptions o) := by
  refine .bind (lookup_keeps _ _) fun comment => .bind (.lift _) fun _ => .bind (.lift _) fun _ =>
    .bind (.lift _) fun _ => .bind (.lift _) fun _ =>
    .bind (modifyComment_aside hR fun a b h => ?_) fun _ => .forEach (fun extension => ?_) _
  · rw [← Except.ok.inj h]
    rfl
  · exact applyBeneficiaries_aside hR comment.id extension

/-- Counting replies and activity up the tree changes comments. -/
theorem updateAncestors_aside (hR : AllowsComments R) (f : ℕ → ℕ) (now : TimePointSec) (steps : ℕ)
    (parent : CommentObject) : Keeps R (updateAncestors f now steps parent) := by
  induction steps generalizing parent with
  | zero => exact .lift _
  | succ steps ih =>
    exact .bind (replace_keeps fun s x _ => hR s x) fun _ =>
      .whenever (.bind (lookup_keeps _ _) fun next => ih next)

/-- `comment` is aside but for the comments. -/
theorem applyComment_aside (hR : SideFrame R) (hcomments : AllowsComments R) (env : Env)
    (o : CommentOperation) : Keeps R (applyComment env o) := by
  refine .bind (.lift _) fun _ => .bind (.gets _) fun found => .bind (lookup_keeps _ _) fun auth =>
    .bind (findParent_keeps o) fun parent => .bind (.lift _) fun _ => .bind (.gets _) fun now => ?_
  cases found with
  | some comment => exact replace_keeps fun s x _ => hcomments s x
  | none =>
    refine .bind (checkNewComment_keeps o parent auth now) fun _ =>
      .bind (setAccount_aside hR fun _ => by rfl) fun _ =>
      .bind (replace_keeps fun s x _ => hcomments s x) fun _ =>
      .bind (.gets _) fun comments => .forEach (fun parent => ?_) _
    exact updateAncestors_aside hcomments _ now comments parent

/-- `delete_comment` changes comments and their votes. -/
theorem applyDeleteComment_aside (hcomments : AllowsComments R) (hvotes : AllowsCommentVotes R)
    (o : DeleteCommentOperation) : Keeps R (applyDeleteComment o) := by
  refine .bind (lookup_keeps _ _) fun comment => .bind (.lift _) fun _ => .bind (.lift _) fun _ =>
    .bind (.lift _) fun _ => .bind (.update fun s _ h => Except.ok.inj h ▸ hvotes s _) fun _ =>
    .bind (.whenever ?_) fun _ => .update fun s _ h => Except.ok.inj h ▸ hcomments s _
  exact .bind (lookup_keeps _ _) fun parent => .bind (.gets _) fun now =>
    .bind (.gets _) fun comments => updateAncestors_aside hcomments _ now comments parent

omit [IsPreorder ChainState R] in
/-- A vote changes the power of its account. -/
theorem voted_aside (hpower : AllowsPower R) (p : AccountObject → Bool) (now : TimePointSec)
    (left : VotePower) : Keeps R (modifyAccount p fun a => .ok (voted now left a)) := by
  refine replace_keeps fun s x hx => hpower s x (Table.modify_map_eq hx fun a b h => ?_)
    (Table.modify_eq_ok hx).2
  rw [← Except.ok.inj h]
  rfl

/-- A new vote leaves the thread of the comment. -/
theorem addVote_thread {rshares absRshares : ℤ} {a b : CommentObject}
    (h : addVote fc rshares absRshares a = .ok b) : thread b = thread a := by
  obtain ⟨_, -, h⟩ := bind_eq_ok h
  obtain ⟨_, -, h⟩ := bind_eq_ok h
  dsimp only at h
  split at h
  · obtain ⟨_, -, h⟩ := bind_eq_ok h
    rw [← Except.ok.inj h]
    rfl
  · rw [← Except.ok.inj h]
    rfl

/-- The shares of the replies are part of neither the thread nor the poll. -/
theorem addChildrenShares_aside {absRshares : ℤ} {a b : CommentObject}
    (h : addChildrenShares fc absRshares a = .ok b) : (thread b, poll b) = (thread a, poll a) := by
  obtain ⟨_, -, h⟩ := bind_eq_ok h
  rw [← Except.ok.inj h]
  rfl

/-- A changed vote leaves the thread of the comment. -/
theorem changeCommentVote_thread {old rshares absRshares : ℤ} {a b : CommentObject}
    (h : changeCommentVote fc old rshares absRshares a = .ok b) : thread b = thread a := by
  obtain ⟨_, -, h⟩ := bind_eq_ok h
  obtain ⟨_, -, h⟩ := bind_eq_ok h
  obtain ⟨_, -, h⟩ := bind_eq_ok h
  rw [← Except.ok.inj h]
  rfl

/-- A new vote changes the power of the voter; the rest is polls and votes. -/
theorem castVote_voted (hR : SideFrame R) (hpolls : AllowsPolls R) (hvotes : AllowsCommentVotes R)
    {o : VoteOperation} {comment : CommentObject} {voter : AccountObject} {left : VotePower}
    {s t : ChainState} {r : Unit} (h : Returns (castVote fc o comment voter left) s r t) :
    ∃ u, Returns (modifyAccount (named o.voter) fun a => .ok (voted s.dgp.time left a)) s () u ∧
      R u t := by
  obtain ⟨_, -, h⟩ := h.gets_bind.lift_bind
  obtain ⟨_, v, hv, h⟩ := h.bind
  have hsame : v = s := by
    rcases hv.whenever with ⟨-, hv⟩ | ⟨-, hv⟩
    · exact hv.lift.2
    · exact hv
  rw [hsame] at h
  obtain ⟨_, u, hu, h⟩ := h.bind
  refine ⟨u, hu, Keeps.rel (R := R) ?_ _ _ _ h⟩
  exact .bind (lookup_keeps _ _) fun _ =>
    .bind (.lift _) fun _ => .bind (modifyPoll_keeps hpolls fun _ _ h => addVote_thread fc h) fun _ =>
    .bind (modifyComment_aside hR fun _ _ h => addChildrenShares_aside fc h) fun _ =>
    .bind (lookup_keeps _ _) fun _ => .bind (curationWeight_keeps _ _ _ _) fun _ =>
    .bind (replace_keeps fun s x _ => hvotes s x) fun _ =>
    .whenever (setPoll_keeps hpolls fun _ => by rfl)

/-- A changed vote changes the power of the voter; the rest is polls and votes. -/
theorem changeVote_voted (hR : SideFrame R) (hpolls : AllowsPolls R)
    (hvotes : AllowsCommentVotes R) {o : VoteOperation} {comment : CommentObject}
    {vote : CommentVoteObject} {left : VotePower} {s t : ChainState} {r : Unit}
    (h : Returns (changeVote fc o comment vote left) s r t) :
    ∃ u, Returns (modifyAccount (named o.voter) fun a => .ok (voted s.dgp.time left a)) s () u ∧
      R u t := by
  obtain ⟨_, -, h⟩ := h.gets_bind.lift_bind
  obtain ⟨_, -, h⟩ := h.lift_bind
  obtain ⟨_, v, hv, h⟩ := h.bind
  have hsame : v = s := by
    rcases hv.whenever with ⟨-, hv⟩ | ⟨-, hv⟩
    · exact hv.lift.2
    · exact hv
  rw [hsame] at h
  obtain ⟨_, u, hu, h⟩ := h.bind
  refine ⟨u, hu, Keeps.rel (R := R) ?_ _ _ _ h⟩
  exact .bind (lookup_keeps _ _) fun _ =>
    .bind (modifyPoll_keeps hpolls fun _ _ h => changeCommentVote_thread fc h) fun _ =>
    .bind (modifyComment_aside hR fun _ _ h => addChildrenShares_aside fc h) fun _ =>
    .bind (setPoll_keeps hpolls fun _ => by rfl) fun _ => replace_keeps fun s x _ => hvotes s x

/-- What a vote does to its voter: nothing where the comment is paid out, else the voter is
charged. -/
structure VoteCharges (R : ChainState → ChainState → Prop) (o : VoteOperation) (s t : ChainState)
    (comment : CommentObject) (voter : AccountObject) : Prop where
  foundComment : s.comments.find (CommentObject.hasPermlink o.author o.permlink) = some comment
  foundVoter : s.accounts.find (named o.voter) = some voter
  charge : (comment.cashoutTime = timePointSecMaximum ∧ R s t) ∨
    (comment.cashoutTime ≠ timePointSecMaximum ∧ ∃ left u,
      votePower o voter s.dgp = .ok left ∧
      Returns (modifyAccount (named o.voter) fun a => .ok (voted s.dgp.time left a)) s () u ∧ R u t)

/-- A vote charges the power of its voter once, and what comes before and after is allowed. -/
theorem applyVote_charges (hR : SideFrame R) (hpolls : AllowsPolls R)
    (hvotes : AllowsCommentVotes R) {o : VoteOperation} {s t : ChainState} {r : Unit}
    (h : Returns (applyVote fc o) s r t) : ∃ comment voter, VoteCharges R o s t comment voter := by
  obtain ⟨comment, hcomment, h⟩ := lookup_bind h
  obtain ⟨voter, hvoter, h⟩ := lookup_bind h
  obtain ⟨_, -, h⟩ := h.lift_bind
  have h := h.gets_bind
  refine ⟨comment, voter, hcomment, hvoter, ?_⟩
  split at h
  next hpaid =>
    refine .inl ⟨hpaid, ?_⟩
    have h := h.gets_bind
    split at h
    · exact (replace_keeps fun s x _ => hvotes s x).rel _ _ _ h
    · exact (replace_keeps fun s x _ => hvotes s x).rel _ _ _ h
  next hopen =>
    refine .inr ⟨hopen, ?_⟩
    obtain ⟨left, hleft, h⟩ := h.gets_bind.lift_bind
    split at h
    · obtain ⟨u, hu, ht⟩ := castVote_voted fc hR hpolls hvotes h
      exact ⟨left, u, hleft, hu, ht⟩
    · obtain ⟨_, -, h⟩ := h.lift_bind
      obtain ⟨u, hu, ht⟩ := changeVote_voted fc hR hpolls hvotes h
      exact ⟨left, u, hleft, hu, ht⟩

/-- A vote changes the power of its voter, the poll of its comment and the votes. -/
theorem applyVote_aside (hR : SideFrame R) (hpower : AllowsPower R) (hpolls : AllowsPolls R)
    (hvotes : AllowsCommentVotes R) (o : VoteOperation) : Keeps R (applyVote fc o) := by
  constructor
  intro s r t h
  obtain ⟨comment, voter, hcharges⟩ := applyVote_charges fc hR hpolls hvotes h
  rcases hcharges.charge with ⟨-, ht⟩ | ⟨-, left, u, -, hu, ht⟩
  · exact ht
  · exact Trans.trans ((voted_aside hpower _ _ _).rel _ _ _ hu) ht

end Discussions

section Payouts

variable (fc : FcLib)

/-- The loop over the curators is aside. -/
theorem payCuratorLoop_aside (hR : SideFrame R) (maxRewards unclaimed : ℤ) (totalWeight : ℕ)
    (votes : List CommentVoteObject) :
    Keeps R (payCuratorLoop fc maxRewards totalWeight unclaimed votes) := by
  induction votes generalizing unclaimed with
  | nil => exact .pure _
  | cons vote rest ih =>
    refine .bind (.lift _) fun _ => .bind (.lift _) fun claim => .ite (.bind (.lift _) fun _ =>
      .bind (.lift _) fun unclaimed => .bind (lookup_keeps _ _) fun voter =>
      .bind (createVesting_aside fc hR _ _ _) fun _ => .bind ?_ fun _ => ih unclaimed)
      (ih unclaimed)
    refine modifyAccount_aside hR fun a b h => ?_
    obtain ⟨x, -, h⟩ := bind_eq_ok h
    rw [← Except.ok.inj h]
    rfl

/-- The payment of the curators is aside. -/
theorem payCurators_aside (hR : SideFrame R) (c : CommentObject) (maxRewards : ℤ) :
    Keeps R (payCurators fc c maxRewards) :=
  .ite (.pure _) (.ite (.bind (.gets _) fun _ => .bind (payCuratorLoop_aside fc hR _ _ _ _) fun _ =>
    .bind (.lift _) fun _ => .pure _) (.bind (.lift _) fun _ => .pure _))

/-- The payment of the beneficiaries is aside. -/
theorem payBeneficiaries_aside (hR : SideFrame R) (authorTokens total : ℤ)
    (routes : List BeneficiaryRoute) :
    Keeps R (payBeneficiaries fc authorTokens total routes) := by
  induction routes generalizing total with
  | nil => exact .pure _
  | cons b rest ih =>
    exact .bind (.lift _) fun _ => .bind (lookup_keeps _ _) fun _ =>
      .bind (createVesting_aside fc hR _ _ _) fun _ => .bind (.lift _) fun total => ih total

/-- The payment of a comment is aside. -/
theorem payComment_aside (hR : SideFrame R) (comment : CommentObject) (percent reward : ℕ) :
    Keeps R (payComment fc comment percent reward) := by
  refine .bind (.lift _) fun _ => .bind (.lift _) fun _ => .bind (.lift _) fun _ =>
    .bind (.lift _) fun _ => .bind (.lift _) fun _ => .bind (payCurators_aside fc hR _ _) fun _ =>
    .bind (.lift _) fun _ => .bind (.lift _) fun _ => .bind (payBeneficiaries_aside fc hR _ _ _) fun _ =>
    .bind (.lift _) fun _ => .bind (lookup_keeps _ _) fun _ =>
    .bind (createVesting_aside fc hR _ _ _) fun _ =>
    .bind (modifyComment_aside hR fun a b h => ?_) fun _ =>
    .bind (modifyComment_aside hR fun a b h => ?_) fun _ =>
    .bind (modifyAccount_aside hR fun a b h => ?_) fun _ => .pure _
  · obtain ⟨_, -, h⟩ := bind_eq_ok h
    obtain ⟨_, -, h⟩ := bind_eq_ok h
    obtain ⟨_, -, h⟩ := bind_eq_ok h
    rw [← Except.ok.inj h]
    rfl
  · obtain ⟨_, -, h⟩ := bind_eq_ok h
    rw [← Except.ok.inj h]
    rfl
  · obtain ⟨_, -, h⟩ := bind_eq_ok h
    rw [← Except.ok.inj h]
    rfl

/-- The reward of a comment is paid aside. -/
theorem rewardComment_aside (hR : SideFrame R) (fund : RewardFundContext)
    (comment : CommentObject) : Keeps R (rewardComment fc fund comment) :=
  .ite (.bind (lookup_keeps _ _) fun _ => .bind (.lift _) fun _ =>
    .ite (payComment_aside fc hR _ _ _) (.pure _)) (.pure _)

/-- `cashout_comment_helper` changes the poll of the comment and its votes. -/
theorem cashoutCommentHelper_aside (hR : SideFrame R) (hpolls : AllowsPolls R)
    (hvotes : AllowsCommentVotes R) (fund : RewardFundContext) (comment : CommentObject) :
    Keeps R (cashoutCommentHelper fc fund comment) := by
  refine .bind (rewardComment_aside fc hR fund comment) fun _ => .bind (.gets _) fun _ =>
    .bind (setPoll_keeps hpolls fun _ => by rfl) fun _ => .bind (lookup_keeps _ _) fun _ =>
    .bind (.whenever (.bind (.gets _) fun _ => .forEach (fun vote => ?_) _)) fun _ => .pure _
  exact replace_keeps fun s x _ => hvotes s x

/-- The decay of a fund leaves its terms. -/
theorem decayed_terms {now : TimePointSec} {a b : RewardFundObject} (h : decayed now a = .ok b) :
    terms b = terms a := by
  unfold decayed at h
  dsimp only at h
  split at h
  · obtain ⟨_, -, h⟩ := bind_eq_ok h
    rw [← Except.ok.inj h]
    rfl
  · rw [← Except.ok.inj h]
    rfl

/-- The decay of the funds is aside. -/
theorem decayFunds_aside (hR : SideFrame R) (now : TimePointSec) (rows : List RewardFundObject) :
    Keeps R (decayFunds now rows) := by
  induction rows with
  | nil => exact .pure _
  | cons rf rest ih =>
    exact .bind (modifyRewardFund_aside hR fun _ _ h => decayed_terms h) fun _ =>
      .bind (lookup_keeps _ _) fun _ => .bind ih fun _ => .pure _

/-- The loop over the due comments changes polls and votes. -/
theorem payDueComments_aside (hR : SideFrame R) (hpolls : AllowsPolls R)
    (hvotes : AllowsCommentVotes R) (rounds : ℕ) (funds : List RewardFundContext) :
    Keeps R (payDueComments fc rounds funds) := by
  induction rounds generalizing funds with
  | zero =>
    refine .bind dueComment_keeps fun current => ?_
    cases current with
    | none => exact .pure _
    | some comment => exact .lift _
  | succ rounds ih =>
    refine .bind dueComment_keeps fun current => ?_
    cases current with
    | none => exact .pure _
    | some comment =>
      exact .bind (lookup_keeps _ _) fun _ => .bind (.lift _) fun fund =>
        .bind (cashoutCommentHelper_aside fc hR hpolls hvotes fund comment) fun _ =>
        .bind (.lift _) fun _ => ih _

/-- Writing the funds back is aside. -/
theorem writeFunds_aside (hR : SideFrame R) (id : ℕ) (funds : List RewardFundContext) :
    Keeps R (writeFunds fc id funds) := by
  induction funds generalizing id with
  | nil => exact .pure _
  | cons fund rest ih =>
    refine .bind (modifyRewardFund_aside hR fun a b h => ?_) fun _ => ih _
    obtain ⟨x, -, h⟩ := bind_eq_ok h
    rw [← Except.ok.inj h]
    rfl

/-- The payout of comments changes the polls of those that are paid. -/
theorem processCommentCashout_aside (hR : SideFrame R) (hpolls : AllowsPolls R)
    (hvotes : AllowsCommentVotes R) : Keeps R (processCommentCashout fc) :=
  .bind (.gets _) fun now => .bind (.gets _) fun _ => .bind (decayFunds_aside hR now _) fun _ =>
    .bind (.gets _) fun _ => .bind (addClaims_keeps _ _) fun _ =>
    .bind (payDueComments_aside fc hR hpolls hvotes _ _) fun _ => writeFunds_aside fc hR _ _

end Payouts

section Operations

/-- The operations that neither vote, nor write or delete a comment, nor start a power-down or
set a route, nor create an account. -/
def Plain : Operation → Prop
  | .vote _ | .comment _ | .deleteComment _ | .withdrawVesting _ | .setWithdrawVestingRoute _
  | .accountCreate _ => False
  | _ => True

/-- A plain operation leaves alone what the frame protects. -/
theorem applyOperation_aside (ctx : Context) (hR : SideFrame R) {op : Operation} (hop : Plain op) :
    Keeps R (applyOperation ctx op) := by
  cases op with
  | vote o => exact hop.elim
  | comment o => exact hop.elim
  | transfer o => exact applyTransfer_aside _ hR o
  | transferToVesting o => exact applyTransferToVesting_aside _ hR o
  | withdrawVesting o => exact hop.elim
  | accountCreate o => exact hop.elim
  | accountUpdate o => exact applyAccountUpdate_aside hR o
  | accountForsale o => exact .lift (.error (failed "Temporary disabled."))
  | accountBuying o => exact .lift (.error (failed "Temporary disabled."))
  | witnessUpdate o => exact applyWitnessUpdate_aside hR ctx o
  | accountWitnessVote o => exact applyAccountWitnessVote_aside _ hR o
  | accountWitnessProxy o => exact applyAccountWitnessProxy_aside _ hR o
  | custom o => exact .pure _
  | deleteComment o => exact hop.elim
  | customJson o => exact .pure _
  | commentOptions o => exact applyCommentOptions_aside hR o
  | setWithdrawVestingRoute o => exact hop.elim
  | customBinary o => exact .pure _
  | claimRewardBalance o => exact applyClaimRewardBalance_aside _ hR o

end Operations

section Blocks

variable (ctx : Context)

/-- The extensions of a header are aside. -/
theorem processHeaderExtensions_aside (hR : SideFrame R) (b : SignedBlock) :
    Keeps R (processHeaderExtensions b) :=
  .forEach (fun _ => modifyWitness_aside hR _ _) _

/-- Counting missed blocks is aside. -/
theorem missSlots_aside (hR : SideFrame R) (b : SignedBlock) (left slot : ℕ) :
    Keeps R (missSlots b left slot) := by
  induction left generalizing slot with
  | zero => exact .pure _
  | succ left ih =>
    exact .bind (.bind (.gets _) fun _ => .bind (.gets _) fun _ => .pure _) fun name =>
      .bind (lookup_keeps _ _) fun _ => .bind (.gets _) fun _ =>
      .bind (.whenever (modifyWitness_aside hR _ _)) fun _ => ih _

/-- `update_global_dynamic_data` is aside. -/
theorem updateGlobalDynamicData_aside (hR : SideFrame R) (b : SignedBlock) :
    Keeps R (updateGlobalDynamicData ctx b) :=
  .bind (.gets _) fun _ => .bind (missSlots_aside hR b _ _) fun _ =>
    .bind (modifyDgp_aside hR _) fun _ => .bind (.gets _) fun _ => .lift _

/-- `update_signing_witness` is aside. -/
theorem updateSigningWitness_aside (hR : SideFrame R) (signingWitness : AccountName)
    (b : SignedBlock) : Keeps R (updateSigningWitness signingWitness b) :=
  .bind (.gets _) fun _ => modifyWitness_aside hR _ _

/-- `update_last_irreversible_block` is aside. -/
theorem updateLastIrreversibleBlock_aside (hR : SideFrame R) :
    Keeps R updateLastIrreversibleBlock :=
  .bind (.gets _) fun _ => .ite (modifyDgp_aside hR _) (.bind scheduledWitnesses_keeps fun _ =>
    .bind (.lift _) fun _ => modifyDgp_aside hR _)

omit [IsPreorder ChainState R] in
/-- `clear_expired_transactions` is aside. -/
theorem clearExpiredTransactions_aside (hR : SideFrame R) : Keeps R clearExpiredTransactions :=
  .update fun s _ h => Except.ok.inj h ▸ hR.transactions s _

end Blocks

section Views

variable {β : Type} {g : AccountObject → β} {new : β → Prop} {name : AccountName} {s t : ChainState}

/-- What the account of a name shows. -/
def viewOf (g : AccountObject → β) (s : ChainState) (name : AccountName) : Option β :=
  (s.accounts.find (named name)).map g

/-- An account shows what it showed, or it is new and shows what a new account does. -/
def Untouched (g : AccountObject → β) (new : β → Prop) (name : AccountName) (s t : ChainState) :
    Prop :=
  viewOf g t name = viewOf g s name ∨
    viewOf g s name = none ∧ ∃ v, new v ∧ viewOf g t name = some v

omit [IsPreorder ChainState R]

instance (g : AccountObject → β) (new : β → Prop) (name : AccountName) :
    IsPreorder ChainState (Untouched g new name) where
  refl _ := .inl rfl
  trans s t u hst htu := by
    rcases hst with hst | ⟨hnone, v, hv, hst⟩
    · unfold Untouched
      rw [← hst]
      exact htu
    · rcases htu with htu | ⟨habsent, -⟩
      · exact .inr ⟨hnone, v, hv, htu.trans hst⟩
      · rw [hst] at habsent
        cases habsent

/-- An untouched view of an account that is there stays. -/
theorem Untouched.eq_some {v : β} (h : Untouched g new name s t) (hs : viewOf g s name = some v) :
    viewOf g t name = some v := by
  rcases h with h | ⟨hnone, -⟩
  · exact h.trans hs
  · rw [hs] at hnone
    cases hnone

/-- Accounts with the same names and views are untouched. -/
theorem untouched_of_map {x : Table AccountObject}
    (h : x.rows.map (fun a => (a.name, g a)) = s.accounts.rows.map fun a => (a.name, g a)) :
    Untouched g new name s { s with accounts := x } := by
  have hfind := Table.find_map_congr (p := named name) h fun a b hab => by
    simp only [named, (Prod.mk.inj hab).1]
  have hview := congrArg (Option.map Prod.snd) hfind
  rw [Option.map_map, Option.map_map] at hview
  exact .inl hview

/-- A part of its conduct stays with an account in every frame. -/
theorem untouched_sideFrame {k : _ → β} (hk : ∀ a, k (conduct a) = g a) :
    SideFrame (Untouched g new name) where
  accounts _ _ hx _ := untouched_of_map
    (map_eq_of_map_eq (fun c => (c.1.2, k c)) (fun a => by rw [hk]; rfl) hx)
  comments _ _ _ _ := .inl rfl
  accountAuthorities _ _ := .inl rfl
  witnesses _ _ := .inl rfl
  witnessVotes _ _ := .inl rfl
  rewardFunds _ _ _ := .inl rfl
  transactions _ _ := .inl rfl
  dgp _ _ := .inl rfl
  wso _ _ := .inl rfl
  hardforks _ _ := .inl rfl
  blockSummaries _ _ := .inl rfl

/-- A new account with the given view leaves the others untouched. -/
theorem untouched_account {k : _ → β} (hk : ∀ a, k (conduct a) = g a)
    (hnew : ∀ id name time,
      new (k ((id, name), (wls100Percent, time), (0, timePointSecMaximum, 0, 0), 0))) :
    AllowsAccount (Untouched g new name) := by
  intro s x a hrows _ hconduct _
  have hfind : x.find (named name) = (s.accounts.find (named name)).or ([a].find? (named name)) := by
    unfold Table.find
    rw [hrows, List.find?_append]
  have hview : viewOf g { s with accounts := x } name =
      ((s.accounts.find (named name)).or ([a].find? (named name))).map g :=
    congrArg (Option.map g) hfind
  unfold Untouched
  rw [hview]
  unfold viewOf
  cases hold : s.accounts.find (named name) with
  | some old => exact .inl rfl
  | none =>
    by_cases hname : named name a = true
    · have hshown : new (g a) := by
        rw [← hk, hconduct]
        exact hnew _ _ _
      rw [List.find?_cons_of_pos hname]
      exact .inr ⟨rfl, g a, hshown, rfl⟩
    · rw [List.find?_cons_of_neg hname]
      exact .inl rfl

/-- A view without the voting power is untouched by votes. -/
theorem untouched_power {k : _ → β}
    (hk : ∀ a : AccountObject, k ((a.id, a.name), powerDown a, a.withdrawRoutes) = g a) :
    AllowsPower (Untouched g new name) :=
  fun _ _ hx _ => untouched_of_map
    (map_eq_of_map_eq (fun c => (c.1.2, k c)) (fun a => by rw [hk]) hx)

/-- A view without the power-down is untouched by withdrawals. -/
theorem untouched_powerDown {k : _ → β}
    (hk : ∀ a : AccountObject, k ((a.id, a.name), power a, a.withdrawRoutes) = g a) :
    AllowsPowerDown (Untouched g new name) :=
  fun _ _ hx _ => untouched_of_map
    (map_eq_of_map_eq (fun c => (c.1.2, k c)) (fun a => by rw [hk]) hx)

/-- A view without the number of routes is untouched by routes. -/
theorem untouched_routes {k : _ → β}
    (hk : ∀ a : AccountObject, k ((a.id, a.name), power a, powerDown a) = g a) :
    AllowsRoutes (Untouched g new name) where
  accounts _ _ hx _ := untouched_of_map
    (map_eq_of_map_eq (fun c => (c.1.2, k c)) (fun a => by rw [hk]) hx)
  routes _ _ := .inl rfl

/-- A change of comments leaves the accounts untouched. -/
theorem untouched_comments : AllowsComments (Untouched g new name) := fun _ _ => .inl rfl

/-- A change of the votes on comments leaves the accounts untouched. -/
theorem untouched_commentVotes : AllowsCommentVotes (Untouched g new name) := fun _ _ => .inl rfl

/-- A change of polls leaves the accounts untouched. -/
theorem untouched_polls : AllowsPolls (Untouched g new name) := fun _ _ _ _ => .inl rfl

/-- The account of another name is untouched. -/
theorem modifyAccount_untouched {other : AccountName}
    {f : AccountObject → Except Exc AccountObject} (hf : ∀ a b, f a = .ok b → b.name = a.name)
    (hne : other ≠ name) {u : Unit} (h : Returns (modifyAccount (named other) f) s u t) :
    Untouched g new name s t := by
  obtain ⟨x, hx, rfl⟩ := map_eq_ok h.update
  obtain ⟨before, a, b, after, hrows, hrows', -, ha, hab⟩ := Table.modify_rows hx
  have hname : a.name = other := by simpa [named] using ha
  have hold : ¬ named name a = true := by simp [named, hname, hne]
  have hnew : ¬ named name b = true := by simp [named, hf a b hab, hname, hne]
  have hfind : x.find (named name) = s.accounts.find (named name) := by
    unfold Table.find
    rw [hrows, hrows', List.find?_append, List.find?_append, List.find?_cons_of_neg hold,
      List.find?_cons_of_neg hnew]
  exact .inl (congrArg (Option.map g) hfind)

/-- The account of a name after it is changed. -/
theorem modifyAccount_find {f : AccountObject → Except Exc AccountObject}
    (hf : ∀ a b, f a = .ok b → b.name = a.name) {u : Unit}
    (h : Returns (modifyAccount (named name) f) s u t) :
    ∃ a b, s.accounts.find (named name) = some a ∧ f a = .ok b ∧
      t.accounts.find (named name) = some b := by
  obtain ⟨x, hx, rfl⟩ := map_eq_ok h.update
  obtain ⟨before, a, b, after, hrows, hrows', hbefore, ha, hab⟩ := Table.modify_rows hx
  have hnone := List.find?_eq_none.mpr (by simpa using hbefore)
  have hb : named name b = true := by
    unfold named at ha ⊢
    rw [hf a b hab]
    exact ha
  refine ⟨a, b, ?_, hab, ?_⟩
  · unfold Table.find
    rw [hrows, List.find?_append, hnone, List.find?_cons_of_pos ha]
    rfl
  · change x.rows.find? (named name) = some b
    rw [hrows', List.find?_append, hnone, List.find?_cons_of_pos hb]
    rfl

end Views

end Whaleshares.Sidelines
