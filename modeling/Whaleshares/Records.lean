import Whaleshares.Unseen

/-!
# The records of transactions

The table of transaction objects is read by the check for duplicates and written where a
transaction is recorded and where expired records are cleared. No other routine of the
chain sees it: on a state with other records it does the same.
-/

namespace Whaleshares.Records

open Config Fc Assets Protocol Objects Program Database WitnessVotes Vesting Rewards
  WitnessSchedule Evaluators CommentEvaluators ApplyBlock Unseen

/-- The state with other records of transactions. -/
def withRecords (records : Table TransactionObject) (s : ChainState) : ChainState :=
  { s with transactions := records }

variable {P : Table TransactionObject → Table TransactionObject → Prop}

section Database

variable {records : Table TransactionObject}

/-- Other records leave the accounts. -/
@[simp] theorem withRecords_accounts (s : ChainState) : (withRecords records s).accounts =
  s.accounts := rfl

/-- Other records leave the authorities. -/
@[simp] theorem withRecords_accountAuthorities (s : ChainState) : (withRecords records
  s).accountAuthorities = s.accountAuthorities := rfl

/-- Other records leave the comments. -/
@[simp] theorem withRecords_comments (s : ChainState) : (withRecords records s).comments =
  s.comments := rfl

/-- Other records leave the votes on comments. -/
@[simp] theorem withRecords_commentVotes (s : ChainState) : (withRecords records s).commentVotes
  = s.commentVotes := rfl

/-- Other records leave the witnesses. -/
@[simp] theorem withRecords_witnesses (s : ChainState) : (withRecords records s).witnesses =
  s.witnesses := rfl

/-- Other records leave the witness votes. -/
@[simp] theorem withRecords_witnessVotes (s : ChainState) : (withRecords records s).witnessVotes
  = s.witnessVotes := rfl

/-- Other records leave the withdrawal routes. -/
@[simp] theorem withRecords_withdrawVestingRoutes (s : ChainState) : (withRecords records
  s).withdrawVestingRoutes = s.withdrawVestingRoutes := rfl

/-- Other records leave the reward funds. -/
@[simp] theorem withRecords_rewardFunds (s : ChainState) : (withRecords records s).rewardFunds =
  s.rewardFunds := rfl

/-- Other records leave the global properties. -/
@[simp] theorem withRecords_dgp (s : ChainState) : (withRecords records s).dgp = s.dgp := rfl

/-- Other records leave the witness schedule. -/
@[simp] theorem withRecords_wso (s : ChainState) : (withRecords records s).wso = s.wso := rfl

/-- Other records leave the hardforks. -/
@[simp] theorem withRecords_hardforks (s : ChainState) : (withRecords records s).hardforks =
  s.hardforks := rfl

/-- Other records leave the summaries of the blocks. -/
@[simp] theorem withRecords_blockSummaries (s : ChainState) : (withRecords records
  s).blockSummaries = s.blockSummaries := rfl

/-- The other records are in their place. -/
@[simp] theorem withRecords_transactions (s : ChainState) :
    (withRecords records s).transactions = records := rfl

/-- States whose witnesses are alike in everything differ at most in their records. -/
theorem alike_iff {s s' : ChainState} :
    Alike Eq Eq P s s' ↔ ∃ records, s' = withRecords records s ∧ P s.transactions records := by
  constructor
  · intro h
    have hwitnesses : s'.witnesses = s.witnesses := by
      refine Table.Related.eq ⟨?_, h.witnesses.nextId⟩
      refine h.witnesses.rows.imp fun w w' hw => ?_
      rw [hw.rest, ← hw.reports]
      rfl
    refine ⟨s'.transactions, ?_, h.records⟩
    rw [h.rest]
    unfold hiddenPart masked
    rw [← h.currentWitness, hwitnesses]
    rfl
  · rintro ⟨records, rfl, hP⟩
    exact ⟨rfl, rfl, .refl (fun w => .refl (fun _ => rfl) w) _, hP⟩

/-- Reading a part besides the records reads the same. -/
theorem gets_unrecorded {α : Type} {f : ChainState → α} (hf : ∀ r s, f (withRecords r s) = f s) :
    Blind (Alike Eq Eq P) (gets f : Chain α) := by
  refine .gets fun s s' h => ?_
  obtain ⟨records, rfl, -⟩ := alike_iff.mp h
  exact hf records s

/-- A lookup in a table besides the records finds the same. -/
theorem lookup_unrecorded {α : Type} {table : ChainState → Table α} (p : α → Bool)
    (h : ∀ r s, table (withRecords r s) = table s) :
    Blind (Alike Eq Eq P) (lookup table p) :=
  .bind (gets_unrecorded fun r s => by rw [h]) fun _ => .lift _

/-- A change of a component, whatever it is, but the records. -/
theorem replace_unrecorded {γ : Type} {get : ChainState → Except Exc γ}
    {put : ChainState → γ → ChainState} (hget : ∀ r s, get (withRecords r s) = get s)
    (hput : ∀ x r s, put (withRecords r s) x = withRecords r (put s x))
    (hkeep : ∀ x s, (put s x).transactions = s.transactions) :
    Blind (Alike Eq Eq P) (update fun s => (get s).map (put s)) := by
  refine .replace (fun s s' h => ?_) fun s s' x h => ?_
  · obtain ⟨records, rfl, -⟩ := alike_iff.mp h
    exact hget records s
  · obtain ⟨records, rfl, hP⟩ := alike_iff.mp h
    refine alike_iff.mpr ⟨records, hput x records s, ?_⟩
    rw [hkeep]
    exact hP

/-- Setting a part besides the records does not see them. -/
theorem set_unrecorded {put : ChainState → ChainState}
    (hput : ∀ r s, put (withRecords r s) = withRecords r (put s))
    (hkeep : ∀ s, (put s).transactions = s.transactions) :
    Blind (Alike Eq Eq P) (update fun s => .ok (put s) : Chain Unit) := by
  refine .update fun s s' t h ht => ⟨put s', rfl, ?_⟩
  obtain ⟨records, rfl, hP⟩ := alike_iff.mp h
  rw [← Except.ok.inj ht]
  refine alike_iff.mpr ⟨records, hput records s, ?_⟩
  rw [hkeep]
  exact hP

/-- Changes of witnesses do not see the records. -/
theorem modifyAnyWitness_blind (p : WitnessObject → Bool)
    (f : WitnessObject → Except Exc WitnessObject) :
    Blind (Alike Eq Eq P) (modifyWitness p f) :=
  replace_unrecorded (fun _ _ => rfl) (fun _ _ _ => rfl) fun _ _ => rfl

/-- Changes of the global properties do not see the records. -/
theorem modifyAnyDgp_blind
    (f : DynamicGlobalPropertyObject → Except Exc DynamicGlobalPropertyObject) :
    Blind (Alike Eq Eq P) (modifyDgp f) :=
  replace_unrecorded (fun _ _ => rfl) (fun _ _ _ => rfl) fun _ _ => rfl

/-- Changes of reward funds do not see the records. -/
theorem modifyRewardFund_blind (id : ℕ) (f : RewardFundObject → Except Exc RewardFundObject) :
    Blind (Alike Eq Eq P) (modifyRewardFund id f) :=
  replace_unrecorded (fun _ _ => rfl) (fun _ _ _ => rfl) fun _ _ => rfl

/-- Changes of the schedule do not see the records. -/
theorem modifyWso_blind (f : WitnessScheduleObject → WitnessScheduleObject) :
    Blind (Alike Eq Eq P) (modifyWso f) :=
  set_unrecorded (fun _ _ => rfl) fun _ => rfl

/-- Changes of the hardforks do not see the records. -/
theorem modifyHardforks_blind (f : HardforkPropertyObject → HardforkPropertyObject) :
    Blind (Alike Eq Eq P) (modifyHardforks f) :=
  set_unrecorded (fun _ _ => rfl) fun _ => rfl

/-- A change of the supply does not see the records. -/
theorem adjustSupply_blind (fc : FcLib) (delta : Asset) :
    Blind (Alike Eq Eq P) (adjustSupply fc delta) :=
  modifyAnyDgp_blind _

end Database

section Money

variable (fc : FcLib)

/-- Burning the balance of the null account does not see the records. -/
theorem clearNullBalance_blind (total : Asset) :
    Blind (Alike Eq Eq P) (clearNullBalance fc total) := by
  refine .bind (lookup_unrecorded _ fun _ _ => rfl) fun a => .ite (.bind (.lift _) fun _ =>
    .bind (.lift _) fun _ => .bind ?_ fun _ => .pure _) (.pure _)
  exact modifyAccount_blind _ _

/-- Burning the shares of the null account does not see the records. -/
theorem clearNullVesting_blind (total : Asset) :
    Blind (Alike Eq Eq P) (clearNullVesting fc total) := by
  refine .bind (lookup_unrecorded _ fun _ _ => rfl) fun a =>
    .ite (.bind (gets_unrecorded fun _ _ => rfl) fun _ =>
    .bind (.lift _) fun _ => .bind (modifyAnyDgp_blind _) fun _ =>
    .bind (modifyAccount_blind _ _) fun _ => .bind (.lift _) fun _ => .pure _) (.pure _)

/-- Burning the reward balance of the null account does not see the records. -/
theorem clearNullReward_blind (total : Asset) :
    Blind (Alike Eq Eq P) (clearNullReward fc total) := by
  refine .bind (lookup_unrecorded _ fun _ _ => rfl) fun a => .ite (.bind (.lift _) fun _ =>
    .bind (.lift _) fun _ => .bind ?_ fun _ => .pure _) (.pure _)
  exact modifyAccount_blind _ _

/-- Burning the reward shares of the null account does not see the records. -/
theorem clearNullRewardVesting_blind (total : Asset) :
    Blind (Alike Eq Eq P) (clearNullRewardVesting fc total) := by
  refine .bind (lookup_unrecorded _ fun _ _ => rfl) fun a => .ite (.bind (.lift _) fun _ =>
    .bind (modifyAnyDgp_blind _) fun _ => .bind (modifyAccount_blind _ _) fun _ =>
    .pure _) (.pure _)

/-- `clear_null_account_balance` does not see the records. -/
theorem clearNullAccountBalance_blind :
    Blind (Alike Eq Eq P) (clearNullAccountBalance fc) := by
  refine .bind (clearNullBalance_blind fc _) fun _ =>
    .bind (clearNullVesting_blind fc _) fun _ => .bind (clearNullReward_blind fc _) fun _ =>
    .bind (clearNullRewardVesting_blind fc _) fun _ =>
    .whenever (.bind (.lift _) fun delta => ?_)
  exact adjustSupply_blind fc delta

/-- Deposits of shares along the routes do not see the records. -/
theorem depositAsVests_blind (toWithdraw deposited : ℤ)
    (routes : List WithdrawVestingRouteObject) :
    Blind (Alike Eq Eq P) (depositAsVests fc toWithdraw deposited routes) := by
  induction routes generalizing deposited with
  | nil => exact .pure _
  | cons route rest ih =>
    refine .ite (.bind (.lift _) fun deposit => .bind (.lift _) fun deposited =>
      .bind (.whenever (.bind (lookup_unrecorded _ fun _ _ => rfl) fun target =>
      .bind (modifyAccount_blind _ _) fun _ => ?_)) fun _ => ih deposited) (ih deposited)
    exact adjustProxiedWitnessVotes_blind fc _ _

/-- Deposits of tokens along the routes do not see the records. -/
theorem depositAsSteem_blind (toWithdraw deposited steem : ℤ)
    (routes : List WithdrawVestingRouteObject) :
    Blind (Alike Eq Eq P) (depositAsSteem fc toWithdraw deposited steem routes) := by
  induction routes generalizing deposited steem with
  | nil => exact .pure _
  | cons route rest ih =>
    refine .ite (ih deposited steem) (.bind (lookup_unrecorded _ fun _ _ => rfl) fun _ =>
      .bind (.lift _) fun deposit => .bind (.lift _) fun deposited =>
      .bind (gets_unrecorded fun _ _ => rfl) fun _ => .bind (.lift _) fun _ =>
      .bind (.lift _) fun steem =>
      .bind (.whenever (.bind (modifyAccount_blind _ _) fun _ => ?_)) fun _ =>
      ih deposited steem)
    exact modifyAnyDgp_blind _

/-- A withdrawal of an account does not see the records. -/
theorem processVestingWithdrawal_blind (source : AccountObject) :
    Blind (Alike Eq Eq P) (processVestingWithdrawal fc source) := by
  refine .bind (.lift _) fun toWithdraw =>
    .bind (m := routesOf source.id) (gets_unrecorded fun _ _ => rfl) fun routes =>
    .bind (depositAsVests_blind fc _ _ _) fun asVests =>
    .bind (depositAsSteem_blind fc _ _ _ _) fun asSteem => .bind (.lift _) fun _ =>
    .bind (.lift _) fun _ => .bind (.lift _) fun _ => .bind (gets_unrecorded fun _ _ =>
    rfl) fun _ =>
    .bind (.lift _) fun _ => .bind (modifyAccount_blind _ _) fun _ =>
    .bind (modifyAnyDgp_blind _) fun _ => .whenever (.bind (.lift _) fun delta => ?_)
  exact adjustProxiedWitnessVotes_blind fc _ delta

/-- The loop over the due accounts does not see the records. -/
theorem vestingWithdrawalLoop_blind (rounds : ℕ) (current : Option AccountObject) :
    Blind (Alike Eq Eq P) (vestingWithdrawalLoop fc rounds current) := by
  induction rounds generalizing current with
  | zero =>
    cases current with
    | none => exact .pure _
    | some a => exact .lift _
  | succ rounds ih =>
    cases current with
    | none => exact .pure _
    | some a =>
      refine .bind (lookup_unrecorded _ fun _ _ => rfl) fun source =>
        .bind (gets_unrecorded fun _ _ => rfl) fun now =>
        .ite (.bind (m := nextInWithdrawalOrder source) (gets_unrecorded fun _ _ => rfl) fun next =>
          .bind (processVestingWithdrawal_blind fc source) fun _ => ?_) (.pure _)
      exact ih next

/-- `process_vesting_withdrawals` does not see the records. -/
theorem processVestingWithdrawals_blind :
    Blind (Alike Eq Eq P) (processVestingWithdrawals fc) :=
  .bind (gets_unrecorded fun _ _ => rfl) fun rounds => .bind (gets_unrecorded fun _ _ =>
    rfl) fun first =>
    vestingWithdrawalLoop_blind fc rounds first

/-- The payment of the reward funds does not see the records. -/
theorem payRewardFunds_blind (reward used : ℤ) (funds : List RewardFundObject) :
    Blind (Alike Eq Eq P) (payRewardFunds fc reward used funds) := by
  induction funds generalizing used with
  | nil => exact .pure _
  | cons rf rest ih =>
    refine .bind (.lift _) fun _ => .bind (.lift _) fun _ =>
      .bind (modifyRewardFund_blind _ _) fun _ => .bind (.lift _) fun used =>
      .bind (.lift _) fun _ => ?_
    exact ih used

/-- `process_funds` does not see the records. -/
theorem processFunds_blind : Blind (Alike Eq Eq P) (processFunds fc) := by
  refine .bind (gets_unrecorded fun _ _ => rfl) fun _ => .bind (gets_unrecorded fun _ _ =>
    rfl) fun _ =>
    .bind (.lift _) fun _ => .bind (.lift _) fun _ => .bind (.lift _) fun _ =>
    .bind (gets_unrecorded fun _ _ => rfl) fun _ => .bind (payRewardFunds_blind fc _ _ _) fun _ =>
    .bind (.lift _) fun _ => .bind (.lift _) fun _ => .bind (.lift _) fun _ =>
    .bind (lookup_unrecorded _ fun _ _ => rfl) fun cwit => .bind (.lift _) fun _ =>
    .bind (.lift _) fun _ => .bind (.lift _) fun newSteem => .bind (modifyAnyDgp_blind _) fun _ =>
    .bind (createVesting_blind fc _ _ _) fun _ => modifyAccount_blind _ _

/-- The loop over the curators does not see the records. -/
theorem payCuratorLoop_blind (maxRewards unclaimed : ℤ) (totalWeight : ℕ)
    (votes : List CommentVoteObject) :
    Blind (Alike Eq Eq P) (payCuratorLoop fc maxRewards totalWeight unclaimed votes) := by
  induction votes generalizing unclaimed with
  | nil => exact .pure _
  | cons vote rest ih =>
    refine .bind (.lift _) fun _ => .bind (.lift _) fun claim => .ite (.bind (.lift _) fun _ =>
      .bind (.lift _) fun unclaimed => .bind (lookup_unrecorded _ fun _ _ => rfl) fun voter =>
      .bind (createVesting_blind fc _ _ _) fun _ => .bind (modifyAccount_blind _ _) fun _ =>
      ih unclaimed) (ih unclaimed)

/-- The payment of the curators does not see the records. -/
theorem payCurators_blind (c : CommentObject) (maxRewards : ℤ) :
    Blind (Alike Eq Eq P) (payCurators fc c maxRewards) :=
  .ite (.pure _) (.ite (.bind (gets_unrecorded fun _ _ => rfl) fun _ =>
    .bind (payCuratorLoop_blind fc _ _ _ _) fun _ => .bind (.lift _) fun _ =>
    .pure _) (.bind (.lift _) fun _ => .pure _))

/-- The payment of the beneficiaries does not see the records. -/
theorem payBeneficiaries_blind (authorTokens total : ℤ) (routes : List BeneficiaryRoute) :
    Blind (Alike Eq Eq P) (payBeneficiaries fc authorTokens total routes) := by
  induction routes generalizing total with
  | nil => exact .pure _
  | cons b rest ih =>
    refine .bind (.lift _) fun _ => .bind (lookup_unrecorded _ fun _ _ => rfl) fun _ =>
      .bind (createVesting_blind fc _ _ _) fun _ => .bind (.lift _) fun total => ?_
    exact ih total

/-- The payment of a comment does not see the records. -/
theorem payComment_blind (comment : CommentObject) (percent reward : ℕ) :
    Blind (Alike Eq Eq P) (payComment fc comment percent reward) := by
  refine .bind (.lift _) fun _ => .bind (.lift _) fun _ => .bind (.lift _) fun _ =>
    .bind (.lift _) fun _ => .bind (.lift _) fun _ => .bind (payCurators_blind fc _ _) fun _ =>
    .bind (.lift _) fun _ => .bind (.lift _) fun _ =>
    .bind (payBeneficiaries_blind fc _ _ _) fun _ => .bind (.lift _) fun _ =>
    .bind (lookup_unrecorded _ fun _ _ => rfl) fun _ =>
    .bind (createVesting_blind fc _ _ _) fun _ =>
    .bind ?_ fun _ => .bind ?_ fun _ => .bind (modifyAccount_blind _ _) fun _ => .pure _
  · exact modifyComment_blind _ _
  · exact modifyComment_blind _ _

/-- The reward of a comment does not depend on the records. -/
theorem rewardComment_blind (fund : RewardFundContext) (comment : CommentObject) :
    Blind (Alike Eq Eq P) (rewardComment fc fund comment) :=
  .ite (.bind (lookup_unrecorded _ fun _ _ => rfl) fun _ => .bind (.lift _) fun _ =>
    .ite (payComment_blind fc _ _ _) (.pure _)) (.pure _)

/-- `cashout_comment_helper` does not see the records. -/
theorem cashoutCommentHelper_blind (fund : RewardFundContext) (comment : CommentObject) :
    Blind (Alike Eq Eq P) (cashoutCommentHelper fc fund comment) := by
  refine .bind (rewardComment_blind fc fund comment) fun _ => .bind (gets_unrecorded fun _ _ =>
    rfl) fun _ =>
    .bind (modifyComment_blind _ _) fun _ => .bind (lookup_unrecorded _ fun _ _ => rfl) fun _ =>
    .bind (.whenever (.bind (gets_unrecorded fun _ _ => rfl) fun _ => .forEach (fun vote =>
    ?_) _)) fun _ =>
    .pure _
  exact modifyCommentVote_blind _ _

/-- The decay of the funds does not see the records. -/
theorem decayFunds_blind (now : TimePointSec) (rows : List RewardFundObject) :
    Blind (Alike Eq Eq P) (decayFunds now rows) := by
  induction rows with
  | nil => exact .pure _
  | cons rf rest ih =>
    exact .bind (modifyRewardFund_blind _ _) fun _ =>
      .bind (lookup_unrecorded _ fun _ _ => rfl) fun _ => .bind ih fun _ => .pure _

/-- The claims of the due comments do not depend on the records. -/
theorem addClaims_blind (funds : List RewardFundContext) (due : List CommentObject) :
    Blind (Alike Eq Eq P) (addClaims funds due) := by
  induction due generalizing funds with
  | nil => exact .pure _
  | cons comment rest ih =>
    exact .ite (.bind (lookup_unrecorded _ fun _ _ => rfl) fun _ => .bind (.lift _) fun _ =>
      .bind (.lift _) fun _ =>
      ih _) (ih _)

/-- The next due comment does not depend on the records. -/
theorem dueComment_blind : Blind (Alike Eq Eq P) dueComment :=
  .bind (gets_unrecorded fun _ _ => rfl) fun _ => .bind (gets_unrecorded fun _ _ => rfl) fun _ =>
    .pure _

/-- The loop over the due comments does not see the records. -/
theorem payDueComments_blind (rounds : ℕ) (funds : List RewardFundContext) :
    Blind (Alike Eq Eq P) (payDueComments fc rounds funds) := by
  induction rounds generalizing funds with
  | zero =>
    refine .bind dueComment_blind fun current => ?_
    cases current with
    | none => exact .pure _
    | some comment => exact .lift _
  | succ rounds ih =>
    refine .bind dueComment_blind fun current => ?_
    cases current with
    | none => exact .pure _
    | some comment =>
      exact .bind (lookup_unrecorded _ fun _ _ => rfl) fun _ => .bind (.lift _) fun fund =>
        .bind (cashoutCommentHelper_blind fc fund comment) fun _ => .bind (.lift _) fun _ => ih _

/-- Writing the funds back does not see the records. -/
theorem writeFunds_blind (id : ℕ) (funds : List RewardFundContext) :
    Blind (Alike Eq Eq P) (writeFunds fc id funds) := by
  induction funds generalizing id with
  | nil => exact .pure _
  | cons fund rest ih => exact .bind (modifyRewardFund_blind _ _) fun _ => ih _

/-- `process_comment_cashout` does not see the records. -/
theorem processCommentCashout_blind :
    Blind (Alike Eq Eq P) (processCommentCashout fc) :=
  .bind (gets_unrecorded fun _ _ => rfl) fun now => .bind (gets_unrecorded fun _ _ => rfl) fun _ =>
    .bind (decayFunds_blind now _) fun _ => .bind (gets_unrecorded fun _ _ => rfl) fun _ =>
    .bind (addClaims_blind _ _) fun _ => .bind (payDueComments_blind fc _ _) fun _ =>
    writeFunds_blind fc _ _

end Money

section Blocks

variable (ctx : Context)

/-- The validation of the header does not see the records. -/
theorem validateBlockHeader_blind (b : SignedBlock) :
    Blind (Alike Eq Eq P) (validateBlockHeader ctx b) := by
  refine .bind (gets_unrecorded fun _ _ => rfl) fun _ => .bind (.lift _) fun _ =>
    .bind (.lift _) fun _ =>
    .bind (lookup_unrecorded _ fun _ _ => rfl) fun _ => .bind (.lift _) fun _ => .bind ?_ fun _ =>
    .bind (.lift _) fun _ => .bind (.lift _) fun _ => .pure _
  exact .bind (gets_unrecorded fun _ _ => rfl) fun _ => .bind (gets_unrecorded fun _ _ =>
    rfl) fun _ => .pure _

/-- The extensions of a header do not see the records. -/
theorem processHeaderExtensions_blind (b : SignedBlock) :
    Blind (Alike Eq Eq P) (processHeaderExtensions b) := by
  refine .forEach (fun extension => ?_) _
  exact modifyAnyWitness_blind _ _

/-- Counting missed blocks does not see the records. -/
theorem missSlots_blind (b : SignedBlock) (left slot : ℕ) :
    Blind (Alike Eq Eq P) (missSlots b left slot) := by
  induction left generalizing slot with
  | zero => exact .pure _
  | succ left ih =>
    refine .bind (.bind (gets_unrecorded fun _ _ => rfl) fun _ =>
    .bind (gets_unrecorded fun _ _ => rfl) fun _ =>
      .pure _) fun name => .bind (lookup_unrecorded _ fun _ _ => rfl) fun _ =>
      .bind (gets_unrecorded fun _ _ => rfl) fun _ => .bind (.whenever ?_) fun _ => ih _
    exact modifyAnyWitness_blind _ _

/-- `update_global_dynamic_data` does not see the records. -/
theorem updateGlobalDynamicData_blind (b : SignedBlock) :
    Blind (Alike Eq Eq P) (updateGlobalDynamicData ctx b) := by
  refine .bind (gets_unrecorded fun _ _ => rfl) fun _ => .bind (missSlots_blind b _ _) fun _ =>
    .bind ?_ fun _ => .bind (gets_unrecorded fun _ _ => rfl) fun _ => .lift _
  exact modifyAnyDgp_blind _

/-- `update_signing_witness` does not see the records. -/
theorem updateSigningWitness_blind (signingWitness : AccountName) (b : SignedBlock) :
    Blind (Alike Eq Eq P) (updateSigningWitness signingWitness b) := by
  refine .bind (gets_unrecorded fun _ _ => rfl) fun _ => ?_
  exact modifyAnyWitness_blind _ _

/-- The look at the scheduled witnesses. -/
theorem scheduledWitnesses_eq : scheduledWitnesses = (do
    let found ← gets fun s =>
      (s.wso.currentShuffledWitnesses.take s.wso.numScheduledWitnesses).mapM
        fun name => orUnknown (s.witnesses.find (ownedBy name))
    lift found) := by
  funext s
  unfold scheduledWitnesses
  change _ = lift ((s.wso.currentShuffledWitnesses.take s.wso.numScheduledWitnesses).mapM
    fun name => orUnknown (s.witnesses.find (ownedBy name))) s
  cases (s.wso.currentShuffledWitnesses.take s.wso.numScheduledWitnesses).mapM
    fun name => orUnknown (s.witnesses.find (ownedBy name)) <;> rfl

/-- Reading the scheduled witnesses does not see the records. -/
theorem scheduledWitnesses_blind : Blind (Alike Eq Eq P) scheduledWitnesses := by
  rw [scheduledWitnesses_eq]
  exact .bind (gets_unrecorded fun _ _ => rfl) fun _ => .lift _

/-- `update_last_irreversible_block` does not see the records. -/
theorem updateLastIrreversibleBlock_blind :
    Blind (Alike Eq Eq P) updateLastIrreversibleBlock := by
  refine .bind (gets_unrecorded fun _ _ => rfl) fun _ =>
    .ite ?_ (.bind scheduledWitnesses_blind fun _ =>
    .bind (.lift _) fun _ => ?_)
  · exact modifyAnyDgp_blind _
  · exact modifyAnyDgp_blind _

/-- `create_block_summary` does not see the records. -/
theorem createBlockSummary_blind (b : SignedBlock) :
    Blind (Alike Eq Eq P) (createBlockSummary ctx b) :=
  set_unrecorded (fun _ _ => rfl) fun _ => rfl

/-- Marking the scheduled witnesses does not see the records. -/
theorem markScheduled_blind (schedule : ScheduleType) (witnesses : List WitnessObject) :
    Blind (Alike Eq Eq P) (markScheduled schedule witnesses) := by
  refine .forEach (fun w => ?_) _
  exact modifyAnyWitness_blind _ _

/-- The reset of the virtual times does not see the records. -/
theorem resetVirtualScheduleTime_blind :
    Blind (Alike Eq Eq P) resetVirtualScheduleTime := by
  refine .bind (modifyWso_blind _) fun _ => .bind (gets_unrecorded fun _ _ => rfl) fun _ =>
    .forEach (fun w => ?_) _
  exact modifyAnyWitness_blind _ _

/-- The advance of the processed witnesses does not see the records. -/
theorem advanceProcessed_blind (time : ℕ) (processed : List WitnessObject) :
    Blind (Alike Eq Eq P) (advanceProcessed time processed) := by
  induction processed with
  | nil => exact .pure _
  | cons w rest ih =>
    refine .bind (.lift _) fun _ => .ite (.pure _) (.bind ?_ fun _ => ih)
    exact modifyAnyWitness_blind _ _

/-- The advance of the virtual clock does not see the records. -/
theorem advanceSchedule_blind (selection : Selection) :
    Blind (Alike Eq Eq P) (advanceSchedule selection) :=
  .bind (markScheduled_blind _ _) fun _ => .bind (markScheduled_blind _ _) fun _ =>
    .bind (advanceProcessed_blind _ _) fun _ =>
    .ite (.bind (resetVirtualScheduleTime_blind) fun _ => .pure _) (.pure _)

/-- `update_witness_schedule4` does not see the records. -/
theorem updateWitnessSchedule4_blind :
    Blind (Alike Eq Eq P) updateWitnessSchedule4 := by
  refine .bind (gets_unrecorded fun _ _ => rfl) fun selection =>
    .bind (advanceSchedule_blind selection) fun _ => .bind (.bind (gets_unrecorded fun _ _ =>
    rfl) fun _ =>
    .lift _) fun _ => .bind ?_ fun _ => .bind (gets_unrecorded fun _ _ => rfl) fun _ =>
    .bind (gets_unrecorded fun _ _ => rfl) fun _ => .bind (modifyWso_blind _) fun _ => ?_
  · exact .bind (gets_unrecorded fun _ _ => rfl) fun _ => .bind scheduledWitnesses_blind fun _ =>
      .bind (modifyHardforks_blind _) fun _ => .pure _
  · refine .bind scheduledWitnesses_blind fun _ => .bind (.lift _) fun _ =>
      .bind (.lift _) fun _ => .bind (modifyWso_blind _) fun _ => ?_
    exact modifyAnyDgp_blind _

/-- `update_witness_schedule` does not see the records. -/
theorem updateWitnessSchedule_blind : Blind (Alike Eq Eq P) updateWitnessSchedule :=
  .bind (gets_unrecorded fun _ _ => rfl) fun _ => .whenever (updateWitnessSchedule4_blind)

/-- `process_hardforks` does not see the records. -/
theorem processHardforks_blind : Blind (Alike Eq Eq P) processHardforks :=
  .bind (gets_unrecorded fun _ _ => rfl) fun _ => .bind (gets_unrecorded fun _ _ => rfl) fun _ =>
    .lift _

/-- `_apply_block` before its transactions; returns the witness that signed. -/
def beforeTransactions (b : SignedBlock) : Chain WitnessObject := do
  lift (fcAssert (ctx.skip.merkleCheck ||
    b.header.transactionMerkleRoot = b.calculateMerkleRoot ctx.env) "Merkle check failed")
  let signingWitness ← validateBlockHeader ctx b
  let gprops ← gets (·.dgp)
  lift (fcAssert (ctx.env.packSize b ≤ gprops.maximumBlockSize) "Block Size is too Big")
  modifyDgp fun dgp => .ok { dgp with currentWitness := b.witness }
  processHeaderExtensions b
  let witness ← getWitness b.witness
  let hardforkState ← gets (·.hardforks)
  lift (fcAssert (hardforkState.currentHardforkVersion.vNum ≤ witness.runningVersion.vNum)
    "Block produced by witness that is not running current hardfork")
  pure signingWitness

/-- `_apply_block` from its transactions to the clearing of expired records. -/
def afterTransactions (b : SignedBlock) (signingWitness : WitnessObject) : Chain Unit := do
  updateGlobalDynamicData ctx b
  updateSigningWitness signingWitness.owner b
  updateLastIrreversibleBlock
  createBlockSummary ctx b

/-- `_apply_block` after the clearing of expired records. -/
def afterClearing : Chain Unit := do
  updateWitnessSchedule
  clearNullAccountBalance ctx.env.toFcLib
  processFunds ctx.env.toFcLib
  processCommentCashout ctx.env.toFcLib
  processVestingWithdrawals ctx.env.toFcLib
  processHardforks

/-- A block is its transactions and the clearing of expired records, between routines that
do not see the records. -/
theorem applyBlock_parts (b : SignedBlock) :
    applyBlock ctx b = (do
      let signingWitness ← beforeTransactions ctx b
      forEach (applyTransaction ctx) b.transactions
      afterTransactions ctx b signingWitness
      clearExpiredTransactions
      afterClearing ctx) := by
  simp only [applyBlock, applyBlockFront, applyBlockBack, beforeTransactions, afterTransactions,
    afterClearing, bind_assoc, pure_bind]

/-- What a block does before its transactions does not see the records. -/
theorem beforeTransactions_blind (b : SignedBlock) :
    Blind (Alike Eq Eq P) (beforeTransactions ctx b) :=
  .bind (.lift _) fun _ => .bind (validateBlockHeader_blind ctx b) fun _ =>
    .bind (gets_unrecorded fun _ _ => rfl) fun _ => .bind (.lift _) fun _ =>
    .bind (modifyAnyDgp_blind _) fun _ => .bind (processHeaderExtensions_blind b) fun _ =>
    .bind (lookup_unrecorded _ fun _ _ => rfl) fun _ => .bind (gets_unrecorded fun _ _ =>
    rfl) fun _ =>
    .bind (.lift _) fun _ => .pure _

/-- What a block does after its transactions does not see the records, but for clearing them. -/
theorem afterTransactions_blind (b : SignedBlock) (signingWitness : WitnessObject) :
    Blind (Alike Eq Eq P) (afterTransactions ctx b signingWitness) :=
  .bind (updateGlobalDynamicData_blind ctx b) fun _ =>
    .bind (updateSigningWitness_blind _ b) fun _ =>
    .bind updateLastIrreversibleBlock_blind fun _ => createBlockSummary_blind ctx b

/-- What a block does after the expired records are cleared does not see them. -/
theorem afterClearing_blind : Blind (Alike Eq Eq P) (afterClearing ctx) :=
  .bind updateWitnessSchedule_blind fun _ => .bind (clearNullAccountBalance_blind _) fun _ =>
    .bind (processFunds_blind _) fun _ => .bind (processCommentCashout_blind _) fun _ =>
    .bind (processVestingWithdrawals_blind _) fun _ => processHardforks_blind

/-- What a routine that does not see the records does on a state with other ones. -/
theorem withRecords_returns {α : Type} {m : Chain α} {s t : ChainState} {a : α}
    (h : ∀ P, Blind (Alike Eq Eq P) m) (hrun : Returns m s a t)
    (records : Table TransactionObject) :
    Returns m (withRecords records s) a (withRecords records t) := by
  have hstart : Alike Eq Eq (fun _ r => r = records) s (withRecords records s) :=
    alike_iff.mpr ⟨records, rfl, rfl⟩
  obtain ⟨t', ht', hafter⟩ := (h _).sim s _ a t hstart hrun
  obtain ⟨records', rfl, rfl⟩ := alike_iff.mp hafter
  exact ht'

/-- A routine that does not see the records leaves them. -/
theorem transactions_eq {α : Type} {m : Chain α} {s t : ChainState} {a : α}
    (h : ∀ P, Blind (Alike Eq Eq P) m) (hrun : Returns m s a t) :
    t.transactions = s.transactions := by
  have hsame := withRecords_returns h hrun s.transactions
  have hpair : (a, t) = (a, withRecords s.transactions t) :=
    Except.ok.inj (hrun.symm.trans hsame)
  have hstate : t = withRecords s.transactions t := congrArg Prod.snd hpair
  rw [hstate]
  rfl

end Blocks

end Whaleshares.Records
