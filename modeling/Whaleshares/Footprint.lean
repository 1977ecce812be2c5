import Whaleshares.ApplyBlock
import Whaleshares.Ledger

/-!
# What the routines of the chain can change

A relation between states that allows certain changes holds across every routine
that makes only such changes. The fine frames say what one kind of routine changes: nothing
that votes or tokens depend on (`QuietFrame`), rewards (`RewardFrame`), votes (`VoteFrame`),
stakes (`StakeFrame`), all that operations change (`OperationFrame`), the header of a block
(`HeaderFrame`) and the schedule (`TurnFrame`). The coarse frames bundle them: `Frame` allows
what the evaluators do besides moving tokens, `MoneyFrame` also allows that, `RoundFrame` and
`ScheduleFrame` allow what the schedule changes, and `StepFrame` allows what a block does
besides its operations. One lemma for each routine says which of them it needs, and
properties of whole runs follow for any relation that qualifies.
-/

namespace Whaleshares.Footprint

open Config Fc Assets Protocol Objects Program Database WitnessVotes Vesting Rewards
  Evaluators CommentEvaluators ApplyBlock Ledger

section Frames

/-- What a change of votes, keys and schedules leaves of a witness. -/
def signer (w : WitnessObject) : ℕ × AccountName × ℕ := (w.id, w.owner, w.lastConfirmedBlockNum)

/-- What a change of keys and schedules leaves of a witness. -/
def running (w : WitnessObject) : ℕ × AccountName × ℤ × ℕ × ℕ × ℕ :=
  (w.id, w.owner, w.votes, w.virtualLastUpdate, w.virtualPosition, w.virtualScheduledTime)

/-- What a change of keys leaves of a witness. -/
def posted (w : WitnessObject) : (ℕ × AccountName × ℤ × ℕ × ℕ × ℕ) × ScheduleType :=
  (running w, w.schedule)

/-- What witness votes depend on in an account. -/
def stake (a : AccountObject) : ℕ × AccountName × AccountName × List ℤ × ℕ × ℤ :=
  (a.id, a.name, a.proxy, a.proxiedVsfVotes, a.witnessesVotedFor, a.vestingShares)

/-- The global properties besides the totals. -/
def head (dgp : DynamicGlobalPropertyObject) : DynamicGlobalPropertyObject :=
  { dgp with
    currentSupply := 0, totalVestingFundSteem := 0, totalVestingShares := 0
    totalRewardFundSteem := 0, pendingRewardedVestingShares := 0
    pendingRewardedVestingSteem := 0 }

/-- The relation allows changes on which neither tokens nor votes depend. -/
structure QuietFrame (R : ChainState → ChainState → Prop) : Prop where
  quietAccounts : ∀ s x, x.rows.map (fun a => (purse a, stake a)) =
      s.accounts.rows.map (fun a => (purse a, stake a)) →
    x.nextId = s.accounts.nextId → R s { s with accounts := x }
  comments : ∀ s x, R s { s with comments := x }
  commentVotes : ∀ s x, R s { s with commentVotes := x }
  withdrawVestingRoutes : ∀ s x, R s { s with withdrawVestingRoutes := x }
  transactions : ∀ s x, R s { s with transactions := x }
  quietWitnesses : ∀ s x, x.rows.map (fun w => (signer w, posted w)) =
      s.witnesses.rows.map (fun w => (signer w, posted w)) →
    x.nextId = s.witnesses.nextId → R s { s with witnesses := x }

/-- The relation also allows what pays rewards: tokens move, stakes stay. -/
structure RewardFrame (R : ChainState → ChainState → Prop) : Prop extends QuietFrame R where
  rewardAccounts : ∀ s x, x.rows.map stake = s.accounts.rows.map stake →
    x.nextId = s.accounts.nextId → R s { s with accounts := x }
  rewardFunds : ∀ s x, R s { s with rewardFunds := x }
  rewardTotals : ∀ s d, head d = head s.dgp → d.totalVestingShares = s.dgp.totalVestingShares →
    R s { s with dgp := d }

/-- The relation also allows every change of proxies and votes, with the arithmetic of a
library. -/
structure VoteFrame (fc : FcLib) (R : ChainState → ChainState → Prop) : Prop
    extends QuietFrame R where
  ballots : ∀ s x, x.rows.map purse = s.accounts.rows.map purse → R s { s with accounts := x }
  witnessVotes : ∀ s x, R s { s with witnessVotes := x }
  tallies : ∀ s x p delta, s.witnesses.modify unknownKey p
      (changeWitnessVote fc s.wso.currentVirtualTime s.dgp.totalVestingShares delta) = .ok x →
    R s { s with witnesses := x }

/-- A witness that nobody has voted for and that has not been scheduled. -/
structure Newcomer (w : WitnessObject) : Prop where
  lastConfirmedBlockNum : w.lastConfirmedBlockNum = 0
  votes : w.votes = 0
  virtualLastUpdate : w.virtualLastUpdate = 0
  virtualPosition : w.virtualPosition = 0
  virtualScheduledTime : w.virtualScheduledTime = virtualScheduleLapLength2

/-- The relation allows a new witness with a new owner. -/
def AllowsNewcomer (R : ChainState → ChainState → Prop) : Prop :=
  ∀ s x w, x.rows = s.witnesses.rows ++ [w] → (∀ old ∈ s.witnesses.rows, w.owner ≠ old.owner) →
    w.id = s.witnesses.nextId → Newcomer w → x.nextId = s.witnesses.nextId + 1 →
    R s { s with witnesses := x }

/-- The relation allows every change of authorities. -/
def AllowsAuthorities (R : ChainState → ChainState → Prop) : Prop :=
  ∀ s x, R s { s with accountAuthorities := x }

/-- The relation also allows every change of tokens, shares and accounts. -/
structure StakeFrame (fc : FcLib) (R : ChainState → ChainState → Prop) : Prop
    extends RewardFrame R, VoteFrame fc R where
  anyAccounts : ∀ s x, R s { s with accounts := x }
  totals : ∀ s d, head d = head s.dgp → R s { s with dgp := d }

/-- The relation also allows everything that operations change. -/
structure OperationFrame (fc : FcLib) (R : ChainState → ChainState → Prop) : Prop
    extends StakeFrame fc R where
  accountAuthorities : AllowsAuthorities R
  newcomer : AllowsNewcomer R

/-- The relation also allows what the header of a block changes. -/
structure HeaderFrame (R : ChainState → ChainState → Prop) : Prop extends QuietFrame R where
  header : ∀ s d, totals d = totals s.dgp → R s { s with dgp := d }
  signed : ∀ s x, x.rows.map posted = s.witnesses.rows.map posted →
    x.nextId = s.witnesses.nextId → R s { s with witnesses := x }
  blockSummaries : ∀ s f, R s { s with blockSummaries := f }

/-- The relation allows what an update of the schedule changes. -/
structure TurnFrame (R : ChainState → ChainState → Prop) : Prop where
  turns : ∀ s x, x.rows.map (fun w => (signer w, w.votes)) =
      s.witnesses.rows.map (fun w => (signer w, w.votes)) →
    x.nextId = s.witnesses.nextId → R s { s with witnesses := x }
  blockSize : ∀ s n, R s { s with dgp := { s.dgp with maximumBlockSize := n } }
  wso : ∀ s w, w.maxVotedWitnesses = s.wso.maxVotedWitnesses → R s { s with wso := w }
  hardforks : ∀ s h, R s { s with hardforks := h }

/-- The relation allows changes that move no tokens and keep the heads of chain and
witnesses. -/
structure Frame (R : ChainState → ChainState → Prop) : Prop where
  accounts : ∀ s x, x.rows.map purse = s.accounts.rows.map purse → R s { s with accounts := x }
  accountAuthorities : ∀ s x, R s { s with accountAuthorities := x }
  comments : ∀ s x, R s { s with comments := x }
  commentVotes : ∀ s x, R s { s with commentVotes := x }
  witnessVotes : ∀ s x, R s { s with witnessVotes := x }
  withdrawVestingRoutes : ∀ s x, R s { s with withdrawVestingRoutes := x }
  transactions : ∀ s x, R s { s with transactions := x }
  witnesses : ∀ s x, x.rows.map signer = s.witnesses.rows.map signer →
    x.nextId = s.witnesses.nextId → R s { s with witnesses := x }

/-- The relation allows a new witness, which has confirmed no block. -/
def AllowsWitness (R : ChainState → ChainState → Prop) : Prop :=
  ∀ s x w, x.rows = s.witnesses.rows ++ [w] → w.id = s.witnesses.nextId →
    w.lastConfirmedBlockNum = 0 → x.nextId = s.witnesses.nextId + 1 → R s { s with witnesses := x }

/-- The head block and the last irreversible block. -/
def tip (dgp : DynamicGlobalPropertyObject) : BlockId × ℕ × ℕ :=
  (dgp.headBlockId, dgp.headBlockNumber, dgp.lastIrreversibleBlockNum)

/-- The relation also allows what an update of the schedule changes. -/
structure RoundFrame (R : ChainState → ChainState → Prop) : Prop extends Frame R where
  blockSize : ∀ s n, R s { s with dgp := { s.dgp with maximumBlockSize := n } }
  wso : ∀ s w, w.maxVotedWitnesses = s.wso.maxVotedWitnesses → R s { s with wso := w }
  hardforks : ∀ s h, R s { s with hardforks := h }
  blockSummaries : ∀ s f, R s { s with blockSummaries := f }

/-- The relation also allows what an update of the schedule changes, and any change of the
properties that keeps the totals and the tip. -/
structure ScheduleFrame (R : ChainState → ChainState → Prop) : Prop extends Frame R where
  properties : ∀ s d, totals d = totals s.dgp → tip d = tip s.dgp → R s { s with dgp := d }
  wso : ∀ s w, w.maxVotedWitnesses = s.wso.maxVotedWitnesses → R s { s with wso := w }
  hardforks : ∀ s h, R s { s with hardforks := h }
  blockSummaries : ∀ s f, R s { s with blockSummaries := f }

/-- The relation also allows what a block changes besides its operations, with the
totals kept. -/
structure StepFrame (R : ChainState → ChainState → Prop) : Prop extends Frame R where
  dgp : ∀ s d, totals d = totals s.dgp → R s { s with dgp := d }
  wso : ∀ s w, w.maxVotedWitnesses = s.wso.maxVotedWitnesses → R s { s with wso := w }
  hardforks : ∀ s h, R s { s with hardforks := h }
  blockSummaries : ∀ s f, R s { s with blockSummaries := f }
  signingWitness : ∀ s x, x.rows.map (fun w => (w.id, w.owner)) =
      s.witnesses.rows.map (fun w => (w.id, w.owner)) →
    x.nextId = s.witnesses.nextId → R s { s with witnesses := x }

/-- What a block may change besides its operations includes what an update of the schedule may
change. -/
theorem StepFrame.toScheduleFrame {R : ChainState → ChainState → Prop} (h : StepFrame R) :
    ScheduleFrame R where
  toFrame := h.toFrame
  properties s d hd _ := h.dgp s d hd
  wso := h.wso
  hardforks := h.hardforks
  blockSummaries := h.blockSummaries

/-- A frame for the properties and the schedule is one for the schedule. -/
theorem ScheduleFrame.toRoundFrame {R : ChainState → ChainState → Prop} (h : ScheduleFrame R) :
    RoundFrame R where
  toFrame := h.toFrame
  blockSize s _ := h.properties s _ rfl rfl
  wso := h.wso
  hardforks := h.hardforks
  blockSummaries := h.blockSummaries

/-- A weaker relation allows as much. -/
theorem StepFrame.mono {R Q : ChainState → ChainState → Prop} (h : StepFrame R)
    (hRQ : ∀ s t, R s t → Q s t) : StepFrame Q where
  accounts s x hx := hRQ _ _ (h.accounts s x hx)
  accountAuthorities s x := hRQ _ _ (h.accountAuthorities s x)
  comments s x := hRQ _ _ (h.comments s x)
  commentVotes s x := hRQ _ _ (h.commentVotes s x)
  witnessVotes s x := hRQ _ _ (h.witnessVotes s x)
  withdrawVestingRoutes s x := hRQ _ _ (h.withdrawVestingRoutes s x)
  transactions s x := hRQ _ _ (h.transactions s x)
  witnesses s x hx hnext := hRQ _ _ (h.witnesses s x hx hnext)
  dgp s d hd := hRQ _ _ (h.dgp s d hd)
  wso s w hw := hRQ _ _ (h.wso s w hw)
  hardforks s x := hRQ _ _ (h.hardforks s x)
  blockSummaries s f := hRQ _ _ (h.blockSummaries s f)
  signingWitness s x hx hnext := hRQ _ _ (h.signingWitness s x hx hnext)

/-- A coarser relation has the quiet frame too. -/
theorem QuietFrame.mono {R Q : ChainState → ChainState → Prop} (h : QuietFrame R)
    (hRQ : ∀ s t, R s t → Q s t) : QuietFrame Q where
  quietAccounts s x hx hnext := hRQ _ _ (h.quietAccounts s x hx hnext)
  comments s x := hRQ _ _ (h.comments s x)
  commentVotes s x := hRQ _ _ (h.commentVotes s x)
  withdrawVestingRoutes s x := hRQ _ _ (h.withdrawVestingRoutes s x)
  transactions s x := hRQ _ _ (h.transactions s x)
  quietWitnesses s x hx hnext := hRQ _ _ (h.quietWitnesses s x hx hnext)

/-- A coarser relation has the frame of the header too. -/
theorem HeaderFrame.mono {R Q : ChainState → ChainState → Prop} (h : HeaderFrame R)
    (hRQ : ∀ s t, R s t → Q s t) : HeaderFrame Q where
  toQuietFrame := h.toQuietFrame.mono hRQ
  header s d hd := hRQ _ _ (h.header s d hd)
  signed s x hx hnext := hRQ _ _ (h.signed s x hx hnext)
  blockSummaries s f := hRQ _ _ (h.blockSummaries s f)

/-- Two relations that allow the changes of the header allow them together. -/
theorem HeaderFrame.and {R Q : ChainState → ChainState → Prop} (hR : HeaderFrame R)
    (hQ : HeaderFrame Q) : HeaderFrame fun s t => R s t ∧ Q s t where
  quietAccounts s x hx hnext := ⟨hR.quietAccounts s x hx hnext, hQ.quietAccounts s x hx hnext⟩
  comments s x := ⟨hR.comments s x, hQ.comments s x⟩
  commentVotes s x := ⟨hR.commentVotes s x, hQ.commentVotes s x⟩
  withdrawVestingRoutes s x := ⟨hR.withdrawVestingRoutes s x, hQ.withdrawVestingRoutes s x⟩
  transactions s x := ⟨hR.transactions s x, hQ.transactions s x⟩
  quietWitnesses s x hx hnext := ⟨hR.quietWitnesses s x hx hnext, hQ.quietWitnesses s x hx hnext⟩
  header s d hd := ⟨hR.header s d hd, hQ.header s d hd⟩
  signed s x hx hnext := ⟨hR.signed s x hx hnext, hQ.signed s x hx hnext⟩
  blockSummaries s f := ⟨hR.blockSummaries s f, hQ.blockSummaries s f⟩

/-- The relation also allows every move of tokens, and new witnesses. -/
structure MoneyFrame (R : ChainState → ChainState → Prop) : Prop extends Frame R where
  newWitness : AllowsWitness R
  anyAccounts : ∀ s x, R s { s with accounts := x }
  rewardFunds : ∀ s x, R s { s with rewardFunds := x }
  totals : ∀ s d, head d = head s.dgp → R s { s with dgp := d }

end Frames

variable {R : ChainState → ChainState → Prop}

section Bundles

/-- Lists whose values agree agree in all that is read off the values. -/
theorem map_eq_of_map_eq {α β γ : Type} {f : α → β} {g : α → γ} (k : β → γ)
    (hk : ∀ a, k (f a) = g a) {xs ys : List α} (h : xs.map f = ys.map f) :
    xs.map g = ys.map g := by
  have hg : g = k ∘ f := funext fun a => (hk a).symm
  rw [hg, ← List.map_map, ← List.map_map, h]

/-- A change of votes leaves what identifies the witness. -/
theorem changeWitnessVote_signer (fc : FcLib) {time : ℕ} {shares delta : ℤ} {w v : WitnessObject}
    (h : changeWitnessVote fc time shares delta w = .ok v) : signer v = signer w := by
  unfold changeWitnessVote at h
  obtain ⟨votes, -, h⟩ := bind_eq_ok h
  obtain ⟨-, -, h⟩ := bind_eq_ok h
  obtain ⟨lap, -, h⟩ := bind_eq_ok h
  rw [← Except.ok.inj h]
  rfl

/-- The coarse frame allows what is quiet. -/
theorem Frame.toQuietFrame (h : Frame R) : QuietFrame R where
  quietAccounts s x hx _ := h.accounts s x (map_eq_of_map_eq Prod.fst (fun _ => rfl) hx)
  comments := h.comments
  commentVotes := h.commentVotes
  withdrawVestingRoutes := h.withdrawVestingRoutes
  transactions := h.transactions
  quietWitnesses s x hx := h.witnesses s x (map_eq_of_map_eq Prod.fst (fun _ => rfl) hx)

/-- The coarse frame allows every vote. -/
theorem Frame.toVoteFrame (h : Frame R) (fc : FcLib) : VoteFrame fc R where
  toQuietFrame := h.toQuietFrame
  ballots := h.accounts
  witnessVotes := h.witnessVotes
  tallies s x _ _ hx := h.witnesses s x
    (Table.modify_map_eq hx fun _ _ hw => changeWitnessVote_signer fc hw) (Table.modify_eq_ok hx).2

/-- Any new witness is allowed where a new one without confirmed blocks is. -/
theorem AllowsWitness.allowsNewcomer (h : AllowsWitness R) : AllowsNewcomer R :=
  fun s x w hx _ hid hw => h s x w hx hid hw.lastConfirmedBlockNum

/-- The frame for tokens allows what pays rewards. -/
theorem MoneyFrame.toRewardFrame (h : MoneyFrame R) : RewardFrame R where
  toQuietFrame := h.toQuietFrame
  rewardAccounts s x _ _ := h.anyAccounts s x
  rewardFunds := h.rewardFunds
  rewardTotals s d hd _ := h.totals s d hd

/-- The frame for tokens allows everything that operations change. -/
theorem MoneyFrame.toOperationFrame (h : MoneyFrame R) (fc : FcLib) : OperationFrame fc R where
  toRewardFrame := h.toRewardFrame
  accountAuthorities := h.accountAuthorities
  ballots := h.accounts
  witnessVotes := h.witnessVotes
  tallies := (h.toVoteFrame fc).tallies
  newcomer := h.newWitness.allowsNewcomer
  anyAccounts := h.anyAccounts
  totals := h.totals

/-- The frame for rounds allows what an update of the schedule changes. -/
theorem RoundFrame.toTurnFrame (h : RoundFrame R) : TurnFrame R where
  turns s x hx := h.witnesses s x (map_eq_of_map_eq Prod.fst (fun _ => rfl) hx)
  blockSize := h.blockSize
  wso := h.wso
  hardforks := h.hardforks

/-- The frame for steps allows what the header of a block changes. -/
theorem StepFrame.toHeaderFrame (h : StepFrame R) : HeaderFrame R where
  toQuietFrame := h.toQuietFrame
  header := h.dgp
  signed s x hx :=
    h.signingWitness s x (map_eq_of_map_eq (fun r => (r.1.1, r.1.2.1)) (fun _ => rfl) hx)
  blockSummaries := h.blockSummaries

end Bundles

section Primitives

variable {fc : FcLib}

/-- A change that replaces one component of the state keeps a relation that allows
the replacement. -/
theorem replace_keeps {β : Type} {get : ChainState → Except Exc β}
    {put : ChainState → β → ChainState} (h : ∀ s x, get s = .ok x → R s (put s x)) :
    Keeps R (update fun s => (get s).map (put s)) := by
  refine .update fun s t hst => ?_
  obtain ⟨x, hx, rfl⟩ := map_eq_ok hst
  exact h s x hx

/-- A change of an account that keeps its tokens is one of proxies and votes. -/
theorem modifyAccount_keeps (hR : VoteFrame fc R) {p : AccountObject → Bool}
    {f : AccountObject → Except Exc AccountObject} (hf : ∀ a b, f a = .ok b → purse b = purse a) :
    Keeps R (modifyAccount p f) :=
  replace_keeps fun s x hx => hR.ballots s x (Table.modify_map_eq hx hf)

/-- Setting fields that hold no tokens is a change of proxies and votes. -/
theorem setBallot_keeps (hR : VoteFrame fc R) {p : AccountObject → Bool}
    {f : AccountObject → AccountObject} (hf : ∀ a, purse (f a) = purse a) :
    Keeps R (modifyAccount p fun a => .ok (f a)) := by
  refine modifyAccount_keeps hR fun a b h => ?_
  rw [← Except.ok.inj h]
  exact hf a

/-- A change of an account that keeps its tokens and its stake is quiet. -/
theorem modifyQuietAccount_keeps (hR : QuietFrame R) {p : AccountObject → Bool}
    {f : AccountObject → Except Exc AccountObject}
    (hf : ∀ a b, f a = .ok b → (purse b, stake b) = (purse a, stake a)) :
    Keeps R (modifyAccount p f) :=
  replace_keeps fun s x hx =>
    hR.quietAccounts s x (Table.modify_map_eq hx hf) (Table.modify_eq_ok hx).2

/-- Setting fields that hold neither tokens nor stake is quiet. -/
theorem setAccount_keeps (hR : QuietFrame R) {p : AccountObject → Bool}
    {f : AccountObject → AccountObject}
    (hf : ∀ a, (purse (f a), stake (f a)) = (purse a, stake a)) :
    Keeps R (modifyAccount p fun a => .ok (f a)) := by
  refine modifyQuietAccount_keeps hR fun a b h => ?_
  rw [← Except.ok.inj h]
  exact hf a

/-- A change of an account that keeps its stake may pay rewards. -/
theorem modifyRewards_keeps (hR : RewardFrame R) {p : AccountObject → Bool}
    {f : AccountObject → Except Exc AccountObject} (hf : ∀ a b, f a = .ok b → stake b = stake a) :
    Keeps R (modifyAccount p f) :=
  replace_keeps fun s x hx =>
    hR.rewardAccounts s x (Table.modify_map_eq hx hf) (Table.modify_eq_ok hx).2

/-- Every change of an account is allowed where stakes may change. -/
theorem modifyAnyAccount_keeps (hR : StakeFrame fc R) (p : AccountObject → Bool)
    (f : AccountObject → Except Exc AccountObject) : Keeps R (modifyAccount p f) :=
  replace_keeps fun s x _ => hR.anyAccounts s x

/-- Authorities change alone. -/
theorem modifyAccountAuthority_keeps (hR : AllowsAuthorities R) (account : AccountName)
    (f : AccountAuthorityObject → Except Exc AccountAuthorityObject) :
    Keeps R (modifyAccountAuthority account f) :=
  replace_keeps fun s x _ => hR s x

/-- A comment may change in any way. -/
theorem modifyComment_keeps (hR : QuietFrame R) (id : ℕ) (f : CommentObject → Except Exc CommentObject) :
    Keeps R (modifyComment id f) :=
  replace_keeps fun s x _ => hR.comments s x

/-- A vote on a comment may change in any way. -/
theorem modifyCommentVote_keeps (hR : QuietFrame R) (id : ℕ)
    (f : CommentVoteObject → Except Exc CommentVoteObject) : Keeps R (modifyCommentVote id f) :=
  replace_keeps fun s x _ => hR.commentVotes s x

/-- A change of a witness that keeps its identity and its votes is part of an update of the
schedule. -/
theorem modifyTurn_keeps (hR : TurnFrame R) {p : WitnessObject → Bool}
    {f : WitnessObject → Except Exc WitnessObject}
    (hf : ∀ a b, f a = .ok b → (signer b, b.votes) = (signer a, a.votes)) :
    Keeps R (modifyWitness p f) :=
  replace_keeps fun s x hx =>
    hR.turns s x (Table.modify_map_eq hx hf) (Table.modify_eq_ok hx).2

/-- Setting fields of a witness besides its identity and its votes is part of an update of the
schedule. -/
theorem setTurn_keeps (hR : TurnFrame R) {p : WitnessObject → Bool}
    {f : WitnessObject → WitnessObject}
    (hf : ∀ w, (signer (f w), (f w).votes) = (signer w, w.votes)) :
    Keeps R (modifyWitness p fun w => .ok (f w)) := by
  refine modifyTurn_keeps hR fun a b h => ?_
  rw [← Except.ok.inj h]
  exact hf a

/-- Setting the keys and properties of a witness is quiet. -/
theorem setWitness_keeps (hR : QuietFrame R) {p : WitnessObject → Bool}
    {f : WitnessObject → WitnessObject}
    (hf : ∀ w, (signer (f w), posted (f w)) = (signer w, posted w)) :
    Keeps R (modifyWitness p fun w => .ok (f w)) := by
  refine replace_keeps fun s x hx =>
    hR.quietWitnesses s x (Table.modify_map_eq hx fun a b h => ?_) (Table.modify_eq_ok hx).2
  rw [← Except.ok.inj h]
  exact hf a

/-- A reward fund changes where rewards are paid. -/
theorem modifyRewardFund_keeps (hR : RewardFrame R) (id : ℕ)
    (f : RewardFundObject → Except Exc RewardFundObject) : Keeps R (modifyRewardFund id f) :=
  replace_keeps fun s x _ => hR.rewardFunds s x

/-- A withdrawal route may change in any way. -/
theorem modifyRoute_keeps (hR : QuietFrame R) (id : ℕ)
    (f : WithdrawVestingRouteObject → Except Exc WithdrawVestingRouteObject) :
    Keeps R (modifyRoute id f) :=
  replace_keeps fun s x _ => hR.withdrawVestingRoutes s x

/-- A change of the totals leaves the head of the chain. -/
theorem modifyTotals_keeps (hR : StakeFrame fc R)
    {f : DynamicGlobalPropertyObject → Except Exc DynamicGlobalPropertyObject}
    (hf : ∀ d e, f d = .ok e → head e = head d) : Keeps R (modifyDgp f) :=
  replace_keeps fun s d hd => hR.totals s d (hf s.dgp d hd)

/-- A new account is allowed where stakes may change. -/
theorem createAccount_keeps (hR : StakeFrame fc R) (f : ℕ → Except Exc AccountObject) :
    Keeps R (createAccount f) :=
  replace_keeps fun s x _ => hR.anyAccounts s x

/-- New authorities are a change of authorities alone. -/
theorem createAccountAuthority_keeps (hR : AllowsAuthorities R) (f : ℕ → Except Exc AccountAuthorityObject) :
    Keeps R (createAccountAuthority f) :=
  replace_keeps fun s x _ => hR s x

/-- A new comment is quiet. -/
theorem createComment_keeps (hR : QuietFrame R) (f : ℕ → Except Exc CommentObject) :
    Keeps R (createComment f) :=
  replace_keeps fun s x _ => hR.comments s x

/-- A new vote on a comment is quiet. -/
theorem createCommentVote_keeps (hR : QuietFrame R) (f : ℕ → Except Exc CommentVoteObject) :
    Keeps R (createCommentVote f) :=
  replace_keeps fun s x _ => hR.commentVotes s x

/-- A new witness without votes is allowed where newcomers are. -/
theorem createWitness_keeps (hR : AllowsNewcomer R) {f : ℕ → WitnessObject}
    (hf : ∀ id, (f id).id = id ∧ Newcomer (f id)) :
    Keeps R (createWitness fun id => .ok (f id)) := by
  refine replace_keeps fun s x hx => ?_
  obtain ⟨w, hw, hclash, hrows, hnext⟩ := Table.create_rows hx
  have hrow : w = f s.witnesses.nextId := (Except.ok.inj hw).symm
  have hnew := hf s.witnesses.nextId
  rw [← hrow] at hnew
  exact hR s x w hrows (fun old hold => of_decide_eq_false (hclash old hold)) hnew.1 hnew.2 hnext

/-- A new witness vote is a change of votes. -/
theorem createWitnessVote_keeps (hR : VoteFrame fc R) (f : ℕ → Except Exc WitnessVoteObject) :
    Keeps R (createWitnessVote f) :=
  replace_keeps fun s x _ => hR.witnessVotes s x

/-- A new withdrawal route is quiet. -/
theorem createRoute_keeps (hR : QuietFrame R) (f : ℕ → Except Exc WithdrawVestingRouteObject) :
    Keeps R (createRoute f) :=
  replace_keeps fun s x _ => hR.withdrawVestingRoutes s x

/-- A new record of a transaction is quiet. -/
theorem createTransaction_keeps (hR : QuietFrame R) (f : ℕ → Except Exc TransactionObject) :
    Keeps R (createTransaction f) :=
  replace_keeps fun s x _ => hR.transactions s x

/-- The removal of a comment is quiet. -/
theorem removeComment_keeps (hR : QuietFrame R) (id : ℕ) : Keeps R (removeComment id) :=
  .update fun s _ h => Except.ok.inj h ▸ hR.comments s _

/-- The removal of votes on comments is quiet. -/
theorem removeCommentVotes_keeps (hR : QuietFrame R) (p : CommentVoteObject → Bool) :
    Keeps R (removeCommentVotes p) :=
  .update fun s _ h => Except.ok.inj h ▸ hR.commentVotes s _

/-- The removal of witness votes is a change of votes. -/
theorem removeWitnessVotes_keeps (hR : VoteFrame fc R) (p : WitnessVoteObject → Bool) :
    Keeps R (removeWitnessVotes p) :=
  .update fun s _ h => Except.ok.inj h ▸ hR.witnessVotes s _

/-- The removal of a withdrawal route is quiet. -/
theorem removeRoute_keeps (hR : QuietFrame R) (id : ℕ) : Keeps R (removeRoute id) :=
  .update fun s _ h => Except.ok.inj h ▸ hR.withdrawVestingRoutes s _

/-- A new proxy is a change of votes. -/
theorem setProxy_keeps (hR : VoteFrame fc R) (o : AccountWitnessProxyOperation) : Keeps R (setProxy o) :=
  setBallot_keeps hR fun _ => by rfl

/-- The number of the witnesses voted for is a change of votes. -/
theorem setVotedFor_keeps (hR : VoteFrame fc R) (name : AccountName) (f : ℕ → ℕ) :
    Keeps R (setVotedFor name f) :=
  setBallot_keeps hR fun _ => by rfl

/-- A change of the supply is one of the totals. -/
theorem adjustSupply_keeps {fc : FcLib} (hR : StakeFrame fc R) (delta : Asset) :
    Keeps R (adjustSupply fc delta) := by
  refine modifyTotals_keeps hR fun d e h => ?_
  split at h
  · obtain ⟨x, -, h⟩ := bind_eq_ok h
    rw [← Except.ok.inj h]
    rfl
  · cases h

end Primitives

variable [IsPreorder ChainState R]

/-- A lookup changes nothing. -/
theorem lookup_keeps {α : Type} (table : ChainState → Table α) (p : α → Bool) :
    Keeps R (lookup table p) :=
  .bind (.gets _) fun _ => .lift _

section WitnessVotes

variable (fc : FcLib)

omit [IsPreorder ChainState R] in
/-- The votes of one witness change by the arithmetic of the library. -/
theorem adjustWitnessVote_keeps (hR : VoteFrame fc R) (witness : ℕ) (delta : ℤ) :
    Keeps R (adjustWitnessVote fc witness delta) := by
  constructor
  intro s a t h
  obtain ⟨x, hx, rfl⟩ := map_eq_ok h.gets_bind.gets_bind.update
  exact hR.tallies s x _ delta hx

/-- The votes of the witnesses of an account change by the arithmetic of the library. -/
theorem adjustWitnessVotes_keeps (hR : VoteFrame fc R) (account : ℕ) (delta : ℤ) :
    Keeps R (adjustWitnessVotes fc account delta) := by
  refine .bind (m := witnessVotesOf account) (.gets _) fun votes => ?_
  refine .forEach (fun v => ?_) votes
  exact adjustWitnessVote_keeps fc hR v.witness delta

/-- Proxied votes are no tokens. -/
theorem addProxied_purse {depth : ℕ} {deltas : List ℤ} {a b : AccountObject}
    (h : addProxied fc depth deltas a = .ok b) : purse b = purse a := by
  obtain ⟨votes, -, h⟩ := bind_eq_ok h
  rw [← Except.ok.inj h]
  rfl

/-- The way along the proxies changes proxied votes and tallies only. -/
theorem adjustProxiedLevels_keeps (hR : VoteFrame fc R) (delta : ℤ) (levels : ℕ) (name : AccountName) :
    Keeps R (adjustProxiedLevels fc delta levels name) := by
  induction levels generalizing name with
  | zero => exact .bind (lookup_keeps _ _) fun a => .whenever (adjustWitnessVotes_keeps fc hR _ _)
  | succ levels ih =>
    refine .bind (lookup_keeps _ _) fun a => .ite (adjustWitnessVotes_keeps fc hR _ _) ?_
    exact .bind (modifyAccount_keeps hR fun _ _ h => addProxied_purse fc h) fun _ => ih a.proxy

/-- A change of proxied votes is one of votes. -/
theorem adjustProxiedWitnessVotes_keeps (hR : VoteFrame fc R) (name : AccountName) (delta : ℤ) :
    Keeps R (adjustProxiedWitnessVotes fc name delta) :=
  adjustProxiedLevels_keeps fc hR delta _ name

/-- A change by the sum of the levels is one of votes. -/
theorem adjustByTotal_keeps (hR : VoteFrame fc R) (deltas : List ℤ) (levels account : ℕ) :
    Keeps R (adjustByTotal fc deltas levels account) :=
  .bind (.lift _) fun _ => adjustWitnessVotes_keeps fc hR _ _

/-- The way along the proxies with a change for each level changes votes only. -/
theorem adjustProxiedArrayLevels_keeps (hR : VoteFrame fc R) (deltas : List ℤ) (levels : ℕ)
    (name : AccountName) : Keeps R (adjustProxiedArrayLevels fc deltas levels name) := by
  induction levels generalizing name with
  | zero => exact .bind (lookup_keeps _ _) fun a => .whenever (adjustByTotal_keeps fc hR _ _ _)
  | succ levels ih =>
    refine .bind (lookup_keeps _ _) fun a => .ite (adjustByTotal_keeps fc hR _ _ _) ?_
    exact .bind (modifyAccount_keeps hR fun _ _ h => addProxied_purse fc h) fun _ => ih a.proxy

/-- Clearing the votes of an account is a change of votes. -/
theorem clearWitnessVotes_keeps (hR : VoteFrame fc R) (name : AccountName) :
    Keeps R (clearWitnessVotes name) :=
  .bind (lookup_keeps _ _) fun _ => .bind (removeWitnessVotes_keeps hR _) fun _ =>
    setBallot_keeps hR fun _ => by rfl

end WitnessVotes

section Evaluators

/-- The check of the accounts of an authority changes nothing. -/
theorem checkAccountAuths_keeps (auth : Authority) : Keeps R (checkAccountAuths auth) := by
  refine .forEach (fun item => ?_) _
  exact .bind (lookup_keeps _ _) fun _ => .pure ()

/-- The checks of the authorities change nothing. -/
theorem checkAccountAuths_same {auth : Authority} {s t : ChainState} {u : Unit}
    (h : Returns (checkAccountAuths auth) s u t) : s = t :=
  (checkAccountAuths_keeps (R := Eq) auth).rel s u t h

/-- What the creation of an account does after its checks: the creator pays, the account and its
authority are created, and a positive fee becomes shares of the account. -/
theorem applyAccountCreate_parts {ctx : Context} {o : AccountCreateOperation} {s t : ChainState}
    {u : Unit} (h : Returns (applyAccountCreate ctx o) s u t) : ∃ s₁ s₂ s₃,
      Returns (modifyAccount (named o.creator) fun c => do
        let balance ← decrease ctx.env.toFcLib wlsSymbol c.balance o.fee
        pure { c with balance := balance }) s () s₁ ∧
      Returns (createAccount fun id => .ok (newAccount o s₁.dgp.time id)) s₁ () s₂ ∧
      Returns (createAccountAuthority fun id => .ok
        { id := id, account := o.newAccountName
          owner := o.owner, active := o.active, posting := o.posting, lastOwnerUpdate := 0 })
        s₂ () s₃ ∧
      ((0 < o.fee.amount ∧ ∃ shares, Returns (createVesting ctx.env.toFcLib o.newAccountName
          o.fee false) s₃ shares t) ∨ (¬ 0 < o.fee.amount ∧ t = s₃)) := by
  obtain ⟨_, -, h⟩ := h.lift_bind
  obtain ⟨_, -, h⟩ := lookup_bind h
  obtain ⟨_, -, h⟩ := h.lift_bind
  obtain ⟨_, -, h⟩ := h.lift_bind
  obtain ⟨_, -, h⟩ := h.gets_bind.lift_bind
  obtain ⟨_, -, h⟩ := h.lift_bind
  obtain ⟨_, _, howner, h⟩ := h.bind
  obtain ⟨_, _, hactive, h⟩ := h.bind
  obtain ⟨_, _, hposting, h⟩ := h.bind
  obtain rfl := checkAccountAuths_same howner
  obtain rfl := checkAccountAuths_same hactive
  obtain rfl := checkAccountAuths_same hposting
  obtain ⟨_, s₁, hpays, h⟩ := h.bind
  obtain ⟨_, s₂, hcreates, h⟩ := h.gets_bind.bind
  obtain ⟨_, s₃, hauthorizes, h⟩ := h.bind
  refine ⟨s₁, s₂, s₃, hpays, hcreates, hauthorizes, ?_⟩
  rcases h.whenever with ⟨hpos, h⟩ | ⟨hfree, rfl⟩
  · obtain ⟨shares, _, hvests, h⟩ := h.bind
    obtain ⟨-, rfl⟩ := h.pure
    exact .inl ⟨hpos, shares, hvests⟩
  · exact .inr ⟨hfree, rfl⟩

/-- `witness_update` changes keys and properties, or adds a newcomer. -/
theorem applyWitnessUpdate_keeps (hR : QuietFrame R) (hnew : AllowsNewcomer R) (ctx : Context)
    (o : WitnessUpdateOperation) : Keeps R (applyWitnessUpdate ctx o) := by
  refine .bind (lookup_keeps _ _) fun _ => .bind (.lift _) fun _ => .bind (.lift _) fun _ =>
    .bind (.lift _) fun _ => .bind (.gets _) fun _ => .bind (.gets _) fun now => .ite ?_ ?_
  · exact setWitness_keeps hR fun _ => by rfl
  · exact createWitness_keeps hnew fun _ => ⟨rfl, ⟨rfl, rfl, rfl, rfl, rfl⟩⟩

/-- A change of the owner authority is one of authorities. -/
theorem changeOwner_keeps (hR : AllowsAuthorities R) (o : AccountUpdateOperation) (owner : Authority) :
    Keeps R (changeOwner o owner) := by
  refine .bind (lookup_keeps _ _) fun _ => .bind (.gets _) fun _ => .bind (.lift _) fun _ =>
    .bind (checkAccountAuths_keeps _) fun _ => ?_
  exact .bind (.gets _) fun _ => modifyAccountAuthority_keeps hR _ _

/-- `account_update` changes authorities and quiet fields. -/
theorem applyAccountUpdate_keeps (hR : QuietFrame R) (hauth : AllowsAuthorities R)
    (o : AccountUpdateOperation) :
    Keeps R (applyAccountUpdate o) := by
  refine .bind (.lift _) fun _ => .bind (.lift _) fun _ => .bind (lookup_keeps _ _) fun _ =>
    .bind (lookup_keeps _ _) fun _ => .bind (.forEach (fun owner => ?_) _) fun _ =>
    .bind (.forEach (fun auth => ?_) _) fun _ => .bind (.forEach (fun auth => ?_) _) fun _ =>
    .bind (.gets _) fun now => .bind ?_ fun _ => .whenever ?_
  · exact changeOwner_keeps hauth o owner
  · exact checkAccountAuths_keeps auth
  · exact checkAccountAuths_keeps auth
  · exact setAccount_keeps hR fun _ => by rfl
  · exact modifyAccountAuthority_keeps hauth _ _

/-- The start of a power-down touches neither tokens nor stake. -/
theorem startWithdrawal_quiet {fc : FcLib} {now : TimePointSec} {amount : ℤ} {a b : AccountObject}
    (h : startWithdrawal fc now amount a = .ok b) : (purse b, stake b) = (purse a, stake a) := by
  obtain ⟨rate, -, h⟩ := bind_eq_ok h
  obtain ⟨-, -, h⟩ := bind_eq_ok h
  rw [← Except.ok.inj h]
  rfl

/-- `withdraw_vesting` is quiet. -/
theorem applyWithdrawVesting_keeps (hR : QuietFrame R) (fc : FcLib) (o : WithdrawVestingOperation) :
    Keeps R (applyWithdrawVesting fc o) := by
  refine .bind (lookup_keeps _ _) fun _ => .bind (.gets _) fun _ => .bind (.gets _) fun _ =>
    .bind (.lift _) fun _ => .ite (.bind (.lift _) fun _ => ?_) ?_
  · exact setAccount_keeps hR fun _ => by rfl
  · exact modifyQuietAccount_keeps hR fun _ _ h => startWithdrawal_quiet h

/-- A route is added, changed or removed quietly. -/
theorem changeRoute_keeps (hR : QuietFrame R) (o : SetWithdrawVestingRouteOperation)
    (source target : AccountObject) (found : Option WithdrawVestingRouteObject) :
    Keeps R (changeRoute o source target found) := by
  cases found with
  | none =>
    refine .bind (.lift _) fun _ => .bind (.lift _) fun _ =>
      .bind (createRoute_keeps hR _) fun _ => ?_
    exact setAccount_keeps hR fun _ => by rfl
  | some route =>
    refine .ite (.bind (removeRoute_keeps hR _) fun _ => ?_) (modifyRoute_keeps hR _ _)
    exact setAccount_keeps hR fun _ => by simp only [purse, stake]

/-- `set_withdraw_vesting_route` is quiet. -/
theorem applySetWithdrawVestingRoute_keeps (hR : QuietFrame R) (o : SetWithdrawVestingRouteOperation) :
    Keeps R (applySetWithdrawVestingRoute o) := by
  refine .bind (lookup_keeps _ _) fun source => .bind (lookup_keeps _ _) fun target =>
    .bind (.gets _) fun found => .bind (changeRoute_keeps hR o source target found) fun _ => ?_
  exact .bind (.gets _) fun _ => .lift _

/-- The check for loops of proxies changes nothing. -/
theorem checkProxyChain_keeps (steps : ℕ) (proxyChain : List ℕ) (cprox : AccountObject) :
    Keeps R (checkProxyChain steps proxyChain cprox) := by
  induction steps generalizing proxyChain cprox with
  | zero => exact .lift _
  | succ steps ih =>
    refine .ite (.bind (lookup_keeps _ _) fun next => .bind (.lift _) fun _ =>
      .bind (.lift _) fun _ => ?_) (.pure ())
    exact ih _ _

/-- The change to a new proxy is one of votes. -/
theorem setNewProxy_keeps {fc : FcLib} (hR : VoteFrame fc R) (o : AccountWitnessProxyOperation)
    (account : AccountObject) (deltas : List ℤ) : Keeps R (setNewProxy fc o account deltas) := by
  refine .bind (lookup_keeps _ _) fun newProxy => .bind (checkProxyChain_keeps _ _ _) fun _ =>
    .bind (clearWitnessVotes_keeps fc hR _) fun _ => .bind (setProxy_keeps hR o) fun _ =>
    .bind (.lift _) fun deltas => ?_
  exact adjustProxiedArrayLevels_keeps fc hR deltas _ _

/-- `account_witness_proxy` changes votes only. -/
theorem applyAccountWitnessProxy_keeps {fc : FcLib} (hR : VoteFrame fc R)
    (o : AccountWitnessProxyOperation) : Keeps R (applyAccountWitnessProxy fc o) := by
  refine .bind (lookup_keeps _ _) fun account => .bind (.lift _) fun _ =>
    .bind (.lift _) fun deltas => .bind (adjustProxiedArrayLevels_keeps fc hR deltas _ _) fun _ => ?_
  exact .ite (setNewProxy_keeps hR o account deltas) (setProxy_keeps hR o)

/-- `account_witness_vote` changes votes only. -/
theorem applyAccountWitnessVote_keeps {fc : FcLib} (hR : VoteFrame fc R)
    (o : AccountWitnessVoteOperation) : Keeps R (applyAccountWitnessVote fc o) := by
  refine .bind (lookup_keeps _ _) fun voter => .bind (.lift _) fun _ =>
    .bind (lookup_keeps _ _) fun witness => .bind (.gets _) fun found => ?_
  cases found with
  | none =>
    exact .bind (.lift _) fun _ => .bind (.lift _) fun _ =>
      .bind (createWitnessVote_keeps hR _) fun _ => .bind (.lift _) fun _ =>
      .bind (adjustWitnessVote_keeps fc hR _ _) fun _ => setVotedFor_keeps hR _ _
  | some vote =>
    exact .bind (.lift _) fun _ => .bind (.lift _) fun _ => .bind (.lift _) fun _ =>
      .bind (adjustWitnessVote_keeps fc hR _ _) fun _ =>
      .bind (setVotedFor_keeps hR _ _) fun _ => removeWitnessVotes_keeps hR _

end Evaluators

section Comments

variable (fc : FcLib)

/-- Counting replies and activity up the tree of comments is quiet. -/
theorem updateAncestors_keeps (hR : QuietFrame R) (f : ℕ → ℕ) (now : TimePointSec) (steps : ℕ)
    (parent : CommentObject) : Keeps R (updateAncestors f now steps parent) := by
  induction steps generalizing parent with
  | zero => exact .lift _
  | succ steps ih =>
    refine .bind (modifyComment_keeps hR _ _) fun _ =>
      .whenever (.bind (lookup_keeps _ _) fun next => ?_)
    exact ih next

/-- The lookup of the parent changes nothing. -/
theorem findParent_keeps (o : CommentOperation) : Keeps R (findParent o) :=
  .ite (.pure _) (.bind (lookup_keeps _ _) fun _ => .bind (.lift _) fun _ => .pure _)

/-- The checks of a new comment change nothing. -/
theorem checkNewComment_keeps (o : CommentOperation) (parent : Option CommentObject)
    (auth : AccountObject) (now : TimePointSec) : Keeps R (checkNewComment o parent auth now) := by
  refine .bind (.forEach (fun parent => ?_) _) fun _ => .bind (.gets _) fun _ =>
    .whenever (.ite (.lift _) (.lift _))
  exact .bind (lookup_keeps _ _) fun _ => .lift _

/-- `comment` is quiet. -/
theorem applyComment_keeps (hR : QuietFrame R) (env : Env) (o : CommentOperation) :
    Keeps R (applyComment env o) := by
  refine .bind (.lift _) fun _ => .bind (.gets _) fun found => .bind (lookup_keeps _ _) fun auth =>
    .bind (findParent_keeps o) fun parent => .bind (.lift _) fun _ => .bind (.gets _) fun now => ?_
  cases found with
  | some comment => exact modifyComment_keeps hR _ _
  | none =>
    refine .bind (checkNewComment_keeps o parent auth now) fun _ =>
      .bind (setAccount_keeps hR fun _ => by rfl) fun _ => .bind (createComment_keeps hR _) fun _ =>
      .bind (.gets _) fun comments => .forEach (fun parent => ?_) _
    exact updateAncestors_keeps hR _ now comments parent

/-- `delete_comment` is quiet. -/
theorem applyDeleteComment_keeps (hR : QuietFrame R) (o : DeleteCommentOperation) :
    Keeps R (applyDeleteComment o) := by
  refine .bind (lookup_keeps _ _) fun comment => .bind (.lift _) fun _ => .bind (.lift _) fun _ =>
    .bind (.lift _) fun _ => .bind (removeCommentVotes_keeps hR _) fun _ =>
    .bind (.whenever ?_) fun _ => removeComment_keeps hR _
  exact .bind (lookup_keeps _ _) fun parent => .bind (.gets _) fun now =>
    .bind (.gets _) fun comments => updateAncestors_keeps hR _ now comments parent

/-- Beneficiaries are set quietly. -/
theorem applyBeneficiaries_keeps (hR : QuietFrame R) (id : ℕ) (cpb : CommentPayoutBeneficiaries) :
    Keeps R (applyBeneficiaries id cpb) :=
  .bind (lookup_keeps _ _) fun _ => .bind (.lift _) fun _ => .bind (.lift _) fun _ =>
    .bind (.gets _) fun _ => modifyComment_keeps hR _ _

/-- `comment_options` is quiet. -/
theorem applyCommentOptions_keeps (hR : QuietFrame R) (o : CommentOptionsOperation) :
    Keeps R (applyCommentOptions o) := by
  refine .bind (lookup_keeps _ _) fun comment => .bind (.lift _) fun _ => .bind (.lift _) fun _ =>
    .bind (.lift _) fun _ => .bind (.lift _) fun _ => .bind (modifyComment_keeps hR _ _) fun _ =>
    .forEach (fun extension => ?_) _
  exact applyBeneficiaries_keeps hR comment.id extension

/-- The weight of a vote is computed without a change. -/
theorem curationWeight_keeps (comment : CommentObject) (oldVoteRshares rshares : ℤ)
    (now : TimePointSec) : Keeps R (curationWeight comment oldVoteRshares rshares now) :=
  .ite (.bind (lookup_keeps _ _) fun _ => .lift _) (.pure _)

/-- A new vote on a comment is quiet. -/
theorem castVote_keeps (hR : QuietFrame R) (o : VoteOperation) (comment : CommentObject)
    (voter : AccountObject) (power : VotePower) : Keeps R (castVote fc o comment voter power) := by
  refine .bind (.gets _) fun now => .bind (.lift _) fun _ => .bind (.whenever (.lift _)) fun _ =>
    .bind (setAccount_keeps hR fun _ => by rfl) fun _ => .bind (lookup_keeps _ _) fun root =>
    .bind (.lift _) fun _ => .bind (modifyComment_keeps hR _ _) fun _ =>
    .bind (modifyComment_keeps hR _ _) fun _ => .bind (lookup_keeps _ _) fun counted =>
    .bind (curationWeight_keeps _ _ _ _) fun weights =>
    .bind (createCommentVote_keeps hR _) fun _ => .whenever ?_
  exact modifyComment_keeps hR _ _

/-- A changed vote on a comment is quiet. -/
theorem changeVote_keeps (hR : QuietFrame R) (o : VoteOperation) (comment : CommentObject)
    (vote : CommentVoteObject) (power : VotePower) :
    Keeps R (changeVote fc o comment vote power) := by
  refine .bind (.gets _) fun now => .bind (.lift _) fun _ => .bind (.lift _) fun _ =>
    .bind (.whenever (.lift _)) fun _ => .bind (setAccount_keeps hR fun _ => by rfl) fun _ =>
    .bind (lookup_keeps _ _) fun root => .bind (modifyComment_keeps hR _ _) fun _ =>
    .bind (modifyComment_keeps hR _ _) fun _ => .bind (modifyComment_keeps hR _ _) fun _ => ?_
  exact modifyCommentVote_keeps hR _ _

/-- A vote without an effect on the rewards is recorded quietly. -/
theorem recordVote_keeps (hR : QuietFrame R) (o : VoteOperation) (comment : CommentObject)
    (voter : AccountObject) (found : Option CommentVoteObject) :
    Keeps R (recordVote o comment voter found) := by
  refine .bind (.gets _) fun now => ?_
  cases found with
  | none => exact createCommentVote_keeps hR _
  | some vote => exact modifyCommentVote_keeps hR _ _

/-- A vote that counts for the rewards is recorded quietly. -/
theorem countVote_keeps (hR : QuietFrame R) (o : VoteOperation) (comment : CommentObject)
    (voter : AccountObject) (found : Option CommentVoteObject) :
    Keeps R (countVote fc o comment voter found) := by
  refine .bind (.gets _) fun dgp => .bind (.lift _) fun power => ?_
  cases found with
  | none => exact castVote_keeps fc hR o comment voter power
  | some vote => exact .bind (.lift _) fun _ => changeVote_keeps fc hR o comment vote power

/-- `vote` is quiet. -/
theorem applyVote_keeps (hR : QuietFrame R) (o : VoteOperation) : Keeps R (applyVote fc o) := by
  refine .bind (lookup_keeps _ _) fun comment => .bind (lookup_keeps _ _) fun voter =>
    .bind (.lift _) fun _ => .bind (.gets _) fun found => ?_
  exact .ite (recordVote_keeps hR o comment voter found) (countVote_keeps fc hR o comment voter found)

end Comments

section Money

variable (fc : FcLib)

/-- Crediting shares to the totals leaves the head of the chain. -/
theorem creditVestingTotals_head {toRewardBalance : Bool} {steem newVesting : Asset}
    {d e : DynamicGlobalPropertyObject}
    (h : creditVestingTotals fc toRewardBalance steem newVesting d = .ok e) : head e = head d := by
  unfold creditVestingTotals at h
  split at h <;>
  · obtain ⟨x, -, h⟩ := bind_eq_ok h
    obtain ⟨y, -, h⟩ := bind_eq_ok h
    rw [← Except.ok.inj h]
    rfl

/-- The creation of vesting shares needs no more than what stakes may change. -/
theorem createVesting_keeps (hR : StakeFrame fc R) (toAccount : AccountName) (steem : Asset)
    (toRewardBalance : Bool) : Keeps R (createVesting fc toAccount steem toRewardBalance) := by
  refine .bind (.gets _) fun props => .bind (.lift _) fun price => .bind (.lift _) fun newVesting =>
    .bind (modifyAnyAccount_keeps hR _ _) fun _ => .bind ?_ fun _ =>
    .bind (.whenever (adjustProxiedWitnessVotes_keeps fc hR.toVoteFrame _ _)) fun _ => .pure _
  exact modifyTotals_keeps hR fun _ _ h => creditVestingTotals_head fc h

/-- Shares that are credited as a reward leave the stake. -/
theorem creditReward_stake {steem newVesting : Asset} {a b : AccountObject}
    (h : creditVesting fc true steem newVesting a = .ok b) : stake b = stake a := by
  obtain ⟨x, -, h⟩ := bind_eq_ok h
  obtain ⟨y, -, h⟩ := bind_eq_ok h
  rw [← Except.ok.inj h]
  rfl

/-- Shares that are credited as a reward are not among the total vesting shares. -/
theorem creditRewardTotals_shares {steem newVesting : Asset} {d e : DynamicGlobalPropertyObject}
    (h : creditVestingTotals fc true steem newVesting d = .ok e) :
    e.totalVestingShares = d.totalVestingShares := by
  obtain ⟨x, -, h⟩ := bind_eq_ok h
  obtain ⟨y, -, h⟩ := bind_eq_ok h
  rw [← Except.ok.inj h]

/-- A reward that is still to be claimed changes no stake. -/
theorem createRewardVesting_keeps (hR : RewardFrame R) (toAccount : AccountName) (steem : Asset) :
    Keeps R (createVesting fc toAccount steem true) := by
  refine .bind (.gets _) fun props => .bind (.lift _) fun price => .bind (.lift _) fun newVesting =>
    .bind (modifyRewards_keeps hR fun _ _ h => creditReward_stake fc h) fun _ => .bind ?_ fun _ =>
    .bind ?_ fun _ => .pure _
  · exact replace_keeps fun s d hd =>
      hR.rewardTotals s d (creditVestingTotals_head fc hd) (creditRewardTotals_shares fc hd)
  · exact .pure _

/-- Burning the balance of the null account needs no more than what stakes may change. -/
theorem clearNullBalance_keeps (hR : StakeFrame fc R) (total : Asset) :
    Keeps R (clearNullBalance fc total) := by
  refine .bind (lookup_keeps _ _) fun a => .ite (.bind (.lift _) fun _ => .bind (.lift _) fun _ =>
    .bind ?_ fun _ => .pure _) (.pure _)
  exact modifyAnyAccount_keeps hR _ _

/-- Burning the shares of the null account needs no more than what stakes may change. -/
theorem clearNullVesting_keeps (hR : StakeFrame fc R) (total : Asset) :
    Keeps R (clearNullVesting fc total) := by
  refine .bind (lookup_keeps _ _) fun a => .ite (.bind (.gets _) fun _ => .bind (.lift _) fun _ =>
    .bind (modifyTotals_keeps hR fun d e h => ?_) fun _ =>
    .bind (modifyAnyAccount_keeps hR _ _) fun _ => .bind (.lift _) fun _ => .pure _) (.pure _)
  obtain ⟨x, -, h⟩ := bind_eq_ok h
  obtain ⟨y, -, h⟩ := bind_eq_ok h
  rw [← Except.ok.inj h]
  rfl

/-- Burning the reward balance of the null account needs no more than what stakes may change. -/
theorem clearNullReward_keeps (hR : StakeFrame fc R) (total : Asset) :
    Keeps R (clearNullReward fc total) := by
  refine .bind (lookup_keeps _ _) fun a => .ite (.bind (.lift _) fun _ => .bind (.lift _) fun _ =>
    .bind ?_ fun _ => .pure _) (.pure _)
  exact modifyAnyAccount_keeps hR _ _

/-- Burning the reward shares of the null account needs no more than what stakes may change. -/
theorem clearNullRewardVesting_keeps (hR : StakeFrame fc R) (total : Asset) :
    Keeps R (clearNullRewardVesting fc total) := by
  refine .bind (lookup_keeps _ _) fun a => .ite (.bind (.lift _) fun _ =>
    .bind (modifyTotals_keeps hR fun d e h => ?_) fun _ =>
    .bind (modifyAnyAccount_keeps hR _ _) fun _ => .pure _) (.pure _)
  obtain ⟨x, -, h⟩ := bind_eq_ok h
  obtain ⟨y, -, h⟩ := bind_eq_ok h
  rw [← Except.ok.inj h]
  rfl

/-- `clear_null_account_balance` needs no more than what stakes may change. -/
theorem clearNullAccountBalance_keeps (hR : StakeFrame fc R) :
    Keeps R (clearNullAccountBalance fc) := by
  refine .bind (clearNullBalance_keeps fc hR _) fun _ => .bind (clearNullVesting_keeps fc hR _) fun _ =>
    .bind (clearNullReward_keeps fc hR _) fun _ => .bind (clearNullRewardVesting_keeps fc hR _) fun _ =>
    .whenever (.bind (.lift _) fun delta => ?_)
  exact adjustSupply_keeps hR delta

/-- Redeeming shares leaves the head of the chain. -/
theorem redeemShares_head {shares : ℤ} {converted : Asset} {d e : DynamicGlobalPropertyObject}
    (h : redeemShares fc shares converted d = .ok e) : head e = head d := by
  obtain ⟨x, -, h⟩ := bind_eq_ok h
  obtain ⟨y, -, h⟩ := bind_eq_ok h
  rw [← Except.ok.inj h]
  rfl

/-- Deposits of shares along the routes need no more than what stakes may change. -/
theorem depositAsVests_keeps (hR : StakeFrame fc R) (toWithdraw deposited : ℤ)
    (routes : List WithdrawVestingRouteObject) :
    Keeps R (depositAsVests fc toWithdraw deposited routes) := by
  induction routes generalizing deposited with
  | nil => exact .pure _
  | cons route rest ih =>
    refine .ite (.bind (.lift _) fun deposit => .bind (.lift _) fun deposited =>
      .bind (.whenever (.bind (lookup_keeps _ _) fun target =>
        .bind (modifyAnyAccount_keeps hR _ _) fun _ => ?_)) fun _ => ih deposited) (ih deposited)
    exact adjustProxiedWitnessVotes_keeps fc hR.toVoteFrame _ _

/-- Deposits of tokens along the routes need no more than what stakes may change. -/
theorem depositAsSteem_keeps (hR : StakeFrame fc R) (toWithdraw deposited steem : ℤ)
    (routes : List WithdrawVestingRouteObject) :
    Keeps R (depositAsSteem fc toWithdraw deposited steem routes) := by
  induction routes generalizing deposited steem with
  | nil => exact .pure _
  | cons route rest ih =>
    refine .ite (ih deposited steem) (.bind (lookup_keeps _ _) fun _ => .bind (.lift _) fun deposit =>
      .bind (.lift _) fun deposited => .bind (.gets _) fun _ => .bind (.lift _) fun _ =>
      .bind (.lift _) fun steem => .bind (.whenever (.bind (modifyAnyAccount_keeps hR _ _) fun _ => ?_))
        fun _ => ih deposited steem)
    exact modifyTotals_keeps hR fun _ _ h => redeemShares_head fc h

/-- A withdrawal of an account needs no more than what stakes may change. -/
theorem processVestingWithdrawal_keeps (hR : StakeFrame fc R) (source : AccountObject) :
    Keeps R (processVestingWithdrawal fc source) := by
  refine .bind (.lift _) fun toWithdraw => .bind (m := routesOf source.id) (.gets _) fun routes =>
    .bind (depositAsVests_keeps fc hR _ _ _) fun asVests =>
    .bind (depositAsSteem_keeps fc hR _ _ _ _) fun asSteem => .bind (.lift _) fun _ =>
    .bind (.lift _) fun _ => .bind (.lift _) fun _ => .bind (.gets _) fun _ =>
    .bind (.lift _) fun _ => .bind (modifyAnyAccount_keeps hR _ _) fun _ =>
    .bind (modifyTotals_keeps hR fun _ _ h => redeemShares_head fc h) fun _ =>
    .whenever (.bind (.lift _) fun delta => ?_)
  exact adjustProxiedWitnessVotes_keeps fc hR.toVoteFrame _ delta

/-- The loop over the due accounts needs no more than what stakes may change. -/
theorem vestingWithdrawalLoop_keeps (hR : StakeFrame fc R) (rounds : ℕ)
    (current : Option AccountObject) : Keeps R (vestingWithdrawalLoop fc rounds current) := by
  induction rounds generalizing current with
  | zero =>
    cases current with
    | none => exact .pure _
    | some a => exact .lift _
  | succ rounds ih =>
    cases current with
    | none => exact .pure _
    | some a =>
      refine .bind (lookup_keeps _ _) fun source => .bind (.gets _) fun now =>
        .ite (.bind (m := nextInWithdrawalOrder source) (.gets _) fun next =>
          .bind (processVestingWithdrawal_keeps fc hR source) fun _ => ?_) (.pure _)
      exact ih next

/-- `process_vesting_withdrawals` needs no more than what stakes may change. -/
theorem processVestingWithdrawals_keeps (hR : StakeFrame fc R) :
    Keeps R (processVestingWithdrawals fc) :=
  .bind (.gets _) fun rounds => .bind (.gets _) fun first =>
    vestingWithdrawalLoop_keeps fc hR rounds first

/-- The reward funds are paid where rewards are allowed. -/
theorem payRewardFunds_keeps (hR : RewardFrame R) (reward used : ℤ) (funds : List RewardFundObject) :
    Keeps R (payRewardFunds fc reward used funds) := by
  induction funds generalizing used with
  | nil => exact .pure _
  | cons rf rest ih =>
    refine .bind (.lift _) fun _ => .bind (.lift _) fun _ =>
      .bind (modifyRewardFund_keeps hR _ _) fun _ => .bind (.lift _) fun used =>
      .bind (.lift _) fun _ => ?_
    exact ih used

/-- `process_funds` needs no more than what stakes may change. -/
theorem processFunds_keeps (hR : StakeFrame fc R) : Keeps R (processFunds fc) := by
  refine .bind (.gets _) fun _ => .bind (.gets _) fun _ => .bind (.lift _) fun _ =>
    .bind (.lift _) fun _ => .bind (.lift _) fun _ => .bind (.gets _) fun _ =>
    .bind (payRewardFunds_keeps fc hR.toRewardFrame _ _ _) fun _ => .bind (.lift _) fun _ =>
    .bind (.lift _) fun _ => .bind (.lift _) fun _ => .bind (lookup_keeps _ _) fun cwit =>
    .bind (.lift _) fun _ => .bind (.lift _) fun _ => .bind (.lift _) fun newSteem =>
    .bind (modifyTotals_keeps hR fun d e h => ?_) fun _ =>
    .bind (createVesting_keeps fc hR _ _ _) fun _ => modifyAnyAccount_keeps hR _ _
  obtain ⟨x, -, h⟩ := bind_eq_ok h
  rw [← Except.ok.inj h]
  rfl

/-- The loop over the curators pays rewards only. -/
theorem payCuratorLoop_keeps (hR : RewardFrame R) (maxRewards unclaimed : ℤ) (totalWeight : ℕ)
    (votes : List CommentVoteObject) :
    Keeps R (payCuratorLoop fc maxRewards totalWeight unclaimed votes) := by
  induction votes generalizing unclaimed with
  | nil => exact .pure _
  | cons vote rest ih =>
    refine .bind (.lift _) fun _ => .bind (.lift _) fun claim => .ite (.bind (.lift _) fun _ =>
      .bind (.lift _) fun unclaimed => .bind (lookup_keeps _ _) fun voter =>
      .bind (createRewardVesting_keeps fc hR _ _) fun _ => .bind ?_ fun _ => ih unclaimed)
      (ih unclaimed)
    refine modifyRewards_keeps hR fun a b h => ?_
    obtain ⟨x, -, h⟩ := bind_eq_ok h
    rw [← Except.ok.inj h]
    rfl

/-- The curators get rewards only. -/
theorem payCurators_keeps (hR : RewardFrame R) (c : CommentObject) (maxRewards : ℤ) :
    Keeps R (payCurators fc c maxRewards) :=
  .ite (.pure _) (.ite (.bind (.gets _) fun _ => .bind (payCuratorLoop_keeps fc hR _ _ _ _) fun _ =>
    .bind (.lift _) fun _ => .pure _) (.bind (.lift _) fun _ => .pure _))

/-- The beneficiaries get rewards only. -/
theorem payBeneficiaries_keeps (hR : RewardFrame R) (authorTokens total : ℤ)
    (routes : List BeneficiaryRoute) :
    Keeps R (payBeneficiaries fc authorTokens total routes) := by
  induction routes generalizing total with
  | nil => exact .pure _
  | cons b rest ih =>
    refine .bind (.lift _) fun _ => .bind (lookup_keeps _ _) fun _ =>
      .bind (createRewardVesting_keeps fc hR _ _) fun _ => .bind (.lift _) fun total => ?_
    exact ih total

/-- A comment is paid out by rewards only. -/
theorem payComment_keeps (hR : RewardFrame R) (comment : CommentObject) (percent reward : ℕ) :
    Keeps R (payComment fc comment percent reward) := by
  refine .bind (.lift _) fun _ => .bind (.lift _) fun _ => .bind (.lift _) fun _ =>
    .bind (.lift _) fun _ => .bind (.lift _) fun _ => .bind (payCurators_keeps fc hR _ _) fun _ =>
    .bind (.lift _) fun _ => .bind (.lift _) fun _ => .bind (payBeneficiaries_keeps fc hR _ _ _) fun _ =>
    .bind (.lift _) fun _ => .bind (lookup_keeps _ _) fun _ =>
    .bind (createRewardVesting_keeps fc hR _ _) fun _ => .bind ?_ fun _ => .bind ?_ fun _ =>
    .bind ?_ fun _ => .pure _
  · exact modifyComment_keeps hR.toQuietFrame _ _
  · exact modifyComment_keeps hR.toQuietFrame _ _
  · refine modifyRewards_keeps hR fun a b h => ?_
    obtain ⟨x, -, h⟩ := bind_eq_ok h
    rw [← Except.ok.inj h]
    rfl

/-- The reward of a comment and its payment are rewards only. -/
theorem rewardComment_keeps (hR : RewardFrame R) (fund : RewardFundContext) (comment : CommentObject) :
    Keeps R (rewardComment fc fund comment) :=
  .ite (.bind (lookup_keeps _ _) fun _ => .bind (.lift _) fun _ =>
    .ite (payComment_keeps fc hR _ _ _) (.pure _)) (.pure _)

/-- `cashout_comment_helper` pays rewards only. -/
theorem cashoutCommentHelper_keeps (hR : RewardFrame R) (fund : RewardFundContext)
    (comment : CommentObject) : Keeps R (cashoutCommentHelper fc fund comment) := by
  refine .bind (rewardComment_keeps fc hR fund comment) fun _ => .bind (.gets _) fun _ =>
    .bind (modifyComment_keeps hR.toQuietFrame _ _) fun _ => .bind (lookup_keeps _ _) fun _ =>
    .bind (.whenever (.bind (.gets _) fun _ => .forEach (fun vote => ?_) _)) fun _ => .pure _
  exact modifyCommentVote_keeps hR.toQuietFrame _ _

/-- The decay of the claims changes reward funds only. -/
theorem decayFunds_keeps (hR : RewardFrame R) (now : TimePointSec) (rows : List RewardFundObject) :
    Keeps R (decayFunds now rows) := by
  induction rows with
  | nil => exact .pure _
  | cons rf rest ih =>
    exact .bind (modifyRewardFund_keeps hR _ _) fun _ => .bind (lookup_keeps _ _) fun _ =>
      .bind ih fun _ => .pure _

/-- Adding up the claims of the due comments changes nothing. -/
theorem addClaims_keeps (funds : List RewardFundContext) (due : List CommentObject) :
    Keeps R (addClaims funds due) := by
  induction due generalizing funds with
  | nil => exact .pure _
  | cons comment rest ih =>
    exact .ite (.bind (lookup_keeps _ _) fun _ => .bind (.lift _) fun _ => .bind (.lift _) fun _ =>
      ih _) (ih _)

/-- The lookup of the next due comment changes nothing. -/
theorem dueComment_keeps : Keeps R dueComment :=
  .bind (.gets _) fun _ => .bind (.gets _) fun _ => .pure _

/-- The loop over the due comments pays rewards only. -/
theorem payDueComments_keeps (hR : RewardFrame R) (rounds : ℕ) (funds : List RewardFundContext) :
    Keeps R (payDueComments fc rounds funds) := by
  induction rounds generalizing funds with
  | zero =>
    refine .bind dueComment_keeps fun current => ?_
    cases current with
    | none => exact .pure _
    | some comment => exact .lift _
  | succ rounds ih =>
    refine .bind dueComment_keeps fun current => ?_
    cases current with
    | none => exact .pure _
    | some comment =>
      exact .bind (lookup_keeps _ _) fun _ => .bind (.lift _) fun fund =>
        .bind (cashoutCommentHelper_keeps fc hR fund comment) fun _ => .bind (.lift _) fun _ => ih _

/-- Writing the funds back changes reward funds only. -/
theorem writeFunds_keeps (hR : RewardFrame R) (id : ℕ) (funds : List RewardFundContext) :
    Keeps R (writeFunds fc id funds) := by
  induction funds generalizing id with
  | nil => exact .pure _
  | cons fund rest ih => exact .bind (modifyRewardFund_keeps hR _ _) fun _ => ih _

/-- `process_comment_cashout` pays rewards only. -/
theorem processCommentCashout_keeps (hR : RewardFrame R) : Keeps R (processCommentCashout fc) :=
  .bind (.gets _) fun now => .bind (.gets _) fun _ => .bind (decayFunds_keeps hR now _) fun _ =>
    .bind (.gets _) fun _ => .bind (addClaims_keeps _ _) fun _ =>
    .bind (payDueComments_keeps fc hR _ _) fun _ => writeFunds_keeps fc hR _ _

end Money

section Transactions

/-- `account_create` makes changes that operations make. -/
theorem applyAccountCreate_keeps (ctx : Context) (hR : OperationFrame ctx.env.toFcLib R) (o : AccountCreateOperation) :
    Keeps R (applyAccountCreate ctx o) :=
  .bind (.lift _) fun _ => .bind (lookup_keeps _ _) fun _ => .bind (.lift _) fun _ =>
    .bind (.lift _) fun _ => .bind (.gets _) fun _ => .bind (.lift _) fun _ =>
    .bind (.lift _) fun _ => .bind (checkAccountAuths_keeps _) fun _ =>
    .bind (checkAccountAuths_keeps _) fun _ => .bind (checkAccountAuths_keeps _) fun _ =>
    .bind (modifyAnyAccount_keeps hR.toStakeFrame _ _) fun _ => .bind (.gets _) fun _ =>
    .bind (createAccount_keeps hR.toStakeFrame _) fun _ => .bind (createAccountAuthority_keeps hR.accountAuthorities _) fun _ =>
    .whenever (.bind (createVesting_keeps _ hR.toStakeFrame _ _ _) fun _ => .pure _)

/-- `transfer` needs no more than what stakes may change. -/
theorem applyTransfer_keeps {fc : FcLib} (hR : StakeFrame fc R) (o : TransferOperation) :
    Keeps R (applyTransfer fc o) :=
  .bind (lookup_keeps _ _) fun _ => .bind (lookup_keeps _ _) fun _ => .bind (.lift _) fun _ =>
    .bind (.lift _) fun _ => .bind (.lift _) fun _ => .bind (.lift _) fun _ =>
    .bind (modifyAnyAccount_keeps hR _ _) fun _ => modifyAnyAccount_keeps hR _ _

/-- `transfer_to_vesting` needs no more than what stakes may change. -/
theorem applyTransferToVesting_keeps {fc : FcLib} (hR : StakeFrame fc R)
    (o : TransferToVestingOperation) : Keeps R (applyTransferToVesting fc o) :=
  .bind (lookup_keeps _ _) fun _ => .bind (lookup_keeps _ _) fun _ => .bind (.lift _) fun _ =>
    .bind (.lift _) fun _ => .bind (.lift _) fun _ => .bind (.lift _) fun _ =>
    .bind (modifyAnyAccount_keeps hR _ _) fun _ => .bind (createVesting_keeps fc hR _ _ _) fun _ =>
    .pure _

/-- A claim of rewards leaves the head of the chain. -/
theorem claimTotals_head {fc : FcLib} {rewardVests toMove : Asset}
    {d e : DynamicGlobalPropertyObject} (h : claimTotals fc rewardVests toMove d = .ok e) :
    head e = head d := by
  obtain ⟨x, -, h⟩ := bind_eq_ok h
  obtain ⟨y, -, h⟩ := bind_eq_ok h
  obtain ⟨z, -, h⟩ := bind_eq_ok h
  obtain ⟨w, -, h⟩ := bind_eq_ok h
  rw [← Except.ok.inj h]
  rfl

/-- `claim_reward_balance` needs no more than what stakes may change. -/
theorem applyClaimRewardBalance_keeps {fc : FcLib} (hR : StakeFrame fc R)
    (op : ClaimRewardBalanceOperation) : Keeps R (applyClaimRewardBalance fc op) :=
  .bind (lookup_keeps _ _) fun _ => .bind (.lift _) fun _ => .bind (.lift _) fun _ =>
    .bind (.lift _) fun _ => .bind (.lift _) fun _ => .bind (.lift _) fun _ =>
    .bind (.lift _) fun _ => .bind (modifyAnyAccount_keeps hR _ _) fun _ =>
    .bind (modifyAnyAccount_keeps hR _ _) fun _ => .bind (modifyAnyAccount_keeps hR _ _) fun _ =>
    .bind (modifyTotals_keeps hR fun _ _ h => claimTotals_head h) fun _ =>
    adjustProxiedWitnessVotes_keeps fc hR.toVoteFrame _ _

/-- The operations that leave tokens, the election and the authorities alone. -/
def isPlain : Operation → Bool
  | .vote _ | .comment _ | .withdrawVesting _ | .accountForsale _ | .accountBuying _ | .custom _
  | .deleteComment _ | .customJson _ | .commentOptions _ | .setWithdrawVestingRoute _
  | .customBinary _ => true
  | _ => false

/-- Plain operations are quiet. -/
theorem applyOperation_plain {ctx : Context} (hR : QuietFrame R) {op : Operation}
    (hplain : isPlain op = true) : Keeps R (applyOperation ctx op) := by
  cases op with
  | vote o => exact applyVote_keeps _ hR o
  | comment o => exact applyComment_keeps hR _ o
  | withdrawVesting o => exact applyWithdrawVesting_keeps hR _ o
  | accountForsale o => exact .lift (.error (failed "Temporary disabled."))
  | accountBuying o => exact .lift (.error (failed "Temporary disabled."))
  | custom o => exact .pure _
  | deleteComment o => exact applyDeleteComment_keeps hR o
  | customJson o => exact .pure _
  | commentOptions o => exact applyCommentOptions_keeps hR o
  | setWithdrawVestingRoute o => exact applySetWithdrawVestingRoute_keeps hR o
  | customBinary o => exact .pure _
  | _ => cases hplain

/-- Every operation keeps a relation that allows changes of votes and moves of tokens. -/
theorem applyOperation_keeps (ctx : Context) (hR : OperationFrame ctx.env.toFcLib R)
    (op : Operation) : Keeps R (applyOperation ctx op) := by
  by_cases hplain : isPlain op = true
  · exact applyOperation_plain hR.toQuietFrame hplain
  cases op with
  | transfer o => exact applyTransfer_keeps hR.toStakeFrame o
  | transferToVesting o => exact applyTransferToVesting_keeps hR.toStakeFrame o
  | accountCreate o => exact applyAccountCreate_keeps ctx hR o
  | accountUpdate o => exact applyAccountUpdate_keeps hR.toQuietFrame hR.accountAuthorities o
  | witnessUpdate o => exact applyWitnessUpdate_keeps hR.toQuietFrame hR.newcomer ctx o
  | accountWitnessVote o => exact applyAccountWitnessVote_keeps hR.toVoteFrame o
  | accountWitnessProxy o => exact applyAccountWitnessProxy_keeps hR.toVoteFrame o
  | claimRewardBalance o => exact applyClaimRewardBalance_keeps hR.toStakeFrame o
  | _ => exact absurd rfl hplain

/-- A transaction makes changes that operations make, besides its own record. -/
theorem applyTransaction_keeps (ctx : Context) (hR : OperationFrame ctx.env.toFcLib R) (trx : SignedTransaction) :
    Keeps R (applyTransaction ctx trx) := by
  refine .bind (.lift _) fun _ => .bind (.gets _) fun _ => .bind (.lift _) fun _ =>
    .bind (.lift _) fun _ => .bind (.lift _) fun _ =>
    .bind (.whenever (createTransaction_keeps hR.toQuietFrame _)) fun _ => .forEach (fun op => ?_) _
  exact applyOperation_keeps ctx hR op

end Transactions

section Blocks

variable (ctx : Context)

omit [IsPreorder ChainState R] in
/-- Setting properties of the header keeps the totals. -/
theorem setDgp_keeps (hR : HeaderFrame R)
    {f : DynamicGlobalPropertyObject → DynamicGlobalPropertyObject}
    (hf : ∀ d, totals (f d) = totals d) : Keeps R (modifyDgp fun d => .ok (f d)) := by
  refine replace_keeps fun s d hd => hR.header s d ?_
  rw [← Except.ok.inj hd]
  exact hf s.dgp

omit [IsPreorder ChainState R] in
/-- Setting the schedule keeps the number of elected witnesses. -/
theorem modifyWso_keeps (hR : TurnFrame R) {f : WitnessScheduleObject → WitnessScheduleObject}
    (hf : ∀ w, (f w).maxVotedWitnesses = w.maxVotedWitnesses) : Keeps R (modifyWso f) :=
  .update fun s _ h => Except.ok.inj h ▸ hR.wso s _ (hf s.wso)

omit [IsPreorder ChainState R] in
/-- The state of the hardforks changes with the schedule. -/
theorem modifyHardforks_keeps (hR : TurnFrame R)
    (f : HardforkPropertyObject → HardforkPropertyObject) : Keeps R (modifyHardforks f) :=
  .update fun s _ h => Except.ok.inj h ▸ hR.hardforks s _

/-- The validation of the header changes nothing. -/
theorem validateBlockHeader_keeps (b : SignedBlock) : Keeps R (validateBlockHeader ctx b) := by
  refine .bind (.gets _) fun _ => .bind (.lift _) fun _ => .bind (.lift _) fun _ =>
    .bind (lookup_keeps _ _) fun _ => .bind (.lift _) fun _ => .bind ?_ fun _ =>
    .bind (.lift _) fun _ => .bind (.lift _) fun _ => .pure _
  exact .bind (.gets _) fun _ => .bind (.gets _) fun _ => .pure _

/-- A report of a witness touches keys and properties only. -/
theorem reportedBy_quiet (extension : HeaderExtension) (w : WitnessObject) :
    (signer (reportedBy extension w), posted (reportedBy extension w)) =
      (signer w, posted w) := by
  cases extension <;> rfl

/-- The extensions of a header are quiet. -/
theorem processHeaderExtensions_keeps (hR : QuietFrame R) (b : SignedBlock) :
    Keeps R (processHeaderExtensions b) := by
  refine .forEach (fun extension => ?_) _
  exact setWitness_keeps hR (reportedBy_quiet extension)

/-- Counting the missed blocks of the witnesses is quiet. -/
theorem missSlots_keeps (hR : QuietFrame R) (b : SignedBlock) (left slot : ℕ) :
    Keeps R (missSlots b left slot) := by
  induction left generalizing slot with
  | zero => exact .pure _
  | succ left ih =>
    refine .bind (.bind (.gets _) fun _ => .bind (.gets _) fun _ => .pure _) fun name =>
      .bind (lookup_keeps _ _) fun _ => .bind (.gets _) fun _ => .bind (.whenever ?_) fun _ => ih _
    exact setWitness_keeps hR fun _ => by rfl

/-- Recording missed slots leaves the totals. -/
theorem shiftMissed_totals (missed : ℕ) (d : DynamicGlobalPropertyObject) :
    totals (shiftMissed missed d) = totals d := by
  induction missed generalizing d with
  | zero => rfl
  | succ missed ih => exact ih (shiftSlot false d)

/-- The advance of the head leaves the totals. -/
theorem advanceHead_totals (b : SignedBlock) (missed : ℕ) (d : DynamicGlobalPropertyObject) :
    totals (advanceHead ctx b missed d) = totals d := by
  have hshift : totals (shiftSlots missed d) = totals d := by
    unfold shiftSlots
    split
    · rfl
    · exact shiftMissed_totals missed (shiftSlot true d)
  exact hshift

/-- `update_global_dynamic_data` changes the header and the missed blocks. -/
theorem updateGlobalDynamicData_keeps (hR : HeaderFrame R) (b : SignedBlock) :
    Keeps R (updateGlobalDynamicData ctx b) := by
  refine .bind (.gets _) fun _ => .bind (missSlots_keeps hR.toQuietFrame b _ _) fun _ =>
    .bind ?_ fun _ => .bind (.gets _) fun _ => .lift _
  exact setDgp_keeps hR (advanceHead_totals ctx b _)

/-- `update_signing_witness` changes what the header of a block may change. -/
theorem updateSigningWitness_keeps (hR : HeaderFrame R) (signingWitness : AccountName)
    (b : SignedBlock) : Keeps R (updateSigningWitness signingWitness b) := by
  refine .bind (.gets _) fun _ => replace_keeps fun s x hx => ?_
  refine hR.signed s x (Table.modify_map_eq hx fun a c h => ?_) (Table.modify_eq_ok hx).2
  rw [← Except.ok.inj h]
  rfl

/-- Reading the scheduled witnesses changes nothing. -/
theorem scheduledWitnesses_keeps : Keeps R WitnessSchedule.scheduledWitnesses := by
  constructor
  intro s a t h
  obtain ⟨ws, -, hs⟩ := bind_eq_ok h
  have hst : (ws, s) = (a, t) := Except.ok.inj hs
  cases hst
  exact Std.Refl.refl s

/-- `update_last_irreversible_block` changes a property of the header. -/
theorem updateLastIrreversibleBlock_keeps (hR : HeaderFrame R) :
    Keeps R updateLastIrreversibleBlock := by
  refine .bind (.gets _) fun _ => .ite ?_ (.bind scheduledWitnesses_keeps fun _ =>
    .bind (.lift _) fun _ => ?_)
  · exact setDgp_keeps hR fun _ => by rfl
  · exact setDgp_keeps hR fun _ => by rfl

omit [IsPreorder ChainState R] in
/-- `create_block_summary` changes the summaries alone. -/
theorem createBlockSummary_keeps (hR : ∀ s f, R s { s with blockSummaries := f })
    (b : SignedBlock) : Keeps R (createBlockSummary ctx b) :=
  .update fun s _ h => Except.ok.inj h ▸ hR s _

omit [IsPreorder ChainState R] in
/-- `clear_expired_transactions` is quiet. -/
theorem clearExpiredTransactions_keeps (hR : QuietFrame R) : Keeps R clearExpiredTransactions :=
  .update fun s _ h => Except.ok.inj h ▸ hR.transactions s _

/-- Marking the scheduled witnesses is part of an update of the schedule. -/
theorem markScheduled_keeps (hR : TurnFrame R) (schedule : ScheduleType)
    (witnesses : List WitnessObject) :
    Keeps R (WitnessSchedule.markScheduled schedule witnesses) := by
  refine .forEach (fun w => ?_) _
  exact setTurn_keeps hR fun _ => by rfl

/-- Marking the scheduled witnesses changes their class only. -/
theorem markScheduled_runs
    (hR : ∀ s x, x.rows.map running = s.witnesses.rows.map running → R s { s with witnesses := x })
    (schedule : ScheduleType) (witnesses : List WitnessObject) :
    Keeps R (WitnessSchedule.markScheduled schedule witnesses) := by
  refine .forEach (fun w => replace_keeps fun s x hx => ?_) _
  refine hR s x (Table.modify_map_eq hx fun a b h => ?_)
  rw [← Except.ok.inj h]
  rfl

/-- A reset witness keeps its identity and its votes. -/
theorem resetWitness_turn {w v : WitnessObject} (h : WitnessSchedule.resetWitness w = .ok v) :
    (signer v, v.votes) = (signer w, w.votes) := by
  obtain ⟨x, -, h⟩ := bind_eq_ok h
  rw [← Except.ok.inj h]
  rfl

/-- The reset of the virtual times is part of an update of the schedule. -/
theorem resetVirtualScheduleTime_keeps (hR : TurnFrame R) :
    Keeps R WitnessSchedule.resetVirtualScheduleTime := by
  refine .bind (modifyWso_keeps hR fun _ => by rfl) fun _ => .bind (.gets _) fun _ =>
    .forEach (fun w => ?_) _
  exact modifyTurn_keeps hR fun _ _ h => resetWitness_turn h

/-- The advance of the processed witnesses is part of an update of the schedule. -/
theorem advanceProcessed_keeps (hR : TurnFrame R) (time : ℕ) (processed : List WitnessObject) :
    Keeps R (WitnessSchedule.advanceProcessed time processed) := by
  induction processed with
  | nil => exact .pure _
  | cons w rest ih =>
    refine .bind (.lift _) fun _ => .ite (.pure _) (.bind ?_ fun _ => ih)
    exact setTurn_keeps hR fun _ => by rfl

/-- The advance of the virtual clock is part of an update of the schedule. -/
theorem advanceSchedule_keeps (hR : TurnFrame R) (selection : WitnessSchedule.Selection) :
    Keeps R (WitnessSchedule.advanceSchedule selection) :=
  .bind (markScheduled_keeps hR _ _) fun _ =>
    .bind (markScheduled_keeps hR _ _) fun _ =>
    .bind (advanceProcessed_keeps hR _ _) fun _ =>
    .ite (.bind (resetVirtualScheduleTime_keeps hR) fun _ => .pure _) (.pure _)

/-- `update_witness_schedule4` changes what the frame of the schedule allows. -/
theorem updateWitnessSchedule4_keeps (hR : TurnFrame R) :
    Keeps R WitnessSchedule.updateWitnessSchedule4 := by
  refine .bind (.gets _) fun selection => .bind (advanceSchedule_keeps hR selection) fun _ =>
    .bind (.bind (.gets _) fun _ => .lift _) fun _ => .bind ?_ fun _ => .bind (.gets _) fun _ =>
    .bind (.gets _) fun _ => .bind (modifyWso_keeps hR fun _ => by rfl) fun _ => ?_
  · exact .bind (.gets _) fun _ => .bind scheduledWitnesses_keeps fun _ =>
      .bind (modifyHardforks_keeps hR _) fun _ => .pure _
  · refine .bind scheduledWitnesses_keeps fun _ => .bind (.lift _) fun _ => .bind (.lift _) fun _ =>
      .bind (modifyWso_keeps hR fun _ => by rfl) fun _ => ?_
    exact replace_keeps fun s d hd => Except.ok.inj hd ▸ hR.blockSize s _

/-- `update_witness_schedule` changes what the frame of the schedule allows. -/
theorem updateWitnessSchedule_keeps (hR : TurnFrame R) :
    Keeps R WitnessSchedule.updateWitnessSchedule :=
  .bind (.gets _) fun _ => .whenever (updateWitnessSchedule4_keeps hR)

/-- `process_hardforks` changes nothing: it returns or throws. -/
theorem processHardforks_keeps : Keeps R processHardforks :=
  .bind (.gets _) fun _ => .bind (.gets _) fun _ => .lift _

/-- The first part of a block keeps a relation that its transactions keep and that
allows the changes of the header. -/
theorem applyBlockFront_keeps (hR : HeaderFrame R) (b : SignedBlock)
    (htrx : ∀ trx ∈ b.transactions, Keeps R (applyTransaction ctx trx)) :
    Keeps R (applyBlockFront ctx b) := by
  refine .bind (.lift _) fun _ => .bind (validateBlockHeader_keeps ctx b) fun _ =>
    .bind (.gets _) fun _ => .bind (.lift _) fun _ =>
    .bind (setDgp_keeps hR fun _ => by rfl) fun _ =>
    .bind (processHeaderExtensions_keeps hR.toQuietFrame b) fun _ => .bind (lookup_keeps _ _) fun _ =>
    .bind (.gets _) fun _ => .bind (.lift _) fun _ => .bind (.forEach_mem htrx) fun _ =>
    .bind (updateGlobalDynamicData_keeps ctx hR b) fun _ =>
    .bind (updateSigningWitness_keeps hR _ b) fun _ => ?_
  exact updateLastIrreversibleBlock_keeps hR

/-- What a block does after the update of the schedule keeps a relation that allows what moves
stake. -/
theorem afterSchedule_keeps (hR : StakeFrame ctx.env.toFcLib R) : Keeps R (do
    clearNullAccountBalance ctx.env.toFcLib
    processFunds ctx.env.toFcLib
    processCommentCashout ctx.env.toFcLib
    processVestingWithdrawals ctx.env.toFcLib
    processHardforks) :=
  .bind (clearNullAccountBalance_keeps _ hR) fun _ =>
    .bind (processFunds_keeps _ hR) fun _ =>
    .bind (processCommentCashout_keeps _ hR.toRewardFrame) fun _ =>
    .bind (processVestingWithdrawals_keeps _ hR) fun _ => processHardforks_keeps

/-- The second part of a block keeps a relation that allows all that a block changes. -/
theorem applyBlockBack_keeps (hS : RoundFrame R) (hM : MoneyFrame R) (b : SignedBlock) :
    Keeps R (applyBlockBack ctx b) :=
  .bind (createBlockSummary_keeps ctx hS.blockSummaries b) fun _ =>
    .bind (clearExpiredTransactions_keeps hS.toQuietFrame) fun _ =>
    .bind (updateWitnessSchedule_keeps hS.toTurnFrame) fun _ =>
    afterSchedule_keeps ctx (hM.toOperationFrame _).toStakeFrame

/-- A block keeps a relation that allows all that a block changes. -/
theorem applyBlock_keeps (hS : StepFrame R) (hM : MoneyFrame R) (b : SignedBlock) :
    Keeps R (applyBlock ctx b) :=
  .bind (applyBlockFront_keeps ctx hS.toHeaderFrame b fun trx _ =>
      applyTransaction_keeps ctx (hM.toOperationFrame _) trx) fun _ =>
    applyBlockBack_keeps ctx hS.toScheduleFrame.toRoundFrame hM b

end Blocks

end Whaleshares.Footprint
