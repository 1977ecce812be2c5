import Whaleshares.ChainRun
import Whaleshares.ElectionRun
import Whaleshares.LabelledRun
import Whaleshares.Sidelines
import Whaleshares.SlotClock

/-!
# The history of a run, step by step

Blocks are applied whole, but the rules about votes, comments, routes and power-downs speak of
one operation or one withdrawal after the other, wherever in a block each of them happens. A
run of blocks is unfolded into its steps: the operations of its transactions, the withdrawals,
the payouts, the burning of what the null account holds, and the upkeep, which is all the rest.
-/

namespace Whaleshares.Timeline

open Config Fc Assets Protocol Objects Program Database WitnessSchedule Vesting Rewards
  CommentEvaluators ApplyBlock Genesis ChainRun Footprint Sidelines LabelledRun LockedAccount
  ElectionRun SlotClock
  VestingLedger RewardLedger Conservation

/-- What a step of a run is. -/
inductive Event where
  /-- An operation of a transaction. -/
  | operation (op : Operation)
  /-- One round of `process_vesting_withdrawals`, for this account. -/
  | withdrawal (source : AccountObject)
  /-- `process_comment_cashout` -/
  | cashout
  /-- `clear_null_account_balance` -/
  | burning
  /-- Another routine of a block. -/
  | upkeep

/-- The other routines of a block that change its state. -/
inductive Upkeep (env : Env) : Chain Unit → Prop where
  | currentWitness (name : AccountName) :
      Upkeep env (modifyDgp fun dgp => .ok { dgp with currentWitness := name })
  | extensions (b : SignedBlock) : Upkeep env (processHeaderExtensions b)
  | entry (f : ℕ → Except Exc TransactionObject) : Upkeep env (createTransaction f)
  | dynamicData (ctx : Context) (b : SignedBlock) : Upkeep env (updateGlobalDynamicData ctx b)
  | signing (name : AccountName) (b : SignedBlock) : Upkeep env (updateSigningWitness name b)
  | irreversible : Upkeep env updateLastIrreversibleBlock
  | summary (ctx : Context) (b : SignedBlock) : Upkeep env (createBlockSummary ctx b)
  | expiry : Upkeep env clearExpiredTransactions
  | schedule : Upkeep env updateWitnessSchedule
  | funds : Upkeep env (processFunds env.toFcLib)

/-- The operation does not act for the null account. -/
def NotForNull (op : Operation) : Prop :=
  nullAccount ∉ op.requiredAuthorities.active ∧ nullAccount ∉ op.requiredAuthorities.owner

/-- A step that can happen in a state, and the state that it leads to. -/
inductive Occurs (env : Env) : Event → ChainState → ChainState → Prop where
  | operation (ctx : Context) (henv : ctx.env = env) (op : Operation)
      (hvalid : op.validate env.toFcLib = .ok ()) (hnull : NotForNull op) {s t : ChainState}
      (h : Returns (applyOperation ctx op) s () t) : Occurs env (.operation op) s t
  | withdrawal {source : AccountObject} {s t : ChainState}
      (hsource : s.accounts.find (named source.name) = some source)
      (hdue : source.nextVestingWithdrawal ≤ s.dgp.time)
      (h : Returns (processVestingWithdrawal env.toFcLib source) s () t) :
      Occurs env (.withdrawal source) s t
  | cashout {s t : ChainState} (h : Returns (processCommentCashout env.toFcLib) s () t) :
      Occurs env .cashout s t
  | burning {s t : ChainState} (h : Returns (clearNullAccountBalance env.toFcLib) s () t) :
      Occurs env .burning s t
  | upkeep {m : Chain Unit} (hm : Upkeep env m) {s t : ChainState}
      (hlater : s.dgp.time ≤ t.dgp.time) (h : Returns m s () t) : Occurs env .upkeep s t

/-- A step of the history of a run. -/
abbrev Step := Moment ChainState Event

/-- The steps lead from one state to another. -/
abbrev History (env : Env) (s : ChainState) (steps : List Step) (t : ChainState) : Prop :=
  Path (Occurs env) s steps t

/-- The operation of an event, if it is one. -/
def Event.operation? : Event → Option Operation
  | .operation op => some op
  | _ => none

/-- The operations of a history, in order. -/
def operations (steps : List Step) : List Operation := steps.filterMap fun m => m.event.operation?

/-- A history with an operation among its operations has a step at which it happens. -/
theorem operations_split (ops : List Operation) {steps : List Step} {op : Operation}
    {ops' : List Operation}
    (h : operations steps = ops ++ op :: ops') :
    ∃ earlier m later, steps = earlier ++ m :: later ∧ m.event = .operation op ∧
      operations earlier = ops ∧ operations later = ops' := by
  obtain ⟨front, rest, hsteps, hfront, hrest⟩ := List.filterMap_eq_append_iff.mp h
  obtain ⟨silent, m, later, hrest, hsilent, hm, hlater⟩ := List.filterMap_eq_cons_iff.mp hrest
  refine ⟨front ++ silent, m, later, ?_, ?_, ?_, hlater⟩
  · rw [hsteps, hrest, List.append_assoc]
  · unfold Event.operation? at hm
    split at hm
    next op' hevent => rw [hevent, Option.some.inj hm]
    next => cases hm
  · unfold operations
    rw [List.filterMap_append, hfront, List.filterMap_eq_nil_iff.mpr hsilent, List.append_nil]

/-- The operations of the block of a call, in order. -/
def BlockCall.operations (call : BlockCall) : List Operation :=
  call.block.transactions.flatMap (·.operations)

section Unfolding

variable {env : Env} {ops ops' : List Operation} {s t u : ChainState}

/-- The event is no round of withdrawals. -/
def Event.Quiet (event : Event) : Prop := ∀ source, event ≠ .withdrawal source

/-- From one state a history with these operations and without withdrawals leads to the other. -/
def Quiet (env : Env) (ops : List Operation) (s t : ChainState) : Prop :=
  ∃ steps, History env s steps t ∧ operations steps = ops ∧ ∀ m ∈ steps, m.event.Quiet

/-- Nothing has to happen. -/
theorem Quiet.refl (env : Env) (s : ChainState) : Quiet env [] s s :=
  ⟨[], rfl, rfl, fun _ hm => absurd hm List.not_mem_nil⟩

/-- Histories without withdrawals follow on each other. -/
theorem Quiet.trans (h : Quiet env ops s u) (h' : Quiet env ops' u t) :
    Quiet env (ops ++ ops') s t := by
  obtain ⟨steps, hsteps, hops, hquiet⟩ := h
  obtain ⟨steps', hsteps', hops', hquiet'⟩ := h'
  refine ⟨steps ++ steps', hsteps.append hsteps', ?_, fun m hm => ?_⟩
  · unfold operations at *
    rw [List.filterMap_append, hops, hops']
  · exact (List.mem_append.mp hm).elim (hquiet m) (hquiet' m)

/-- A step that is neither an operation nor a withdrawal. -/
theorem Quiet.silent {event : Event} (h : Occurs env event s t) (hevent : event.operation? = none)
    (hquiet : event.Quiet) : Quiet env [] s t := by
  refine ⟨[⟨s, event, t⟩], .single h, List.filterMap_cons_none hevent, fun m hm => ?_⟩
  rw [List.mem_singleton.mp hm]
  exact hquiet

/-- A step that is an operation. -/
theorem Quiet.operation {op : Operation} (h : Occurs env (.operation op) s t) :
    Quiet env [op] s t := by
  refine ⟨[⟨s, .operation op, t⟩], .single h, rfl, fun m hm source hsource => ?_⟩
  rw [List.mem_singleton.mp hm] at hsource
  cases hsource

/-- The same clock shows the same time. -/
theorem sameClock_time (h : SameClock s t) : t.dgp.time = s.dgp.time :=
  congrArg (fun x => x.2.1) h

/-- The upkeep is no round of withdrawals. -/
theorem Event.upkeep_quiet : Event.upkeep.Quiet := by
  intro source hsource
  cases hsource

/-- A routine that leaves the clock alone. -/
theorem Quiet.upkeep {m : Chain Unit} (hm : Upkeep env m) (hkeeps : Keeps SameClock m)
    {r : Unit} (h : Returns m s r t) : Quiet env [] s t :=
  .silent (.upkeep hm (sameClock_time (hkeeps.rel _ _ _ h)).ge h) rfl Event.upkeep_quiet

/-- The burning of what the null account holds. -/
theorem Quiet.burning (h : Returns (clearNullAccountBalance env.toFcLib) s () t) :
    Quiet env [] s t := by
  refine .silent (.burning h) rfl fun source hsource => ?_
  cases hsource

/-- The payouts of comments. -/
theorem Quiet.cashout (h : Returns (processCommentCashout env.toFcLib) s () t) :
    Quiet env [] s t := by
  refine .silent (.cashout h) rfl fun source hsource => ?_
  cases hsource

/-- A loop whose steps unfold, under a property of states that they keep. -/
theorem Quiet.forEach {α : Type} {P : ChainState → Prop} {f : α → Chain Unit}
    {g : α → List Operation} {l : List α} {r : Unit} (h : Returns (forEach f l) s r t) (hs : P s)
    (hf : ∀ x ∈ l, ∀ v w, P v → Returns (f x) v () w → Quiet env (g x) v w ∧ P w) :
    Quiet env (l.flatMap g) s t := by
  induction l generalizing s with
  | nil =>
    obtain ⟨-, rfl⟩ := h.pure
    exact .refl env t
  | cons x rest ih =>
    obtain ⟨_, v, hx, hrest⟩ := h.bind
    obtain ⟨hfirst, hv⟩ := hf x List.mem_cons_self s v hs hx
    rw [List.flatMap_cons]
    exact hfirst.trans (ih hrest hv fun y hy => hf y (List.mem_cons_of_mem _ hy))

/-- The routines before the schedule leave the null account locked. -/
theorem locked_headerFrame : HeaderFrame (Preserves Locked) :=
  sameAuthorities_headerFrame.mono fun _ _ hsame hs => SameAuthorities.locked hsame hs

/-- What a checked transaction does: an entry in the list of transactions, and its operations,
none of which acts for the null account. -/
theorem applyTransaction_parts {ctx : Context} (hchecked : Checked ctx.skip)
    {trx : SignedTransaction} {r : Unit} (h : Returns (applyTransaction ctx trx) s r t)
    (hs : Locked s) : ∃ v, ((∃ record, Returns (createTransaction record) s () v) ∨ v = s) ∧
      Returns (Program.forEach (applyOperation ctx) trx.operations) v () t ∧
      ∀ op ∈ trx.operations, op.validate ctx.env.toFcLib = .ok () ∧ NotForNull op := by
  obtain ⟨_, hvalid, h⟩ := h.lift_bind
  obtain ⟨_, -, h⟩ := h.gets_bind.lift_bind
  obtain ⟨_, hauthorities, h⟩ := h.lift_bind
  obtain ⟨_, -, h⟩ := h.lift_bind
  obtain ⟨_, v, hv, h⟩ := h.bind
  rw [hchecked.validate, if_neg Bool.false_ne_true] at hvalid
  rw [hchecked.transactionSignatures, hchecked.authorityCheck, Bool.or_self,
    if_neg Bool.false_ne_true] at hauthorities
  obtain ⟨_, -, hvalid⟩ := bind_eq_ok hvalid
  have hops := forM_eq_ok hvalid
  have hnull := checkAuthorities_null hs hauthorities
  refine ⟨v, ?_, h, fun op hop => ⟨hops op hop, hnull op hop⟩⟩
  rcases hv.whenever with ⟨-, hv⟩ | ⟨-, hv⟩
  · exact .inl ⟨_, hv⟩
  · exact .inr hv

/-- A checked transaction leaves the null account locked. -/
theorem applyTransaction_locked {ctx : Context} (hchecked : Checked ctx.skip)
    (trx : SignedTransaction) : Keeps (Preserves Locked) (applyTransaction ctx trx) := by
  constructor
  intro s r t h hs
  obtain ⟨v, hv, hops, hchecks⟩ := applyTransaction_parts hchecked h hs
  have hsv : Locked v := by
    rcases hv with ⟨record, hv⟩ | rfl
    · exact (createTransaction_keeps locked_headerFrame.toQuietFrame _).rel _ _ _ hv hs
    · exact hs
  refine hops.forEach hsv fun op hop x y hx hy => ?_
  exact applyOperation_locked (hchecks op hop).2.1 (hchecks op hop).2.2 hy hx

/-- A checked block keeps the null account locked. -/
theorem applyBlock_locked {ctx : Context} (hchecked : Checked ctx.skip) {b : SignedBlock}
    {r : Unit} (h : Returns (applyBlock ctx b) s r t) (hs : Locked s) : Locked t := by
  obtain ⟨_, v, hv, h⟩ := h.bind
  have hfront : Locked v := (applyBlockFront_keeps ctx locked_headerFrame b fun trx _ =>
    applyTransaction_locked hchecked trx).rel _ _ _ hv hs
  have hsame : SameAuthorities v t := (applyBlockBack_authorities b).rel _ _ _ h
  exact hsame.locked hfront

/-- A checked transaction unfolds into its operations. -/
theorem applyTransaction_quiet {ctx : Context} (henv : ctx.env = env)
    (hchecked : Checked ctx.skip) {trx : SignedTransaction} {r : Unit}
    (h : Returns (applyTransaction ctx trx) s r t) (hs : Locked s) :
    Quiet env trx.operations s t := by
  obtain ⟨v, hv, hops, hchecks⟩ := applyTransaction_parts hchecked h hs
  rw [henv] at hchecks
  have hentry : Quiet env [] s v := by
    rcases hv with ⟨record, hv⟩ | rfl
    · exact .upkeep (.entry _) (createTransaction_keeps sameClock_frame.toQuietFrame _) hv
    · exact .refl env v
  have hall : Quiet env (trx.operations.flatMap fun op => [op]) v t := by
    refine Quiet.forEach (P := fun _ => True) hops trivial fun op hop x y _ hxy => ⟨?_, trivial⟩
    obtain ⟨hvalid, hnull⟩ := hchecks op hop
    exact .operation (.operation ctx henv op hvalid hnull hxy)
  rw [List.flatMap_singleton'] at hall
  exact hentry.trans hall

/-- The checks of a header change nothing. -/
theorem validateBlockHeader_same {ctx : Context} {b : SignedBlock} {w : WitnessObject}
    (h : Returns (validateBlockHeader ctx b) s w t) : t = s :=
  ((validateBlockHeader_keeps (R := Eq) ctx b).rel _ _ _ h).symm

/-- A checked block unfolds into a history without withdrawals, after which it runs the loop of
`process_vesting_withdrawals`. -/
theorem applyBlock_quiet {ctx : Context} (henv : ctx.env = env) (hchecked : Checked ctx.skip)
    {b : SignedBlock} {r : Unit} (h : Returns (applyBlock ctx b) s r t) (hs : Locked s) :
    ∃ u, Quiet env (b.transactions.flatMap (·.operations)) s u ∧
      Returns (processVestingWithdrawals env.toFcLib) u () t := by
  obtain ⟨_, s₀, hfront, h⟩ := h.bind
  obtain ⟨_, -, hfront⟩ := hfront.lift_bind
  obtain ⟨signing, u₀, hheader, hfront⟩ := hfront.bind
  rw [validateBlockHeader_same hheader] at hfront
  obtain ⟨_, -, hfront⟩ := hfront.gets_bind.lift_bind
  obtain ⟨_, u₁, hwitness, hfront⟩ := hfront.bind
  obtain ⟨_, u₂, hextensions, hfront⟩ := hfront.bind
  obtain ⟨_, -, hfront⟩ := lookup_bind hfront
  obtain ⟨_, -, hfront⟩ := hfront.gets_bind.lift_bind
  obtain ⟨_, u₃, htransactions, hfront⟩ := hfront.bind
  obtain ⟨_, u₄, hdata, hfront⟩ := hfront.bind
  obtain ⟨_, u₅, hsigning, hirreversible⟩ := hfront.bind
  obtain ⟨_, s₁, hsummary, h⟩ := h.bind
  obtain ⟨_, s₂, hexpiry, h⟩ := h.bind
  obtain ⟨_, s₃, hschedule, h⟩ := h.bind
  obtain ⟨_, s₄, hburning, h⟩ := h.bind
  obtain ⟨_, s₅, hfunds, h⟩ := h.bind
  obtain ⟨_, s₆, hcashout, h⟩ := h.bind
  obtain ⟨_, s₇, hwithdrawals, h⟩ := h.bind
  rw [henv] at hburning hfunds hcashout hwithdrawals
  have hhardforks : s₇ = t := (processHardforks_keeps (R := Eq)).rel _ _ _ h
  have hround := sameClock_roundFrame
  have hmoney := (sameClock_moneyFrame.toOperationFrame env.toFcLib).toStakeFrame
  have hcurrent : Keeps SameClock
      (modifyDgp fun dgp => .ok { dgp with currentWitness := b.witness }) := by
    refine replace_keeps fun v d hd => ?_
    rw [← Except.ok.inj hd]
    rfl
  have hopening : Quiet env [] s u₂ :=
    (Quiet.upkeep (.currentWitness _) hcurrent hwitness).trans
      (.upkeep (.extensions b) (processHeaderExtensions_keeps hround.toQuietFrame b) hextensions)
  have hlocked : Locked u₂ := by
    have hsame₁ : SameAuthorities s u₁ := by
      obtain ⟨d, -, rfl⟩ := map_eq_ok hwitness.update
      rfl
    have hsame₂ : SameAuthorities u₁ u₂ :=
      (processHeaderExtensions_keeps sameAuthorities_quietFrame b).rel _ _ _ hextensions
    exact hsame₂.locked (hsame₁.locked hs)
  have hops : Quiet env (b.transactions.flatMap (·.operations)) u₂ u₃ :=
    .forEach htransactions hlocked fun trx _ v w hv hvw =>
      ⟨applyTransaction_quiet henv hchecked hvw hv,
        (applyTransaction_locked hchecked trx).rel _ _ _ hvw hv⟩
  have hbody : u₃.dgp.time = s.dgp.time := by
    have hextended : SameClock u₁ u₂ :=
      (processHeaderExtensions_keeps hround.toQuietFrame b).rel _ _ _ hextensions
    have htransacted : SameClock u₂ u₃ := (Keeps.forEach (fun trx => applyTransaction_keeps ctx
      (sameClock_moneyFrame.toOperationFrame _) trx) _).rel _ _ _ htransactions
    exact sameClock_time
      (Trans.trans (hcurrent.rel _ _ _ hwitness) (Trans.trans hextended htransacted))
  have hlater : u₃.dgp.time ≤ u₄.dgp.time := by
    have hclock : u₄.dgp.time = b.header.timestamp :=
      congrArg (fun x => x.2.1) (updateGlobalDynamicData_clock hdata)
    rw [hclock, hbody]
    exact (validateBlockHeader_checked hheader).2.later.le
  have hsign : Keeps SameClock (updateSigningWitness signing.owner b) :=
    ⟨fun v _ w hvw => congrArg clock (ChainTip.updateSigningWitness_dgp hvw)⟩
  have hclosing : Quiet env [] u₃ s₃ :=
    ((((Quiet.silent (.upkeep (.dynamicData ctx b) hlater hdata) rfl Event.upkeep_quiet).trans
      (.upkeep (.signing _ b) hsign hsigning)).trans
      (.upkeep .irreversible ⟨fun _ _ _ hvw => updateLastIrreversibleBlock_sameClock hvw⟩
        hirreversible)).trans
      ((Quiet.upkeep (.summary ctx b) (createBlockSummary_keeps ctx hround.blockSummaries b)
        hsummary).trans (.upkeep .expiry (clearExpiredTransactions_keeps hround.toQuietFrame)
        hexpiry))).trans
      (.upkeep .schedule (updateWitnessSchedule_keeps hround.toTurnFrame) hschedule)
  have hpayments : Quiet env [] s₃ s₆ :=
    ((Quiet.burning hburning).trans (.upkeep .funds (processFunds_keeps _ hmoney) hfunds)).trans
      (.cashout hcashout)
  have hall := (hopening.trans hops).trans (hclosing.trans hpayments)
  rw [List.nil_append, List.append_nil, List.append_nil] at hall
  exact ⟨s₆, hall, hhardforks ▸ hwithdrawals⟩

end Unfolding

section Time

variable {env : Env} {event : Event} {s t : ChainState} {steps : List Step}

/-- The head time does not decrease. -/
def Later (s t : ChainState) : Prop := s.dgp.time ≤ t.dgp.time

instance : IsPreorder ChainState Later where
  refl _ := Nat.le_refl _
  trans _ _ _ := Nat.le_trans

/-- Whatever occurs, the chain is not earlier than before. -/
theorem Occurs.later (h : Occurs env event s t) : Later s t := by
  have hmoney := sameClock_moneyFrame.toOperationFrame env.toFcLib
  cases h with
  | operation ctx henv op hvalid hnull h =>
    have hframe := sameClock_moneyFrame.toOperationFrame ctx.env.toFcLib
    exact (sameClock_time ((applyOperation_keeps ctx hframe op).rel _ _ _ h)).ge
  | withdrawal hsource hdue h =>
    exact (sameClock_time
      ((processVestingWithdrawal_keeps _ hmoney.toStakeFrame _).rel _ _ _ h)).ge
  | cashout h =>
    exact (sameClock_time
      ((processCommentCashout_keeps _ sameClock_moneyFrame.toRewardFrame).rel _ _ _ h)).ge
  | burning h =>
    exact (sameClock_time
      ((clearNullAccountBalance_keeps _ hmoney.toStakeFrame).rel _ _ _ h)).ge
  | upkeep hm hlater h => exact hlater

end Time

section Keeping

variable {env : Env} {R : ChainState → ChainState → Prop} [IsPreorder ChainState R]

/-- The upkeep besides the funds changes the header and the schedule. -/
theorem Upkeep.keeps {m : Chain Unit} (hm : Upkeep env m) (hheader : HeaderFrame R)
    (hturn : TurnFrame R) (hfunds : Keeps R (processFunds env.toFcLib)) : Keeps R m := by
  cases hm with
  | currentWitness name =>
    exact setDgp_keeps hheader fun _ => by rfl
  | extensions b => exact processHeaderExtensions_keeps hheader.toQuietFrame b
  | entry f => exact createTransaction_keeps hheader.toQuietFrame f
  | dynamicData ctx b => exact updateGlobalDynamicData_keeps ctx hheader b
  | signing name b => exact updateSigningWitness_keeps hheader name b
  | irreversible => exact updateLastIrreversibleBlock_keeps hheader
  | summary ctx b => exact createBlockSummary_keeps ctx hheader.blockSummaries b
  | expiry => exact clearExpiredTransactions_keeps hheader.toQuietFrame
  | schedule => exact updateWitnessSchedule_keeps hturn
  | funds => exact hfunds

/-- The upkeep of a block stays beside what the frame allows. -/
theorem Upkeep.aside {m : Chain Unit} (hm : Upkeep env m) (hR : SideFrame R) : Keeps R m := by
  cases hm with
  | currentWitness name => exact modifyDgp_aside hR _
  | extensions b => exact processHeaderExtensions_aside hR b
  | entry f => exact createTransaction_aside hR f
  | dynamicData ctx b => exact updateGlobalDynamicData_aside ctx hR b
  | signing name b => exact updateSigningWitness_aside hR name b
  | irreversible => exact updateLastIrreversibleBlock_aside hR
  | summary ctx b => exact createBlockSummary_keeps ctx hR.blockSummaries b
  | expiry => exact clearExpiredTransactions_aside hR
  | schedule => exact updateWitnessSchedule_keeps hR.toTurnFrame
  | funds => exact processFunds_aside _ hR

end Keeping

section Balance

variable {env : Env} {event : Event} {s t : ChainState} {steps : List Step}

/-- Every step keeps the books in balance. -/
theorem Occurs.inBalance (hexact : env.SafeExact) (h : Occurs env event s t)
    (hs : InBalance s) : InBalance t := by
  cases h with
  | operation ctx henv op hvalid hnull h =>
    rw [← henv] at hexact hvalid
    exact applyOperation_balanced hexact hvalid h hs
  | withdrawal hsource hdue h => exact processVestingWithdrawal_balanced hexact hsource h hs
  | cashout h => exact processCommentCashout_balanced hexact h hs
  | burning h => exact clearNullAccountBalance_balanced hexact h hs
  | upkeep hm hlater h =>
    have hfunds : Keeps (Preserves InBalance) (processFunds env.toFcLib) :=
      ⟨fun _ _ _ hfunds hbalance => processFunds_balanced hexact hfunds hbalance⟩
    have hframe := inBalance_stepFrame
    exact (hm.keeps hframe.toHeaderFrame hframe.toScheduleFrame.toRoundFrame.toTurnFrame
      hfunds).rel _ _ _ h hs

/-- Every state of a history is in balance. -/
theorem history_inBalance (hexact : env.SafeExact) {initSupply : ℕ}
    (h : History env (initGenesis env initSupply) steps t) : InBalance t :=
  Path.invariant h (inBalance_initGenesis env initSupply) fun _ _ hm => hm.inBalance hexact

end Balance

end Whaleshares.Timeline
