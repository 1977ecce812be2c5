import Whaleshares.SlotClock
import Whaleshares.WeightedShares
import Whaleshares.WitnessPay

/-!
# The pay of the witnesses of a round

Over a round without missed slots every scheduled witness produces one block. The weights of the
producers add up to the factor that pay is divided by, so they cancel out as long as every block
is paid under the schedule that it was produced under. The last block of a round updates the
schedule before its producer is paid.
-/

namespace Whaleshares.RoundPay

open Config Fc Assets Protocol Objects Program Evaluators Database Vesting Rewards ApplyBlock
  WitnessSchedule Genesis ChainRun ChainTip Footprint ScheduleSafety ScheduleContent SlotClock
  WeightedShares WitnessPay

section Slots

variable {env : Env} {initSupply : ℕ} {calls : List BlockCall} {call : BlockCall}
  {s t : ChainState} {ctx : Context} {b : SignedBlock} {dgp : DynamicGlobalPropertyObject}
  {time : TimePointSec}

/-- Times have no more intervals between them than seconds. -/
theorem intervals_le (head time : ℕ) : time / 3 - head / 3 ≤ time - head := by
  omega

/-- No more slots have begun than seconds have passed since genesis. -/
theorem slots_le_genesis (genesis time : ℕ) :
    (if time < genesis + 3 then 0 else ((time - (genesis + 3)) / 3 + 1) % 2 ^ 32) ≤
      time - genesis := by
  split <;> omega

/-- A time has no more slots before it than seconds after the head. -/
theorem slotAtTime_le (hlater : dgp.time < time) (htime : time < 2 ^ 32)
    (hgenesis : dgp.headBlockNumber = 0 → dgp.time = wlsGenesisTime) :
    slotAtTime dgp time ≤ time - dgp.time := by
  by_cases hnum : dgp.headBlockNumber = 0
  · have hfirst : slotTime dgp 1 = wlsGenesisTime + 3 := by
      rw [slotTime_genesis hnum, hgenesis hnum]
      rfl
    rw [hgenesis hnum] at hlater ⊢
    unfold slotAtTime
    rw [hfirst]
    exact slots_le_genesis wlsGenesisTime time
  · rw [slotAtTime_block hnum hlater htime]
    exact intervals_le dgp.time time

/-- The clock of a state: not before the genesis, in 32 bits, and not before its slot. -/
structure InTime (dgp : DynamicGlobalPropertyObject) : Prop where
  late : wlsGenesisTime ≤ dgp.time
  time : dgp.time < 2 ^ 32
  aslot : dgp.currentAslot ≤ dgp.time
  start : dgp.headBlockNumber = 0 → dgp.time = wlsGenesisTime

/-- A head in time is later than the epoch. -/
theorem InTime.time_ne (h : InTime dgp) : dgp.time ≠ 0 :=
  Nat.pos_iff_ne_zero.mp (Nat.lt_of_lt_of_le (by decide) h.late)

/-- The absolute slot after a block. -/
theorem InTime.aslot_add (h : InTime dgp) (hlater : dgp.time < time) (htime : time < 2 ^ 32) :
    (dgp.currentAslot + slotAtTime dgp time) % 2 ^ 64 = dgp.currentAslot + slotAtTime dgp time ∧
      dgp.currentAslot + slotAtTime dgp time ≤ time := by
  have hslot : slotAtTime dgp time ≤ (time : ℕ) - (dgp.time : ℕ) :=
    slotAtTime_le hlater htime h.start
  have haslot : dgp.currentAslot ≤ (dgp.time : ℕ) := h.aslot
  have hbound : ∀ a x y z : ℕ, a ≤ x → z ≤ y - x → x < y → y < 2 ^ 32 →
      (a + z) % 2 ^ 64 = a + z ∧ a + z ≤ y := by
    intro a x y z ha hz hxy hy
    omega
  exact hbound _ _ _ _ haslot hslot hlater htime

/-- A block with a 32-bit timestamp keeps the head in time. -/
theorem InTime.step (hs : InTime s.dgp) (hstamp : b.header.timestamp < 2 ^ 32)
    (hnum : b.blockNum ≠ 0) (h : Returns (applyBlock ctx b) s () t) : InTime t.dgp := by
  obtain ⟨hchecked, hclock⟩ := applyBlock_clock h
  have hhead : t.dgp.time = b.header.timestamp := congrArg (fun x => x.2.1) hclock
  have hnumber : t.dgp.headBlockNumber = b.blockNum := congrArg Prod.fst hclock
  obtain ⟨hadd, hle⟩ := hs.aslot_add hchecked.later hstamp
  refine ⟨?_, ?_, ?_, fun hzero => absurd (hnumber.symm.trans hzero) hnum⟩
  · rw [hhead]
    exact Nat.le_of_lt (Nat.lt_of_le_of_lt hs.late hchecked.later)
  · rw [hhead]
    exact hstamp
  · rw [applyBlock_aslot hs.time_ne h, hadd, hhead]
    exact hle

/-- A block of a reachable state has no number zero. -/
theorem blockNum_ne_zero (hreaches : Reaches env initSupply calls s)
    (h : Returns (call.run env) s () t) : call.block.blockNum ≠ 0 := by
  rw [LastIrreversible.blockNum_eq hreaches (applyBlock_head h).1]
  exact Nat.succ_ne_zero calls.length

/-- With 32-bit timestamps every reachable head is in time. -/
theorem Reaches.inTime (hstamps : ∀ call ∈ calls, call.block.header.timestamp < 2 ^ 32)
    (h : Reaches env initSupply calls s) : InTime s.dgp := by
  induction calls using List.reverseRecOn generalizing s with
  | nil =>
    obtain ⟨-, rfl⟩ := Returns.pure h
    have hgenesis : wlsGenesisTime < 2 ^ 32 := by decide
    exact ⟨Nat.le_refl _, hgenesis, Nat.zero_le _, fun _ => rfl⟩
  | append_singleton calls call ih =>
    obtain ⟨u, hu, hcall⟩ := reaches_append.mp h
    have htime := ih (fun c hc => hstamps c (List.mem_append_left _ hc)) hu
    have hstamp := hstamps call (List.mem_append_right _ List.mem_cons_self)
    exact htime.step hstamp (blockNum_ne_zero hu hcall) hcall

end Slots

section Payments

variable {env : Env} {call : BlockCall} {round : List BlockCall} {s t : ChainState}

/-- A block and what it pays. -/
structure PaidBlock where
  /-- The slot of the block, counted from the block before. -/
  slot : ℕ
  /-- The state in which `process_funds` starts. -/
  state : ChainState
  funds : Funds

/-- `_apply_block`, with a record of the payments. -/
def runPaid (env : Env) (call : BlockCall) : Chain PaidBlock := do
  let dgp ← gets (·.dgp)
  applyBlockToSchedule (call.context env) call.block
  updateWitnessSchedule
  clearNullAccountBalance env.toFcLib
  let state ← gets id
  let funds ← computeFunds env.toFcLib
  payFunds env.toFcLib funds
  processCommentCashout env.toFcLib
  processVestingWithdrawals env.toFcLib
  processHardforks
  pure ⟨slotAtTime dgp call.block.header.timestamp, state, funds⟩

/-- The blocks of a run, with a record of the payments. -/
def runPaidBlocks (env : Env) : List BlockCall → Chain (List PaidBlock)
  | [] => pure []
  | call :: rest => do
    let block ← runPaid env call
    let blocks ← runPaidBlocks env rest
    pure (block :: blocks)

/-- The parts of a block with its payments. -/
structure Parts (env : Env) (call : BlockCall) (s : ChainState) (p : PaidBlock) (u v t : ChainState) :
    Prop where
  front : Returns (applyBlockToSchedule (call.context env) call.block) s () u
  update : Returns updateWitnessSchedule u () v
  clear : Returns (clearNullAccountBalance env.toFcLib) v () p.state
  funds : ∃ w, Returns (computeFunds env.toFcLib) p.state p.funds w
  rest : Returns (afterSchedule (call.context env)) v () t
  slot : p.slot = slotAtTime s.dgp call.block.header.timestamp
  run : Returns (call.run env) s () t

/-- The record of the payments changes nothing in the run of a block. -/
theorem runPaid_parts {p : PaidBlock} (h : Returns (runPaid env call) s p t) :
    ∃ u v, Parts env call s p u v t := by
  obtain ⟨_, u, hu, h⟩ := h.gets_bind.bind
  obtain ⟨_, v, hv, h⟩ := h.bind
  obtain ⟨_, state, hstate, h⟩ := h.bind
  obtain ⟨funds, w, hfunds, h⟩ := h.gets_bind.bind
  obtain ⟨_, s₁, h₁, h⟩ := h.bind
  obtain ⟨_, s₂, h₂, h⟩ := h.bind
  obtain ⟨_, s₃, h₃, h⟩ := h.bind
  obtain ⟨_, s₄, h₄, h⟩ := h.bind
  obtain ⟨rfl, rfl⟩ := h.pure
  have hprocess : Returns (processFunds env.toFcLib) state () s₁ := by
    rw [processFunds_eq]
    exact hfunds.intro_bind h₁
  have hrest : Returns (afterSchedule (call.context env)) v () t :=
    hstate.intro_bind (hprocess.intro_bind (h₂.intro_bind (h₃.intro_bind h₄)))
  exact ⟨u, v, hu, hv, hstate, ⟨w, hfunds⟩, hrest, rfl, applyBlock_of_parts hu hv hrest⟩

end Payments

section Rounds

variable {env : Env} {initSupply : ℕ} {calls round : List BlockCall} {call : BlockCall}
  {u v s t : ChainState} {p : PaidBlock} {paid : List PaidBlock}

/-- The witness that the schedule has for an absolute slot. -/
def scheduledAt (v : ChainState) (slot : ℕ) : AccountName :=
  v.wso.currentShuffledWitnesses.getD (slot % v.wso.numScheduledWitnesses) .empty

/-- A block is produced by the witness of its slot, which is paid. -/
theorem Parts.producer {u' v' : ChainState} (h : Parts env call s p u' v' t)
    (hschedule : call.skip.witnessScheduleCheck = false) (hsame : SameClasses v s)
    (htime : InTime s.dgp) (hstamp : call.block.header.timestamp < 2 ^ 32) :
    p.state.dgp.currentWitness = scheduledAt v t.dgp.currentAslot ∧
      t.dgp.currentAslot = s.dgp.currentAslot + p.slot := by
  obtain ⟨hchecked, -⟩ := applyBlock_clock h.run
  obtain ⟨hadd, -⟩ := htime.aslot_add hchecked.later hstamp
  have haslot := applyBlock_aslot htime.time_ne h.run
  rw [hadd] at haslot
  obtain ⟨hname, -⟩ := Returns.pure (hchecked.scheduled hschedule).gets_bind.gets_bind
  have hupdate : SameProducer u' v' :=
    (updateWitnessSchedule_keeps sameProducer_turnFrame).rel u' () v' h.update
  have hclear : SameProducer v' p.state := (clearNullAccountBalance_keeps _
    (sameProducer_operationFrame env.toFcLib).toStakeFrame).rel v' () p.state h.clear
  have hproducer : p.state.dgp.currentWitness = call.block.witness :=
    (Eq.trans hclear hupdate).trans (applyBlockToSchedule_producer h.front)
  rw [hproducer, haslot, h.slot]
  refine ⟨?_, rfl⟩
  rw [hname, hsame.1, hadd]
  rfl

/-- The head before the update of the schedule has the number of the block. -/
theorem applyBlockToSchedule_number (hreaches : Reaches env initSupply calls s)
    (h : Returns (applyBlockToSchedule (call.context env) call.block) s () u) :
    u.dgp.headBlockNumber = calls.length + 1 := by
  obtain ⟨_, front, hfront, hback⟩ := h.bind
  obtain ⟨hprevious, -, hnum⟩ := applyBlockFront_head hfront
  have hrest : SameTip front u := by
    refine Keeps.rel (R := SameTip) ?_ _ _ _ hback
    exact .bind (createBlockSummary_keeps _ (fun _ _ => rfl) call.block) fun _ =>
      clearExpiredTransactions_keeps sameTip_scheduleFrame.toFrame.toQuietFrame
  have hkept : u.dgp.headBlockNumber = front.dgp.headBlockNumber :=
    congrArg (fun x => x.2.1) hrest
  rw [hkept, hnum, LastIrreversible.blockNum_eq hreaches hprevious]

/-- Before the end of a round, a block keeps the schedule and its classes. -/
theorem Parts.classes {u' v' : ChainState} (h : Parts env call s p u' v' t)
    (hreaches : Reaches env initSupply calls s)
    (hmiddle : (calls.length + 1) % wlsMaxWitnesses ≠ 0) :
    SameClasses s p.state ∧ SameClasses s t := by
  have hnum := applyBlockToSchedule_number hreaches h.front
  have hfront : SameClasses s u' := applyBlockToSchedule_classes.rel s () u' h.front
  have hidle : v' = u' := updateWitnessSchedule_idle (hnum ▸ hmiddle) h.update
  have hclear : SameClasses v' p.state := (clearNullAccountBalance_keeps _
    (sameClasses_operationFrame env.toFcLib).toStakeFrame).rel v' () p.state h.clear
  have hrest : SameClasses v' t := afterSchedule_classes.rel v' () t h.rest
  rw [hidle] at hclear hrest
  exact ⟨hfront.trans hclear, hfront.trans hrest⟩

/-- A round in progress: the schedule that it began with still holds. -/
structure InRound (env : Env) (initSupply : ℕ) (calls : List BlockCall) (v s : ChainState) : Prop where
  reaches : Reaches env initSupply calls s
  classes : SameClasses v s
  time : InTime s.dgp

/-- What the schedule promises for a round: every slot has a witness that exists. -/
def Manned (v : ChainState) : Prop :=
  ∀ slot, ∃ w ∈ v.witnesses.rows, w.owner = scheduledAt v slot

/-- What the blocks of a round pay: consecutive slots have their producers, and all but the last
one are paid under the schedule of the round. -/
structure PaysRound (v : ChainState) (start : ℕ) (paid : List PaidBlock) : Prop where
  producers : paid.map (·.state.dgp.currentWitness) =
    (List.range' start paid.length).map (scheduledAt v)
  settled : ∀ p ∈ paid.dropLast, SettledBy v p.state

/-- Every block of a round is paid once. -/
theorem runPaidBlocks_length (h : Returns (runPaidBlocks env round) s paid t) :
    paid.length = round.length := by
  induction round generalizing s paid with
  | nil =>
    obtain ⟨rfl, -⟩ := h.pure
    rfl
  | cons call rest ih =>
    obtain ⟨p, u, -, h⟩ := Returns.bind h
    obtain ⟨blocks, w, hrest, h⟩ := h.bind
    obtain ⟨rfl, rfl⟩ := h.pure
    exact congrArg Nat.succ (ih hrest)

/-- The blocks up to the end of a round are produced one slot after another. -/
theorem runPaidBlocks_pays (hmanned : Manned v) (h : Returns (runPaidBlocks env round) s paid t)
    (hs : InRound env initSupply calls v s)
    (hend : (calls.length + round.length) % wlsMaxWitnesses = 0)
    (hlength : round.length ≤ wlsMaxWitnesses)
    (hschedule : ∀ call ∈ round, call.skip.witnessScheduleCheck = false)
    (hstamps : ∀ call ∈ round, call.block.header.timestamp < 2 ^ 32)
    (hslots : ∀ p ∈ paid.tail, p.slot = 1) :
    ∃ start, PaysRound v start paid ∧ ∀ p ∈ paid.head?, start = s.dgp.currentAslot + p.slot := by
  induction round generalizing calls s paid with
  | nil =>
    obtain ⟨rfl, -⟩ := h.pure
    exact ⟨0, ⟨rfl, fun _ hp => absurd hp List.not_mem_nil⟩, fun _ hp => by cases hp⟩
  | cons call rest ih =>
    obtain ⟨p, u, hp, h⟩ := Returns.bind h
    obtain ⟨blocks, w, hrest, h⟩ := h.bind
    obtain ⟨rfl, rfl⟩ := h.pure
    obtain ⟨u', v', hparts⟩ := runPaid_parts hp
    have hstamp := hstamps call List.mem_cons_self
    obtain ⟨hproducer, haslot⟩ := hparts.producer (hschedule call List.mem_cons_self) hs.classes
      hs.time hstamp
    refine ⟨u.dgp.currentAslot, ?_, fun q hq => ?_⟩
    · cases rest with
      | nil =>
        obtain ⟨rfl, -⟩ := hrest.pure
        exact ⟨congrArg (· :: []) hproducer, fun _ hq => absurd hq List.not_mem_nil⟩
      | cons next rest =>
        have hmiddle : (calls.length + 1) % wlsMaxWitnesses ≠ 0 := by
          have hmax : wlsMaxWitnesses = 21 := rfl
          rw [hmax] at hend hlength ⊢
          simp only [List.length_cons] at hend hlength
          omega
        obtain ⟨hpaid, hafter⟩ := hparts.classes hs.reaches hmiddle
        have hreaches : Reaches env initSupply (calls ++ [call]) u :=
          reaches_append.mpr ⟨s, hs.reaches, hparts.run⟩
        have hround : InRound env initSupply (calls ++ [call]) v u :=
          ⟨hreaches, hs.classes.trans hafter,
            hs.time.step hstamp (blockNum_ne_zero hs.reaches hparts.run) hparts.run⟩
        have hcount : (calls ++ [call]).length + (next :: rest).length =
            calls.length + (call :: next :: rest).length := by
          rw [List.length_append, List.length_cons (a := call)]
          exact Nat.add_right_comm calls.length 1 _
        obtain ⟨start, hpays, hhead⟩ := ih hrest hround (hcount ▸ hend) (Nat.le_of_succ_le hlength)
          (fun c hc => hschedule c (List.mem_cons_of_mem _ hc))
          (fun c hc => hstamps c (List.mem_cons_of_mem _ hc))
          fun q hq => hslots q (List.mem_of_mem_tail hq)
        obtain ⟨q, later, rfl⟩ : ∃ q later, blocks = q :: later :=
          List.exists_cons_of_length_eq_add_one (runPaidBlocks_length hrest)
        have hstart : start = u.dgp.currentAslot + 1 := by
          rw [hhead q rfl, hslots q List.mem_cons_self]
        refine ⟨?_, fun r hr => ?_⟩
        · rw [List.map_cons, hpays.producers, hproducer, hstart, List.length_cons (a := p),
            List.range'_succ, List.map_cons]
        · rw [List.dropLast_cons_cons] at hr
          rcases List.mem_cons.mp hr with rfl | hr
          · exact (hs.classes.trans hpaid).settled (hproducer ▸ hmanned _)
          · exact hpays.settled r hr
    · have hsame : p = q := Option.some.inj hq
      rw [← hsame]
      exact haslot

/-- A full round: an update that schedules all witnesses, and as many blocks after it, up to the
next such update, of which each is in the slot after the one before. -/
structure FullRound (env : Env) (initSupply : ℕ) where
  calls : List BlockCall
  /-- The block that updates the schedule. -/
  opening : BlockCall
  blocks : List BlockCall
  /-- The state in which the schedule is updated. -/
  chosen : ChainState
  /-- The state with the schedule of the round. -/
  scheduled : ChainState
  first : ChainState
  last : ChainState
  paid : List PaidBlock
  runs : RunsUpdate env initSupply calls opening chosen
  updates : Returns updateWitnessSchedule4 chosen () scheduled
  opened : Returns (afterSchedule (opening.context env)) scheduled () first
  pays : Returns (runPaidBlocks env blocks) first paid last
  length : blocks.length = wlsMaxWitnesses
  full : scheduled.wso.numScheduledWitnesses = wlsMaxWitnesses
  fullAgain : last.wso.numScheduledWitnesses = wlsMaxWitnesses
  consecutive : ∀ p ∈ paid.tail, p.slot = 1
  checked : ∀ call ∈ blocks, call.skip.witnessScheduleCheck = false
  stamps : ∀ call ∈ calls ++ opening :: blocks, call.block.header.timestamp < 2 ^ 32

/-- The round pays its witnesses no more than their unweighted shares. -/
def FullRound.WithinShare {env : Env} {initSupply : ℕ} (r : FullRound env initSupply) : Prop :=
  (r.paid.map (·.funds.reward)).sum ≤ (r.paid.map (·.funds.share)).sum

/-- The condition for a round to be within its share. -/
structure FullRound.Fair {env : Env} {initSupply : ℕ} (r : FullRound env initSupply) : Prop where
  /-- The update in the last block leaves the weight of its producer and the factor as they
  were. -/
  settled : ∀ p ∈ r.paid.getLast?, SettledBy r.scheduled p.state
  /-- No producer of a heavier class is paid from a larger share. -/
  shares : HeavierSmaller (fun p : PaidBlock => unweightedShare p.state)
    (fun p => (producerWeight p.state : ℤ)) r.paid
  supply : ∀ p ∈ r.paid, 0 ≤ p.state.dgp.currentSupply

/-- Each payment of a round is what `process_funds` computes. -/
theorem runPaidBlocks_computed (hexact : env.SafeExact)
    (h : Returns (runPaidBlocks env round) s paid t) :
    ∀ p ∈ paid, ∃ cwit, Computed env.toFcLib p.state p.funds cwit := by
  induction round generalizing s paid with
  | nil =>
    obtain ⟨rfl, -⟩ := h.pure
    exact fun _ hp => absurd hp List.not_mem_nil
  | cons call rest ih =>
    obtain ⟨p, u, hp, h⟩ := Returns.bind h
    obtain ⟨blocks, w, hrest, h⟩ := h.bind
    obtain ⟨rfl, rfl⟩ := h.pure
    obtain ⟨u', v', hparts⟩ := runPaid_parts hp
    obtain ⟨w', hfunds⟩ := hparts.funds
    intro q hq
    rcases List.mem_cons.mp hq with rfl | hq
    · exact computeFunds_computed hexact hfunds
    · exact ih hrest q hq

section Schedule

variable {elected runners : List WitnessObject}

/-- There is a name for each scheduled witness. -/
theorem scheduledNames_length (h : Content u v elected runners) :
    (scheduledNames v).length = v.wso.numScheduledWitnesses := by
  rw [h.shuffled.length_eq, List.length_map, h.number]

/-- The witness of a slot is found by its rest modulo the schedule. -/
theorem scheduledAt_eq (h : Content u v elected runners)
    (hfull : v.wso.numScheduledWitnesses = wlsMaxWitnesses) (slot : ℕ) :
    scheduledAt v slot =
      (scheduledNames v).getD (slot % (scheduledNames v).length) .empty := by
  have hlt : slot % v.wso.numScheduledWitnesses < v.wso.numScheduledWitnesses :=
    Nat.mod_lt _ (by rw [hfull]; decide)
  unfold scheduledAt
  rw [scheduledNames_length h, List.getD_eq_getElem?_getD, List.getD_eq_getElem?_getD]
  unfold scheduledNames
  rw [List.getElem?_take_of_lt hlt]

/-- The witness of a slot is scheduled. -/
theorem scheduledAt_mem (h : Content u v elected runners)
    (hfull : v.wso.numScheduledWitnesses = wlsMaxWitnesses) (slot : ℕ) :
    scheduledAt v slot ∈ scheduledNames v := by
  have hlt : slot % (scheduledNames v).length < (scheduledNames v).length :=
    Nat.mod_lt _ (by rw [scheduledNames_length h, hfull]; decide)
  rw [scheduledAt_eq h hfull, List.getD_eq_getElem _ _ hlt]
  exact List.getElem_mem hlt

/-- A full schedule is manned. -/
theorem Content.manned (h : Content u v elected runners)
    (hfull : v.wso.numScheduledWitnesses = wlsMaxWitnesses) : Manned v := by
  intro slot
  obtain ⟨w, hw, howner, -⟩ := h.keyed _ (scheduledAt_mem h hfull slot)
  exact ⟨w, hw, howner⟩

end Schedule

/-- The blocks of a round begin where the schedule was updated. -/
theorem FullRound.inRound (r : FullRound env initSupply) :
    InRound env initSupply (r.calls ++ [r.opening]) r.scheduled r.first ∧
      (r.calls ++ [r.opening]).length % wlsMaxWitnesses = 0 := by
  obtain ⟨⟨u, hu, hchosen⟩, hnum⟩ := r.runs
  have hupdate : Returns updateWitnessSchedule r.chosen () r.scheduled := by
    change Returns (whenever (r.chosen.dgp.headBlockNumber % wlsMaxWitnesses = 0)
      updateWitnessSchedule4) r.chosen () r.scheduled
    rw [whenever, if_pos hnum]
    exact r.updates
  have hreaches : Reaches env initSupply (r.calls ++ [r.opening]) r.first :=
    reaches_append.mpr ⟨u, hu, applyBlock_of_parts hchosen hupdate r.opened⟩
  refine ⟨⟨hreaches, afterSchedule_classes.rel r.scheduled () r.first r.opened,
    Reaches.inTime (fun call hcall => r.stamps call ?_) hreaches⟩, ?_⟩
  · rcases List.mem_append.mp hcall with hcall | hcall
    · exact List.mem_append_left _ hcall
    · exact List.mem_append_right _ (List.mem_singleton.mp hcall ▸ List.mem_cons_self)
  · rw [List.length_append, List.length_singleton, ← applyBlockToSchedule_number hu hchosen]
    exact hnum

/-- The weights of the producers of a round add up to the factor of its schedule. -/
theorem weights_sum {elected runners : List WitnessObject} (h : Content u v elected runners)
    (hfull : v.wso.numScheduledWitnesses = wlsMaxWitnesses) {start : ℕ}
    (hpaid : PaysRound v start paid) (hlength : paid.length = wlsMaxWitnesses)
    (hsettled : ∀ p ∈ paid, SettledBy v p.state) :
    (paid.map fun p => (producerWeight p.state : ℤ)).sum = v.wso.witnessPayNormalizationFactor := by
  have hnames : paid.length = (scheduledNames v).length := by
    rw [scheduledNames_length h, hlength, hfull]
  have hproducers : paid.map (·.state.dgp.currentWitness) =
      (List.range' start (scheduledNames v).length).map fun i =>
        (scheduledNames v).getD (i % (scheduledNames v).length) .empty := by
    rw [hpaid.producers, hnames]
    exact List.map_congr_left fun i _ => scheduledAt_eq h hfull i
  have hweights : paid.map (fun p => producerWeight p.state) =
      (paid.map (·.state.dgp.currentWitness)).map (scheduledWeight v) := by
    rw [List.map_map]
    exact List.map_congr_left fun p hp => (hsettled p hp).1
  have hsum : (paid.map fun p => producerWeight p.state).sum =
      v.wso.witnessPayNormalizationFactor := by
    rw [hweights, hproducers, turn_sum, ← h.factor]
  rw [← hsum]
  push_cast [List.map_map]
  rfl

/-- Every scheduled witness has a positive weight. -/
theorem Written.weight_pos (h : Written u v) (hu : Regular u) {name : AccountName}
    (hname : name ∈ scheduledNames v) : 0 < scheduledWeight v name := by
  have hmem := (h.content hu).shuffled.mem_iff.mp hname
  obtain ⟨w, hw, rfl⟩ := List.mem_map.mp hmem
  rcases List.mem_append.mp hw with hw | hw
  · rw [(h.elected_weight hu hw).2]
    exact hu.top19.1
  · rw [(h.selected_weight hu hw).2]
    exact hu.timeshare.1

/-- What a witness is paid under the schedule of its round. -/
theorem Computed.reward_settled (hexact : env.SafeExact) {cwit : WitnessObject}
    (h : Computed env.toFcLib p.state p.funds cwit) (hsettled : SettledBy v p.state)
    (hsupply : 0 ≤ p.state.dgp.currentSupply)
    (hweight : 0 < scheduledWeight v p.state.dgp.currentWitness) :
    p.funds.reward = (unweightedShare p.state * wlsMaxWitnesses * producerWeight p.state) /
      v.wso.witnessPayNormalizationFactor := by
  have hpos : 0 < producerWeight p.state := hsettled.1 ▸ hweight
  have hnonneg : 0 ≤ p.funds.share * wlsMaxWitnesses * producerWeight p.state :=
    Int.mul_nonneg (Int.mul_nonneg (h.nonneg hsupply) (Int.natCast_nonneg _)) (Int.natCast_nonneg _)
  rw [h.reward_eq hexact hpos, Int.tdiv_eq_ediv_of_nonneg hnonneg, hsettled.2, h.share]

/-- Every round that is fair pays its witnesses no more than their unweighted shares. -/
theorem witness_pay_within_share (env : Env) (initSupply : ℕ) (hexact : env.SafeExact)
    (r : FullRound env initSupply) (hfair : r.Fair) : r.WithinShare := by
  have hregular := RunsUpdate.regular r.runs
  have hwritten := updateWitnessSchedule4_written hregular.ids r.updates
  have hcontent := hwritten.content hregular
  have hmanned := Content.manned hcontent r.full
  obtain ⟨hround, hnumber⟩ := r.inRound
  have hlength : r.paid.length = wlsMaxWitnesses := (runPaidBlocks_length r.pays).trans r.length
  obtain ⟨start, hpays, -⟩ := runPaidBlocks_pays hmanned r.pays hround
    (by rw [r.length, Nat.add_mod_right]; exact hnumber) r.length.le r.checked
    (fun call hcall => r.stamps call (List.mem_append_right _ (List.mem_cons_of_mem _ hcall)))
    r.consecutive
  have hsettled : ∀ p ∈ r.paid, SettledBy r.scheduled p.state := by
    intro p hp
    rw [← List.dropLast_append_getLast (List.ne_nil_of_mem hp)] at hp
    rcases List.mem_append.mp hp with hp | hp
    · exact hpays.settled p hp
    · rw [List.mem_singleton.mp hp]
      exact hfair.settled _ (List.getLast_mem_getLast? _)
  have hweights := weights_sum hcontent r.full hpays hlength hsettled
  have hfactor : (0 : ℤ) < r.scheduled.wso.witnessPayNormalizationFactor :=
    Int.natCast_pos.mpr hcontent.positive
  have hscheduled : ∀ p ∈ r.paid,
      p.state.dgp.currentWitness ∈ scheduledNames r.scheduled := by
    intro p hp
    have hmem : p.state.dgp.currentWitness ∈ r.paid.map (·.state.dgp.currentWitness) :=
      List.mem_map_of_mem hp
    rw [hpays.producers] at hmem
    obtain ⟨slot, -, hslot⟩ := List.mem_map.mp hmem
    rw [← hslot]
    exact scheduledAt_mem hcontent r.full slot
  have hcomputed := runPaidBlocks_computed hexact r.pays
  have hrewards : r.paid.map (·.funds.reward) = r.paid.map fun p =>
      (unweightedShare p.state * r.paid.length * producerWeight p.state) /
        r.scheduled.wso.witnessPayNormalizationFactor := by
    refine List.map_congr_left fun p hp => ?_
    obtain ⟨cwit, hcwit⟩ := hcomputed p hp
    rw [hlength]
    exact Computed.reward_settled hexact hcwit (hsettled p hp) (hfair.supply p hp)
      (Written.weight_pos hwritten hregular (hscheduled p hp))
  have hshares : r.paid.map (·.funds.share) = r.paid.map fun p => unweightedShare p.state := by
    refine List.map_congr_left fun p hp => ?_
    obtain ⟨cwit, hcwit⟩ := hcomputed p hp
    exact hcwit.share
  unfold FullRound.WithinShare
  rw [hrewards, hshares]
  exact paid_sum_le hfair.shares hweights hfactor

end Rounds

section Samples

/-- The numbers of the initial miners, in the order in which they produce after the first update
of the schedule. -/
def secondOrder : List ℕ :=
  [8, 18, 2, 4, 20, 0, 6, 16, 12, 1, 14, 13, 11, 15, 17, 10, 9, 19, 7, 3, 5]

/-- The second round of a chain, whose first block carries the given transactions. -/
def secondRound (transactions : List SignedTransaction) : ℕ → SignedBlock
  | 0 => sampleBlock ((sampleChain [] 20).id sampleEnv) (wlsGenesisTime + 22 * wlsBlockInterval)
      (initMinerName (secondOrder.getD 0 0)) transactions
  | n + 1 => sampleBlock ((secondRound transactions n).id sampleEnv)
      (wlsGenesisTime + (n + 23) * wlsBlockInterval) (initMinerName (secondOrder.getD (n + 1) 0)) []

def secondCalls (transactions : List SignedTransaction) : List BlockCall :=
  (List.range wlsMaxWitnesses).map fun n => sampleCall (secondRound transactions n)

/-- A chain up to the end of its second round: the states before and after the first update, and
the payments of the second round. -/
def twoRounds (transactions : List SignedTransaction) :
    Chain (ChainState × ChainState × List PaidBlock) := do
  runBlocks sampleEnv (firstCalls [])
  applyBlockToSchedule ((updateCall []).context sampleEnv) (updateCall []).block
  let chosen ← gets id
  updateWitnessSchedule4
  let scheduled ← gets id
  afterSchedule ((updateCall []).context sampleEnv)
  let paid ← runPaidBlocks sampleEnv (secondCalls transactions)
  pure (chosen, scheduled, paid)

/-- The two updates are due and schedule all witnesses, and no slot is missed. -/
def isFull (chosen scheduled : ChainState) (paid : List PaidBlock) (last : ChainState) : Bool :=
  chosen.dgp.headBlockNumber % wlsMaxWitnesses = 0 &&
    scheduled.wso.numScheduledWitnesses = wlsMaxWitnesses &&
    last.wso.numScheduledWitnesses = wlsMaxWitnesses && paid.tail.all fun p => p.slot = 1

/-- The calls of the second round check the schedule and have 32-bit timestamps. -/
theorem secondCalls_sampled {transactions : List SignedTransaction} {call : BlockCall}
    (h : call ∈ secondCalls transactions) :
    call.skip.witnessScheduleCheck = false ∧ call.block.header.timestamp < 2 ^ 32 := by
  obtain ⟨n, hn, rfl⟩ := List.mem_map.mp h
  refine ⟨rfl, ?_⟩
  have hlt : n < 21 := List.mem_range.mp hn
  have hstamp : (secondRound transactions n).header.timestamp =
      wlsGenesisTime + (n + 22) * wlsBlockInterval := by
    cases n <;> rfl
  change (secondRound transactions n).header.timestamp < 2 ^ 32
  rw [hstamp]
  have hbound : ∀ k : ℕ, k < 21 → wlsGenesisTime + (k + 22) * wlsBlockInterval < 2 ^ 32 := by
    decide
  exact hbound n hlt

/-- The calls of the first round have 32-bit timestamps. -/
theorem firstCalls_stamps : ∀ call ∈ firstCalls [] ++ [updateCall []],
    call.block.header.timestamp < 2 ^ 32 := by
  decide

/-- The second round of a chain as a full round. -/
theorem fullRound_twoRounds {transactions : List SignedTransaction} {initSupply : ℕ}
    {check : ChainState → List PaidBlock → Bool}
    (h : endsIn (twoRounds transactions) (initGenesis sampleEnv initSupply) (fun x last =>
      isFull x.1 x.2.1 x.2.2 last && check x.2.1 x.2.2) = true) :
    ∃ r : FullRound sampleEnv initSupply, check r.scheduled r.paid = true := by
  obtain ⟨x, last, hrun, hchecks⟩ := returns_of_endsIn h
  obtain ⟨_, u, hu, hrun⟩ := hrun.bind
  obtain ⟨_, chosen, hchosen, hrun⟩ := hrun.bind
  obtain ⟨_, scheduled, hscheduled, hrun⟩ := hrun.gets_bind.bind
  obtain ⟨_, first, hfirst, hrun⟩ := hrun.gets_bind.bind
  obtain ⟨paid, s, hpaid, hrun⟩ := hrun.bind
  obtain ⟨rfl, rfl⟩ := hrun.pure
  obtain ⟨hfull, hcheck⟩ := (Bool.and_eq_true _ _).mp hchecks
  unfold isFull at hfull
  simp only [Bool.and_eq_true, decide_eq_true_eq, List.all_eq_true] at hfull
  obtain ⟨⟨⟨hnum, hall⟩, hlast⟩, hslots⟩ := hfull
  exact ⟨{
    calls := firstCalls [], opening := updateCall [], blocks := secondCalls transactions
    chosen := chosen, scheduled := scheduled, first := first, last := last, paid := paid
    runs := ⟨⟨u, hu, hchosen⟩, hnum⟩
    updates := hscheduled, opened := hfirst, pays := hpaid
    length := by simp [secondCalls]
    full := hall, fullAgain := hlast, consecutive := hslots
    checked := fun call hcall => (secondCalls_sampled hcall).1
    stamps := fun call hcall => by
      rcases List.mem_append.mp hcall with hcall | hcall
      · exact firstCalls_stamps call (List.mem_append_left _ hcall)
      · rcases List.mem_cons.mp hcall with rfl | hcall
        · exact firstCalls_stamps _ (List.mem_append_right _ List.mem_cons_self)
        · exact (secondCalls_sampled hcall).2 }, hcheck⟩

/-- A round is fair, from the shares and weights of its blocks. -/
def isFair (scheduled : ChainState) (paid : List PaidBlock) : Bool :=
  let pays := paid.map fun p => (unweightedShare p.state, producerWeight p.state)
  (pays.all fun x => pays.all fun y => !(x.2 < y.2) || y.1 ≤ x.1) &&
    (paid.all fun p => 0 ≤ p.state.dgp.currentSupply) &&
    (paid.getLast?.all fun p =>
      producerWeight p.state = scheduledWeight scheduled p.state.dgp.currentWitness &&
        p.state.wso.witnessPayNormalizationFactor = scheduled.wso.witnessPayNormalizationFactor)

/-- The test of a round finds its payments fair. -/
theorem fair_of_isFair {env : Env} {initSupply : ℕ} {r : FullRound env initSupply}
    (h : isFair r.scheduled r.paid = true) : r.Fair := by
  unfold isFair at h
  simp only [Bool.and_eq_true, List.all_eq_true, Bool.or_eq_true, Bool.not_eq_true',
    decide_eq_true_eq, decide_eq_false_iff_not, List.forall_mem_map, Option.all_eq_true] at h
  obtain ⟨⟨hshares, hsupply⟩, hsettled⟩ := h
  refine ⟨fun p hp => hsettled p hp, fun p hp q hq hlt => ?_, hsupply⟩
  have hweights : producerWeight p.state < producerWeight q.state := Int.ofNat_lt.mp hlt
  exact (hshares p hp q hq).resolve_left fun hnot => hnot hweights

/-- The second round of a chain of empty blocks. -/
theorem witness_pay_within_share_emptyBlocks :
    ∃ r : FullRound sampleEnv 1000000000, r.Fair ∧ r.WithinShare := by
  have hends : endsIn (twoRounds []) (initGenesis sampleEnv 1000000000) (fun x last =>
      isFull x.1 x.2.1 x.2.2 last && isFair x.2.1 x.2.2) = true := by
    decide +kernel
  obtain ⟨r, hfair⟩ := fullRound_twoRounds hends
  exact ⟨r, fair_of_isFair hfair,
    witness_pay_within_share sampleEnv 1000000000 sampleEnv_safeExact r (fair_of_isFair hfair)⟩

/-- Votes that make the producer of the last block of the round the one that shares time. -/
def voteOthers : SignedTransaction where
  refBlockNum := 0
  refBlockPrefix := 0
  expiration := wlsGenesisTime + 120
  operations :=
    .transferToVesting { source := whaleshareAccount, target := .empty, amount := wls 500 } ::
      [6, 7, 8, 9].map fun i =>
        .accountWitnessVote
          { account := whaleshareAccount, witness := initMinerName i, approve := true }
  signatures := [⟨0⟩]

/-- The round pays its witnesses more than their unweighted shares. -/
def paysMore (_ : ChainState) (paid : List PaidBlock) : Bool :=
  (paid.map (·.funds.share)).sum < (paid.map (·.funds.reward)).sum

/-- If the last block of a round moves its producer to the other class, the round pays more than
its shares. -/
theorem not_within_share_voteOthers :
    ¬ ∀ (env : Env) (initSupply : ℕ), env.SafeExact → ∀ r : FullRound env initSupply,
      r.WithinShare := by
  intro hall
  have hends : endsIn (twoRounds [voteOthers]) (initGenesis sampleEnv 1000000000) (fun x last =>
      isFull x.1 x.2.1 x.2.2 last && paysMore x.2.1 x.2.2) = true := by
    decide +kernel
  obtain ⟨r, hmore⟩ := fullRound_twoRounds hends
  have hwithin : r.WithinShare := hall sampleEnv 1000000000 sampleEnv_safeExact r
  have hless : (r.paid.map (·.funds.share)).sum < (r.paid.map (·.funds.reward)).sum :=
    of_decide_eq_true hmore
  exact absurd hwithin (not_le.mpr hless)

end Samples

end Whaleshares.RoundPay
