import Mathlib
import Whaleshares.VirtualTime

/-!
# The virtual clock

The virtual time, the position of a witness on its lap and the time it is due are unsigned
128-bit values. No witness is due before the current virtual time, and at the speed of its
votes no witness passes the end of its lap before it is due. So the differences, products and
sums of `adjust_witness_vote` are exact in every state, also in the middle of a block, and the
virtual time goes back only with the reset.
-/

namespace Whaleshares.VirtualClock

open Config Fc Assets Protocol Objects Program Database WitnessVotes Vesting Rewards Evaluators
  ApplyBlock WitnessSchedule Genesis ChainRun Footprint Ledger ScheduleSafety VirtualTime

section Arithmetic

/-- A lap that is run at the speed of the votes stays within its length. -/
theorem mul_lap_le {votes : ℤ} {length lap : ℕ}
    (h : uint128Div length (uint128 (votes + 1)) = .ok lap) : uint128 votes * lap ≤ length := by
  have hspeed : uint128 (votes + 1) ≠ 0 → uint128 (votes + 1) = uint128 votes + 1 := by
    simp only [uint128, uint128Bound]
    omega
  unfold uint128Div at h
  by_cases hzero : uint128 (votes + 1) = 0
  · rw [if_pos hzero] at h
    cases h
  · rw [if_neg hzero] at h
    rw [← Except.ok.inj h, hspeed hzero]
    calc uint128 votes * (length / (uint128 votes + 1))
        ≤ (uint128 votes + 1) * (length / (uint128 votes + 1)) :=
          Nat.mul_le_mul_right _ (Nat.le_succ _)
      _ ≤ length := Nat.mul_div_le _ _

/-- A difference within the lap does not wrap. -/
theorem uint128Sub_exact {a b : ℕ} (hba : b ≤ a) (ha : a ≤ virtualScheduleLapLength2) :
    uint128Sub a b = a - b := by
  simp only [uint128Sub, uint128Bound, virtualScheduleLapLength2] at ha ⊢
  omega

/-- A sum within the lap does not wrap. -/
theorem uint128Add_exact {a b : ℕ} (h : a + b ≤ virtualScheduleLapLength2) :
    uint128Add a b = a + b := by
  simp only [uint128Add, uint128Bound, virtualScheduleLapLength2] at h ⊢
  omega

/-- A product within the lap does not wrap. -/
theorem uint128Mul_exact {a b : ℕ} (h : a * b ≤ virtualScheduleLapLength2) :
    uint128Mul a b = a * b :=
  Nat.mod_eq_of_lt (lt_of_le_of_lt h lapLength2_lt)

/-- The test after a sum finds its overflow. -/
theorem uint128Add_overflows {a b : ℕ} (ha : a ≤ virtualScheduleLapLength2)
    (hb : b ≤ virtualScheduleLapLength2) :
    uint128Add a b < a ↔ virtualScheduleLapLength2 < a + b := by
  simp only [uint128Add, uint128Bound, virtualScheduleLapLength2] at ha hb ⊢
  omega

/-- Votes within the lap are at most their 128-bit value. -/
theorem le_uint128 {votes : ℤ} (h : votes ≤ (virtualScheduleLapLength2 : ℤ)) :
    votes ≤ (uint128 votes : ℤ) := by
  simp only [uint128, uint128Bound, virtualScheduleLapLength2] at h ⊢
  omega

end Arithmetic

section Witness

/-- A witness that is due no earlier than the current virtual time, and that has not passed
the end of its lap when it is due. -/
structure Timely (time : ℕ) (w : WitnessObject) : Prop where
  updated : w.virtualLastUpdate ≤ time
  due : time ≤ w.virtualScheduledTime
  scheduled : w.virtualScheduledTime ≤ virtualScheduleLapLength2
  lap : w.virtualPosition + uint128 w.votes * (w.virtualScheduledTime - w.virtualLastUpdate) ≤
    virtualScheduleLapLength2

variable {fc : FcLib} {time : ℕ} {w v : WitnessObject}

/-- The position at a time before the witness is due. -/
theorem Timely.position_le (h : Timely time w) :
    w.virtualPosition + uint128 w.votes * (time - w.virtualLastUpdate) ≤
      virtualScheduleLapLength2 := by
  have hdistance := Nat.mul_le_mul_left (uint128 w.votes)
    (Nat.sub_le_sub_right h.due w.virtualLastUpdate)
  have hlap := h.lap
  omega

/-- A witness that is not due yet stays timely at a later time. -/
theorem Timely.later (h : Timely time w) {later : ℕ} (hlater : time ≤ later)
    (hdue : later ≤ w.virtualScheduledTime) : Timely later w :=
  ⟨h.updated.trans hlater, hdue, h.scheduled, h.lap⟩

/-- Whether a witness is timely depends on what runs of it. -/
theorem Timely.of_running (h : Timely time w) (hsame : running v = running w) : Timely time v := by
  simp only [running, Prod.mk.injEq] at hsame
  obtain ⟨-, -, hvotes, hupdate, hposition, hscheduled⟩ := hsame
  refine ⟨by rw [hupdate]; exact h.updated, by rw [hscheduled]; exact h.due,
    by rw [hscheduled]; exact h.scheduled, ?_⟩
  rw [hvotes, hupdate, hposition, hscheduled]
  exact h.lap

/-- A newcomer, whose due time is the greatest value, is in time at every time. -/
theorem Newcomer.timely (h : Newcomer w) (htime : time ≤ virtualScheduleLapLength2) :
    Timely time w := by
  have hspeed : uint128 w.votes = 0 := by
    rw [h.votes]
    rfl
  refine ⟨by rw [h.virtualLastUpdate]; exact Nat.zero_le _,
    by rw [h.virtualScheduledTime]; exact htime, h.virtualScheduledTime.le, ?_⟩
  rw [h.virtualPosition, hspeed, Nat.zero_mul]
  exact Nat.zero_le _

/-- The reset starts the laps at time zero. -/
theorem Rests.timely (h : Rests w) : Timely 0 w := by
  refine ⟨h.virtualLastUpdate.le, Nat.zero_le _, uint128Div_le h.scheduled, ?_⟩
  rw [h.virtualPosition, h.virtualLastUpdate, Nat.zero_add, Nat.sub_zero]
  exact mul_lap_le h.scheduled

/-- A new lap from the current time on, at the speed of the votes. -/
theorem timely_of_lap {length lap : ℕ} (hupdate : w.virtualLastUpdate = time)
    (hposition : w.virtualPosition + length ≤ virtualScheduleLapLength2)
    (hlap : uint128Div length (uint128 (w.votes + 1)) = .ok lap)
    (hdue : time ≤ w.virtualScheduledTime) (hscheduled : w.virtualScheduledTime ≤ time + lap)
    (hmax : w.virtualScheduledTime ≤ virtualScheduleLapLength2) : Timely time w := by
  refine ⟨hupdate.le, hdue, hmax, ?_⟩
  have hrun : uint128 w.votes * (w.virtualScheduledTime - w.virtualLastUpdate) ≤
      uint128 w.votes * lap := by
    refine Nat.mul_le_mul_left _ ?_
    omega
  have hwhole := mul_lap_le hlap
  omega

/-- A change of votes moves the position by the speed of the old votes. -/
theorem changeWitnessVote_position {total delta : ℤ} (h : Timely time w)
    (htime : time ≤ virtualScheduleLapLength2)
    (hv : changeWitnessVote fc time total delta w = .ok v) :
    v.virtualPosition = w.virtualPosition + uint128 w.votes * (time - w.virtualLastUpdate) := by
  obtain ⟨votes, -, hv⟩ := bind_eq_ok hv
  obtain ⟨-, -, hv⟩ := bind_eq_ok hv
  obtain ⟨lap, -, hv⟩ := bind_eq_ok hv
  have hposition := h.position_le
  rw [← Except.ok.inj hv]
  change uint128Add w.virtualPosition (uint128Mul (uint128 w.votes)
    (uint128Sub time w.virtualLastUpdate)) = _
  rw [uint128Sub_exact h.updated htime, uint128Mul_exact (by omega), uint128Add_exact hposition]

/-- A change of votes starts a lap for what is left of the old one. -/
theorem changeWitnessVote_timely {total delta : ℤ} (h : Timely time w)
    (htime : time ≤ virtualScheduleLapLength2)
    (hv : changeWitnessVote fc time total delta w = .ok v) : Timely time v := by
  have hposition := changeWitnessVote_position h htime hv
  have hbound := h.position_le
  rw [← hposition] at hbound
  obtain ⟨votes, hvotes, hv⟩ := bind_eq_ok hv
  obtain ⟨-, -, hv⟩ := bind_eq_ok hv
  obtain ⟨lap, hlap, hv⟩ := bind_eq_ok hv
  have hsame := Except.ok.inj hv
  have hnew : uint128Add w.virtualPosition (uint128Mul (uint128 w.votes)
      (uint128Sub time w.virtualLastUpdate)) = v.virtualPosition := by
    rw [← hsame]
  rw [hnew, uint128Sub_exact hbound le_rfl] at hlap
  have hle := uint128Div_le hlap
  have hoverflow := uint128Add_overflows htime (hle.trans (Nat.sub_le _ _))
  have hscheduled : v.virtualScheduledTime = if uint128Add time lap < time
      then virtualScheduleLapLength2 else uint128Add time lap := by
    rw [← hsame]
  have hvotes' : v.votes = votes := by
    rw [← hsame]
  rw [← hvotes'] at hlap
  refine timely_of_lap (by rw [← hsame]) (by omega) hlap ?_ ?_ ?_ <;> rw [hscheduled] <;>
    by_cases hover : uint128Add time lap < time
  · rw [if_pos hover]
    exact htime
  · rw [if_neg hover]
    exact Nat.not_lt.mp hover
  · rw [if_pos hover]
    exact (hoverflow.mp hover).le
  · rw [if_neg hover, uint128Add_exact (Nat.not_lt.mp fun hlt => hover (hoverflow.mpr hlt))]
  · rw [if_pos hover]
  · rw [if_neg hover, uint128Add_exact (Nat.not_lt.mp fun hlt => hover (hoverflow.mpr hlt))]
    exact Nat.not_lt.mp fun hlt => hover (hoverflow.mpr hlt)

/-- Votes that the change accepts are within the lap. -/
theorem changeWitnessVote_votes (hexact : fc.SafeExact) {total delta : ℤ}
    (hv : changeWitnessVote fc time total delta w = .ok v) :
    v.votes ≤ (virtualScheduleLapLength2 : ℤ) := by
  obtain ⟨votes, hvotes, hv⟩ := bind_eq_ok hv
  obtain ⟨-, -, hv⟩ := bind_eq_ok hv
  obtain ⟨lap, -, hv⟩ := bind_eq_ok hv
  have hrange := (hexact.checked hvotes).2.2
  rw [← Except.ok.inj hv]
  simp only [virtualScheduleLapLength2]
  omega

end Witness

section State

/-- Every witness of a state is in time, and its votes are a 128-bit value. -/
structure Clocked (s : ChainState) : Prop where
  time : s.wso.currentVirtualTime ≤ virtualScheduleLapLength2
  witnesses : ∀ w ∈ s.witnesses.rows, Timely s.wso.currentVirtualTime w
  votes : ∀ w ∈ s.witnesses.rows, w.votes ≤ (virtualScheduleLapLength2 : ℤ)

/-- One change that operations, headers and payments make to the witnesses, or a change of
the rest of the state. -/
inductive Change (fc : FcLib) : ChainState → ChainState → Prop
  | others (s t : ChainState) : t.witnesses = s.witnesses →
      t.wso.currentVirtualTime = s.wso.currentVirtualTime → Change fc s t
  | running (s : ChainState) (x : Table WitnessObject) :
      x.rows.map running = s.witnesses.rows.map running → Change fc s { s with witnesses := x }
  | newcomer (s : ChainState) (x : Table WitnessObject) (w : WitnessObject) :
      x.rows = s.witnesses.rows ++ [w] → Newcomer w → Change fc s { s with witnesses := x }
  /-- `adjust_witness_vote` -/
  | tally (s : ChainState) (x : Table WitnessObject) (p : WitnessObject → Bool) (delta : ℤ) :
      s.witnesses.modify unknownKey p
        (changeWitnessVote fc s.wso.currentVirtualTime s.dgp.totalVestingShares delta) = .ok x →
      Change fc s { s with witnesses := x }

/-- A state leads to another in any number of changes. -/
def Passes (fc : FcLib) : ChainState → ChainState → Prop := Relation.ReflTransGen (Change fc)

variable {fc : FcLib} {s t : ChainState}

instance : IsPreorder ChainState (Passes fc) where
  refl _ := Relation.ReflTransGen.refl
  trans _ _ _ := Relation.ReflTransGen.trans

/-- A change of the list passes the clock. -/
theorem Change.passes (h : Change fc s t) : Passes fc s t := Relation.ReflTransGen.single h

/-- A change of the list keeps the current virtual time. -/
theorem Change.time (h : Change fc s t) :
    t.wso.currentVirtualTime = s.wso.currentVirtualTime := by
  cases h with
  | others t hwitnesses htime => exact htime
  | running x hx => rfl
  | newcomer x w hx hw => rfl
  | tally x p delta hx => rfl

/-- Whether a state is clocked depends on what runs of its witnesses. -/
theorem Clocked.of_running (h : Clocked s) {x : Table WitnessObject}
    (hx : x.rows.map Footprint.running = s.witnesses.rows.map Footprint.running) :
    Clocked { s with witnesses := x } := by
  have hold : ∀ v ∈ x.rows, ∃ w ∈ s.witnesses.rows, Footprint.running v = Footprint.running w := by
    intro v hv
    have hmem : Footprint.running v ∈ s.witnesses.rows.map Footprint.running := by
      rw [← hx]
      exact List.mem_map_of_mem hv
    obtain ⟨w, hw, hsame⟩ := List.mem_map.mp hmem
    exact ⟨w, hw, hsame.symm⟩
  refine ⟨h.time, fun v hv => ?_, fun v hv => ?_⟩
  · obtain ⟨w, hw, hsame⟩ := hold v hv
    exact (h.witnesses w hw).of_running hsame
  · obtain ⟨w, hw, hsame⟩ := hold v hv
    have hvotes : v.votes = w.votes := congrArg (fun r => r.2.2.1) hsame
    rw [hvotes]
    exact h.votes w hw

/-- No change takes a witness out of time. -/
theorem Change.clocked (hexact : fc.SafeExact) (h : Change fc s t) (hs : Clocked s) :
    Clocked t := by
  cases h with
  | others t hwitnesses htime =>
    refine ⟨by rw [htime]; exact hs.time, fun w hw => ?_, fun w hw => ?_⟩
    · rw [hwitnesses] at hw
      rw [htime]
      exact hs.witnesses w hw
    · rw [hwitnesses] at hw
      exact hs.votes w hw
  | running x hx => exact hs.of_running hx
  | newcomer x w hx hnew =>
    refine ⟨hs.time, fun v hv => ?_, fun v hv => ?_⟩ <;>
      rw [show v ∈ x.rows ↔ v ∈ s.witnesses.rows ∨ v = w by rw [hx]; simp] at hv
    · rcases hv with hv | rfl
      · exact hs.witnesses v hv
      · exact Newcomer.timely hnew hs.time
    · rcases hv with hv | rfl
      · exact hs.votes v hv
      · rw [hnew.votes]
        exact Int.natCast_nonneg _
  | tally x p delta hx =>
    refine ⟨hs.time, ?_, ?_⟩
    · exact Table.modify_forall hx hs.witnesses fun w v hw hv =>
        changeWitnessVote_timely hw hs.time hv
    · exact Table.modify_forall hx hs.votes fun w v _ hv => changeWitnessVote_votes hexact hv

/-- What passes the clock keeps a state clocked. -/
theorem Passes.clocked (hexact : fc.SafeExact) (h : Passes fc s t) (hs : Clocked s) :
    Clocked t := by
  induction h with
  | refl => exact hs
  | tail _ hchange ih => exact hchange.clocked hexact ih

/-- What passes the clock keeps the current virtual time. -/
theorem Passes.time (h : Passes fc s t) :
    t.wso.currentVirtualTime = s.wso.currentVirtualTime := by
  induction h with
  | refl => rfl
  | tail _ hchange ih => exact hchange.time.trans ih

/-- Where the witnesses and the schedule stay, the clock passes. -/
theorem passes_others (hwitnesses : t.witnesses = s.witnesses) (hwso : t.wso = s.wso) :
    Passes fc s t :=
  (Change.others s t hwitnesses (by rw [hwso])).passes

/-- The quiet routines pass the clock. -/
theorem passes_quietFrame : QuietFrame (Passes fc) where
  quietAccounts _ _ _ _ := passes_others rfl rfl
  comments _ _ := passes_others rfl rfl
  commentVotes _ _ := passes_others rfl rfl
  withdrawVestingRoutes _ _ := passes_others rfl rfl
  transactions _ _ := passes_others rfl rfl
  quietWitnesses s x hx _ :=
    (Change.running s x (map_eq_of_map_eq (fun r => r.2.1) (fun _ => rfl) hx)).passes

/-- The payment of rewards passes the clock. -/
theorem passes_rewardFrame : RewardFrame (Passes fc) where
  toQuietFrame := passes_quietFrame
  rewardAccounts _ _ _ _ := passes_others rfl rfl
  rewardFunds _ _ := passes_others rfl rfl
  rewardTotals _ _ _ _ := passes_others rfl rfl

/-- Operations pass the clock. -/
theorem passes_operationFrame : OperationFrame fc (Passes fc) where
  toRewardFrame := passes_rewardFrame
  accountAuthorities _ _ := passes_others rfl rfl
  ballots _ _ _ := passes_others rfl rfl
  witnessVotes _ _ := passes_others rfl rfl
  tallies s x p delta hx := (Change.tally s x p delta hx).passes
  newcomer s x w hx _ _ hw _ := (Change.newcomer s x w hx hw).passes
  anyAccounts _ _ := passes_others rfl rfl
  totals _ _ _ := passes_others rfl rfl

/-- The routines before the schedule pass the clock. -/
theorem passes_headerFrame : HeaderFrame (Passes fc) where
  toQuietFrame := passes_quietFrame
  header _ _ _ := passes_others rfl rfl
  signed s x hx _ := (Change.running s x (map_eq_of_map_eq Prod.fst (fun _ => rfl) hx)).passes
  blockSummaries _ _ := passes_others rfl rfl

/-- The genesis state is clocked. -/
theorem clocked_initGenesis (env : Env) (initSupply : ℕ) : Clocked (initGenesis env initSupply) := by
  refine ⟨Nat.zero_le _, fun w hw => ?_, fun w hw => ?_⟩
  · obtain ⟨i, -, rfl⟩ := List.mem_map.mp hw
    exact Newcomer.timely ⟨rfl, rfl, rfl, rfl, rfl⟩ (Nat.zero_le _)
  · obtain ⟨i, -, rfl⟩ := List.mem_map.mp hw
    exact Int.natCast_nonneg _

/-- What a block does before the update of the schedule. -/
theorem applyBlockToSchedule_passes (ctx : Context) (b : SignedBlock) :
    Keeps (Passes ctx.env.toFcLib) (applyBlockToSchedule ctx b) :=
  applyBlockToSchedule_keeps passes_headerFrame passes_operationFrame

end State

section Round

variable {s t u : ChainState} {w : WitnessObject} {time : ℕ}

/-- The order by scheduled time puts the earlier time first. -/
theorem byScheduleTime_le {a b : WitnessObject} (h : WitnessObject.byScheduleTime a b = true) :
    a.virtualScheduledTime ≤ b.virtualScheduledTime := by
  simp only [WitnessObject.byScheduleTime, Bool.or_eq_true, Bool.and_eq_true,
    decide_eq_true_eq] at h
  omega

/-- The witnesses in the order of `by_schedule_time`. -/
theorem scheduleOrder_pairwise (table : Table WitnessObject) :
    (table.select (fun _ => true) WitnessObject.byScheduleTime).Pairwise fun a b =>
      a.virtualScheduledTime ≤ b.virtualScheduledTime := by
  have htotal : Std.Total fun a b : WitnessObject => WitnessObject.byScheduleTime a b = true := by
    constructor
    intro a b
    simp only [WitnessObject.byScheduleTime, Bool.or_eq_true, Bool.and_eq_true,
      decide_eq_true_eq]
    omega
  have htrans : IsTrans WitnessObject fun a b => WitnessObject.byScheduleTime a b = true := by
    constructor
    intro a b c hab hbc
    simp only [WitnessObject.byScheduleTime, Bool.or_eq_true, Bool.and_eq_true,
      decide_eq_true_eq] at hab hbc ⊢
    omega
  exact (List.pairwise_insertionSort _ _).imp byScheduleTime_le

/-- The time after the visited witnesses lies between the current time and the times the
others are due. -/
theorem newVirtualTime_bounds (hs : Clocked s) :
    s.wso.currentVirtualTime ≤ (selectWitnesses s).runners.newVirtualTime ∧
    (selectWitnesses s).runners.newVirtualTime ≤ virtualScheduleLapLength2 ∧
    ∀ w ∈ s.witnesses.rows, w ∉ (selectWitnesses s).runners.processed →
      (selectWitnesses s).runners.newVirtualTime ≤ w.virtualScheduledTime := by
  have htime : (selectWitnesses s).runners.newVirtualTime =
      ((selectWitnesses s).runners.processed.getLast?.map (·.virtualScheduledTime)).getD
        s.wso.currentVirtualTime := runWitnesses_time _ _ _ _
  have horder := scheduleOrder_pairwise s.witnesses
  obtain ⟨later, hlater⟩ : (selectWitnesses s).runners.processed <+:
      s.witnesses.select (fun _ => true) WitnessObject.byScheduleTime :=
    runWitnesses_processed _ _ _ _
  have hperm := select_all_perm s.witnesses WitnessObject.byScheduleTime
  rw [← hlater] at horder hperm
  cases hlast : (selectWitnesses s).runners.processed.getLast? with
  | none =>
    rw [hlast] at htime
    rw [htime]
    exact ⟨le_rfl, hs.time, fun w hw _ => (hs.witnesses w hw).due⟩
  | some last =>
    rw [hlast] at htime
    have hmem := List.mem_of_getLast? hlast
    have htimely := hs.witnesses last (selectWitnesses_processed hmem)
    rw [htime]
    refine ⟨htimely.due, htimely.scheduled, fun w hw hnot => ?_⟩
    have hw' : w ∈ later := (List.mem_append.mp (hperm.mem_iff.mpr hw)).resolve_left hnot
    exact (List.pairwise_append.mp horder).2.2 last hmem w hw'

/-- The states have the same virtual time, and their witnesses the same laps. -/
def SameLaps (s t : ChainState) : Prop :=
  t.wso.currentVirtualTime = s.wso.currentVirtualTime ∧
    t.witnesses.rows.map running = s.witnesses.rows.map running

instance : IsPreorder ChainState SameLaps where
  refl _ := ⟨rfl, rfl⟩
  trans _ _ _ hst htu := ⟨htu.1.trans hst.1, htu.2.trans hst.2⟩

/-- Marking the scheduled witnesses keeps their laps. -/
theorem markScheduled_laps (schedule : ScheduleType) (witnesses : List WitnessObject) :
    Keeps SameLaps (markScheduled schedule witnesses) :=
  markScheduled_runs (fun _ _ hx => ⟨rfl, hx⟩) schedule witnesses

/-- Each witness after the step has the lap of one before it. -/
theorem SameLaps.mem (h : SameLaps s t) {v : WitnessObject} (hv : v ∈ t.witnesses.rows) :
    ∃ w ∈ s.witnesses.rows, running v = running w := by
  have hmem : running v ∈ s.witnesses.rows.map running := by
    rw [← h.2]
    exact List.mem_map_of_mem hv
  obtain ⟨w, hw, hsame⟩ := List.mem_map.mp hmem
  exact ⟨w, hw, hsame.symm⟩

/-- If no sum overflows, the visited witnesses start new laps, and all witnesses are in
time. -/
theorem advanceProcessed_timely {processed : List WitnessObject}
    (htime : time ≤ virtualScheduleLapLength2) (hids : (s.witnesses.rows.map (·.id)).Nodup)
    (hknown : ∀ w ∈ processed, ∀ v ∈ s.witnesses.rows, v.id = w.id → v.votes = w.votes)
    (hall : ∀ v ∈ s.witnesses.rows, Timely time v ∨ v.id ∈ processed.map (·.id))
    (h : Returns (advanceProcessed time processed) s false t) :
    ∀ v ∈ t.witnesses.rows, Timely time v := by
  induction processed generalizing s with
  | nil =>
    rw [(Returns.pure h).2]
    exact fun v hv => (hall v hv).resolve_right (by simp)
  | cons w rest ih =>
    obtain ⟨lap, hlap, h⟩ := h.lift_bind
    have hbound : lap ≤ virtualScheduleLapLength := uint128Div_le hlap
    have hlaps : virtualScheduleLapLength ≤ virtualScheduleLapLength2 := by decide
    by_cases hover : uint128Add time lap < time
    · rw [if_pos hover] at h
      cases (Returns.pure h).1
    rw [if_neg hover] at h
    obtain ⟨_, v, hv, h⟩ := Returns.bind h
    obtain ⟨x, hx, rfl⟩ := map_eq_ok hv.update
    obtain ⟨old, new, -, hold, hid, hnew, hrows, -⟩ := Table.modify_amend (fun w => w.id) hx hids
      fun a b hab => by rw [← Except.ok.inj hab]
    have hid : old.id = w.id := of_decide_eq_true hid
    have hnew := Except.ok.inj hnew
    have hnewId : new.id = w.id := by
      rw [← hnew]
      exact hid
    have hvotes : new.votes = w.votes := by
      rw [← hnew]
      exact hknown w List.mem_cons_self old hold hid
    have hsum : time + lap ≤ virtualScheduleLapLength2 :=
      Nat.not_lt.mp fun hlt =>
        hover ((uint128Add_overflows htime (hbound.trans hlaps)).mpr hlt)
    have hscheduled : new.virtualScheduledTime = time + lap := by
      rw [← hnew]
      exact uint128Add_exact hsum
    have hnewTimely : Timely time new := by
      rw [← hvotes] at hlap
      refine timely_of_lap (by rw [← hnew]) ?_ hlap ?_ hscheduled.le (hscheduled.le.trans hsum)
      · rw [← hnew, Nat.zero_add]
        exact hlaps
      · rw [hscheduled]
        exact Nat.le_add_right _ _
    refine ih ?_ ?_ ?_ h
    · change (x.rows.map (·.id)).Nodup
      have hsame : x.rows.map (·.id) = s.witnesses.rows.map (·.id) := by
        rw [hrows]
        exact Table.amend_keys new
      rw [hsame]
      exact hids
    · intro y hy v hv hvy
      change v ∈ x.rows at hv
      rw [hrows] at hv
      rcases Table.mem_amend hv with rfl | ⟨hv, -⟩
      · have holdVotes := hknown y (List.mem_cons_of_mem _ hy) old hold
          (by rw [← hvy, hnewId]; exact hid)
        rw [← hnew]
        exact holdVotes
      · exact hknown y (List.mem_cons_of_mem _ hy) v hv hvy
    · intro v hv
      change v ∈ x.rows at hv
      rw [hrows] at hv
      rcases Table.mem_amend hv with rfl | ⟨hv, hne⟩
      · exact .inl hnewTimely
      · refine (hall v hv).imp_right fun hmem => ?_
        rcases List.mem_cons.mp hmem with heq | hmem
        · exact absurd (heq.trans hnewId.symm) hne
        · exact hmem

/-- The new due time of one of the visited witnesses exceeds the greatest value. -/
def Overflows (s : ChainState) : Prop :=
  ∃ w ∈ (selectWitnesses s).runners.processed, ∃ lap,
    uint128Div virtualScheduleLapLength (uint128 (w.votes + 1)) = .ok lap ∧
    virtualScheduleLapLength2 < (selectWitnesses s).runners.newVirtualTime + lap

/-- If moving on overflows, the next lap of a visited witness passes the end of the numbers. -/
theorem advanceProcessed_overflow {processed : List WitnessObject}
    (htime : time ≤ virtualScheduleLapLength2)
    (h : Returns (advanceProcessed time processed) s true t) :
    ∃ w ∈ processed, ∃ lap,
      uint128Div virtualScheduleLapLength (uint128 (w.votes + 1)) = .ok lap ∧
      virtualScheduleLapLength2 < time + lap := by
  induction processed generalizing s with
  | nil => cases (Returns.pure h).1
  | cons w rest ih =>
    obtain ⟨lap, hlap, h⟩ := h.lift_bind
    by_cases hover : uint128Add time lap < time
    · have hbound : lap ≤ virtualScheduleLapLength2 :=
        (uint128Div_le hlap).trans (by decide)
      exact ⟨w, List.mem_cons_self, lap, hlap, (uint128Add_overflows htime hbound).mp hover⟩
    · rw [if_neg hover] at h
      obtain ⟨_, v, -, h⟩ := h.bind
      obtain ⟨y, hy, hlater⟩ := ih h
      exact ⟨y, List.mem_cons_of_mem _ hy, hlater⟩

/-- The votes of all witnesses are 128-bit values. -/
def Moderate (s : ChainState) : Prop :=
  ∀ w ∈ s.witnesses.rows, w.votes ≤ (virtualScheduleLapLength2 : ℤ)

/-- The turns of the witnesses keep their votes moderate. -/
theorem moderate_turnFrame : TurnFrame (Preserves Moderate) where
  turns s x hx _ hs v hv := by
    have hvotes : x.rows.map (·.votes) = s.witnesses.rows.map (·.votes) :=
      map_eq_of_map_eq Prod.snd (fun _ => rfl) hx
    have hmem : v.votes ∈ s.witnesses.rows.map (·.votes) := by
      rw [← hvotes]
      exact List.mem_map_of_mem hv
    obtain ⟨w, hw, hsame⟩ := List.mem_map.mp hmem
    rw [← hsame]
    exact hs w hw
  blockSize _ _ hs := hs
  wso _ _ _ hs := hs
  hardforks _ _ hs := hs

/-- The visited witnesses move on, or all witnesses start anew. -/
theorem advanceVirtualTime_clocked (hs : Clocked s) (hstaffed : Staffed s) (hlaps : SameLaps s u)
    (hu : Staffed u) (h : Returns (advanceVirtualTime (selectWitnesses s).runners) u time t) :
    (time ≤ virtualScheduleLapLength2 ∧ ∀ w ∈ t.witnesses.rows, Timely time w) ∧
      (s.wso.currentVirtualTime ≤ time ∨ Overflows s ∧ time = 0 ∧ Resting t) := by
  obtain ⟨hlow, hhigh, hothers⟩ := newVirtualTime_bounds hs
  obtain ⟨reset, v, hv, h⟩ := h.bind
  cases reset with
  | false =>
    obtain ⟨rfl, rfl⟩ := Returns.pure h
    refine ⟨⟨hhigh, advanceProcessed_timely hhigh hu.ids ?_ ?_ hv⟩, .inl hlow⟩
    · intro w hw x hx hid
      obtain ⟨y, hy, hsame⟩ := hlaps.mem hx
      have hyid : x.id = y.id := congrArg (fun r => r.1) hsame
      have hvotes : x.votes = y.votes := congrArg (fun r => r.2.2.1) hsame
      have heq : y = w := List.inj_on_of_nodup_map hstaffed.ids hy (selectWitnesses_processed hw)
        (hyid.symm.trans hid)
      rw [hvotes, heq]
    · intro x hx
      obtain ⟨y, hy, hsame⟩ := hlaps.mem hx
      by_cases hmem : y ∈ (selectWitnesses s).runners.processed
      · have hid : x.id = y.id := congrArg (fun r => r.1) hsame
        rw [hid]
        exact .inr (List.mem_map_of_mem hmem)
      · exact .inl (((hs.witnesses y hy).later hlow (hothers y hy hmem)).of_running hsame)
  | true =>
    obtain ⟨_, x, hx, h⟩ := Returns.bind h
    obtain ⟨rfl, rfl⟩ := Returns.pure h
    have hframe := staffed_stepFrame.toScheduleFrame.toRoundFrame.toTurnFrame
    have hv' : Staffed v := (advanceProcessed_keeps hframe _ _).rel u true v hv hu
    have hrest := resetVirtualScheduleTime_resting hv'.ids hx
    exact ⟨⟨Nat.zero_le _, fun w hw => Rests.timely (hrest.witnesses w hw)⟩,
      .inr ⟨advanceProcessed_overflow hhigh hv, rfl, hrest⟩⟩

/-- The states have the same witnesses and the same virtual time. -/
def SameClock (s t : ChainState) : Prop :=
  t.witnesses = s.witnesses ∧ t.wso.currentVirtualTime = s.wso.currentVirtualTime

instance : IsPreorder ChainState SameClock where
  refl _ := ⟨rfl, rfl⟩
  trans _ _ _ hst htu := ⟨htu.1.trans hst.1, htu.2.trans hst.2⟩

/-- The end of the update writes the new virtual time and leaves the witnesses. -/
theorem updateWitnessSchedule4_advances (h : Returns updateWitnessSchedule4 s () t) :
    ∃ time u, Returns (advanceSchedule (selectWitnesses s)) s time u ∧
      t.witnesses = u.witnesses ∧ t.wso.currentVirtualTime = time := by
  obtain ⟨time, u, hu, h⟩ := h.gets_bind.bind
  obtain ⟨_, a, ha, h⟩ := h.bind
  obtain ⟨majority, b, hb, h⟩ := h.bind
  obtain ⟨_, c, hc, h⟩ := h.gets_bind.gets_bind.bind
  have hcheck : Keeps SameClock (checkSelection (selectWitnesses s)) :=
    .bind (.gets _) fun _ => .lift _
  have hcount : Keeps SameClock countVersions :=
    .bind (.gets _) fun _ => .bind scheduledWitnesses_keeps fun _ =>
      .bind (.update fun a b hab => Except.ok.inj hab ▸ ⟨rfl, rfl⟩) fun _ => .pure _
  have hmedian : Keeps SameClock updateMedianWitnessProps := by
    refine .bind scheduledWitnesses_keeps fun _ => .bind (.lift _) fun _ => .bind (.lift _) fun _ =>
      .bind (.update fun a b hab => Except.ok.inj hab ▸ ⟨rfl, rfl⟩) fun _ => ?_
    exact replace_keeps fun s d hd => ⟨rfl, rfl⟩
  have hua := hcheck.rel u _ a ha
  have hab := hcount.rel a _ b hb
  have hct := hmedian.rel c _ t h
  have hbc := Except.ok.inj hc.update
  have hwitnesses : c.witnesses = b.witnesses := by
    rw [← hbc]
  have htime : c.wso.currentVirtualTime = time := by
    rw [← hbc]
    rfl
  exact ⟨time, u, hu, hct.1.trans (hwitnesses.trans (hab.1.trans hua.1)), hct.2.trans htime⟩

/-- The round update leaves every witness in time, and the virtual time goes back only if it
overflows and every lap starts anew. -/
theorem updateWitnessSchedule4_clocked (hs : Clocked s) (hstaffed : Staffed s)
    (h : Returns updateWitnessSchedule4 s () t) :
    Clocked t ∧ (s.wso.currentVirtualTime ≤ t.wso.currentVirtualTime ∨ Overflows s ∧ Resting t) := by
  obtain ⟨time, u, hu, hwitnesses, htime⟩ := updateWitnessSchedule4_advances h
  have hframe := staffed_stepFrame.toScheduleFrame.toRoundFrame.toTurnFrame
  have hmoderate : Moderate u := (advanceSchedule_keeps moderate_turnFrame _).rel s time u hu hs.votes
  obtain ⟨_, a, ha, hu⟩ := hu.bind
  obtain ⟨_, b, hb, hu⟩ := hu.bind
  have hlaps : SameLaps s b := Trans.trans ((markScheduled_laps _ _).rel s () a ha)
    ((markScheduled_laps _ _).rel a () b hb)
  have hb' : Staffed b := (markScheduled_keeps hframe _ _).rel a () b hb
    ((markScheduled_keeps hframe _ _).rel s () a ha hstaffed)
  obtain ⟨⟨hbound, htimely⟩, hback⟩ := advanceVirtualTime_clocked hs hstaffed hlaps hb' hu
  refine ⟨⟨?_, ?_, ?_⟩, ?_⟩
  · rw [htime]
    exact hbound
  · rw [hwitnesses, htime]
    exact htimely
  · rw [hwitnesses]
    exact hmoderate
  · refine hback.imp (fun hle => by rw [htime]; exact hle) ?_
    rintro ⟨hover, hzero, hrest⟩
    refine ⟨hover, by rw [htime]; exact hzero, ?_⟩
    rw [hwitnesses]
    exact hrest.witnesses

end Round

section Safety

/-- The products and sums that a change of votes computes for a witness have the values that
they have without a bound, and the test after its last sum finds the overflow. -/
structure Unwrapped (time : ℕ) (w : WitnessObject) : Prop where
  elapsed : uint128Sub time w.virtualLastUpdate = time - w.virtualLastUpdate
  distance : uint128Mul (uint128 w.votes) (time - w.virtualLastUpdate) =
    uint128 w.votes * (time - w.virtualLastUpdate)
  position : uint128Add w.virtualPosition (uint128 w.votes * (time - w.virtualLastUpdate)) =
    w.virtualPosition + uint128 w.votes * (time - w.virtualLastUpdate)
  inLap : w.virtualPosition + uint128 w.votes * (time - w.virtualLastUpdate) ≤
    virtualScheduleLapLength2
  left : uint128Sub virtualScheduleLapLength2
      (w.virtualPosition + uint128 w.votes * (time - w.virtualLastUpdate)) =
    virtualScheduleLapLength2 -
      (w.virtualPosition + uint128 w.votes * (time - w.virtualLastUpdate))
  tested : ∀ lap ≤ virtualScheduleLapLength2,
    uint128Add time lap < time ↔ virtualScheduleLapLength2 < time + lap

/-- What holds of a witness at the current virtual time. -/
structure OnClock (time : ℕ) (w : WitnessObject) : Prop where
  updated : w.virtualLastUpdate ≤ time
  due : time ≤ w.virtualScheduledTime
  position : (w.virtualPosition : ℤ) + w.votes * ((time : ℤ) - w.virtualLastUpdate) ≤ 2 ^ 128 - 1
  unwrapped : Unwrapped time w

/-- Every witness of a state is on the clock. -/
def ClockSafe (s : ChainState) : Prop :=
  ∀ w ∈ s.witnesses.rows, OnClock s.wso.currentVirtualTime w

/-- The states that a block passes through: before the update of the schedule any changes,
after it the update and any changes. -/
inductive Within (env : Env) (call : BlockCall) (s : ChainState) : ChainState → Prop
  | before (t : ChainState) : Passes env.toFcLib s t → Within env call s t
  | after (u v t : ChainState) :
      Returns (applyBlockToSchedule (call.context env) call.block) s () u →
      Returns updateWitnessSchedule u () v → Passes env.toFcLib v t → Within env call s t

variable {env : Env} {initSupply : ℕ} {calls : List BlockCall} {call : BlockCall}
  {s t u v : ChainState}

/-- A timely witness is on the clock. -/
theorem Timely.onClock {time : ℕ} {w : WitnessObject} (h : Timely time w)
    (htime : time ≤ virtualScheduleLapLength2) (hvotes : w.votes ≤ (virtualScheduleLapLength2 : ℤ)) :
    OnClock time w := by
  have hposition := h.position_le
  refine ⟨h.updated, h.due, ?_, ⟨uint128Sub_exact h.updated htime, uint128Mul_exact (by omega),
    uint128Add_exact hposition, hposition, uint128Sub_exact hposition le_rfl,
    fun lap hlap => uint128Add_overflows htime hlap⟩⟩
  have hupdated := h.updated
  have helapsed : ((time - w.virtualLastUpdate : ℕ) : ℤ) = (time : ℤ) - w.virtualLastUpdate := by
    omega
  have hcast := Int.ofNat_le.mpr hposition
  rw [Int.natCast_add, Int.natCast_mul, helapsed] at hcast
  have hmax : (virtualScheduleLapLength2 : ℤ) = 2 ^ 128 - 1 := rfl
  have hspeed : w.votes * ((time : ℤ) - w.virtualLastUpdate) ≤
      (uint128 w.votes : ℤ) * ((time : ℤ) - w.virtualLastUpdate) :=
    Int.mul_le_mul_of_nonneg_right (le_uint128 hvotes) (by omega)
  omega

/-- In a clocked state the clock is safe. -/
theorem Clocked.clockSafe (h : Clocked s) : ClockSafe s :=
  fun w hw => (h.witnesses w hw).onClock h.time (h.votes w hw)

/-- The update of the schedule in a run. -/
theorem updateWitnessSchedule_clocked (hs : Reaches env initSupply calls s) (hclocked : Clocked u)
    (hu : Returns (applyBlockToSchedule (call.context env) call.block) s () u)
    (hv : Returns updateWitnessSchedule u () v) :
    Clocked v ∧ (u.wso.currentVirtualTime ≤ v.wso.currentVirtualTime ∨ Overflows u ∧ Resting v) := by
  rcases hv.gets_bind.whenever with ⟨hnum, hv⟩ | ⟨-, hv⟩
  · have hupdate : RunsUpdate env initSupply calls call u := ⟨⟨s, hs, hu⟩, hnum⟩
    exact updateWitnessSchedule4_clocked hclocked hupdate.staffed hv
  · rw [hv]
    exact ⟨hclocked, .inl le_rfl⟩

/-- A state in the middle of a block is clocked. -/
theorem Within.clocked (hexact : env.SafeExact) (hs : Reaches env initSupply calls s)
    (hclocked : Clocked s) (h : Within env call s t) : Clocked t := by
  cases h with
  | before t ht => exact ht.clocked hexact hclocked
  | after u v t hu hv ht =>
    have hu' := ((applyBlockToSchedule_passes _ _).rel s () u hu).clocked hexact hclocked
    exact ht.clocked hexact (updateWitnessSchedule_clocked hs hu' hu hv).1

/-- The parts of a block, with the states between them. -/
theorem applyBlock_parts (h : Returns (call.run env) s () t) :
    ∃ u v, Returns (applyBlockToSchedule (call.context env) call.block) s () u ∧
      Returns updateWitnessSchedule u () v ∧ Passes env.toFcLib v t := by
  obtain ⟨_, a, ha, h⟩ := Returns.bind h
  obtain ⟨_, b, hb, h⟩ := h.bind
  obtain ⟨_, u, hu, h⟩ := h.bind
  obtain ⟨_, v, hv, h⟩ := h.bind
  exact ⟨u, v, ha.intro_bind (hb.intro_bind hu), hv,
    (afterSchedule_keeps (call.context env) passes_operationFrame.toStakeFrame).rel v () t h⟩

/-- Every reachable state is clocked. -/
theorem reaches_clocked (hexact : env.SafeExact) (h : Reaches env initSupply calls s) :
    Clocked s := by
  induction calls using List.reverseRecOn generalizing s with
  | nil =>
    rw [(Returns.pure h).2]
    exact clocked_initGenesis env initSupply
  | append_singleton earlier call ih =>
    obtain ⟨u, hu, h⟩ := Returns.forEach_append h
    obtain ⟨_, t, ht, hnil⟩ := Returns.bind h
    rw [(Returns.pure hnil).2]
    obtain ⟨a, b, ha, hb, hpasses⟩ := applyBlock_parts ht
    exact Within.clocked hexact hu (ih hu) (.after a b t ha hb hpasses)

/-- The test after the sum of a round update finds its overflow. -/
def RoundTested (s : ChainState) : Prop :=
  ∀ lap ≤ virtualScheduleLapLength,
    uint128Add (selectWitnesses s).runners.newVirtualTime lap <
        (selectWitnesses s).runners.newVirtualTime ↔
      virtualScheduleLapLength2 < (selectWitnesses s).runners.newVirtualTime + lap

/-- In a clocked state the test after the sum finds its overflow. -/
theorem Clocked.roundTested (h : Clocked s) : RoundTested s := fun _ hlap =>
  uint128Add_overflows (newVirtualTime_bounds h).2.1 (hlap.trans (by decide))

/-- The block takes the virtual time back: the round update overflows, and the reset starts
every lap anew at time zero. -/
def Rewinds (env : Env) (call : BlockCall) (s t : ChainState) : Prop :=
  ∃ u v, Returns (applyBlockToSchedule (call.context env) call.block) s () u ∧ Overflows u ∧
    Returns updateWitnessSchedule u () v ∧ Resting v ∧ Passes env.toFcLib v t

/-- In every state that a run reaches, and in every state within the next block, each witness
was updated no later than the current virtual time, is due no earlier, and has a position
that no vote change takes beyond the greatest value: nothing wraps but the two tested sums.
The virtual time goes back only with the reset of all witnesses. -/
theorem virtual_clock_safe (hexact : env.SafeExact) (h : Reaches env initSupply calls s) :
    ClockSafe s ∧
      ∀ call t,
        (Within env call s t → ClockSafe t) ∧
        (Returns (applyBlockToSchedule (call.context env) call.block) s () t → RoundTested t) ∧
        (Returns (call.run env) s () t → Within env call s t ∧
          (s.wso.currentVirtualTime ≤ t.wso.currentVirtualTime ∨ Rewinds env call s t)) := by
  have hs := reaches_clocked hexact h
  refine ⟨hs.clockSafe, fun call t => ⟨fun ht => ?_, fun ht => ?_, fun ht => ?_⟩⟩
  · exact (Within.clocked hexact h hs ht).clockSafe
  · exact (((applyBlockToSchedule_passes _ _).rel s () t ht).clocked hexact hs).roundTested
  · obtain ⟨u, v, hu, hv, hpasses⟩ := applyBlock_parts ht
    refine ⟨.after u v t hu hv hpasses, ?_⟩
    have hsu : Passes env.toFcLib s u := (applyBlockToSchedule_passes _ _).rel s () u hu
    have hround := updateWitnessSchedule_clocked h (hsu.clocked hexact hs) hu hv
    refine hround.2.imp (fun hle => ?_) fun hreset => ⟨u, v, hu, hreset.1, hv, hreset.2, hpasses⟩
    rw [hpasses.time]
    rwa [hsu.time] at hle

/-- A run of 21 blocks with votes for every witness. -/
theorem virtual_clock_safe_voteForAll :
    ∃ s, Reaches sampleEnv 1000000 (firstCalls [voteForAll] ++ [updateCall [voteForAll]]) s ∧
      0 < s.wso.currentVirtualTime ∧ ClockSafe s := by
  have hends : endsIn (runBlocks sampleEnv (firstCalls [voteForAll] ++ [updateCall [voteForAll]]))
      (initGenesis sampleEnv 1000000) (fun _ s => 0 < s.wso.currentVirtualTime) = true := by
    decide +kernel
  obtain ⟨_, s, hs, htime⟩ := returns_of_endsIn hends
  exact ⟨s, hs, of_decide_eq_true htime, (virtual_clock_safe sampleEnv_safeExact hs).1⟩

end Safety

end Whaleshares.VirtualClock
