import Mathlib
import Whaleshares.ScheduleSafety

/-!
# Virtual time

A witness is due when it completes a lap at the speed of its votes. The change of votes and
the reset of the schedule use one lap length, the round update of the visited witnesses uses
another. As long as every round update overflows into the reset, the virtual time stays at
zero, the documented relation holds for every witness, and votes that come and go leave
the schedule as it was.
-/

namespace Whaleshares.VirtualTime

open Config Fc Assets Protocol Objects Program Database WitnessVotes Vesting Rewards Evaluators
  ApplyBlock WitnessSchedule Genesis ChainRun Footprint Ledger ScheduleSafety

section Law

/-- `virtual_scheduled_time = virtual_last_update + (L - virtual_position) / (votes + 1)`,
or the maximal value if the sum exceeds it. -/
def OnTime (lapLength : ℕ) (w : WitnessObject) : Prop :=
  ∃ lap, uint128Div (uint128Sub lapLength w.virtualPosition) (uint128 (w.votes + 1)) = .ok lap ∧
    w.virtualScheduledTime = min (w.virtualLastUpdate + lap) virtualScheduleLapLength2

/-- Every witness of a state is due when the documented relation says. -/
def Lawful (lapLength : ℕ) (s : ChainState) : Prop :=
  ∀ w ∈ s.witnesses.rows, OnTime lapLength w

/-- When the witnesses of a state are due. -/
def dueTimes (s : ChainState) : List (ℕ × ℕ) :=
  s.witnesses.rows.map fun w => (w.id, w.virtualScheduledTime)

/-- Votes that are added and removed again, and votes of weight zero, leave every witness
due when it was. -/
structure Steady (fc : FcLib) (s : ChainState) : Prop where
  addAndRemove : ∀ witness delta t, Returns (do
      adjustWitnessVote fc witness delta
      adjustWitnessVote fc witness (-delta)) s () t → dueTimes t = dueTimes s
  weightless : ∀ witness t, Returns (adjustWitnessVote fc witness 0) s () t →
    dueTimes t = dueTimes s

/-- The last witness that the loop over the runners visits, if there is one, has no votes. -/
def LastUnvoted (s : ChainState) : Prop :=
  ∀ w ∈ (selectWitnesses s).runners.processed.getLast?, w.votes = 0

end Law

section Rest

/-- A witness whose lap started at time zero. -/
structure Rests (w : WitnessObject) : Prop where
  virtualLastUpdate : w.virtualLastUpdate = 0
  virtualPosition : w.virtualPosition = 0
  scheduled : uint128Div virtualScheduleLapLength2 (uint128 (w.votes + 1)) =
    .ok w.virtualScheduledTime

/-- The virtual time is zero, and every lap started then. -/
structure Resting (s : ChainState) : Prop where
  time : s.wso.currentVirtualTime = 0
  witnesses : ∀ w ∈ s.witnesses.rows, Rests w

variable {fc : FcLib} {s t : ChainState} {w v : WitnessObject}

/-- Subtracting zero changes nothing. -/
theorem uint128Sub_zero {a : ℕ} (ha : a < uint128Bound) : uint128Sub a 0 = a := by
  unfold uint128Sub
  rw [Nat.sub_zero, Nat.add_mod_right, Nat.mod_eq_of_lt ha]

/-- A quotient is at most its dividend. -/
theorem uint128Div_le {a b c : ℕ} (h : uint128Div a b = .ok c) : c ≤ a := by
  unfold uint128Div at h
  split at h
  · cases h
  · rw [← Except.ok.inj h]
    exact Nat.div_le_self a b

/-- The lap length fits into 128 bits. -/
theorem lapLength2_lt : virtualScheduleLapLength2 < uint128Bound := by decide

/-- A resting witness is due at the end of the long lap. -/
theorem Rests.onTime (h : Rests w) : OnTime virtualScheduleLapLength2 w := by
  refine ⟨w.virtualScheduledTime, ?_, ?_⟩
  · rw [h.virtualPosition, uint128Sub_zero lapLength2_lt]
    exact h.scheduled
  · rw [h.virtualLastUpdate, Nat.zero_add, Nat.min_eq_left (uint128Div_le h.scheduled)]

/-- Whether a witness rests depends on what runs of it. -/
theorem Rests.of_running (h : Rests w) (hsame : running v = running w) : Rests v := by
  simp only [running, Prod.mk.injEq] at hsame
  obtain ⟨-, -, hvotes, hupdate, hposition, hscheduled⟩ := hsame
  refine ⟨by rw [hupdate, h.virtualLastUpdate], by rw [hposition, h.virtualPosition], ?_⟩
  rw [hvotes, hscheduled]
  exact h.scheduled

/-- A change of votes at time zero starts the lap anew at the new speed. -/
theorem changeWitnessVote_rests {total delta : ℤ} (h : Rests w)
    (hv : changeWitnessVote fc 0 total delta w = .ok v) :
    Rests v ∧ fc.add w.votes delta = .ok v.votes ∧ v.id = w.id := by
  unfold changeWitnessVote at hv
  obtain ⟨votes, hvotes, hv⟩ := bind_eq_ok hv
  obtain ⟨-, -, hv⟩ := bind_eq_ok hv
  obtain ⟨lap, hlap, hv⟩ := bind_eq_ok hv
  have hposition : uint128Add w.virtualPosition
      (uint128Mul (uint128 w.votes) (uint128Sub 0 w.virtualLastUpdate)) = 0 := by
    rw [h.virtualPosition, h.virtualLastUpdate, uint128Sub_zero (by decide)]
    rfl
  rw [hposition, uint128Sub_zero lapLength2_lt] at hlap
  have hadd : uint128Add 0 lap = lap := by
    unfold uint128Add
    rw [Nat.zero_add, Nat.mod_eq_of_lt (lt_of_le_of_lt (uint128Div_le hlap) lapLength2_lt)]
  rw [← Except.ok.inj hv]
  refine ⟨⟨rfl, hposition, ?_⟩, hvotes, rfl⟩
  simp only [hadd, Nat.not_lt_zero, if_false]
  exact hlap

/-- Whether a state rests depends on what runs of its witnesses. -/
theorem Resting.of_running (h : Resting s) {x : Table WitnessObject}
    (hx : x.rows.map running = s.witnesses.rows.map running) :
    Resting { s with witnesses := x } := by
  refine ⟨h.time, fun v hv => ?_⟩
  have hmem : running v ∈ s.witnesses.rows.map running := by
    rw [← hx]
    exact List.mem_map_of_mem hv
  obtain ⟨w, hw, hsame⟩ := List.mem_map.mp hmem
  exact (h.witnesses w hw).of_running hsame.symm

/-- A resting state is lawful with the long lap. -/
theorem Resting.lawful (h : Resting s) : Lawful virtualScheduleLapLength2 s :=
  fun w hw => (h.witnesses w hw).onTime

/-- A new witness rests. -/
theorem Newcomer.rests (h : Newcomer w) : Rests w := by
  refine ⟨h.virtualLastUpdate, h.virtualPosition, ?_⟩
  rw [h.votes, h.virtualScheduledTime]
  rfl

/-- The genesis state rests. -/
theorem resting_initGenesis (env : Env) (initSupply : ℕ) : Resting (initGenesis env initSupply) := by
  refine ⟨rfl, fun w hw => ?_⟩
  obtain ⟨i, -, rfl⟩ := List.mem_map.mp hw
  exact Newcomer.rests ⟨rfl, rfl, rfl, rfl, rfl⟩

/-- The quiet routines keep a state at rest. -/
theorem resting_quietFrame : QuietFrame (Preserves Resting) where
  quietAccounts _ _ _ _ h := ⟨h.time, h.witnesses⟩
  comments _ _ h := ⟨h.time, h.witnesses⟩
  commentVotes _ _ h := ⟨h.time, h.witnesses⟩
  withdrawVestingRoutes _ _ h := ⟨h.time, h.witnesses⟩
  transactions _ _ h := ⟨h.time, h.witnesses⟩
  quietWitnesses _ _ hx _ h := h.of_running (map_eq_of_map_eq (fun r => r.2.1) (fun _ => rfl) hx)

/-- The payment of rewards keeps a state at rest. -/
theorem resting_rewardFrame : RewardFrame (Preserves Resting) where
  toQuietFrame := resting_quietFrame
  rewardAccounts _ _ _ _ h := ⟨h.time, h.witnesses⟩
  rewardFunds _ _ h := ⟨h.time, h.witnesses⟩
  rewardTotals _ _ _ _ h := ⟨h.time, h.witnesses⟩

/-- Operations keep a state at rest. -/
theorem resting_operationFrame : OperationFrame fc (Preserves Resting) where
  toRewardFrame := resting_rewardFrame
  accountAuthorities _ _ h := ⟨h.time, h.witnesses⟩
  ballots _ _ _ h := ⟨h.time, h.witnesses⟩
  witnessVotes _ _ h := ⟨h.time, h.witnesses⟩
  tallies s x p delta hx h := by
    refine ⟨h.time, Table.modify_forall hx h.witnesses fun w v hw hv => ?_⟩
    rw [h.time] at hv
    exact (changeWitnessVote_rests hw hv).1
  newcomer s x w hx _ _ hw _ h := by
    refine ⟨h.time, fun v hv => ?_⟩
    rw [hx] at hv
    rcases List.mem_append.mp hv with hv | hv
    · exact h.witnesses v hv
    · rw [List.mem_singleton.mp hv]
      exact Newcomer.rests hw
  anyAccounts _ _ h := ⟨h.time, h.witnesses⟩
  totals _ _ _ h := ⟨h.time, h.witnesses⟩

/-- The routines before the schedule keep a state at rest. -/
theorem resting_headerFrame : HeaderFrame (Preserves Resting) where
  toQuietFrame := resting_quietFrame
  header _ _ _ h := ⟨h.time, h.witnesses⟩
  signed _ _ hx _ h := h.of_running (map_eq_of_map_eq Prod.fst (fun _ => rfl) hx)
  blockSummaries _ _ h := ⟨h.time, h.witnesses⟩

/-- A vote at time zero leaves all other witnesses as they are. -/
theorem Resting.adjustWitnessVote (h : Resting s) {witness : ℕ} {delta : ℤ} {u : Unit}
    (hreturns : Returns (adjustWitnessVote fc witness delta) s u t) :
    Resting t ∧ ∃ before w v after, s.witnesses.rows = before ++ w :: after ∧
      t.witnesses.rows = before ++ v :: after ∧ (∀ x ∈ before, x.id ≠ witness) ∧
      w.id = witness ∧ v.id = witness ∧ fc.add w.votes delta = .ok v.votes := by
  have hkeeps := adjustWitnessVote_keeps fc resting_operationFrame.toVoteFrame witness delta
  refine ⟨hkeeps.rel s u t hreturns h, ?_⟩
  obtain ⟨x, hx, rfl⟩ := map_eq_ok hreturns.gets_bind.gets_bind.update
  obtain ⟨before, w, v, after, hrows, hrows', hbefore, hw, hv⟩ := Table.modify_rows hx
  rw [h.time] at hv
  have hrests : Rests w := h.witnesses w (by rw [hrows]; simp)
  obtain ⟨-, hvotes, hid⟩ := changeWitnessVote_rests hrests hv
  have hwid : w.id = witness := of_decide_eq_true hw
  exact ⟨before, w, v, after, hrows, hrows', fun y hy => of_decide_eq_false (hbefore y hy), hwid,
    hid.trans hwid, hvotes⟩

/-- Resting witnesses with equal votes are due at the same time. -/
theorem Rests.scheduled_eq (hv : Rests v) (hw : Rests w) (hvotes : v.votes = w.votes) :
    v.virtualScheduledTime = w.virtualScheduledTime := by
  have hscheduled := hv.scheduled
  rw [hvotes, hw.scheduled] at hscheduled
  exact (Except.ok.inj hscheduled).symm

/-- A resting state is steady. -/
theorem Resting.steady (h : Resting s) (hexact : fc.SafeExact) : Steady fc s := by
  constructor
  · intro witness delta t ht
    obtain ⟨_, u, hu, ht⟩ := ht.bind
    obtain ⟨hrestU, before, w, v, after, hs, hu, hbefore, hw, hv, hadd⟩ := h.adjustWitnessVote hu
    obtain ⟨hrestT, before', w', v', after', hu', ht, hbefore', hw', hv', hremove⟩ :=
      hrestU.adjustWitnessVote ht
    obtain ⟨rfl, rfl, rfl⟩ := Table.split_unique
      (q := fun x : WitnessObject => x.id = witness)
      (hu.symm.trans hu') hbefore hv hbefore' hw'
    have hvotes : v'.votes = w.votes := by
      have hadd := (hexact.checked hadd).1
      have hremove := (hexact.checked hremove).1
      omega
    have hsame : v'.virtualScheduledTime = w.virtualScheduledTime :=
      (hrestT.witnesses v' (by simp [ht])).scheduled_eq (h.witnesses w (by simp [hs])) hvotes
    simp [dueTimes, hs, ht, hsame, hw, hv']
  · intro witness t ht
    obtain ⟨hrestT, before, w, v, after, hs, ht, -, hw, hv, hadd⟩ := h.adjustWitnessVote ht
    have hvotes : v.votes = w.votes := by
      have hadd := (hexact.checked hadd).1
      omega
    have hsame : v.virtualScheduledTime = w.virtualScheduledTime :=
      (hrestT.witnesses v (by simp [ht])).scheduled_eq (h.witnesses w (by simp [hs])) hvotes
    simp [dueTimes, hs, ht, hsame, hw, hv]

end Rest

section Rounds

variable {s t : ChainState} {w : WitnessObject} {time : ℕ}

/-- The loop over the runners ends at the time of the last witness that it visits. -/
theorem runWitnesses_time (elected : List WitnessObject) (count time : ℕ)
    (order : List WitnessObject) :
    (runWitnesses elected count time order).newVirtualTime =
      ((runWitnesses elected count time order).processed.getLast?.map
        (·.virtualScheduledTime)).getD time := by
  induction order generalizing count time with
  | nil => rfl
  | cons w rest ih =>
    unfold runWitnesses
    split
    · split
      · simp [ih, List.getLast?_cons]
      · simp [ih, List.getLast?_cons]
    · rfl

/-- The visited witnesses are the first ones of the order. -/
theorem runWitnesses_processed (elected : List WitnessObject) (count time : ℕ)
    (order : List WitnessObject) :
    (runWitnesses elected count time order).processed <+: order := by
  induction order generalizing count time with
  | nil => exact List.prefix_rfl
  | cons w rest ih =>
    unfold runWitnesses
    split
    · split
      · exact (List.prefix_cons_inj w).mpr (ih _ _)
      · exact (List.prefix_cons_inj w).mpr (ih _ _)
    · exact List.nil_prefix

/-- The visited witnesses are witnesses of the state. -/
theorem selectWitnesses_processed (hw : w ∈ (selectWitnesses s).runners.processed) :
    w ∈ s.witnesses.rows :=
  (select_all_perm s.witnesses WitnessObject.byScheduleTime).mem_iff.mp
    ((runWitnesses_processed _ _ _ _).subset hw)

/-- At the maximal time the loop over the visited witnesses stops at one without votes. -/
theorem advanceProcessed_overflows {reset : Bool} {processed : List WitnessObject}
    (hlast : processed.getLast? = some w) (hvotes : w.votes = 0)
    (h : Returns (advanceProcessed virtualScheduleLapLength2 processed) s reset t) :
    reset = true := by
  induction processed generalizing s with
  | nil => cases hlast
  | cons first rest ih =>
    obtain ⟨lap, hlap, h⟩ := h.lift_bind
    have hbound : lap ≤ virtualScheduleLapLength := uint128Div_le hlap
    by_cases hscheduled : uint128Add virtualScheduleLapLength2 lap < virtualScheduleLapLength2
    · rw [if_pos hscheduled] at h
      exact (Returns.pure h).1
    · rw [if_neg hscheduled] at h
      obtain ⟨_, u, -, h⟩ := h.bind
      refine ih ?_ h
      cases rest with
      | nil =>
        have hfirst : first = w := by simpa using hlast
        rw [hfirst, hvotes] at hlap
        have hone : lap = virtualScheduleLapLength := (Except.ok.inj hlap).symm
        rw [hone] at hscheduled
        exact absurd (by decide) hscheduled
      | cons second rest => simpa using hlast

/-- A witness that starts its lap anew rests. -/
theorem resetWitness_rests {v : WitnessObject} (h : resetWitness w = .ok v) :
    Rests v ∧ v.id = w.id := by
  obtain ⟨scheduled, hscheduled, h⟩ := bind_eq_ok h
  rw [← Except.ok.inj h]
  exact ⟨⟨rfl, rfl, hscheduled⟩, rfl⟩

/-- The reset reaches every witness, whatever the schedule was. -/
theorem resetWitnesses_rests (done : List ℕ) {rest : List ℕ} {witnesses : List WitnessObject} {u : Unit}
    (hrest : witnesses.map (·.id) = rest)
    (hids : s.witnesses.rows.map (·.id) = done ++ rest) (hnodup : (done ++ rest).Nodup)
    (hdone : ∀ w ∈ s.witnesses.rows, w.id ∈ done → Rests w)
    (h : Returns (forEach (fun w => modifyWitness (fun v => v.id = w.id) resetWitness) witnesses)
      s u t) :
    ∀ w ∈ t.witnesses.rows, Rests w := by
  induction witnesses generalizing s done rest with
  | nil =>
    intro w hw
    rw [(Returns.pure h).2] at hw
    refine hdone w hw ?_
    have hmem : w.id ∈ s.witnesses.rows.map (·.id) := List.mem_map_of_mem hw
    rw [hids, ← hrest] at hmem
    simpa using hmem
  | cons first others ih =>
    obtain ⟨_, v, hv, h⟩ := Returns.bind h
    obtain ⟨x, hx, rfl⟩ := map_eq_ok hv.update
    have hsame : x.rows.map (·.id) = s.witnesses.rows.map (·.id) :=
      Table.modify_map_eq hx fun _ _ hab => (resetWitness_rests hab).2
    have happend : done ++ rest = (done ++ [first.id]) ++ others.map (·.id) := by
      rw [← hrest]
      simp
    rw [happend] at hids hnodup
    refine ih (done ++ [first.id]) rfl (hsame.trans hids) hnodup ?_ h
    intro w hw hmem
    obtain ⟨before, old, new, after, hrows, hrows', -, hold, hnew⟩ := Table.modify_rows hx
    obtain ⟨hrests, hid⟩ := resetWitness_rests hnew
    have hfirst : old.id = first.id := of_decide_eq_true hold
    have hother : ∀ v ∈ before ++ after, Rests v ∨ v.id ∉ done ++ [first.id] := by
      intro v hv
      by_cases hvdone : v.id ∈ done
      · refine .inl (hdone v ?_ hvdone)
        rw [hrows]
        rcases List.mem_append.mp hv with hv | hv <;> simp [hv]
      · refine .inr fun hmem => ?_
        have heq : v.id = first.id := by simpa [hvdone] using hmem
        rw [← hids, hrows, List.map_append, List.map_cons, List.nodup_middle] at hnodup
        refine (List.nodup_cons.mp hnodup).1 ?_
        rw [← List.map_append, hfirst, ← heq]
        exact List.mem_map_of_mem hv
    change w ∈ x.rows at hw
    rw [hrows', List.mem_append, List.mem_cons] at hw
    rcases hw with hw | rfl | hw
    · exact (hother w (List.mem_append_left _ hw)).resolve_right fun hnot => hnot hmem
    · exact hrests
    · exact (hother w (List.mem_append_right _ hw)).resolve_right fun hnot => hnot hmem

/-- After the reset the state rests. -/
theorem resetVirtualScheduleTime_resting {u : Unit} (hids : (s.witnesses.rows.map (·.id)).Nodup)
    (h : Returns resetVirtualScheduleTime s u t) : Resting t := by
  obtain ⟨_, v, hv, h⟩ := h.bind
  have hv := Except.ok.inj hv.update
  have h := h.gets_bind
  refine ⟨?_, ?_⟩
  · refine Returns.forEach h (P := fun v => v.wso.currentVirtualTime = 0) ?_ ?_
    · rw [← hv]
    · intro w _ a b ha hab
      obtain ⟨x, -, rfl⟩ := map_eq_ok hab.update
      exact ha
  · refine resetWitnesses_rests [] rfl rfl ?_ (fun w _ hw => by cases hw) h
    rw [List.nil_append, ← hv]
    exact hids

/-- Marking the scheduled witnesses keeps a state at rest. -/
theorem markScheduled_resting (schedule : ScheduleType) (witnesses : List WitnessObject) :
    Keeps (Preserves Resting) (markScheduled schedule witnesses) :=
  markScheduled_runs (fun _ _ hx h => h.of_running hx) schedule witnesses

/-- A resting witness without votes is due at the end of the long lap. -/
theorem Rests.scheduled_of_unvoted (h : Rests w) (hvotes : w.votes = 0) :
    w.virtualScheduledTime = virtualScheduleLapLength2 := by
  have hscheduled := h.scheduled
  rw [hvotes] at hscheduled
  exact (Except.ok.inj hscheduled).symm

/-- If the last visited witness has no votes, the visited witnesses do not move on: the
schedule is reset. -/
theorem advanceVirtualTime_resting {u : ChainState} (hs : Resting s) (hlast : LastUnvoted s)
    (hu : Resting u) (hstaffed : Staffed u)
    (h : Returns (advanceVirtualTime (selectWitnesses s).runners) u time t) :
    Resting t ∧ time = 0 := by
  have htime := runWitnesses_time (selectWitnesses s).elected (selectWitnesses s).elected.length
    s.wso.currentVirtualTime (s.witnesses.select (fun _ => true) WitnessObject.byScheduleTime)
  change (selectWitnesses s).runners.newVirtualTime =
    ((selectWitnesses s).runners.processed.getLast?.map (·.virtualScheduledTime)).getD
      s.wso.currentVirtualTime at htime
  obtain ⟨reset, v, hv, hnext⟩ := h.bind
  cases hprocessed : (selectWitnesses s).runners.processed.getLast? with
  | none =>
    rw [List.getLast?_eq_none_iff.mp hprocessed] at hv
    obtain ⟨hreset, hvu⟩ := Returns.pure hv
    rw [hreset, hvu] at hnext
    obtain ⟨htimes, htu⟩ := Returns.pure hnext
    rw [hprocessed] at htime
    rw [htu]
    exact ⟨hu, htimes.trans (htime.trans hs.time)⟩
  | some w =>
    have hvotes : w.votes = 0 := hlast w hprocessed
    have hmem : w ∈ s.witnesses.rows :=
      selectWitnesses_processed (List.mem_of_getLast? hprocessed)
    have hmax : (selectWitnesses s).runners.newVirtualTime = virtualScheduleLapLength2 := by
      rw [htime, hprocessed]
      exact (hs.witnesses w hmem).scheduled_of_unvoted hvotes
    rw [hmax] at hv
    rw [advanceProcessed_overflows hprocessed hvotes hv] at hnext
    have hframe := staffed_stepFrame.toScheduleFrame.toRoundFrame.toTurnFrame
    have hids : Staffed v := (advanceProcessed_keeps hframe _ _).rel u reset v hv hstaffed
    obtain ⟨_, x, hx, hnext⟩ := Returns.bind hnext
    obtain ⟨htimes, htx⟩ := Returns.pure hnext
    rw [htx]
    exact ⟨resetVirtualScheduleTime_resting hids.ids hx, htimes⟩

/-- If the last visited witness has no votes, the schedule moves on into the reset. -/
theorem advanceSchedule_resting (hs : Resting s) (hlast : LastUnvoted s) (hstaffed : Staffed s)
    (h : Returns (advanceSchedule (selectWitnesses s)) s time t) : Resting t ∧ time = 0 := by
  obtain ⟨_, u, hu, h⟩ := h.bind
  obtain ⟨_, v, hv, h⟩ := h.bind
  have hframe := staffed_stepFrame.toScheduleFrame.toRoundFrame.toTurnFrame
  have hrest : Resting v := (markScheduled_resting _ _).rel u () v hv
    ((markScheduled_resting _ _).rel s () u hu hs)
  have hids : Staffed v := (markScheduled_keeps hframe _ _).rel u () v hv
    ((markScheduled_keeps hframe _ _).rel s () u hu hstaffed)
  exact advanceVirtualTime_resting hs hlast hrest hids h

/-- An update of the schedule whose last visited witness has no votes keeps the state at rest. -/
theorem updateWitnessSchedule4_resting (hs : Resting s) (hlast : LastUnvoted s)
    (hstaffed : Staffed s) (h : Returns updateWitnessSchedule4 s () t) : Resting t := by
  obtain ⟨time, u, hu, h⟩ := h.gets_bind.bind
  obtain ⟨hrest, rfl⟩ := advanceSchedule_resting hs hlast hstaffed hu
  have hwso : ∀ f : WitnessScheduleObject → WitnessScheduleObject,
      (∀ o, o.currentVirtualTime = 0 → (f o).currentVirtualTime = 0) →
      Keeps (Preserves Resting) (modifyWso f) := by
    intro f hf
    refine .update fun a b hab ha => ?_
    rw [← Except.ok.inj hab]
    exact ⟨hf a.wso ha.time, ha.witnesses⟩
  have hhardforks : ∀ f, Keeps (Preserves Resting) (modifyHardforks f) := fun f =>
    .update fun a b hab ha => Except.ok.inj hab ▸ ⟨ha.time, ha.witnesses⟩
  have hcount : Keeps (Preserves Resting) countVersions :=
    .bind (.gets _) fun _ => .bind scheduledWitnesses_keeps fun _ =>
      .bind (hhardforks _) fun _ => .pure _
  have hmedian : Keeps (Preserves Resting) updateMedianWitnessProps := by
    refine .bind scheduledWitnesses_keeps fun _ => .bind (.lift _) fun _ => .bind (.lift _) fun _ =>
      .bind (hwso _ fun _ ho => ho) fun _ => ?_
    exact replace_keeps fun a d hd ha => ⟨ha.time, ha.witnesses⟩
  have hkeeps : Keeps (Preserves Resting) (do
      checkSelection (selectWitnesses s)
      let majority ← countVersions
      let now ← headBlockTime
      let headNum ← headBlockNum
      modifyWso (writeSchedule now headNum 0 majority (selectWitnesses s))
      updateMedianWitnessProps) :=
    .bind (.bind (.gets _) fun _ => .lift _) fun _ => .bind hcount fun _ =>
      .bind (.gets _) fun _ => .bind (.gets _) fun _ => .bind (hwso _ fun _ _ => rfl) fun _ => hmedian
  exact hkeeps.rel u () t h hrest

end Rounds

section Runs

variable {env : Env} {initSupply : ℕ} {calls : List BlockCall} {s : ChainState}

/-- At every round update of a run the last visited witness has no votes. -/
def EveryLastUnvoted (env : Env) (initSupply : ℕ) (calls : List BlockCall) : Prop :=
  ∀ earlier call, earlier ++ [call] <+: calls → ∀ u,
    RunsUpdate env initSupply earlier call u → LastUnvoted u

/-- If the last visited witness of every round has no votes, every reachable state rests. -/
theorem reaches_resting (hround : EveryLastUnvoted env initSupply calls)
    (h : Reaches env initSupply calls s) : Resting s := by
  induction calls using List.reverseRecOn generalizing s with
  | nil =>
    rw [(Returns.pure h).2]
    exact resting_initGenesis env initSupply
  | append_singleton earlier call ih =>
    obtain ⟨u, hu, h⟩ := Returns.forEach_append h
    have hearlier : EveryLastUnvoted env initSupply earlier := fun early c hc =>
      hround early c (hc.trans (List.prefix_append _ _))
    have hrest : Resting u := ih hearlier hu
    obtain ⟨_, t, h, hnil⟩ := Returns.bind h
    rw [(Returns.pure hnil).2]
    obtain ⟨_, a, ha, h⟩ := Returns.bind h
    obtain ⟨_, b, hb, h⟩ := h.bind
    obtain ⟨_, c, hc, h⟩ := h.bind
    obtain ⟨_, d, hd, h⟩ := h.bind
    have hschedule : Returns (applyBlockToSchedule (call.context env) call.block) u () c :=
      ha.intro_bind (hb.intro_bind hc)
    have hfront : Keeps (Preserves Resting)
        (applyBlockToSchedule (call.context env) call.block) :=
      applyBlockToSchedule_keeps resting_headerFrame resting_operationFrame
    have hc := hfront.rel u () c hschedule hrest
    have hd : Resting d := by
      rcases hd.gets_bind.whenever with ⟨hnum, hd⟩ | ⟨-, hd⟩
      · have hupdate : RunsUpdate env initSupply earlier call c := ⟨⟨u, hu, hschedule⟩, hnum⟩
        exact updateWitnessSchedule4_resting hc (hround earlier call List.prefix_rfl c hupdate)
          hupdate.staffed hd
      · rw [hd]
        exact hc
    exact (afterSchedule_keeps (call.context env) resting_operationFrame.toStakeFrame).rel d () t h hd

/-- If at every round update of a run the last visited witness has no votes, every witness
of the state that the run reaches is due when the documented relation says, with the greatest
128-bit value as lap length, and votes that come and go leave the due times as they are. -/
theorem virtual_time_law (hexact : env.SafeExact)
    (hround : EveryLastUnvoted env initSupply calls) (h : Reaches env initSupply calls s) :
    Lawful virtualScheduleLapLength2 s ∧ Steady env.toFcLib s :=
  ⟨(reaches_resting hround h).lawful, (reaches_resting hround h).steady hexact⟩

/-- Whether the last visited witness has no votes, at every round update of the calls. -/
def roundsUnvoted (env : Env) : List BlockCall → ChainState → Bool
  | [], _ => true
  | call :: rest, s =>
    (match applyBlockToSchedule (call.context env) call.block s with
      | .ok (_, u) => u.dgp.headBlockNumber % wlsMaxWitnesses ≠ 0 ||
        (selectWitnesses u).runners.processed.getLast?.all fun w => w.votes = 0
      | .error _ => true) &&
    (match call.run env s with
      | .ok (_, t) => roundsUnvoted env rest t
      | .error _ => true)

/-- The test over all rounds of a run finds the last visited witness of each without votes. -/
theorem lastUnvoted_of_roundsUnvoted {earlier : List BlockCall} {call : BlockCall}
    {start u v : ChainState} (hall : roundsUnvoted env calls start = true)
    (hcalls : earlier ++ [call] <+: calls) (hv : Returns (runBlocks env earlier) start () v)
    (hu : Returns (applyBlockToSchedule (call.context env) call.block) v () u)
    (hnum : u.dgp.headBlockNumber % wlsMaxWitnesses = 0) : LastUnvoted u := by
  induction calls generalizing earlier start with
  | nil => simp at hcalls
  | cons first rest ih =>
    obtain ⟨hfirst, hrest⟩ := (Bool.and_eq_true _ _).mp hall
    cases earlier with
    | nil =>
      obtain ⟨rfl, -⟩ := List.cons_prefix_cons.mp hcalls
      rw [(Returns.pure hv).2] at hu
      rw [show applyBlockToSchedule (call.context env) call.block start = .ok ((), u) from hu]
        at hfirst
      simpa [LastUnvoted, hnum, Option.all_eq_true] using hfirst
    | cons earliest earlier =>
      obtain ⟨rfl, hlater⟩ := List.cons_prefix_cons.mp hcalls
      obtain ⟨_, t, ht, hv⟩ := Returns.bind hv
      rw [show earliest.run env start = .ok ((), t) from ht] at hrest
      exact ih hrest hlater hv

/-- The first round of empty blocks ends with a reset. -/
theorem virtual_time_law_emptyBlocks :
    ∃ s, Reaches sampleEnv 1000000 (firstCalls [] ++ [updateCall []]) s ∧
      Lawful virtualScheduleLapLength2 s ∧ Steady sampleEnv.toFcLib s := by
  have hends : endsIn (runBlocks sampleEnv (firstCalls [] ++ [updateCall []]))
      (initGenesis sampleEnv 1000000) (fun _ _ => true) = true := by
    decide +kernel
  obtain ⟨_, s, hs, -⟩ := returns_of_endsIn hends
  have hunvoted : roundsUnvoted sampleEnv (firstCalls [] ++ [updateCall []])
      (initGenesis sampleEnv 1000000) = true := by
    decide +kernel
  refine ⟨s, hs, virtual_time_law sampleEnv_safeExact ?_ hs⟩
  rintro earlier call hcalls u ⟨⟨v, hv, hu⟩, hnum⟩
  exact lastUnvoted_of_roundsUnvoted hunvoted hcalls hv hu hnum

/-- The account with the first supply votes for every witness. -/
def voteForAll : SignedTransaction where
  refBlockNum := 0
  refBlockPrefix := 0
  expiration := wlsGenesisTime + 60
  operations :=
    .transferToVesting { source := whaleshareAccount, target := .empty, amount := wls 500 } ::
      (List.range wlsMaxWitnesses).map fun i =>
        .accountWitnessVote
          { account := whaleshareAccount, witness := initMinerName i, approve := true }
  signatures := [⟨0⟩]

/-- Whether a witness breaks the documented relation with the greatest lap length. -/
def isLate (w : WitnessObject) : Bool :=
  w.virtualPosition = 0 && uint128 (w.votes + 1) ≠ 0 &&
    w.virtualScheduledTime ≠ min (w.virtualLastUpdate +
      virtualScheduleLapLength2 / uint128 (w.votes + 1)) virtualScheduleLapLength2

/-- If every witness has votes at the first round update, no lap length fits both the first
state and the state after the update. -/
theorem not_lawful_voteForAll :
    ¬ ∃ lapLength, ∀ calls s, Reaches sampleEnv 1000000 calls s → Lawful lapLength s := by
  rintro ⟨lapLength, hall⟩
  have hends : endsIn (runBlocks sampleEnv (firstCalls [voteForAll] ++ [updateCall [voteForAll]]))
      (initGenesis sampleEnv 1000000) (fun _ s => s.witnesses.rows.any isLate) = true := by
    decide +kernel
  obtain ⟨_, s, hs, hp⟩ := returns_of_endsIn hends
  obtain ⟨w, hw, hlate⟩ := List.any_eq_true.mp hp
  simp only [isLate, Bool.and_eq_true, decide_eq_true_eq, ne_eq] at hlate
  obtain ⟨⟨hposition, hdivisor⟩, hlate⟩ := hlate
  have hlap : uint128Sub lapLength 0 = virtualScheduleLapLength2 := by
    have hgenesis := hall [] (initGenesis sampleEnv 1000000) rfl
    obtain ⟨lap, hlap, hscheduled⟩ := hgenesis _ List.mem_cons_self
    have hsub : uint128Sub lapLength 0 = lap := by
      have hdiv : Except.ok (uint128Sub lapLength 0 / 1) = Except.ok lap := hlap
      rw [Nat.div_one] at hdiv
      exact Except.ok.inj hdiv
    have hbound : lap < uint128Bound := by
      rw [← hsub]
      exact Nat.mod_lt _ (by decide)
    have hmin : virtualScheduleLapLength2 = min (0 + lap) virtualScheduleLapLength2 := hscheduled
    rw [hsub]
    simp only [uint128Bound, virtualScheduleLapLength2] at hbound hmin ⊢
    omega
  obtain ⟨lap, hdiv, hscheduled⟩ := hall _ s hs w hw
  rw [hposition, hlap, uint128Div, if_neg hdivisor] at hdiv
  rw [← Except.ok.inj hdiv] at hscheduled
  exact hlate hscheduled

end Runs

end Whaleshares.VirtualTime
