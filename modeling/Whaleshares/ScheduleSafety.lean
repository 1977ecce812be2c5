import Mathlib
import Whaleshares.ChainRun
import Whaleshares.Footprint

/-!
# The number of selected witnesses

`update_witness_schedule4` selects as many witnesses with a signing key as there are,
up to `WLS_MAX_WITNESSES`, and asserts that it selected as many witnesses as there
are, with or without a key. In every reachable state there are enough witnesses, so
the assertion holds exactly if enough of them have a key.
-/

namespace Whaleshares.ScheduleSafety

open Config Fc Assets Protocol Objects Program Database ApplyBlock WitnessSchedule Genesis ChainRun
  Footprint Ledger

section Counting

variable {w : WitnessObject} {rows : List WitnessObject}

/-- The witnesses of a state that have a signing key. -/
def keyedWitnesses (s : ChainState) : List WitnessObject := s.witnesses.rows.filter hasKey

/-- The selection of all rows is a permutation of them. -/
theorem select_all_perm (table : Table WitnessObject) (le : WitnessObject → WitnessObject → Bool) :
    (table.select (fun _ => true) le).Perm table.rows := by
  unfold Table.select
  rw [List.filter_true]
  exact List.perm_insertionSort _ _

/-- The loop over the runners selects all of them until the schedule is full. -/
theorem runWitnesses_selected_length (elected : List WitnessObject) (count time : ℕ)
    (order : List WitnessObject) :
    (runWitnesses elected count time order).selected.length =
      min (wlsMaxWitnesses - count) (order.countP (isRunner elected)) := by
  induction order generalizing count time with
  | nil => simp [runWitnesses]
  | cons w rest ih =>
    unfold runWitnesses
    by_cases hcount : count < wlsMaxWitnesses
    · rw [if_pos hcount]
      by_cases hrunner : isRunner elected w = true
      · have hlength := ih (count + 1) w.virtualScheduledTime
        rw [if_pos hrunner, List.countP_cons_of_pos hrunner]
        simp only [List.length_cons]
        omega
      · have hlength := ih count w.virtualScheduledTime
        rw [if_neg hrunner, List.countP_cons_of_neg hrunner]
        exact hlength
    · rw [if_neg hcount]
      have hfull : wlsMaxWitnesses - count = 0 := by omega
      simp [hfull]

/-- In a list of witnesses with different ids, those that are not in a prefix are as
many as the rest. -/
theorem countP_isRunner_append (first rest : List WitnessObject)
    (hkeys : ∀ w ∈ first ++ rest, hasKey w = true)
    (hids : ((first ++ rest).map (·.id)).Nodup) :
    (first ++ rest).countP (isRunner first) = rest.length := by
  rw [List.map_append, List.nodup_append] at hids
  have hfirst : first.countP (isRunner first) = 0 := by
    refine List.countP_eq_zero.mpr fun w hw hrunner => ?_
    have hmem : first.any (fun e => e.id = w.id) = true := List.any_eq_true.mpr ⟨w, hw, by simp⟩
    simp [isRunner, hmem] at hrunner
  have hrest : rest.countP (isRunner first) = rest.length := by
    refine List.countP_eq_length.mpr fun w hw => ?_
    have hkey := hkeys w (List.mem_append_right _ hw)
    have hnone : first.any (fun e => e.id = w.id) = false := by
      refine List.any_eq_false.mpr fun e he => ?_
      have hne := hids.2.2 e.id (List.mem_map_of_mem he) w.id (List.mem_map_of_mem hw)
      simpa using hne
    simp [isRunner, hkey, hnone]
  rw [List.countP_append, hfirst, hrest, Nat.zero_add]

/-- Only witnesses with a key are runners. -/
theorem countP_isRunner_filter (elected rows : List WitnessObject) :
    (rows.filter hasKey).countP (isRunner elected) = rows.countP (isRunner elected) := by
  rw [List.countP_filter]
  refine List.countP_congr fun w _ => ?_
  unfold isRunner
  cases hasKey w <;> simp

/-- `update_witness_schedule4` selects all witnesses with a key, as far as there is room. -/
theorem selectWitnesses_length {s : ChainState} (hids : (s.witnesses.rows.map (·.id)).Nodup)
    (hmax : s.wso.maxVotedWitnesses = wlsMaxVotedWitnesses) :
    (selectWitnesses s).active.length = min wlsMaxWitnesses (keyedWitnesses s).length := by
  have hvotes := select_all_perm s.witnesses WitnessObject.byVoteName
  have htimes := select_all_perm s.witnesses WitnessObject.byScheduleTime
  have hkeyed : ((s.witnesses.select (fun _ => true) WitnessObject.byVoteName).filter hasKey).Perm
      (keyedWitnesses s) := hvotes.filter hasKey
  let order := (s.witnesses.select (fun _ => true) WitnessObject.byVoteName).filter hasKey
  let elected := order.take wlsMaxVotedWitnesses
  have helected : (selectWitnesses s).elected = elected := by
    simp only [selectWitnesses, electedWitnesses, hmax]
    rfl
  have hsplit : elected ++ order.drop wlsMaxVotedWitnesses = order := List.take_append_drop _ _
  have horderIds : (order.map (·.id)).Nodup := by
    have hrows : ((keyedWitnesses s).map (·.id)).Nodup :=
      hids.sublist (List.filter_sublist.map _)
    exact (hkeyed.map _).nodup_iff.mpr hrows
  have hrunners : s.witnesses.rows.countP (isRunner elected) =
      (order.drop wlsMaxVotedWitnesses).length := by
    rw [← countP_isRunner_filter]
    change (keyedWitnesses s).countP (isRunner elected) = _
    rw [← hkeyed.countP_eq]
    change order.countP (isRunner elected) = _
    have hcount := countP_isRunner_append elected (order.drop wlsMaxVotedWitnesses)
      (by rw [hsplit]; exact fun w hw => (List.mem_filter.mp hw).2) (by rw [hsplit]; exact horderIds)
    rwa [hsplit] at hcount
  have hselected : (selectWitnesses s).runners.selected.length =
      min (wlsMaxWitnesses - elected.length) (order.drop wlsMaxVotedWitnesses).length := by
    rw [← hrunners, ← htimes.countP_eq, ← helected]
    exact runWitnesses_selected_length _ _ _ _
  have hlength : elected.length + (order.drop wlsMaxVotedWitnesses).length =
      (keyedWitnesses s).length := by
    rw [← List.length_append, hsplit]
    exact hkeyed.length_eq
  have htake : elected.length ≤ wlsMaxVotedWitnesses := List.length_take_le _ _
  have hrest : (order.drop wlsMaxVotedWitnesses).length = order.length - wlsMaxVotedWitnesses :=
    List.length_drop
  have hall : order.length = (keyedWitnesses s).length := hkeyed.length_eq
  unfold Selection.active
  rw [List.length_map, List.length_append, hselected, helected]
  simp only [wlsMaxWitnesses, wlsMaxVotedWitnesses] at *
  omega

end Counting

section Invariant

/-- What every reachable state has: different ids of the witnesses, no fewer witnesses
than a schedule holds, and the first value of the number of elected witnesses. -/
structure Staffed (s : ChainState) : Prop where
  ids : (s.witnesses.rows.map (·.id)).Nodup
  fresh : ∀ w ∈ s.witnesses.rows, w.id < s.witnesses.nextId
  enough : wlsMaxWitnesses ≤ s.witnesses.rows.length
  maxVoted : s.wso.maxVotedWitnesses = wlsMaxVotedWitnesses

/-- Whether the state is staffed depends on the ids of the witnesses. -/
theorem Staffed.of_ids {s : ChainState} (h : Staffed s) {x : Table WitnessObject}
    (hids : x.rows.map (·.id) = s.witnesses.rows.map (·.id)) (hnext : x.nextId = s.witnesses.nextId) :
    Staffed { s with witnesses := x } := by
  have hlength : x.rows.length = s.witnesses.rows.length := by
    have := congrArg List.length hids
    simpa using this
  constructor
  · change (x.rows.map (·.id)).Nodup
    rw [hids]
    exact h.ids
  · intro w hw
    have hmem : w.id ∈ s.witnesses.rows.map (·.id) := hids ▸ List.mem_map_of_mem hw
    obtain ⟨v, hv, hid⟩ := List.mem_map.mp hmem
    have hlt := h.fresh v hv
    change w.id < x.nextId
    omega
  · change wlsMaxWitnesses ≤ x.rows.length
    rw [hlength]
    exact h.enough
  · exact h.maxVoted

/-- A new witness keeps the state staffed. -/
theorem Staffed.newWitness {s : ChainState} (h : Staffed s) {x : Table WitnessObject}
    {w : WitnessObject} (hrows : x.rows = s.witnesses.rows ++ [w]) (hid : w.id = s.witnesses.nextId)
    (hnext : x.nextId = s.witnesses.nextId + 1) : Staffed { s with witnesses := x } := by
  constructor
  · change (x.rows.map (·.id)).Nodup
    rw [hrows, List.map_append, List.nodup_append]
    refine ⟨h.ids, by simp, ?_⟩
    intro i hi j hj
    obtain ⟨v, hv, rfl⟩ := List.mem_map.mp hi
    have hlt := h.fresh v hv
    have hj : j = w.id := by simpa using hj
    omega
  · intro v hv
    change v.id < x.nextId
    rw [hrows] at hv
    rcases List.mem_append.mp hv with hv | hv
    · have hlt := h.fresh v hv
      omega
    · have hv : v = w := by simpa using hv
      rw [hv]
      omega
  · change wlsMaxWitnesses ≤ x.rows.length
    have hlength : x.rows.length = s.witnesses.rows.length + 1 := by simp [hrows]
    have henough := h.enough
    omega
  · exact h.maxVoted

/-- What the footprint leaves alone keeps the state staffed. -/
theorem staffed_stepFrame : StepFrame (Preserves Staffed) where
  accounts _ _ _ h := ⟨h.ids, h.fresh, h.enough, h.maxVoted⟩
  accountAuthorities _ _ h := ⟨h.ids, h.fresh, h.enough, h.maxVoted⟩
  comments _ _ h := ⟨h.ids, h.fresh, h.enough, h.maxVoted⟩
  commentVotes _ _ h := ⟨h.ids, h.fresh, h.enough, h.maxVoted⟩
  witnessVotes _ _ h := ⟨h.ids, h.fresh, h.enough, h.maxVoted⟩
  withdrawVestingRoutes _ _ h := ⟨h.ids, h.fresh, h.enough, h.maxVoted⟩
  transactions _ _ h := ⟨h.ids, h.fresh, h.enough, h.maxVoted⟩
  witnesses s x hsigners hnext h := by
    have hids := congrArg (List.map Prod.fst) hsigners
    rw [List.map_map, List.map_map] at hids
    exact h.of_ids hids hnext
  dgp _ _ _ h := ⟨h.ids, h.fresh, h.enough, h.maxVoted⟩
  wso _ _ hmax h := ⟨h.ids, h.fresh, h.enough, hmax.trans h.maxVoted⟩
  hardforks _ _ h := ⟨h.ids, h.fresh, h.enough, h.maxVoted⟩
  blockSummaries _ _ h := ⟨h.ids, h.fresh, h.enough, h.maxVoted⟩
  signingWitness s x howners hnext h := by
    have hids := congrArg (List.map Prod.fst) howners
    rw [List.map_map, List.map_map] at hids
    exact h.of_ids hids hnext

/-- The routines of money keep the state staffed. -/
theorem staffed_moneyFrame : MoneyFrame (Preserves Staffed) where
  toFrame := staffed_stepFrame.toFrame
  newWitness _ _ _ hrows hid _ hnext h := h.newWitness hrows hid hnext
  anyAccounts _ _ h := ⟨h.ids, h.fresh, h.enough, h.maxVoted⟩
  rewardFunds _ _ h := ⟨h.ids, h.fresh, h.enough, h.maxVoted⟩
  totals _ _ _ h := ⟨h.ids, h.fresh, h.enough, h.maxVoted⟩

/-- The genesis state is staffed. -/
theorem staffed_initGenesis (env : Env) (initSupply : ℕ) : Staffed (initGenesis env initSupply) := by
  have hids : (genesisWitnesses env).map (·.id) = List.range wlsMaxWitnesses := by
    unfold genesisWitnesses
    rw [List.map_map]
    exact List.map_id _
  have hlength : (genesisWitnesses env).length = wlsMaxWitnesses := by simp [genesisWitnesses]
  constructor
  · change ((genesisWitnesses env).map (·.id)).Nodup
    rw [hids]
    exact List.nodup_range
  · intro w hw
    have hmem : w.id ∈ (genesisWitnesses env).map (·.id) := List.mem_map_of_mem hw
    rw [hids] at hmem
    exact List.mem_range.mp hmem
  · exact hlength.ge
  · rfl

/-- Every reachable state is staffed. -/
theorem Reaches.staffed {env : Env} {initSupply : ℕ} {calls : List BlockCall} {s : ChainState}
    (h : Reaches env initSupply calls s) : Staffed s := by
  refine h.induction (staffed_initGenesis env initSupply) fun call _ u v hu hcall => ?_
  exact (applyBlock_keeps (call.context env) staffed_stepFrame staffed_moneyFrame call.block).rel
    u () v hcall hu

end Invariant

section Schedule

/-- The part of `_apply_block` before `update_witness_schedule`. -/
def applyBlockToSchedule (ctx : Context) (b : SignedBlock) : Chain Unit := do
  applyBlockFront ctx b
  createBlockSummary ctx b
  clearExpiredTransactions

/-- `update_witness_schedule4` runs in the state `s`: the calls were accepted, and the
next one gets to the schedule with a head number that calls for an update. -/
def RunsUpdate (env : Env) (initSupply : ℕ) (calls : List BlockCall) (call : BlockCall)
    (s : ChainState) : Prop :=
  (∃ u, Reaches env initSupply calls u ∧
    Returns (applyBlockToSchedule (call.context env) call.block) u () s) ∧
  s.dgp.headBlockNumber % wlsMaxWitnesses = 0

/-- The update selects as many witnesses as it expects, and its assertion holds. -/
def SelectsExpected (s : ChainState) : Prop :=
  (selectWitnesses s).active.length = min wlsMaxWitnesses s.witnesses.rows.length ∧
  ∀ time t, Returns (advanceSchedule (selectWitnesses s)) s time t →
    Returns (checkSelection (selectWitnesses s)) t () t

/-- Up to the update of the schedule, a block keeps a relation that allows what operations change
and what the header changes. -/
theorem applyBlockToSchedule_keeps {R : ChainState → ChainState → Prop} [IsPreorder ChainState R]
    {ctx : Context} {b : SignedBlock} (hheader : HeaderFrame R)
    (hoperations : OperationFrame ctx.env.toFcLib R) : Keeps R (applyBlockToSchedule ctx b) :=
  .bind (applyBlockFront_keeps ctx hheader b fun trx _ =>
      applyTransaction_keeps ctx hoperations trx) fun _ =>
    .bind (createBlockSummary_keeps ctx hheader.blockSummaries b) fun _ =>
    clearExpiredTransactions_keeps hheader.toQuietFrame

/-- The state before the update of the schedule is staffed. -/
theorem applyBlockToSchedule_staffed {ctx : Context} {b : SignedBlock} {s t : ChainState}
    (hs : Staffed s) (h : Returns (applyBlockToSchedule ctx b) s () t) : Staffed t := by
  have hkeeps : Keeps (Preserves Staffed) (applyBlockToSchedule ctx b) :=
    applyBlockToSchedule_keeps staffed_stepFrame.toHeaderFrame
      (staffed_moneyFrame.toOperationFrame _)
  exact hkeeps.rel s () t h hs

/-- At every update of a run the state is staffed. -/
theorem RunsUpdate.staffed {env : Env} {initSupply : ℕ} {calls : List BlockCall}
    {call : BlockCall} {s : ChainState} (h : RunsUpdate env initSupply calls call s) :
    Staffed s := by
  obtain ⟨⟨u, hu, hs⟩, -⟩ := h
  exact applyBlockToSchedule_staffed (Reaches.staffed hu) hs

/-- The states have equally many witnesses. -/
def SameNumber (s t : ChainState) : Prop := t.witnesses.rows.length = s.witnesses.rows.length

instance : IsPreorder ChainState SameNumber where
  refl _ := rfl
  trans _ _ _ hst htu := Eq.trans htu hst

/-- What the footprint leaves alone keeps the number of the head. -/
theorem sameNumber_stepFrame : StepFrame SameNumber where
  accounts _ _ _ := rfl
  accountAuthorities _ _ := rfl
  comments _ _ := rfl
  commentVotes _ _ := rfl
  witnessVotes _ _ := rfl
  withdrawVestingRoutes _ _ := rfl
  transactions _ _ := rfl
  witnesses s x hsigners _ := by
    change x.rows.length = s.witnesses.rows.length
    simpa using congrArg List.length hsigners
  dgp _ _ _ := rfl
  wso _ _ _ := rfl
  hardforks _ _ := rfl
  blockSummaries _ _ := rfl
  signingWitness s x howners _ := by
    change x.rows.length = s.witnesses.rows.length
    simpa using congrArg List.length howners

/-- The assertion of `update_witness_schedule4` holds if the selection has as many
witnesses as the state before. -/
theorem checkSelection_returns {selection : Selection} {s t : ChainState} {time : ℕ}
    (hlength : selection.active.length = min wlsMaxWitnesses s.witnesses.rows.length)
    (h : Returns (advanceSchedule selection) s time t) :
    Returns (checkSelection selection) t () t := by
  have hsame : t.witnesses.rows.length = s.witnesses.rows.length :=
    (advanceSchedule_keeps sameNumber_stepFrame.toScheduleFrame.toRoundFrame.toTurnFrame selection).rel s time t h
  have hexpected : selection.active.length = expectedActiveWitnesses t := by
    rw [hlength, expectedActiveWitnesses, hsame]
  simp [Returns, checkSelection, gets, lift, fcAssert, hexpected, bind, StateT.bind, Except.bind]

/-- Whenever the schedule is updated in a run from `init_genesis`, as many witnesses are
selected as the code expects if and only if at least `WLS_MAX_WITNESSES` witnesses have a
signing key. -/
theorem selectsExpected_iff_enough_keys {env : Env} {initSupply : ℕ} {calls : List BlockCall}
    {call : BlockCall} {s : ChainState} (h : RunsUpdate env initSupply calls call s) :
    SelectsExpected s ↔ wlsMaxWitnesses ≤ (s.witnesses.rows.filter hasKey).length := by
  have hstaffed := h.staffed
  have hlength : (selectWitnesses s).active.length =
      min wlsMaxWitnesses (s.witnesses.rows.filter hasKey).length :=
    selectWitnesses_length hstaffed.ids hstaffed.maxVoted
  have henough := hstaffed.enough
  constructor
  · intro hselects
    have hexpected := hselects.1
    omega
  · intro hkeys
    have hexpected : (selectWitnesses s).active.length =
        min wlsMaxWitnesses s.witnesses.rows.length := by omega
    exact ⟨hexpected, fun time t ht => checkSelection_returns hexpected ht⟩

/-- The calls for the blocks before the first update of the schedule. -/
def firstCalls (transactions : List SignedTransaction) : List BlockCall :=
  (List.range 20).map fun n => sampleCall (sampleChain transactions n)

/-- The call for the block that updates the schedule first. -/
def updateCall (transactions : List SignedTransaction) : BlockCall :=
  sampleCall (sampleChain transactions 20)

/-- The calls of the first round up to the update of the schedule. -/
def firstRound (transactions : List SignedTransaction) : Chain Unit := do
  runBlocks sampleEnv (firstCalls transactions)
  applyBlockToSchedule ((updateCall transactions).context sampleEnv) (updateCall transactions).block

/-- The first round runs the update of the schedule. -/
theorem runsUpdate_firstRound {transactions : List SignedTransaction} {s : ChainState}
    (h : Returns (firstRound transactions) (initGenesis sampleEnv 1000000) () s)
    (hnum : s.dgp.headBlockNumber % wlsMaxWitnesses = 0) :
    RunsUpdate sampleEnv 1000000 (firstCalls transactions) (updateCall transactions) s := by
  obtain ⟨_, u, hu, hs⟩ := h.bind
  exact ⟨⟨u, hu, hs⟩, hnum⟩

/-- With empty blocks all witnesses keep their keys, and the first update selects all. -/
theorem selectsExpected_iff_enough_keys_emptyBlocks :
    ∃ s, RunsUpdate sampleEnv 1000000 (firstCalls []) (updateCall []) s ∧
      wlsMaxWitnesses ≤ (s.witnesses.rows.filter hasKey).length ∧ SelectsExpected s := by
  have hends : endsIn (firstRound []) (initGenesis sampleEnv 1000000)
      (fun _ s => decide (s.dgp.headBlockNumber % wlsMaxWitnesses = 0 ∧
        wlsMaxWitnesses ≤ (s.witnesses.rows.filter hasKey).length)) = true := by
    decide +kernel
  obtain ⟨_, s, hs, hp⟩ := returns_of_endsIn hends
  have hp := of_decide_eq_true hp
  have hruns := runsUpdate_firstRound hs hp.1
  exact ⟨s, hruns, hp.2, (selectsExpected_iff_enough_keys hruns).mpr hp.2⟩

/-- The second witness withdraws its key. -/
def withdrawKey : SignedTransaction where
  refBlockNum := 0
  refBlockPrefix := 0
  expiration := wlsGenesisTime + 60
  operations := [.witnessUpdate
    { owner := initMinerName 1, url := bytesOf "url", blockSigningKey := .null, props := {}
      fee := wls 0 }]
  signatures := [⟨0⟩]

/-- If a witness withdraws its key in the first block, the first update selects twenty
witnesses and expects one more. -/
theorem not_selectsExpected_withdrawKey :
    ¬ ∀ (env : Env) (initSupply : ℕ) (calls : List BlockCall) (call : BlockCall)
      (s : ChainState), RunsUpdate env initSupply calls call s → SelectsExpected s := by
  intro hall
  have hends : endsIn (firstRound [withdrawKey]) (initGenesis sampleEnv 1000000)
      (fun _ s => decide (s.dgp.headBlockNumber % wlsMaxWitnesses = 0 ∧
        (selectWitnesses s).active.length ≠ min wlsMaxWitnesses s.witnesses.rows.length)) =
        true := by
    decide +kernel
  obtain ⟨_, s, hs, hp⟩ := returns_of_endsIn hends
  have hp := of_decide_eq_true hp
  have hselects := hall _ _ _ _ s (runsUpdate_firstRound hs hp.1)
  exact hp.2 hselects.1

end Schedule

end Whaleshares.ScheduleSafety
