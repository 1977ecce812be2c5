import Whaleshares.RoundPay
import Whaleshares.ScheduleParameters

/-!
# Votes for a hardfork that the program does not know

The program has no hardforks besides the first one. Once a quorum of the outgoing witnesses votes
for another one, `process_hardforks` throws in every block from the time of the vote on, so until
the next update of the schedule the chain of a node stays below this time.
-/

namespace Whaleshares.HardforkVotes

open Config Fc Assets Protocol Objects Program Database ApplyBlock WitnessSchedule Genesis ChainRun
  ChainTip Footprint ScheduleSafety ScheduleContent WitnessPay RoundPay ScheduleParameters

variable {s t u : ChainState} {ctx : Context} {b : SignedBlock}

section Blocks

/-- The hardforks stay. -/
def SameHardforks (s t : ChainState) : Prop := t.hardforks = s.hardforks

instance : IsPreorder ChainState SameHardforks where
  refl _ := rfl
  trans _ _ _ hst htu := Eq.trans htu hst

/-- Operations keep the hardforks. -/
theorem sameHardforks_operationFrame (fc : FcLib) : OperationFrame fc SameHardforks where
  quietAccounts _ _ _ _ := rfl
  comments _ _ := rfl
  commentVotes _ _ := rfl
  withdrawVestingRoutes _ _ := rfl
  transactions _ _ := rfl
  quietWitnesses _ _ _ _ := rfl
  rewardAccounts _ _ _ _ := rfl
  rewardFunds _ _ := rfl
  rewardTotals _ _ _ _ := rfl
  ballots _ _ _ := rfl
  witnessVotes _ _ := rfl
  tallies _ _ _ _ _ := rfl
  anyAccounts _ _ := rfl
  totals _ _ _ := rfl
  accountAuthorities _ _ := rfl
  newcomer _ _ _ _ _ _ _ _ := rfl

/-- The routines before the schedule keep the hardforks. -/
theorem sameHardforks_headerFrame : HeaderFrame SameHardforks where
  toQuietFrame := (sameHardforks_operationFrame sampleEnv.toFcLib).toQuietFrame
  header _ _ _ := rfl
  signed _ _ _ _ := rfl
  blockSummaries _ _ := rfl

/-- A block up to its update of the schedule keeps the hardforks. -/
theorem applyBlockToSchedule_sameHardforks : Keeps SameHardforks (applyBlockToSchedule ctx b) :=
  applyBlockToSchedule_keeps sameHardforks_headerFrame (sameHardforks_operationFrame _)

/-- The routines behind the schedule keep the hardforks. -/
theorem afterSchedule_sameHardforks : Keeps SameHardforks (afterSchedule ctx) :=
  afterSchedule_keeps ctx (sameHardforks_operationFrame _).toStakeFrame

/-- No unknown hardfork is due. -/
def Undue (s : ChainState) : Prop :=
  0 < s.hardforks.nextHardfork.vNum → s.dgp.time < s.hardforks.nextHardforkTime

/-- If the hardforks are processed, none that is unknown is due. -/
theorem processHardforks_undue (h : Returns processHardforks s () t) : Undue t := by
  obtain ⟨hchecked, rfl⟩ := h.gets_bind.gets_bind.lift
  intro hunknown
  by_contra hdue
  simp [hunknown, not_lt.mp hdue] at hchecked

/-- Every block that a node applies ends before an unknown hardfork is due. -/
theorem applyBlock_undue (h : Returns (applyBlock ctx b) s () t) : Undue t := by
  obtain ⟨v, w, -, -, hrest⟩ := applyBlock_parts h
  obtain ⟨_, _, -, hrest⟩ := hrest.bind
  obtain ⟨_, _, -, hrest⟩ := hrest.bind
  obtain ⟨_, _, -, hrest⟩ := hrest.bind
  obtain ⟨_, _, -, hrest⟩ := hrest.bind
  exact processHardforks_undue hrest

end Blocks

section Runs

variable {env : Env} {initSupply : ℕ} {calls later : List BlockCall} {call : BlockCall}

/-- The block that updates the schedule leaves the hardforks as the update writes them. -/
theorem RunsUpdate.hardforks (hrun : RunsUpdate env initSupply calls call s)
    (h : Returns updateWitnessSchedule4 s () t)
    (hu : Reaches env initSupply (calls ++ [call]) u) : u.hardforks = t.hardforks := by
  obtain ⟨⟨before, hbefore, hs⟩, hnum⟩ := hrun
  obtain ⟨before', hbefore', hcall⟩ := reaches_append.mp hu
  obtain ⟨v, w, hv, hw, hrest⟩ := applyBlock_parts hcall
  obtain rfl := hbefore.state_unique hbefore'
  obtain rfl := hs.state_unique hv
  have hupdated : Returns updateWitnessSchedule4 s () w := by
    simpa [whenever, hnum] using hw.gets_bind
  obtain rfl := h.state_unique hupdated
  exact afterSchedule_sameHardforks.rel t () u hrest

/-- A block that does not update the schedule leaves the hardforks as they are. -/
theorem applyBlock_sameHardforks (hreaches : Reaches env initSupply calls s)
    (hnum : (calls.length + 1) % wlsMaxWitnesses ≠ 0)
    (h : Returns (applyBlock (call.context env) call.block) s () t) :
    t.hardforks = s.hardforks := by
  obtain ⟨v, w, hv, hw, hrest⟩ := applyBlock_parts h
  have hnumber := applyBlockToSchedule_number hreaches hv
  obtain rfl := updateWitnessSchedule_idle (hnumber ▸ hnum) hw
  have hbefore : w.hardforks = s.hardforks := applyBlockToSchedule_sameHardforks.rel s () w hv
  have hafter : t.hardforks = w.hardforks := afterSchedule_sameHardforks.rel w () t hrest
  exact hafter.trans hbefore

/-- The run lemma: the hardforks stay until the next update. -/
theorem RunsUpdate.hardforks_later (hrun : RunsUpdate env initSupply calls call s)
    (h : Returns updateWitnessSchedule4 s () t) (hlater : later.length < wlsMaxWitnesses)
    (hu : Reaches env initSupply (calls ++ [call] ++ later) u) :
    u.hardforks = t.hardforks ∧ Undue u := by
  have hround : (calls.length + 1) % wlsMaxWitnesses = 0 := by
    obtain ⟨⟨before, hbefore, hs⟩, hnum⟩ := hrun
    rw [← applyBlockToSchedule_number hbefore hs]
    exact hnum
  induction later using List.reverseRecOn generalizing u with
  | nil =>
    rw [List.append_nil] at hu
    obtain ⟨before, -, hcall⟩ := reaches_append.mp hu
    exact ⟨RunsUpdate.hardforks hrun h hu, applyBlock_undue hcall⟩
  | append_singleton later last ih =>
    rw [← List.append_assoc] at hu
    obtain ⟨before, hbefore, hlast⟩ := reaches_append.mp hu
    rw [List.length_append, List.length_singleton] at hlater
    obtain ⟨hsame, -⟩ := ih (by omega) hbefore
    have hnum : ((calls ++ [call] ++ later).length + 1) % wlsMaxWitnesses ≠ 0 := by
      rw [List.length_append, List.length_append, List.length_singleton]
      unfold wlsMaxWitnesses at hround hlater ⊢
      omega
    exact ⟨(applyBlock_sameHardforks hbefore hnum hlast).trans hsame, applyBlock_undue hlast⟩

/-- If a quorum of the outgoing witnesses votes for a hardfork that the program does not know, no
run gets to the time of the hardfork before the next update of the schedule. -/
theorem unknown_hardfork_halts (hrun : RunsUpdate env initSupply calls call s)
    (h : Returns updateWitnessSchedule4 s () t) :
    ∃ outgoing, Panel t (scheduledNames s) outgoing ∧
      ∀ version time, 0 < version.vNum →
        wlsHardforkRequiredWitnesses ≤ outgoing.countP (votesFor version time) →
        ∀ later u, later.length < wlsMaxWitnesses →
          Reaches env initSupply (calls ++ [call] ++ later) u → u.dgp.time < time := by
  obtain ⟨outgoing, incoming, houtcome⟩ := updateWitnessSchedule4_outcome h
  refine ⟨outgoing, houtcome.voters, fun version time hunknown hvotes later u hlater hu => ?_⟩
  obtain ⟨hsame, hundue⟩ := RunsUpdate.hardforks_later hrun h hlater hu
  unfold Undue at hundue
  rw [hsame, RunsUpdate.hardforks_of_quorum hrun houtcome hvotes] at hundue
  exact hundue hunknown

/-- The vote for a hardfork at the time of the first block of the third round. -/
def sampleVote : Version × TimePointSec := (⟨2 ^ 16⟩, wlsGenesisTime + 43 * wlsBlockInterval)

/-- The block with a vote of its witness. -/
def voting (b : SignedBlock) : SignedBlock :=
  { b with header :=
    { b.header with extensions := [.hardforkVersionVote sampleVote.1 sampleVote.2] } }

/-- The second round of a chain, in which every witness votes. -/
def votingRound : ℕ → SignedBlock
  | 0 => voting (sampleBlock ((sampleChain [] 20).id sampleEnv)
      (wlsGenesisTime + 22 * wlsBlockInterval) (initMinerName (secondOrder.getD 0 0)) [])
  | n + 1 => voting (sampleBlock ((votingRound n).id sampleEnv)
      (wlsGenesisTime + (n + 23) * wlsBlockInterval) (initMinerName (secondOrder.getD (n + 1) 0))
      [])

/-- The blocks before the second update. -/
def votingCalls : List BlockCall :=
  firstCalls [] ++ [updateCall []] ++ (List.range 20).map fun n => sampleCall (votingRound n)

def votingCall : BlockCall := sampleCall (votingRound 20)

/-- In the round before the second update all 21 witnesses vote. -/
theorem votingUpdate :
    ∃ s t, RunsUpdate sampleEnv 1000000 votingCalls votingCall s ∧
      Returns updateWitnessSchedule4 s () t ∧ (scheduledNames s).length = 21 ∧
      ∀ w ∈ t.witnesses.rows, votesFor sampleVote.1 sampleVote.2 w = true := by
  have hends : endsIn (runBlocks sampleEnv votingCalls) (initGenesis sampleEnv 1000000)
      (fun _ s => endsIn (applyBlockToSchedule (votingCall.context sampleEnv) votingCall.block) s
        fun _ s => (s.dgp.headBlockNumber % wlsMaxWitnesses = 0 &&
          (scheduledNames s).length = 21) && endsIn updateWitnessSchedule4 s fun _ t =>
            t.witnesses.rows.all (votesFor sampleVote.1 sampleVote.2)) = true := by
    decide +kernel
  obtain ⟨_, before, hbefore, hends⟩ := returns_of_endsIn hends
  obtain ⟨_, s, hs, hends⟩ := returns_of_endsIn hends
  obtain ⟨hstart, hends⟩ := (Bool.and_eq_true _ _).mp hends
  obtain ⟨hnum, hcount⟩ := (Bool.and_eq_true _ _).mp hstart
  obtain ⟨_, t, ht, hall⟩ := returns_of_endsIn hends
  exact ⟨s, t, ⟨⟨before, hbefore, hs⟩, of_decide_eq_true hnum⟩, ht, of_decide_eq_true hcount,
    fun w hw => List.all_eq_true.mp hall w hw⟩

/-- All the outgoing witnesses of that update vote, and they are a quorum. -/
theorem votingUpdate_counts {outgoing : List WitnessObject}
    (hpanel : Panel t (scheduledNames s) outgoing) (hcount : (scheduledNames s).length = 21)
    (hall : ∀ w ∈ t.witnesses.rows, votesFor sampleVote.1 sampleVote.2 w = true) :
    outgoing.length = 21 ∧
      wlsHardforkRequiredWitnesses ≤ outgoing.countP (votesFor sampleVote.1 sampleVote.2) := by
  have hlength : outgoing.length = 21 := by
    rw [← List.length_map (f := (·.owner)), hpanel.owners]
    exact hcount
  have hvotes : outgoing.countP (votesFor sampleVote.1 sampleVote.2) = outgoing.length :=
    List.countP_eq_length.mpr fun w hw => hall w (hpanel.rows w hw)
  rw [hvotes, hlength]
  exact ⟨rfl, by decide⟩

/-- All 21 witnesses vote, so no block at the time of the vote is applied. -/
theorem unknown_hardfork_halts_votingRound :
    ∃ s t, RunsUpdate sampleEnv 1000000 votingCalls votingCall s ∧
      Returns updateWitnessSchedule4 s () t ∧ ∀ later u, later.length < wlsMaxWitnesses →
        Reaches sampleEnv 1000000 (votingCalls ++ [votingCall] ++ later) u →
          u.dgp.time < sampleVote.2 := by
  obtain ⟨s, t, hrun, ht, hcount, hall⟩ := votingUpdate
  obtain ⟨outgoing, hpanel, hhalts⟩ := unknown_hardfork_halts hrun ht
  exact ⟨s, t, hrun, ht, hhalts sampleVote.1 sampleVote.2 (by decide)
    (votingUpdate_counts hpanel hcount hall).2⟩

/-- The vote of all 21 witnesses is the next hardfork, and the version of the majority is one that
they run. -/
theorem quorum_decides_votingRound :
    ∃ s t outgoing, RunsUpdate sampleEnv 1000000 votingCalls votingCall s ∧
      Returns updateWitnessSchedule4 s () t ∧ Panel t (scheduledNames s) outgoing ∧
      t.hardforks = { s.hardforks with
        nextHardfork := sampleVote.1, nextHardforkTime := sampleVote.2 } ∧
      ∃ w ∈ outgoing, w.runningVersion = t.wso.majorityVersion := by
  obtain ⟨s, t, hrun, ht, hcount, hall⟩ := votingUpdate
  obtain ⟨outgoing, hpanel, hquorum, -, hmajority, -⟩ := quorum_decides hrun ht
  obtain ⟨hlength, hvotes⟩ := votingUpdate_counts hpanel hcount hall
  have hmany : wlsHardforkRequiredWitnesses ≤ outgoing.length := by
    rw [hlength]
    decide
  exact ⟨s, t, outgoing, hrun, ht, hpanel, hquorum _ _ hvotes, (hmajority hmany).1⟩

end Runs

end Whaleshares.HardforkVotes
