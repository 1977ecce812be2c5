import Whaleshares.Database

/-!
# The witness schedule

`chain/witness_schedule.cpp`: every `WLS_MAX_WITNESSES` blocks the witnesses with the
most votes and the runners whose virtual time comes first are selected, shuffled and
written to the schedule. Witnesses without a signing key are passed over, while the
number that must be selected counts them.
-/

namespace Whaleshares.WitnessSchedule

open Config Fc Assets Protocol Objects Program Database

section Selection

/-- Whether a witness can sign blocks. -/
def hasKey (w : WitnessObject) : Bool := w.signingKey ≠ .null

/-- The witnesses with the most votes among those with a signing key, from the order
of `by_vote_name`. -/
def electedWitnesses (maxVoted : ℕ) (byVoteName : List WitnessObject) : List WitnessObject :=
  (byVoteName.filter hasKey).take maxVoted

/-- Whether a witness has a key and is not among the elected ones. -/
def isRunner (elected : List WitnessObject) (w : WitnessObject) : Bool :=
  hasKey w && !elected.any (fun e => e.id = w.id)

/-- What the loop over the runners finds. -/
structure Runners where
  /-- The witnesses that were visited. -/
  processed : List WitnessObject
  /-- Those among them that were selected. -/
  selected : List WitnessObject
  /-- The virtual time of the last visited one. -/
  newVirtualTime : ℕ

/-- The loop over the runners in the order of `by_schedule_time`, with the number of
witnesses that are selected so far. -/
def runWitnesses (elected : List WitnessObject) : ℕ → ℕ → List WitnessObject → Runners
  | _, virtualTime, [] => ⟨[], [], virtualTime⟩
  | count, virtualTime, w :: rest =>
    if count < wlsMaxWitnesses then
      if isRunner elected w then
        let runners := runWitnesses elected (count + 1) w.virtualScheduledTime rest
        { runners with processed := w :: runners.processed, selected := w :: runners.selected }
      else
        let runners := runWitnesses elected count w.virtualScheduledTime rest
        { runners with processed := w :: runners.processed }
    else ⟨[], [], virtualTime⟩

/-- What `update_witness_schedule4` selects. -/
structure Selection where
  elected : List WitnessObject
  runners : Runners

/-- The selection of `update_witness_schedule4` from the witnesses of a state. -/
def selectWitnesses (s : ChainState) : Selection :=
  let elected := electedWitnesses s.wso.maxVotedWitnesses
    (s.witnesses.select (fun _ => true) WitnessObject.byVoteName)
  let runners := runWitnesses elected elected.length s.wso.currentVirtualTime
    (s.witnesses.select (fun _ => true) WitnessObject.byScheduleTime)
  ⟨elected, runners⟩

/-- `active_witnesses` -/
def Selection.active (selection : Selection) : List AccountName :=
  (selection.elected ++ selection.runners.selected).map (·.owner)

/-- `expected_active_witnesses` -/
def expectedActiveWitnesses (s : ChainState) : ℕ := min wlsMaxWitnesses s.witnesses.rows.length

end Selection

section VirtualTime

/-- The change of a witness in `reset_virtual_schedule_time`. -/
def resetWitness (w : WitnessObject) : Except Exc WitnessObject := do
  let scheduled ← uint128Div virtualScheduleLapLength2 (uint128 (w.votes + 1))
  pure { w with virtualPosition := 0, virtualLastUpdate := 0, virtualScheduledTime := scheduled }

/-- `reset_virtual_schedule_time` -/
def resetVirtualScheduleTime : Chain Unit := do
  modifyWso fun o => { o with currentVirtualTime := 0 }
  let witnesses ← gets (·.witnesses.rows)
  forEach (fun w => modifyWitness (fun v => v.id = w.id) resetWitness) witnesses

/-- The loop that moves the visited witnesses on; returns whether the time overflows. -/
def advanceProcessed (newVirtualTime : ℕ) : List WitnessObject → Chain Bool
  | [] => pure false
  | w :: rest => do
    let lap ← lift (uint128Div virtualScheduleLapLength (uint128 (w.votes + 1)))
    let scheduled := uint128Add newVirtualTime lap
    if scheduled < newVirtualTime then pure true
    else do
      modifyWitness (fun v => v.id = w.id) fun wo => .ok { wo with
        virtualPosition := 0
        virtualLastUpdate := newVirtualTime
        virtualScheduledTime := scheduled }
      advanceProcessed newVirtualTime rest

/-- The virtual time after the visited witnesses have moved on. -/
def advanceVirtualTime (runners : Runners) : Chain ℕ := do
  let reset ← advanceProcessed runners.newVirtualTime runners.processed
  if reset then do
    resetVirtualScheduleTime
    pure 0
  else pure runners.newVirtualTime

end VirtualTime

section Versions

/-- The scheduled witnesses. -/
def scheduledWitnesses : Chain (List WitnessObject) := fun s => do
  let witnesses ← (s.wso.currentShuffledWitnesses.take s.wso.numScheduledWitnesses).mapM
    fun name => orUnknown (s.witnesses.find (ownedBy name))
  pure (witnesses, s)

/-- The loop over the versions, the greatest first, with the witnesses seen so far. -/
def majorityVersion (required : ℕ) (running : List Version) : ℕ → List Version → Option Version
  | _, [] => none
  | seen, v :: rest =>
    let seen := seen + running.count v
    if required ≤ seen then some v else majorityVersion required running seen rest

/-- The distinct versions that the witnesses run, the greatest first. -/
def distinctVersions (running : List Version) : List Version :=
  running.dedup.insertionSort fun a b => b.vNum ≤ a.vNum

/-- The order of the hardfork votes: by version, then by time. -/
def hardforkVoteLe (a b : Version × TimePointSec) : Bool :=
  a.1.vNum < b.1.vNum || (a.1.vNum = b.1.vNum && a.2 ≤ b.2)

/-- The first hardfork vote that enough witnesses share. -/
def majorityHardfork (required : ℕ) (votes : List (Version × TimePointSec)) :
    Option (Version × TimePointSec) :=
  (votes.dedup.insertionSort fun a b => hardforkVoteLe a b).find? fun vote =>
    required ≤ votes.count vote

/-- The hardfork that is next after a count of the votes. -/
def nextHardfork (vote : Option (Version × TimePointSec)) (hpo : HardforkPropertyObject) :
    HardforkPropertyObject :=
  match vote with
  | some vote => { hpo with nextHardfork := vote.1, nextHardforkTime := vote.2 }
  | none => { hpo with nextHardfork := hpo.currentHardforkVersion }

/-- The part of `update_witness_schedule4` that counts versions and hardfork votes;
returns the majority version. -/
def countVersions : Chain Version := do
  let wso ← gets (·.wso)
  let witnesses ← scheduledWitnesses
  let running := witnesses.map (·.runningVersion)
  let votes := witnesses.map fun w => (w.hardforkVersionVote, w.hardforkTimeVote)
  modifyHardforks (nextHardfork (majorityHardfork wso.hardforkRequiredWitnesses votes))
  pure ((majorityVersion wso.hardforkRequiredWitnesses running 0
    (distinctVersions running)).getD wso.majorityVersion)

end Versions

section Shuffle

/-- The multiplier of the generator. -/
def shuffleFactor : ℕ := 2685821657736338717

/-- The random value of a position. -/
def shuffleRandom (time : TimePointSec) (i : ℕ) : ℕ :=
  let k := (time * 2 ^ 32 + i * shuffleFactor) % 2 ^ 64
  let k := k ^^^ (k / 2 ^ 12)
  let k := k ^^^ (k * 2 ^ 25 % 2 ^ 64)
  let k := k ^^^ (k / 2 ^ 27)
  k * shuffleFactor % 2 ^ 64

/-- `std::swap` of two places of an array. -/
def swapAt (names : List AccountName) (i j : ℕ) : List AccountName :=
  let a := names.getD i .empty
  let b := names.getD j .empty
  (names.set i b).set j a

/-- The shuffle from position `i` on, with the positions that are left. -/
def shuffleFrom (time : TimePointSec) : ℕ → ℕ → List AccountName → List AccountName
  | 0, _, names => names
  | left + 1, i, names =>
    let j := i + shuffleRandom time i % (left + 1)
    shuffleFrom time left (i + 1) (swapAt names i j)

/-- The schedule that `update_witness_schedule4` writes. -/
def writeSchedule (time : TimePointSec) (headBlockNum newVirtualTime : ℕ) (majority : Version)
    (selection : Selection) (wso : WitnessScheduleObject) : WitnessScheduleObject :=
  let active := selection.active
  let padded := active ++ List.replicate (wlsMaxWitnesses - active.length) .empty
  let num := max (active.length % 2 ^ 8) 1
  { wso with
    currentShuffledWitnesses := shuffleFrom time num 0 padded
    numScheduledWitnesses := num
    witnessPayNormalizationFactor :=
      (wso.top19Weight * selection.elected.length +
        wso.timeshareWeight * selection.runners.selected.length) % 2 ^ 32
    currentVirtualTime := newVirtualTime
    nextShuffleBlockNum := (headBlockNum + num) % 2 ^ 32
    majorityVersion := majority }

end Shuffle

section Update

/-- The median of a list of witnesses in an order. -/
def medianWitness (le : WitnessObject → WitnessObject → Bool) (witnesses : List WitnessObject) :
    Except Exc WitnessObject :=
  match (witnesses.insertionSort fun a b => le a b)[witnesses.length / 2]? with
  | some w => .ok w
  | none => .error ⟨.undefinedBehaviour, "active[active.size()/2]"⟩

/-- `update_median_witness_props` -/
def updateMedianWitnessProps : Chain Unit := do
  let active ← scheduledWitnesses
  let byFee ← lift (medianWitness
    (fun a b => a.props.accountCreationFee.amount ≤ b.props.accountCreationFee.amount) active)
  let bySize ← lift (medianWitness
    (fun a b => a.props.maximumBlockSize ≤ b.props.maximumBlockSize) active)
  modifyWso fun wso => { wso with medianProps :=
    ⟨byFee.props.accountCreationFee, bySize.props.maximumBlockSize⟩ }
  modifyDgp fun dgp => .ok { dgp with maximumBlockSize := bySize.props.maximumBlockSize }

/-- Sets how some witnesses were scheduled. -/
def markScheduled (schedule : ScheduleType) (witnesses : List WitnessObject) : Chain Unit :=
  forEach (fun w => modifyWitness (fun v => v.id = w.id)
    fun wo => .ok { wo with schedule := schedule }) witnesses

/-- The selected witnesses are marked and the visited ones move on; returns the new
virtual time. -/
def advanceSchedule (selection : Selection) : Chain ℕ := do
  markScheduled .top19 selection.elected
  markScheduled .timeshare selection.runners.selected
  advanceVirtualTime selection.runners

/-- The assertion of `update_witness_schedule4` on the number of selected witnesses. -/
def checkSelection (selection : Selection) : Chain Unit := do
  let expected ← gets expectedActiveWitnesses
  lift (fcAssert (selection.active.length = expected)
    "number of active witnesses does not equal expected_active_witnesses=${expected_active_witnesses}")

/-- `update_witness_schedule4` -/
def updateWitnessSchedule4 : Chain Unit := do
  let selection ← gets selectWitnesses
  let newVirtualTime ← advanceSchedule selection
  checkSelection selection
  let majority ← countVersions
  let time ← headBlockTime
  let headNum ← headBlockNum
  modifyWso (writeSchedule time headNum newVirtualTime majority selection)
  updateMedianWitnessProps

/-- `update_witness_schedule` -/
def updateWitnessSchedule : Chain Unit := do
  let headNum ← headBlockNum
  whenever (headNum % wlsMaxWitnesses = 0) updateWitnessSchedule4

end Update

end Whaleshares.WitnessSchedule
