import Mathlib
import Whaleshares.Quorum
import Whaleshares.ScheduleContent

/-!
# What an update of the schedule decides

Besides the schedule, `update_witness_schedule4` writes what the witnesses agree on: the greatest
version that enough of the outgoing witnesses run or exceed, the hardfork that enough of them vote
for, and the medians of what the incoming witnesses propose. In every run a quorum is more than half
of the outgoing witnesses, so no two hardforks have one; and no minority of the incoming witnesses
moves a median past the proposals of the others.
-/

namespace Whaleshares.ScheduleParameters

open Config Fc Assets Protocol Objects Program Database ApplyBlock WitnessSchedule Genesis ChainRun
  Footprint ScheduleSafety LastIrreversible Ranking ScheduleContent Quorum

variable {s t u : ChainState} {outgoing incoming ws : List WitnessObject}

section Counting

variable {required seen : ℕ} {running vs : List Version}

/-- The versions outside a list split by one more version of it. -/
theorem countP_not_mem_cons {v : Version} {rest : List Version} (running : List Version)
    (hnot : v ∉ rest) : running.countP (· ∉ rest) =
      running.countP (· ∉ v :: rest) + running.count v := by
  induction running with
  | nil => rfl
  | cons r running ih =>
    rw [List.countP_cons, List.countP_cons, List.count_cons, ih]
    by_cases hr : r = v
    · simp only [hr, hnot, List.mem_cons_self, not_true, not_false_eq_true, decide_true,
        decide_false, BEq.rfl, if_true, Bool.false_eq_true, if_false]
      omega
    · by_cases hmem : r ∈ rest <;> simp [hr, hmem]
      omega

/-- The loop over the versions, the greatest first, stops at the greatest one that enough witnesses
reach. Those that were counted before are on greater versions than the rest. -/
theorem majorityVersion_spec (hvs : vs.Pairwise fun a b => b.vNum < a.vNum)
    (hseen : seen < required) (hcount : seen = running.countP (· ∉ vs))
    (hfirst : ∀ r ∈ running, r ∉ vs → ∀ v ∈ vs, v.vNum < r.vNum) :
    (∀ v, majorityVersion required running seen vs = some v → v ∈ vs ∧
      IsGreatest {n | required ≤ running.countP (n ≤ ·.vNum)} v.vNum) ∧
    (majorityVersion required running seen vs = none → running.length < required) := by
  induction vs generalizing seen with
  | nil =>
    refine ⟨nofun, fun _ => ?_⟩
    simpa [hcount] using hseen
  | cons v rest ih =>
    obtain ⟨hhead, hrest⟩ := List.pairwise_cons.mp hvs
    have hnot : v ∉ rest := fun hmem => lt_irrefl _ (hhead v hmem)
    have hsplit := countP_not_mem_cons running hnot
    have hreach : running.countP (v.vNum ≤ ·.vNum) = running.countP (· ∉ rest) := by
      refine List.countP_congr fun r hr => ?_
      simp only [decide_eq_true_eq]
      constructor
      · intro hle hmem
        exact absurd (hhead r hmem) (not_lt.mpr hle)
      · intro hmem
        by_cases heq : r = v
        · exact heq ▸ le_rfl
        · exact (hfirst r hr (by simp [heq, hmem]) v List.mem_cons_self).le
    unfold majorityVersion
    dsimp only
    by_cases hreached : required ≤ seen + running.count v
    · rw [if_pos hreached]
      refine ⟨fun x hx => ?_, nofun⟩
      obtain rfl := Option.some.inj hx
      refine ⟨List.mem_cons_self, ?_, fun n hn => ?_⟩
      · change required ≤ running.countP (v.vNum ≤ ·.vNum)
        rw [hreach, hsplit, ← hcount]
        exact hreached
      · by_contra hgt
        have hfew : running.countP (n ≤ ·.vNum) ≤ running.countP (· ∉ v :: rest) := by
          refine List.countP_mono_left fun r _ hr => decide_eq_true fun hmem => ?_
          have hr := of_decide_eq_true hr
          rcases List.mem_cons.mp hmem with heq | hmem
          · exact hgt (heq ▸ hr)
          · exact hgt (hr.trans (hhead r hmem).le)
        have hn : required ≤ running.countP (n ≤ ·.vNum) := hn
        omega
    · rw [if_neg hreached]
      obtain ⟨hsome, hnone⟩ := ih hrest (not_le.mp hreached) (by rw [hsplit, ← hcount])
        fun r hr hmem x hx => by
          by_cases heq : r = v
          · exact heq ▸ hhead x hx
          · exact hfirst r hr (by simp [heq, hmem]) x (List.mem_cons_of_mem _ hx)
      exact ⟨fun x hx => ⟨List.mem_cons_of_mem _ (hsome x hx).1, (hsome x hx).2⟩, hnone⟩

/-- The distinct versions are the running ones. -/
theorem mem_distinctVersions {v : Version} : v ∈ distinctVersions running ↔ v ∈ running := by
  unfold distinctVersions
  rw [(List.perm_insertionSort _ _).mem_iff, List.mem_dedup]

/-- The distinct versions are in falling order. -/
theorem distinctVersions_pairwise (running : List Version) :
    (distinctVersions running).Pairwise fun a b => b.vNum < a.vNum := by
  have hTotal : Std.Total fun a b : Version => b.vNum ≤ a.vNum := ⟨fun a b => le_total b.vNum a.vNum⟩
  have hTrans : IsTrans Version fun a b => b.vNum ≤ a.vNum := ⟨fun _ _ _ hab hbc => hbc.trans hab⟩
  have hsorted : (distinctVersions running).Pairwise fun a b => b.vNum ≤ a.vNum :=
    List.pairwise_insertionSort _ _
  have hnodup : (distinctVersions running).Nodup :=
    (List.perm_insertionSort _ _).nodup_iff.mpr (List.nodup_dedup running)
  refine sorted_strict hsorted hnodup fun a _ b _ hle hne => lt_of_le_of_ne hle fun heq => hne ?_
  cases a
  cases b
  exact congrArg Version.mk heq.symm

/-- The versions that the loop starts with are all that run. -/
theorem majorityVersion_decides (running : List Version) (hrequired : 0 < required) :
    (∀ v, majorityVersion required running 0 (distinctVersions running) = some v → v ∈ running ∧
      IsGreatest {n | required ≤ running.countP (n ≤ ·.vNum)} v.vNum) ∧
    (majorityVersion required running 0 (distinctVersions running) = none →
      running.length < required) := by
  have hall : ∀ r ∈ running, r ∈ distinctVersions running := fun r hr =>
    mem_distinctVersions.mpr hr
  obtain ⟨hsome, hnone⟩ := majorityVersion_spec (distinctVersions_pairwise running) hrequired
    (List.countP_eq_zero.mpr fun r hr => by simpa using hall r hr).symm
    fun r hr hnot => absurd (hall r hr) hnot
  exact ⟨fun v hv => ⟨mem_distinctVersions.mp (hsome v hv).1, (hsome v hv).2⟩, hnone⟩

/-- The first vote that a quorum shares is the only one. -/
theorem majorityHardfork_eq_some {votes : List (Version × TimePointSec)}
    {vote : Version × TimePointSec} (hquorum : votes.length < 2 * required)
    (hrequired : 0 < required) (hvote : required ≤ votes.count vote) :
    majorityHardfork required votes = some vote := by
  have hmem : vote ∈ votes.dedup.insertionSort fun a b => hardforkVoteLe a b := by
    rw [(List.perm_insertionSort _ _).mem_iff, List.mem_dedup]
    exact List.count_pos_iff.mp (hrequired.trans_le hvote)
  cases hfound : majorityHardfork required votes with
  | none =>
    have hnone := List.find?_eq_none.mp hfound vote hmem
    simp only [decide_eq_true_eq] at hnone
    exact absurd hvote hnone
  | some other =>
    have hother : required ≤ votes.count other := by simpa using List.find?_some hfound
    have hcount : ∀ x, votes.countP (id · = x) = votes.count x := fun x => by
      rw [List.count_eq_countP]
      exact List.countP_congr fun y _ => by simp
    have hsame : other = vote :=
      eq_of_shared hquorum ((hcount other).symm ▸ hother) ((hcount vote).symm ▸ hvote)
    rw [hsame]

/-- Without a quorum no hardfork is voted for. -/
theorem majorityHardfork_eq_none {votes : List (Version × TimePointSec)}
    (hnone : ∀ vote, votes.count vote < required) : majorityHardfork required votes = none :=
  List.find?_eq_none.mpr fun vote _ => by simpa using hnone vote

end Counting

section Update

/-- What an update reads of the schedule that it replaces. -/
def ballot (wso : WitnessScheduleObject) : List AccountName × ℕ × ℕ × Version :=
  (wso.currentShuffledWitnesses, wso.numScheduledWitnesses, wso.hardforkRequiredWitnesses,
    wso.majorityVersion)

/-- Who votes in the update, how many are required and what holds so far stay. -/
def SameBallot (s t : ChainState) : Prop :=
  t.hardforks = s.hardforks ∧ ballot t.wso = ballot s.wso

instance : IsPreorder ChainState SameBallot where
  refl _ := ⟨rfl, rfl⟩
  trans _ _ _ hst htu := ⟨htu.1.trans hst.1, htu.2.trans hst.2⟩

/-- A change of witnesses keeps the ballots. -/
theorem modifyWitness_ballot (p : WitnessObject → Bool)
    (f : WitnessObject → Except Exc WitnessObject) : Keeps SameBallot (modifyWitness p f) :=
  replace_keeps fun _ _ _ => ⟨rfl, rfl⟩

/-- Marking the scheduled witnesses keeps the ballots. -/
theorem markScheduled_ballot (c : ScheduleType) (ws : List WitnessObject) :
    Keeps SameBallot (markScheduled c ws) :=
  .forEach (fun _ => modifyWitness_ballot _ _) _

/-- Starting all laps anew keeps the ballots. -/
theorem resetVirtualScheduleTime_ballot : Keeps SameBallot resetVirtualScheduleTime :=
  .bind (.update fun _ _ h => Except.ok.inj h ▸ ⟨rfl, rfl⟩) fun _ => .bind (.gets _) fun _ =>
    .forEach (fun _ => modifyWitness_ballot _ _) _

/-- Moving the visited witnesses on keeps the ballots. -/
theorem advanceProcessed_ballot (time : ℕ) (processed : List WitnessObject) :
    Keeps SameBallot (advanceProcessed time processed) := by
  induction processed with
  | nil => exact .pure _
  | cons w rest ih =>
    exact .bind (.lift _) fun _ => .ite (.pure _) (.bind (modifyWitness_ballot _ _) fun _ => ih)

/-- The selection keeps the ballots. -/
theorem advanceSchedule_ballot (selection : Selection) :
    Keeps SameBallot (advanceSchedule selection) :=
  .bind (markScheduled_ballot _ _) fun _ => .bind (markScheduled_ballot _ _) fun _ =>
    .bind (advanceProcessed_ballot _ _) fun _ =>
      .ite (.bind resetVirtualScheduleTime_ballot fun _ => .pure _) (.pure _)

/-- The witnesses with some names. -/
structure Panel (s : ChainState) (names : List AccountName) (ws : List WitnessObject) : Prop where
  owners : ws.map (·.owner) = names
  rows : ∀ w ∈ ws, w ∈ s.witnesses.rows

/-- What an update writes besides the schedule. The update does not change what the witnesses vote
for and propose. -/
structure Outcome (s t : ChainState) (outgoing incoming : List WitnessObject) : Prop where
  voters : Panel t (scheduledNames s) outgoing
  seated : Panel t (scheduledNames t) incoming
  required : t.wso.hardforkRequiredWitnesses = s.wso.hardforkRequiredWitnesses
  version : t.wso.majorityVersion = (majorityVersion s.wso.hardforkRequiredWitnesses
    (outgoing.map (·.runningVersion)) 0
    (distinctVersions (outgoing.map (·.runningVersion)))).getD s.wso.majorityVersion
  hardforks : t.hardforks = nextHardfork (majorityHardfork s.wso.hardforkRequiredWitnesses
    (outgoing.map fun w => (w.hardforkVersionVote, w.hardforkTimeVote))) s.hardforks
  fee : ∃ w, medianWitness
      (fun a b => a.props.accountCreationFee.amount ≤ b.props.accountCreationFee.amount)
      incoming = .ok w ∧ t.wso.medianProps.accountCreationFee = w.props.accountCreationFee
  size : ∃ w, medianWitness (fun a b => a.props.maximumBlockSize ≤ b.props.maximumBlockSize)
      incoming = .ok w ∧ t.wso.medianProps.maximumBlockSize = w.props.maximumBlockSize ∧
    t.dgp.maximumBlockSize = w.props.maximumBlockSize

/-- An update of the schedule decides by its outgoing and its incoming witnesses. -/
theorem updateWitnessSchedule4_outcome (h : Returns updateWitnessSchedule4 s () t) :
    ∃ outgoing incoming, Outcome s t outgoing incoming := by
  obtain ⟨virtualTime, s₁, h₁, h⟩ := h.gets_bind.bind
  obtain ⟨_, s₂, h₂, h⟩ := h.bind
  obtain ⟨majority, s₃, h₃, h⟩ := h.bind
  obtain ⟨_, s₄, h₄, h⟩ := h.gets_bind.gets_bind.bind
  obtain ⟨ws, s₅, h₅, h⟩ := h.bind
  obtain ⟨byFee, hfee, h⟩ := h.lift_bind
  obtain ⟨bySize, hsize, h⟩ := h.lift_bind
  obtain ⟨_, s₆, h₆, h⟩ := h.bind
  have hcheck : Keeps SameBallot (checkSelection (selectWitnesses s)) :=
    .bind (.gets _) fun _ => .lift _
  have hsame : SameBallot s s₂ := Trans.trans ((advanceSchedule_ballot _).rel s virtualTime s₁ h₁)
    (hcheck.rel s₁ () s₂ h₂)
  obtain ⟨hhardforks, hballot⟩ := hsame
  simp only [ballot, Prod.mk.injEq] at hballot
  obtain ⟨hnames, hnum, hrequired, hversion⟩ := hballot
  -- the count of the votes
  obtain ⟨vs, s₂', hvs, h₃⟩ := h₃.gets_bind.bind
  obtain ⟨rfl, hvoters, hrows⟩ := scheduledWitnesses_ok hvs
  obtain ⟨_, s₃', hcounted, h₃⟩ := h₃.bind
  obtain ⟨rfl, rfl⟩ := h₃.pure
  obtain rfl := Except.ok.inj hcounted.update
  -- the new schedule and the medians
  obtain rfl := Except.ok.inj h₄.update
  obtain ⟨rfl, howners, hmem⟩ := scheduledWitnesses_ok h₅
  obtain rfl := Except.ok.inj h₆.update
  obtain ⟨d, hd, rfl⟩ := map_eq_ok h.update
  obtain rfl := Except.ok.inj hd
  refine ⟨vs, ws, ⟨hvoters.trans ?_, hrows⟩, ⟨howners, hmem⟩, hrequired, ?_, ?_,
    ⟨byFee, hfee, rfl⟩, ⟨bySize, hsize, rfl, rfl⟩⟩
  · unfold scheduledNames
    rw [hnames, hnum]
  · rw [← hrequired, ← hversion]
    rfl
  · rw [← hrequired, ← hhardforks]

end Update

section Medians

/-- The median of a key is the key of one of the witnesses and keeps the bounds of a majority. -/
theorem medianWitness_between {β : Type} [LinearOrder β] {key : WitnessObject → β}
    {le : WitnessObject → WitnessObject → Bool} (hle : ∀ a b, le a b = true ↔ key a ≤ key b)
    {w : WitnessObject} (h : medianWitness le ws = .ok w) :
    w ∈ ws ∧ ∀ lo hi, ws.length < 2 * ws.countP (fun a => lo ≤ key a ∧ key a ≤ hi) →
      lo ≤ key w ∧ key w ≤ hi := by
  unfold medianWitness at h
  split at h
  next v hv =>
    obtain rfl := Except.ok.inj h
    have hperm : (ws.insertionSort fun a b => le a b = true).Perm ws :=
      List.perm_insertionSort _ _
    have hTotal : Std.Total fun a b : WitnessObject => le a b = true :=
      ⟨fun a b => by rw [hle, hle]; exact le_total _ _⟩
    have hTrans : IsTrans WitnessObject fun a b => le a b = true :=
      ⟨fun a b c => by rw [hle, hle, hle]; exact le_trans⟩
    have hsorted : (ws.insertionSort fun a b => le a b = true).Pairwise
        fun a b => key a ≤ key b :=
      (List.pairwise_insertionSort (fun a b : WitnessObject => le a b = true) ws).imp
        fun hab => (hle _ _).mp hab
    rw [← hperm.length_eq] at hv
    refine ⟨hperm.mem_iff.mp (List.mem_of_getElem? hv), fun lo hi hmost => ?_⟩
    refine middle_between hsorted hv ?_
    rwa [hperm.length_eq, hperm.countP_eq]
  next => cases h

/-- After an update the block size limit and the fee are proposals of incoming witnesses, and they
keep all bounds that more than half of the incoming witnesses keep with their proposals. -/
theorem medians_follow_majority (h : Returns updateWitnessSchedule4 s () t) :
    ∃ incoming, Panel t (scheduledNames t) incoming ∧
      t.wso.medianProps.maximumBlockSize = t.dgp.maximumBlockSize ∧
      (∃ w ∈ incoming, w.props.maximumBlockSize = t.dgp.maximumBlockSize) ∧
      (∃ w ∈ incoming, w.props.accountCreationFee = t.wso.medianProps.accountCreationFee) ∧
      (∀ lo hi, incoming.length < 2 * incoming.countP (fun w =>
          lo ≤ w.props.maximumBlockSize ∧ w.props.maximumBlockSize ≤ hi) →
        lo ≤ t.dgp.maximumBlockSize ∧ t.dgp.maximumBlockSize ≤ hi) ∧
      ∀ lo hi, incoming.length < 2 * incoming.countP (fun w =>
          lo ≤ w.props.accountCreationFee.amount ∧ w.props.accountCreationFee.amount ≤ hi) →
        lo ≤ t.wso.medianProps.accountCreationFee.amount ∧
          t.wso.medianProps.accountCreationFee.amount ≤ hi := by
  obtain ⟨outgoing, incoming, houtcome⟩ := updateWitnessSchedule4_outcome h
  obtain ⟨byFee, hfee, hfeeEq⟩ := houtcome.fee
  obtain ⟨bySize, hsize, hsizeEq, hlimit⟩ := houtcome.size
  obtain ⟨hfeeMem, hfeeBounds⟩ := medianWitness_between (fun _ _ => decide_eq_true_iff) hfee
  obtain ⟨hsizeMem, hsizeBounds⟩ := medianWitness_between (fun _ _ => decide_eq_true_iff) hsize
  rw [hfeeEq, hsizeEq, hlimit]
  exact ⟨incoming, houtcome.seated, rfl, ⟨bySize, hsizeMem, rfl⟩, ⟨byFee, hfeeMem, rfl⟩,
    hsizeBounds, hfeeBounds⟩

/-- The first update of a chain of empty blocks: one witness is outgoing, a full round comes in. -/
theorem firstUpdate_emptyBlocks :
    ∃ s t, RunsUpdate sampleEnv 1000000 (firstCalls []) (updateCall []) s ∧
      Returns updateWitnessSchedule4 s () t ∧ s.wso.numScheduledWitnesses = 1 ∧
      t.wso.numScheduledWitnesses = 21 := by
  have hends : endsIn (firstRound []) (initGenesis sampleEnv 1000000) (fun _ s =>
      (s.dgp.headBlockNumber % wlsMaxWitnesses = 0 && s.wso.numScheduledWitnesses = 1) &&
        endsIn updateWitnessSchedule4 s fun _ t => t.wso.numScheduledWitnesses = 21) = true := by
    decide +kernel
  obtain ⟨_, s, hs, hend⟩ := returns_of_endsIn hends
  obtain ⟨hstart, hend⟩ := (Bool.and_eq_true _ _).mp hend
  obtain ⟨hnum, hone⟩ := (Bool.and_eq_true _ _).mp hstart
  obtain ⟨_, t, ht, hcount⟩ := returns_of_endsIn hend
  exact ⟨s, t, runsUpdate_firstRound hs (of_decide_eq_true hnum), ht, of_decide_eq_true hone,
    of_decide_eq_true hcount⟩

/-- The medians of the first round are those of its panel. -/
theorem medians_follow_majority_emptyBlocks :
    ∃ s t, Returns updateWitnessSchedule4 s () t ∧ t.wso.numScheduledWitnesses = 21 ∧
      ∃ incoming, Panel t (scheduledNames t) incoming ∧
        ∃ w ∈ incoming, w.props.maximumBlockSize = t.dgp.maximumBlockSize := by
  obtain ⟨s, t, -, ht, -, hcount⟩ := firstUpdate_emptyBlocks
  obtain ⟨incoming, hpanel, -, hlimit, -⟩ := medians_follow_majority ht
  exact ⟨s, t, ht, hcount, incoming, hpanel, hlimit⟩

end Medians

section Runs

variable {env : Env} {initSupply : ℕ} {calls : List BlockCall} {call : BlockCall}

/-- A schedule of at most the full number of witnesses, with the number that a hardfork requires. -/
structure Convened (wso : WitnessScheduleObject) : Prop where
  number : wso.numScheduledWitnesses ≤ wlsMaxWitnesses
  required : wso.hardforkRequiredWitnesses = wlsHardforkRequiredWitnesses

/-- The update of the schedule keeps it convened. -/
theorem updateWitnessSchedule_convened (hs : Convened s.wso)
    (h : Returns updateWitnessSchedule s () t) : Convened t.wso := by
  rcases h.gets_bind.whenever with ⟨-, h⟩ | ⟨-, rfl⟩
  · obtain ⟨outgoing, incoming, houtcome⟩ := updateWitnessSchedule4_outcome h
    obtain ⟨hexpected, time, headNum, virtualTime, majority, wso, -, hnum⟩ :=
      updateWitnessSchedule4_schedule h
    refine ⟨?_, houtcome.required.trans hs.required⟩
    rw [hnum]
    simp only [writeSchedule, hexpected, expectedActiveWitnesses]
    have hbound : wlsMaxWitnesses = 21 := rfl
    omega
  · exact hs

/-- In every reachable state the schedule is convened. -/
theorem Reaches.convened (h : Reaches env initSupply calls s) : Convened s.wso := by
  induction calls using List.reverseRecOn generalizing s with
  | nil =>
    rw [(Returns.pure h).2]
    exact ⟨show genesisSchedule.numScheduledWitnesses ≤ wlsMaxWitnesses by decide, rfl⟩
  | append_singleton calls call ih =>
    obtain ⟨u, hu, hcall⟩ := ChainTip.reaches_append.mp h
    obtain ⟨v, w, hv, hw, hs⟩ := applyBlock_parts hcall
    have hbefore : v.wso = u.wso := applyBlockToSchedule_sameWso.rel u () v hv
    have hafter : s.wso = w.wso := afterSchedule_sameWso.rel w () s hs
    rw [hafter]
    exact updateWitnessSchedule_convened (hbefore ▸ ih hu) hw

/-- At every update of a run the schedule is convened. -/
theorem RunsUpdate.convened (h : RunsUpdate env initSupply calls call s) : Convened s.wso := by
  obtain ⟨⟨u, hu, hs⟩, -⟩ := h
  have hwso : s.wso = u.wso := applyBlockToSchedule_sameWso.rel u () s hs
  exact hwso ▸ Reaches.convened hu

/-- Whether a witness votes for a hardfork at a time. -/
def votesFor (version : Version) (time : TimePointSec) (w : WitnessObject) : Bool :=
  w.hardforkVersionVote = version && w.hardforkTimeVote = time

/-- The votes for a hardfork are counted over the witnesses. -/
theorem count_votes (version : Version) (time : TimePointSec) (ws : List WitnessObject) :
    (ws.map fun w => (w.hardforkVersionVote, w.hardforkTimeVote)).count (version, time) =
      ws.countP (votesFor version time) := by
  rw [List.count_eq_countP, List.countP_map]
  refine List.countP_congr fun w _ => ?_
  simp [votesFor]

/-- No two votes have a quorum, so a vote with a quorum is the one that the update finds. -/
theorem RunsUpdate.hardforks_of_quorum (hrun : RunsUpdate env initSupply calls call s)
    {outgoing incoming : List WitnessObject} (houtcome : Outcome s t outgoing incoming)
    {version : Version} {time : TimePointSec}
    (hvotes : wlsHardforkRequiredWitnesses ≤ outgoing.countP (votesFor version time)) :
    t.hardforks = { s.hardforks with nextHardfork := version, nextHardforkTime := time } := by
  obtain ⟨hnumber, hrequired⟩ := RunsUpdate.convened hrun
  have hhardforks := houtcome.hardforks
  rw [hrequired] at hhardforks
  have hfew : outgoing.length ≤ wlsMaxWitnesses := by
    have hlength := congrArg List.length houtcome.voters.owners
    unfold scheduledNames at hlength
    rw [List.length_map, List.length_take] at hlength
    omega
  have hquorum : (outgoing.map fun w => (w.hardforkVersionVote, w.hardforkTimeVote)).length <
      2 * wlsHardforkRequiredWitnesses := by
    rw [List.length_map]
    exact hfew.trans_lt (by decide)
  have hvote := majorityHardfork_eq_some hquorum (by decide)
    ((count_votes version time outgoing).symm ▸ hvotes)
  rw [hhardforks, hvote]
  rfl

/-- Whenever a run updates the schedule, the next hardfork is the one that a quorum of the outgoing
witnesses votes for, and the current one if no vote has a quorum. The version of the majority is the
greatest that a quorum of them runs or exceeds; it stays if they are fewer than a quorum. -/
theorem quorum_decides (hrun : RunsUpdate env initSupply calls call s)
    (h : Returns updateWitnessSchedule4 s () t) :
    ∃ outgoing, Panel t (scheduledNames s) outgoing ∧
      (∀ version time, wlsHardforkRequiredWitnesses ≤ outgoing.countP (votesFor version time) →
        t.hardforks = { s.hardforks with nextHardfork := version, nextHardforkTime := time }) ∧
      ((∀ version time, outgoing.countP (votesFor version time) < wlsHardforkRequiredWitnesses) →
        t.hardforks =
          { s.hardforks with nextHardfork := s.hardforks.currentHardforkVersion }) ∧
      (wlsHardforkRequiredWitnesses ≤ outgoing.length →
        (∃ w ∈ outgoing, w.runningVersion = t.wso.majorityVersion) ∧
        IsGreatest {n | wlsHardforkRequiredWitnesses ≤
          outgoing.countP (n ≤ ·.runningVersion.vNum)} t.wso.majorityVersion.vNum) ∧
      (outgoing.length < wlsHardforkRequiredWitnesses →
        t.wso.majorityVersion = s.wso.majorityVersion) := by
  obtain ⟨outgoing, incoming, houtcome⟩ := updateWitnessSchedule4_outcome h
  obtain ⟨-, hrequired⟩ := RunsUpdate.convened hrun
  have hversion := houtcome.version
  have hhardforks := houtcome.hardforks
  rw [hrequired] at hversion hhardforks
  have hreached : ∀ n, (outgoing.map (·.runningVersion)).countP (n ≤ ·.vNum) =
      outgoing.countP (n ≤ ·.runningVersion.vNum) := fun n => by
    rw [List.countP_map]
    rfl
  have hdecides : 0 < wlsHardforkRequiredWitnesses → _ ∧ _ :=
    majorityVersion_decides (outgoing.map (·.runningVersion))
  obtain ⟨hsome, hnone⟩ := hdecides (by decide)
  simp only [hreached, List.length_map] at hsome hnone
  refine ⟨outgoing, houtcome.voters, fun version time hvotes => ?_, fun hvotes => ?_,
    fun hmany => ?_, fun hless => ?_⟩
  · exact RunsUpdate.hardforks_of_quorum hrun houtcome hvotes
  · have hvote := majorityHardfork_eq_none fun vote =>
      (count_votes vote.1 vote.2 outgoing).symm ▸ hvotes vote.1 vote.2
    rw [hhardforks, hvote]
    rfl
  · cases hfound : majorityVersion wlsHardforkRequiredWitnesses
        (outgoing.map (·.runningVersion)) 0
        (distinctVersions (outgoing.map (·.runningVersion))) with
    | none => exact absurd hmany (not_le.mpr (hnone hfound))
    | some v =>
      obtain ⟨hmem, hgreatest⟩ := hsome v hfound
      rw [hfound] at hversion
      rw [hversion]
      exact ⟨List.mem_map.mp hmem, hgreatest⟩
  · cases hfound : majorityVersion wlsHardforkRequiredWitnesses
        (outgoing.map (·.runningVersion)) 0
        (distinctVersions (outgoing.map (·.runningVersion))) with
    | none =>
      rw [hfound] at hversion
      exact hversion
    | some v =>
      have hmost : wlsHardforkRequiredWitnesses ≤
          outgoing.countP (v.vNum ≤ ·.runningVersion.vNum) := (hsome v hfound).2.1
      exact absurd (hmost.trans List.countP_le_length) (not_le.mpr hless)

end Runs

end Whaleshares.ScheduleParameters
