import Mathlib
import Whaleshares.LastIrreversible
import Whaleshares.Ranking

/-!
# What a completed update of the schedule leaves behind

`update_witness_schedule4` elects the keyed witnesses with the most votes, fills the schedule
with the runners whose virtual time comes first, marks both with their class, and writes their
shuffled names. Moving the visited witnesses on changes neither names, keys nor classes, so the
factor that pay is divided by is the sum of the weights of the classes that the scheduled
witnesses then have.
-/

namespace Whaleshares.ScheduleContent

open Config Fc Assets Protocol Objects Program Database Vesting Rewards ApplyBlock WitnessSchedule
  Genesis ChainRun Footprint ScheduleSafety LastIrreversible Ranking

variable {s t u : ChainState} {w v : WitnessObject} {ws elected runners : List WitnessObject}

section Orders

/-- More votes come first, and the lower name among equal votes. -/
def VotesBefore (a b : WitnessObject) : Prop :=
  b.votes < a.votes ∨ a.votes = b.votes ∧ a.owner.packed < b.owner.packed

/-- The lower virtual time comes first, and the lower id among equal times. -/
def DueBefore (a b : WitnessObject) : Prop :=
  a.virtualScheduledTime < b.virtualScheduledTime ∨
    a.virtualScheduledTime = b.virtualScheduledTime ∧ a.id < b.id

/-- The order by votes compares the votes, then the names. -/
theorem byVoteName_iff (a b : WitnessObject) : WitnessObject.byVoteName a b = true ↔
    b.votes < a.votes ∨ a.votes = b.votes ∧ a.owner.packed ≤ b.owner.packed := by
  simp [WitnessObject.byVoteName]

/-- The order by scheduled time compares the times, then the ids. -/
theorem byScheduleTime_iff (a b : WitnessObject) : WitnessObject.byScheduleTime a b = true ↔
    a.virtualScheduledTime < b.virtualScheduledTime ∨
      a.virtualScheduledTime = b.virtualScheduledTime ∧ a.id ≤ b.id := by
  simp [WitnessObject.byScheduleTime]

/-- The rows in a total order that is given as a function. -/
theorem select_pairwise {table : Table WitnessObject} {le : WitnessObject → WitnessObject → Bool}
    (htotal : ∀ a b, le a b = true ∨ le b a = true)
    (htrans : ∀ a b c, le a b = true → le b c = true → le a c = true) :
    (table.select (fun _ => true) le).Pairwise fun a b => le a b = true := by
  have hTotal : Std.Total fun a b : WitnessObject => le a b = true := ⟨htotal⟩
  have hTrans : IsTrans WitnessObject fun a b => le a b = true := ⟨htrans⟩
  exact List.pairwise_insertionSort _ _

/-- The witnesses in the order of `by_vote_name`, which are different names. -/
theorem voteOrder_pairwise (howners : (s.witnesses.rows.map (·.owner)).Nodup) :
    (s.witnesses.select (fun _ => true) WitnessObject.byVoteName).Pairwise VotesBefore := by
  have hperm := select_all_perm s.witnesses WitnessObject.byVoteName
  have hnames := (hperm.map (·.owner)).nodup_iff.mpr howners
  have hsorted : (s.witnesses.select (fun _ => true) WitnessObject.byVoteName).Pairwise
      fun a b => WitnessObject.byVoteName a b = true := select_pairwise
    (fun a b => by rw [byVoteName_iff, byVoteName_iff]; omega)
    (fun a b c => by rw [byVoteName_iff, byVoteName_iff, byVoteName_iff]; omega)
  refine sorted_strict hsorted hnames.of_map fun a ha b hb hle hne => ?_
  have howner : a.owner.packed ≠ b.owner.packed := fun hpacked =>
    hne (List.inj_on_of_nodup_map hnames ha hb (congrArg AccountName.mk hpacked))
  rw [byVoteName_iff] at hle
  unfold VotesBefore
  omega

/-- The witnesses in the order of `by_schedule_time`, which have different ids. -/
theorem dueOrder_pairwise (hids : (s.witnesses.rows.map (·.id)).Nodup) :
    (s.witnesses.select (fun _ => true) WitnessObject.byScheduleTime).Pairwise DueBefore := by
  have hperm := select_all_perm s.witnesses WitnessObject.byScheduleTime
  have hnames := (hperm.map (·.id)).nodup_iff.mpr hids
  have hsorted : (s.witnesses.select (fun _ => true) WitnessObject.byScheduleTime).Pairwise
      fun a b => WitnessObject.byScheduleTime a b = true := select_pairwise
    (fun a b => by rw [byScheduleTime_iff, byScheduleTime_iff]; omega)
    (fun a b c => by rw [byScheduleTime_iff, byScheduleTime_iff, byScheduleTime_iff]; omega)
  refine sorted_strict hsorted hnames.of_map fun a ha b hb hle hne => ?_
  have hid : a.id ≠ b.id := fun hid => hne (List.inj_on_of_nodup_map hnames ha hb hid)
  rw [byScheduleTime_iff] at hle
  unfold DueBefore
  omega

/-- The loop over the runners selects the first ones until the schedule is full. -/
theorem runWitnesses_selected_eq (elected : List WitnessObject) (count time : ℕ)
    (order : List WitnessObject) :
    (runWitnesses elected count time order).selected =
      (order.filter (isRunner elected)).take (wlsMaxWitnesses - count) := by
  induction order generalizing count time with
  | nil => simp [runWitnesses]
  | cons w rest ih =>
    unfold runWitnesses
    by_cases hcount : count < wlsMaxWitnesses
    · rw [if_pos hcount]
      by_cases hrunner : isRunner elected w = true
      · have hleft : wlsMaxWitnesses - count = (wlsMaxWitnesses - (count + 1)) + 1 := by omega
        rw [if_pos hrunner, List.filter_cons_of_pos hrunner, hleft, List.take_succ_cons]
        exact congrArg (w :: ·) (ih (count + 1) w.virtualScheduledTime)
      · rw [if_neg hrunner, List.filter_cons_of_neg hrunner]
        exact ih count w.virtualScheduledTime
    · have hfull : wlsMaxWitnesses - count = 0 := by omega
      rw [if_neg hcount, hfull, List.take_zero]

/-- The witnesses with a key that are not elected. -/
def unelected (s : ChainState) (elected : List WitnessObject) : List WitnessObject :=
  (keyedWitnesses s).filter fun w => w.id ∉ elected.map (·.id)

/-- The runners are the keyed witnesses that are not elected. -/
theorem filter_isRunner (elected rows : List WitnessObject) :
    rows.filter (isRunner elected) =
      (rows.filter hasKey).filter fun w => w.id ∉ elected.map (·.id) := by
  rw [List.filter_filter]
  refine List.filter_congr fun w _ => ?_
  unfold isRunner
  by_cases hmem : w.id ∈ elected.map (·.id)
  · have hany : elected.any (fun e => e.id = w.id) = true := by
      obtain ⟨e, he, hid⟩ := List.mem_map.mp hmem
      exact List.any_eq_true.mpr ⟨e, he, by simpa using hid⟩
    simp [hany, hmem]
  · have hnone : elected.any (fun e => e.id = w.id) = false := by
      refine List.any_eq_false.mpr fun e he hid => hmem ?_
      exact List.mem_map.mpr ⟨e, he, by simpa using hid⟩
    simp [hnone, hmem]

/-- The elected are the first of the keyed witnesses by votes. -/
theorem elected_firsts (howners : (s.witnesses.rows.map (·.owner)).Nodup) :
    Firsts VotesBefore s.wso.maxVotedWitnesses (keyedWitnesses s) (selectWitnesses s).elected := by
  have hperm := select_all_perm s.witnesses WitnessObject.byVoteName
  have horder : ((s.witnesses.select (fun _ => true) WitnessObject.byVoteName).filter
      hasKey).Pairwise VotesBefore := (voteOrder_pairwise howners).sublist List.filter_sublist
  exact (firsts_take s.wso.maxVotedWitnesses horder).perm (hperm.filter hasKey)

/-- The selected runners are the first of the others by virtual time. -/
theorem runners_firsts (hids : (s.witnesses.rows.map (·.id)).Nodup) :
    Firsts DueBefore (wlsMaxWitnesses - (selectWitnesses s).elected.length)
      (unelected s (selectWitnesses s).elected) (selectWitnesses s).runners.selected := by
  have hperm := select_all_perm s.witnesses WitnessObject.byScheduleTime
  have horder : ((s.witnesses.select (fun _ => true) WitnessObject.byScheduleTime).filter
      (isRunner (selectWitnesses s).elected)).Pairwise DueBefore :=
    (dueOrder_pairwise hids).sublist List.filter_sublist
  have hpool := hperm.filter (isRunner (selectWitnesses s).elected)
  rw [filter_isRunner _ s.witnesses.rows] at hpool
  have hselected : (selectWitnesses s).runners.selected = _ := runWitnesses_selected_eq _ _ _ _
  rw [hselected]
  exact (firsts_take _ horder).perm hpool

end Orders

section Classes

/-- The witness with a class, if its id is among some. -/
def marked (c : ScheduleType) (ids : List ℕ) (w : WitnessObject) : WitnessObject :=
  if w.id ∈ ids then { w with schedule := c } else w

/-- A mark keeps the id. -/
@[simp] theorem marked_id (c : ScheduleType) (ids : List ℕ) (w : WitnessObject) :
    (marked c ids w).id = w.id := by
  unfold marked
  split <;> rfl

/-- Two marks of one class are a mark of both. -/
theorem marked_cons (c : ScheduleType) (id : ℕ) (ids : List ℕ) (w : WitnessObject) :
    marked c ids (marked c [id] w) = marked c (id :: ids) w := by
  by_cases hid : w.id = id
  · by_cases hmem : w.id ∈ ids <;> simp [marked, hid, hid ▸ hmem]
  · by_cases hmem : w.id ∈ ids <;> simp [marked, hid, hmem]

/-- Setting the class of one witness marks its row. -/
theorem markOne_rows {c : ScheduleType} (hids : (s.witnesses.rows.map (·.id)).Nodup)
    (h : Returns (modifyWitness (fun v => v.id = w.id) fun wo => .ok { wo with schedule := c })
      s () t) :
    t.witnesses.rows = s.witnesses.rows.map (marked c [w.id]) ∧ t.wso = s.wso := by
  obtain ⟨x, hx, rfl⟩ := map_eq_ok h.update
  obtain ⟨old, new, -, hold, hid, hnew, hrows, -⟩ := Table.modify_amend (fun w => w.id) hx hids
    fun a b hab => by rw [← Except.ok.inj hab]
  have hid : old.id = w.id := of_decide_eq_true hid
  have hnew := (Except.ok.inj hnew).symm
  have hnewId : new.id = w.id := by rw [hnew, ← hid]
  refine ⟨?_, rfl⟩
  change x.rows = _
  rw [hrows]
  refine List.map_congr_left fun v hv => ?_
  by_cases hvid : v.id = w.id
  · have hsame : v = old := List.inj_on_of_nodup_map hids hv hold (hvid.trans hid.symm)
    rw [if_pos (hvid.trans hnewId.symm), hnew, ← hsame]
    simp [marked, hvid]
  · rw [if_neg fun hnot => hvid (hnot.trans hnewId)]
    simp [marked, hvid]

/-- Marking witnesses changes their class and nothing else. -/
theorem markScheduled_rows {c : ScheduleType} (hids : (s.witnesses.rows.map (·.id)).Nodup)
    (h : Returns (markScheduled c ws) s () t) :
    t.witnesses.rows = s.witnesses.rows.map (marked c (ws.map (·.id))) ∧ t.wso = s.wso := by
  induction ws generalizing s with
  | nil =>
    rw [(Returns.pure h).2]
    refine ⟨?_, rfl⟩
    have hnone : marked c (([] : List WitnessObject).map (·.id)) = id :=
      funext fun w => by simp [marked]
    rw [hnone, List.map_id]
  | cons w rest ih =>
    obtain ⟨_, u, hu, hrest⟩ := Returns.bind h
    obtain ⟨hrows, hwso⟩ := markOne_rows hids hu
    have hsame : u.witnesses.rows.map (·.id) = s.witnesses.rows.map (·.id) := by
      rw [hrows, List.map_map]
      exact List.map_congr_left fun v _ => marked_id c [w.id] v
    obtain ⟨hrows', hwso'⟩ := ih (hsame ▸ hids) hrest
    refine ⟨?_, hwso'.trans hwso⟩
    rw [hrows', hrows, List.map_map]
    exact List.map_congr_left fun v _ => marked_cons c w.id _ v

/-- What moving on leaves of a witness. -/
def post (w : WitnessObject) : ℕ × AccountName × PublicKey × ScheduleType :=
  (w.id, w.owner, w.signingKey, w.schedule)

/-- What no update changes in the schedule. -/
def limits (wso : WitnessScheduleObject) : ℕ × ℕ × ℕ :=
  (wso.maxVotedWitnesses, wso.top19Weight, wso.timeshareWeight)

/-- Names, keys and classes of the witnesses stay, and so do the weights. -/
def SamePosts (s t : ChainState) : Prop :=
  t.witnesses.rows.map post = s.witnesses.rows.map post ∧ limits t.wso = limits s.wso

instance : IsPreorder ChainState SamePosts where
  refl _ := ⟨rfl, rfl⟩
  trans _ _ _ hst htu := ⟨htu.1.trans hst.1, htu.2.trans hst.2⟩

/-- A change of witnesses that keeps names, keys and classes keeps the posts. -/
theorem modifyWitness_posts {p : WitnessObject → Bool}
    {f : WitnessObject → Except Exc WitnessObject} (hf : ∀ a b, f a = .ok b → post b = post a) :
    Keeps SamePosts (modifyWitness p f) :=
  replace_keeps fun _ _ hx => ⟨Table.modify_map_eq hx hf, rfl⟩

/-- A change of the schedule that keeps the weights keeps the posts. -/
theorem modifyWso_posts {f : WitnessScheduleObject → WitnessScheduleObject}
    (hf : ∀ wso, limits (f wso) = limits wso) : Keeps SamePosts (modifyWso f) :=
  .update fun s _ h => Except.ok.inj h ▸ ⟨rfl, hf s.wso⟩

/-- A witness that starts its lap anew keeps its post. -/
theorem resetWitness_post (h : resetWitness w = .ok v) : post v = post w := by
  obtain ⟨x, -, h⟩ := bind_eq_ok h
  rw [← Except.ok.inj h]
  rfl

/-- Starting all laps anew keeps the posts. -/
theorem resetVirtualScheduleTime_posts : Keeps SamePosts resetVirtualScheduleTime := by
  refine .bind (modifyWso_posts fun _ => rfl) fun _ => .bind (.gets _) fun _ =>
    .forEach (fun w => ?_) _
  exact modifyWitness_posts fun _ _ h => resetWitness_post h

/-- Moving the visited witnesses on keeps the posts. -/
theorem advanceProcessed_posts (time : ℕ) (processed : List WitnessObject) :
    Keeps SamePosts (advanceProcessed time processed) := by
  induction processed with
  | nil => exact .pure _
  | cons w rest ih =>
    refine .bind (.lift _) fun _ => .ite (.pure _) (.bind ?_ fun _ => ih)
    exact modifyWitness_posts fun _ _ h => by rw [← Except.ok.inj h]; rfl

/-- The new virtual time keeps the posts. -/
theorem advanceVirtualTime_posts (runners : Runners) :
    Keeps SamePosts (advanceVirtualTime runners) :=
  .bind (advanceProcessed_posts _ _) fun _ =>
    .ite (.bind resetVirtualScheduleTime_posts fun _ => .pure _) (.pure _)

/-- The classes that an update of the schedule sets. -/
def classified (selection : Selection) (w : WitnessObject) : WitnessObject :=
  marked .timeshare (selection.runners.selected.map (·.id))
    (marked .top19 (selection.elected.map (·.id)) w)

/-- A selection marks its witnesses and keeps everything else of the posts. -/
theorem advanceSchedule_posts {selection : Selection} {time : ℕ}
    (hids : (s.witnesses.rows.map (·.id)).Nodup)
    (h : Returns (advanceSchedule selection) s time t) :
    t.witnesses.rows.map post = s.witnesses.rows.map (fun w => post (classified selection w)) ∧
      limits t.wso = limits s.wso := by
  obtain ⟨_, a, ha, h⟩ := h.bind
  obtain ⟨_, b, hb, h⟩ := h.bind
  obtain ⟨hrows, hwso⟩ := markScheduled_rows hids ha
  have hsame : a.witnesses.rows.map (·.id) = s.witnesses.rows.map (·.id) := by
    rw [hrows, List.map_map]
    exact List.map_congr_left fun v _ => marked_id _ _ v
  obtain ⟨hrows', hwso'⟩ := markScheduled_rows (hsame ▸ hids) hb
  obtain ⟨hposts, hlimits⟩ := (advanceVirtualTime_posts _).rel b time t h
  constructor
  · rw [hposts, hrows', hrows, List.map_map, List.map_map]
    rfl
  · rw [hlimits, hwso', hwso]

end Classes

section Written

/-- What an update writes: the classes of the witnesses, and the schedule of the selection. -/
structure Written (s t : ChainState) : Prop where
  expected : (selectWitnesses s).active.length = expectedActiveWitnesses s
  posts : t.witnesses.rows.map post =
    s.witnesses.rows.map fun w => post (classified (selectWitnesses s) w)
  kept : limits t.wso = limits s.wso
  schedule : ∃ time headNum virtualTime majority wso props, limits wso = limits s.wso ∧
    t.wso = { writeSchedule time headNum virtualTime majority (selectWitnesses s) wso with
      medianProps := props }
  found : ∃ ws : List WitnessObject, ws.map (·.owner) =
    t.wso.currentShuffledWitnesses.take t.wso.numScheduledWitnesses ∧
    ∀ w ∈ ws, w ∈ t.witnesses.rows

/-- A completed update has selected enough witnesses and written classes and schedule. -/
theorem updateWitnessSchedule4_written (hids : (s.witnesses.rows.map (·.id)).Nodup)
    (h : Returns updateWitnessSchedule4 s () t) : Written s t := by
  obtain ⟨hexpected, -⟩ := updateWitnessSchedule4_schedule h
  obtain ⟨virtualTime, s₁, h₁, h⟩ := h.gets_bind.bind
  obtain ⟨_, s₂, h₂, h⟩ := h.bind
  obtain ⟨majority, s₃, h₃, h⟩ := h.bind
  obtain ⟨_, s₄, h₄, h⟩ := h.gets_bind.gets_bind.bind
  obtain ⟨ws, s₅, h₅, h⟩ := h.bind
  obtain ⟨byFee, -, h⟩ := h.lift_bind
  obtain ⟨bySize, -, h⟩ := h.lift_bind
  obtain ⟨_, s₆, h₆, h⟩ := h.bind
  obtain ⟨hposts, hlimits⟩ := advanceSchedule_posts hids h₁
  have hcheck : Keeps SamePosts (checkSelection (selectWitnesses s)) :=
    .bind (.gets _) fun _ => .lift _
  have hcount : Keeps SamePosts countVersions := by
    refine .bind (.gets _) fun _ => .bind scheduledWitnesses_keeps fun _ =>
      .bind ?_ fun _ => .pure _
    exact .update fun _ _ h => Except.ok.inj h ▸ ⟨rfl, rfl⟩
  obtain ⟨hposts₂, hlimits₂⟩ := hcheck.rel s₁ () s₂ h₂
  obtain ⟨hposts₃, hlimits₃⟩ := hcount.rel s₂ majority s₃ h₃
  have hs₄ := Except.ok.inj h₄.update
  obtain ⟨hs₅, howners, hmem⟩ := scheduledWitnesses_ok h₅
  have hs₆ := Except.ok.inj h₆.update
  obtain ⟨d, -, rfl⟩ := map_eq_ok h.update
  rw [hs₅] at hs₆
  rw [← hs₄] at howners hmem hs₆
  rw [← hs₆]
  have hwso : limits s₃.wso = limits s.wso := hlimits₃.trans (hlimits₂.trans hlimits)
  exact ⟨hexpected, hposts₃.trans (hposts₂.trans hposts), hwso,
    ⟨_, _, _, _, s₃.wso, _, hwso, rfl⟩, ws, howners, hmem⟩

end Written

section Shuffle

variable {front back : List AccountName} {i j : ℕ}

/-- A swap within the front of a list leaves its back. -/
theorem swapAt_append (hi : i < front.length) (hj : j < front.length) :
    swapAt (front ++ back) i j = swapAt front i j ++ back := by
  unfold swapAt
  simp only [List.getD_append _ _ _ _ hi, List.getD_append _ _ _ _ hj, List.set_append_left _ _ hi]
  exact List.set_append_left _ _ (by simpa using hj)

/-- The shuffle stays within the places that are left. -/
theorem shuffleFrom_append (time : TimePointSec) (left i : ℕ) (front back : List AccountName)
    (hlength : i + left ≤ front.length) :
    shuffleFrom time left i (front ++ back) = shuffleFrom time left i front ++ back := by
  induction left generalizing i front with
  | zero => rfl
  | succ left ih =>
    have hrandom : shuffleRandom time i % (left + 1) < left + 1 := Nat.mod_lt _ (Nat.succ_pos left)
    have hi : i < front.length := by omega
    have hj : i + shuffleRandom time i % (left + 1) < front.length := by omega
    have hkept := (swapAt_perm hi hj).length_eq
    unfold shuffleFrom
    simp only [swapAt_append hi hj]
    exact ih (i + 1) _ (by rw [hkept]; omega)

end Shuffle

section Content

/-- The weight of the class that a scheduled witness has. -/
def scheduledWeight (s : ChainState) (name : AccountName) : ℕ :=
  ((s.witnesses.find (ownedBy name)).bind fun w => payWeight s.wso w.schedule).getD 0

/-- The names that the schedule holds. -/
def scheduledNames (s : ChainState) : List AccountName :=
  s.wso.currentShuffledWitnesses.take s.wso.numScheduledWitnesses

/-- What a completed update of the schedule leaves behind, from the state before it. -/
structure Content (s t : ChainState) (elected runners : List WitnessObject) : Prop where
  /-- The elected witnesses lead the votes among those with a key. -/
  electedFirst : Firsts VotesBefore s.wso.maxVotedWitnesses (keyedWitnesses s) elected
  /-- The runners are due first among the others with a key. -/
  runnersFirst : Firsts DueBefore (wlsMaxWitnesses - elected.length) (unelected s elected) runners
  /-- The scheduled names are theirs, in some order. -/
  shuffled : (scheduledNames t).Perm ((elected ++ runners).map (·.owner))
  number : t.wso.numScheduledWitnesses = (elected ++ runners).length
  /-- The remaining entries are empty. -/
  empty : t.wso.currentShuffledWitnesses.drop t.wso.numScheduledWitnesses =
    List.replicate (wlsMaxWitnesses - t.wso.numScheduledWitnesses) .empty
  distinct : (scheduledNames t).Nodup
  keyed : ∀ name ∈ scheduledNames t, ∃ w ∈ t.witnesses.rows, w.owner = name ∧ hasKey w = true
  top19 : ∀ e ∈ elected, ∃ w ∈ t.witnesses.rows, w.owner = e.owner ∧ w.schedule = .top19
  timeshare : ∀ r ∈ runners, ∃ w ∈ t.witnesses.rows, w.owner = r.owner ∧ w.schedule = .timeshare
  factor : t.wso.witnessPayNormalizationFactor =
    ((scheduledNames t).map (scheduledWeight t)).sum
  positive : 0 < t.wso.witnessPayNormalizationFactor

/-- What the indices and the constructors promise: different ids and names, room for the elected
witnesses, and weights that are positive numbers of eight bits. -/
structure Regular (s : ChainState) : Prop where
  ids : (s.witnesses.rows.map (·.id)).Nodup
  owners : (s.witnesses.rows.map (·.owner)).Nodup
  maxVoted : s.wso.maxVotedWitnesses ≤ wlsMaxWitnesses
  top19 : 0 < s.wso.top19Weight ∧ s.wso.top19Weight < 2 ^ 8
  timeshare : 0 < s.wso.timeshareWeight ∧ s.wso.timeshareWeight < 2 ^ 8

/-- Each witness has its post with the class of the selection after the update. -/
theorem Written.post_mem (h : Written s t) (hw : w ∈ s.witnesses.rows) :
    ∃ v ∈ t.witnesses.rows, post v = post (classified (selectWitnesses s) w) := by
  have hmem : post (classified (selectWitnesses s) w) ∈ t.witnesses.rows.map post := by
    rw [h.posts]
    exact List.mem_map_of_mem hw
  exact List.mem_map.mp hmem

/-- The elected are witnesses with a key. -/
theorem elected_mem (hw : w ∈ (selectWitnesses s).elected) :
    w ∈ s.witnesses.rows ∧ hasKey w = true := by
  have hkeyed := List.mem_filter.mp (List.mem_of_mem_take hw)
  exact ⟨(select_all_perm s.witnesses WitnessObject.byVoteName).mem_iff.mp hkeyed.1, hkeyed.2⟩

/-- The selected runners are witnesses with a key that are not elected. -/
theorem selected_mem (hids : (s.witnesses.rows.map (·.id)).Nodup)
    (hw : w ∈ (selectWitnesses s).runners.selected) :
    w ∈ s.witnesses.rows ∧ hasKey w = true ∧ w.id ∉ (selectWitnesses s).elected.map (·.id) := by
  obtain ⟨hkeyed, hid⟩ := List.mem_filter.mp ((runners_firsts hids).member w hw)
  obtain ⟨hrow, hkey⟩ := List.mem_filter.mp hkeyed
  exact ⟨hrow, hkey, by simpa using hid⟩

/-- The elected are marked as such. -/
theorem classified_elected (hids : (s.witnesses.rows.map (·.id)).Nodup)
    (hw : w ∈ (selectWitnesses s).elected) :
    classified (selectWitnesses s) w = { w with schedule := .top19 } := by
  have hmem : w.id ∈ (selectWitnesses s).elected.map (·.id) := List.mem_map_of_mem hw
  have hnot : w.id ∉ (selectWitnesses s).runners.selected.map (·.id) := by
    intro hselected
    obtain ⟨r, hr, hid⟩ := List.mem_map.mp hselected
    exact (selected_mem hids hr).2.2 (hid ▸ hmem)
  simp only [classified, marked, if_pos hmem, if_neg hnot]

/-- The selected runners are marked as such. -/
theorem classified_selected (hids : (s.witnesses.rows.map (·.id)).Nodup)
    (hw : w ∈ (selectWitnesses s).runners.selected) :
    classified (selectWitnesses s) w = { w with schedule := .timeshare } := by
  have hmem : w.id ∈ (selectWitnesses s).runners.selected.map (·.id) := List.mem_map_of_mem hw
  have hnot := (selected_mem hids hw).2.2
  simp only [classified, marked, if_neg hnot, if_pos hmem]

/-- The owners of the witnesses stay. -/
theorem Written.owners (h : Written s t) :
    t.witnesses.rows.map (·.owner) = s.witnesses.rows.map (·.owner) := by
  have hposts := congrArg (List.map fun x : ℕ × AccountName × PublicKey × ScheduleType => x.2.1)
    h.posts
  rw [List.map_map, List.map_map] at hposts
  refine hposts.trans (List.map_congr_left fun w _ => ?_)
  unfold classified marked
  dsimp only [Function.comp_apply]
  split <;> split <;> rfl

/-- The weight of a name, from the witness that owns it. -/
theorem scheduledWeight_eq {name : AccountName} (howners : (t.witnesses.rows.map (·.owner)).Nodup)
    (hw : w ∈ t.witnesses.rows) (hname : w.owner = name) :
    scheduledWeight t name = (payWeight t.wso w.schedule).getD 0 := by
  have hfind : t.witnesses.find (ownedBy name) = some w := by
    rw [← hname]
    exact (Table.find_key (fun w => w.owner) howners).mpr ⟨hw, rfl⟩
  unfold scheduledWeight
  rw [hfind]
  rfl

/-- An elected witness has its class and the weight of it. -/
theorem Written.elected_weight (h : Written s t) (hs : Regular s)
    (hw : w ∈ (selectWitnesses s).elected) :
    (∃ v ∈ t.witnesses.rows, v.owner = w.owner ∧ v.schedule = .top19 ∧ hasKey v = true) ∧
      scheduledWeight t w.owner = s.wso.top19Weight := by
  obtain ⟨hrow, hkey⟩ := elected_mem hw
  obtain ⟨v, hv, hpost⟩ := h.post_mem hrow
  rw [classified_elected hs.ids hw] at hpost
  obtain ⟨-, hpost⟩ := Prod.mk.inj hpost
  obtain ⟨howner, hpost⟩ := Prod.mk.inj hpost
  obtain ⟨hsigning, hclass⟩ := Prod.mk.inj hpost
  have hweight : t.wso.top19Weight = s.wso.top19Weight :=
    congrArg (fun x : ℕ × ℕ × ℕ => x.2.1) h.kept
  refine ⟨⟨v, hv, howner, hclass, by unfold hasKey at hkey ⊢; rwa [hsigning]⟩, ?_⟩
  rw [scheduledWeight_eq (h.owners ▸ hs.owners) hv howner, hclass, ← hweight]
  rfl

/-- A selected runner has its class and the weight of it. -/
theorem Written.selected_weight (h : Written s t) (hs : Regular s)
    (hw : w ∈ (selectWitnesses s).runners.selected) :
    (∃ v ∈ t.witnesses.rows, v.owner = w.owner ∧ v.schedule = .timeshare ∧ hasKey v = true) ∧
      scheduledWeight t w.owner = s.wso.timeshareWeight := by
  obtain ⟨hrow, hkey, -⟩ := selected_mem hs.ids hw
  obtain ⟨v, hv, hpost⟩ := h.post_mem hrow
  rw [classified_selected hs.ids hw] at hpost
  obtain ⟨-, hpost⟩ := Prod.mk.inj hpost
  obtain ⟨howner, hpost⟩ := Prod.mk.inj hpost
  obtain ⟨hsigning, hclass⟩ := Prod.mk.inj hpost
  have hweight : t.wso.timeshareWeight = s.wso.timeshareWeight :=
    congrArg (fun x : ℕ × ℕ × ℕ => x.2.2) h.kept
  refine ⟨⟨v, hv, howner, hclass, by unfold hasKey at hkey ⊢; rwa [hsigning]⟩, ?_⟩
  rw [scheduledWeight_eq (h.owners ▸ hs.owners) hv howner, hclass, ← hweight]
  rfl

/-- A completed update has selected a witness: otherwise the empty name of the schedule would
have to be found. -/
theorem Written.active_bounds (h : Written s t) :
    0 < (selectWitnesses s).active.length ∧ (selectWitnesses s).active.length ≤ wlsMaxWitnesses := by
  have hexpected := h.expected
  unfold expectedActiveWitnesses at hexpected
  refine ⟨Nat.pos_of_ne_zero fun hnone => ?_, by omega⟩
  have hrows : s.witnesses.rows = [] := by
    refine List.length_eq_zero_iff.mp ?_
    have hmax : wlsMaxWitnesses = 21 := rfl
    omega
  have hnil : (selectWitnesses s).active = [] := List.length_eq_zero_iff.mp hnone
  obtain ⟨time, headNum, virtualTime, majority, wso, props, -, hwso⟩ := h.schedule
  obtain ⟨ws, hws, hmem⟩ := h.found
  have hnames : t.wso.currentShuffledWitnesses.take t.wso.numScheduledWitnesses =
      (shuffleFrom time 1 0 (List.replicate wlsMaxWitnesses .empty)).take 1 := by
    rw [hwso]
    simp only [writeSchedule, hnil]
    rfl
  have hlength := congrArg List.length (hws.trans hnames)
  have hperm := shuffleFrom_perm time 1 0 (List.replicate wlsMaxWitnesses .empty)
    (by rw [List.length_replicate]; decide)
  rw [List.length_map, List.length_take, hperm.length_eq, List.length_replicate] at hlength
  have hposts := h.posts
  rw [hrows, List.map_nil, List.map_eq_nil_iff] at hposts
  rw [hposts] at hmem
  cases ws with
  | nil => cases hlength
  | cons w ws => exact absurd (hmem w List.mem_cons_self) List.not_mem_nil

/-- The sum of a function that is constant on each part of a list. -/
theorem sum_two_parts {α : Type} {f : α → ℕ} {first second : List α} {a b : ℕ}
    (hfirst : ∀ x ∈ first, f x = a) (hsecond : ∀ x ∈ second, f x = b) :
    ((first ++ second).map f).sum = a * first.length + b * second.length := by
  rw [List.map_append, List.sum_append, List.map_congr_left hfirst, List.map_congr_left hsecond,
    List.map_const', List.map_const', List.sum_replicate_nat, List.sum_replicate_nat,
    Nat.mul_comm a, Nat.mul_comm b]

/-- What is written is the content that a completed update leaves. -/
theorem Written.content (h : Written s t) (hs : Regular s) :
    Content s t (selectWitnesses s).elected (selectWitnesses s).runners.selected := by
  obtain ⟨hpos, hmax⟩ := h.active_bounds
  obtain ⟨time, headNum, virtualTime, majority, wso, props, hlimits, hwso⟩ := h.schedule
  generalize hn : (selectWitnesses s).active.length = n at *
  have hlength : ((selectWitnesses s).elected ++ (selectWitnesses s).runners.selected).length = n := by
    rw [← hn, Selection.active, List.length_map]
  have hnum : max (n % 2 ^ 8) 1 = n := by
    have hbound : wlsMaxWitnesses = 21 := rfl
    omega
  have hnumber : t.wso.numScheduledWitnesses = n := by
    rw [hwso]
    simp only [writeSchedule, hn]
    exact hnum
  have hshuffle := shuffleFrom_append time n 0 (selectWitnesses s).active
    (List.replicate (wlsMaxWitnesses - n) .empty) (by rw [hn]; omega)
  have hperm := shuffleFrom_perm time n 0 (selectWitnesses s).active (by rw [hn]; omega)
  have hnames : t.wso.currentShuffledWitnesses = shuffleFrom time n 0 (selectWitnesses s).active ++
      List.replicate (wlsMaxWitnesses - n) .empty := by
    rw [← hshuffle, hwso]
    simp only [writeSchedule, hn, hnum]
  have hscheduled : scheduledNames t = shuffleFrom time n 0 (selectWitnesses s).active := by
    unfold scheduledNames
    rw [hnames, hnumber]
    exact List.take_left' (hperm.length_eq.trans hn)
  have hshuffled : (scheduledNames t).Perm (((selectWitnesses s).elected ++
      (selectWitnesses s).runners.selected).map (·.owner)) := hscheduled ▸ hperm
  have hsum : ((scheduledNames t).map (scheduledWeight t)).sum =
      s.wso.top19Weight * (selectWitnesses s).elected.length +
        s.wso.timeshareWeight * (selectWitnesses s).runners.selected.length := by
    rw [(hshuffled.map (scheduledWeight t)).sum_eq, List.map_map]
    exact sum_two_parts (fun e he => (h.elected_weight hs he).2)
      fun r hr => (h.selected_weight hs hr).2
  have hweights : wso.top19Weight = s.wso.top19Weight ∧ wso.timeshareWeight = s.wso.timeshareWeight :=
    ⟨congrArg (fun x : ℕ × ℕ × ℕ => x.2.1) hlimits, congrArg (fun x : ℕ × ℕ × ℕ => x.2.2) hlimits⟩
  have hfactor : t.wso.witnessPayNormalizationFactor =
      (s.wso.top19Weight * (selectWitnesses s).elected.length +
        s.wso.timeshareWeight * (selectWitnesses s).runners.selected.length) % 2 ^ 32 := by
    rw [hwso]
    simp only [writeSchedule, hweights]
  rw [List.length_append] at hlength
  have hbounds : 0 < s.wso.top19Weight * (selectWitnesses s).elected.length +
      s.wso.timeshareWeight * (selectWitnesses s).runners.selected.length ∧
      s.wso.top19Weight * (selectWitnesses s).elected.length +
        s.wso.timeshareWeight * (selectWitnesses s).runners.selected.length < 2 ^ 32 := by
    have hbound : wlsMaxWitnesses = 21 := rfl
    obtain ⟨hlow, hhigh⟩ := hs.top19
    obtain ⟨hlow', hhigh'⟩ := hs.timeshare
    have helected := Nat.mul_le_mul hhigh.le
      (show (selectWitnesses s).elected.length ≤ 21 by omega)
    have hselected := Nat.mul_le_mul hhigh'.le
      (show (selectWitnesses s).runners.selected.length ≤ 21 by omega)
    have helected' := Nat.mul_le_mul_right (selectWitnesses s).elected.length hlow
    have hselected' := Nat.mul_le_mul_right (selectWitnesses s).runners.selected.length hlow'
    omega
  rw [Nat.mod_eq_of_lt hbounds.2] at hfactor
  refine ⟨elected_firsts hs.owners, runners_firsts hs.ids, hshuffled, ?_, ?_, ?_, ?_,
    fun e he => ?_, fun r hr => ?_, hfactor.trans hsum.symm, hfactor ▸ hbounds.1⟩
  · rw [hnumber, List.length_append, hlength]
  · rw [hnumber, hnames]
    exact List.drop_left' (hperm.length_eq.trans hn)
  · exact hshuffled.nodup_iff.mpr (selectWitnesses_active_nodup hs.owners)
  · intro name hname
    obtain ⟨w, hw, rfl⟩ := List.mem_map.mp (hshuffled.mem_iff.mp hname)
    rcases List.mem_append.mp hw with hw | hw
    · obtain ⟨⟨v, hv, howner, -, hkey⟩, -⟩ := h.elected_weight hs hw
      exact ⟨v, hv, howner, hkey⟩
    · obtain ⟨⟨v, hv, howner, -, hkey⟩, -⟩ := h.selected_weight hs hw
      exact ⟨v, hv, howner, hkey⟩
  · obtain ⟨⟨v, hv, howner, hclass, -⟩, -⟩ := h.elected_weight hs he
    exact ⟨v, hv, howner, hclass⟩
  · obtain ⟨⟨v, hv, howner, hclass, -⟩, -⟩ := h.selected_weight hs hr
    exact ⟨v, hv, howner, hclass⟩

end Content

section Runs

/-- The schedule object stays. -/
def SameWso (s t : ChainState) : Prop := t.wso = s.wso

instance : IsPreorder ChainState SameWso where
  refl _ := rfl
  trans _ _ _ hst htu := Eq.trans htu hst

/-- Operations leave the schedule. -/
theorem sameWso_operationFrame (fc : FcLib) : OperationFrame fc SameWso where
  quietAccounts _ _ _ _ := rfl
  comments _ _ := rfl
  commentVotes _ _ := rfl
  withdrawVestingRoutes _ _ := rfl
  transactions _ _ := rfl
  quietWitnesses _ _ _ _ := rfl
  rewardAccounts _ _ _ _ := rfl
  rewardFunds _ _ := rfl
  rewardTotals _ _ _ _ := rfl
  ballots _ _ _ := rfl
  witnessVotes _ _ := rfl
  tallies _ _ _ _ _ := rfl
  anyAccounts _ _ := rfl
  totals _ _ _ := rfl
  accountAuthorities _ _ := rfl
  newcomer _ _ _ _ _ _ _ _ := rfl

/-- The routines of a block before the schedule leave it. -/
theorem sameWso_headerFrame : HeaderFrame SameWso where
  toQuietFrame := (sameWso_operationFrame ChainRun.sampleEnv.toFcLib).toQuietFrame
  header _ _ _ := rfl
  signed _ _ _ _ := rfl
  blockSummaries _ _ := rfl

variable {env : Env} {initSupply : ℕ} {calls : List BlockCall} {call : BlockCall} {ctx : Context}
  {b : SignedBlock}

/-- A block changes the schedule in the update only. -/
theorem applyBlockToSchedule_sameWso : Keeps SameWso (applyBlockToSchedule ctx b) :=
  applyBlockToSchedule_keeps sameWso_headerFrame (sameWso_operationFrame _)

/-- An update of the schedule keeps its limits. -/
theorem updateWitnessSchedule_limits (hids : (s.witnesses.rows.map (·.id)).Nodup)
    (h : Returns updateWitnessSchedule s () t) : limits t.wso = limits s.wso := by
  have h := h.gets_bind
  by_cases hround : s.dgp.headBlockNumber % wlsMaxWitnesses = 0
  · have h : Returns updateWitnessSchedule4 s () t := by simpa [whenever, hround] using h
    exact (updateWitnessSchedule4_written hids h).kept
  · have h : Returns (pure () : Chain Unit) s () t := by simpa [whenever, hround] using h
    rw [h.pure.2]

/-- What a block does after the update of the schedule. -/
def afterSchedule (ctx : Context) : Chain Unit := do
  clearNullAccountBalance ctx.env.toFcLib
  processFunds ctx.env.toFcLib
  processCommentCashout ctx.env.toFcLib
  processVestingWithdrawals ctx.env.toFcLib
  processHardforks

/-- The routines of a block behind the schedule leave it. -/
theorem afterSchedule_sameWso : Keeps SameWso (afterSchedule ctx) :=
  afterSchedule_keeps ctx (sameWso_operationFrame _).toStakeFrame

/-- A block up to the update of the schedule, the update, and the rest. -/
theorem applyBlock_parts (h : Returns (applyBlock ctx b) s () t) :
    ∃ u v, Returns (applyBlockToSchedule ctx b) s () u ∧ Returns updateWitnessSchedule u () v ∧
      Returns (afterSchedule ctx) v () t := by
  obtain ⟨_, front, hfront, hback⟩ := h.bind
  obtain ⟨_, s₁, h₁, hback⟩ := hback.bind
  obtain ⟨_, s₂, h₂, hback⟩ := hback.bind
  obtain ⟨_, s₃, h₃, hback⟩ := hback.bind
  exact ⟨s₂, s₃, hfront.intro_bind (h₁.intro_bind h₂), h₃, hback⟩

/-- The parts make up a block. -/
theorem applyBlock_of_parts (hu : Returns (applyBlockToSchedule ctx b) s () u)
    {v : ChainState} (hv : Returns updateWitnessSchedule u () v)
    (ht : Returns (afterSchedule ctx) v () t) : Returns (applyBlock ctx b) s () t := by
  obtain ⟨_, front, hfront, hback⟩ := Returns.bind hu
  obtain ⟨_, summary, hsummary, hexpired⟩ := hback.bind
  exact hfront.intro_bind (hsummary.intro_bind (hexpired.intro_bind (hv.intro_bind ht)))

/-- In every reachable state the limits of the schedule are those of genesis. -/
theorem Reaches.limits (h : Reaches env initSupply calls s) :
    limits s.wso = (wlsMaxVotedWitnesses, 1, 5) := by
  induction calls using List.reverseRecOn generalizing s with
  | nil =>
    rw [(Returns.pure h).2]
    rfl
  | append_singleton calls call ih =>
    obtain ⟨u, hu, hcall⟩ := ChainTip.reaches_append.mp h
    obtain ⟨v, w, hv, hw, hs⟩ := applyBlock_parts hcall
    have hstaffed := applyBlockToSchedule_staffed (Reaches.staffed hu) hv
    have hbefore : v.wso = u.wso := applyBlockToSchedule_sameWso.rel u () v hv
    have hafter : s.wso = w.wso := afterSchedule_sameWso.rel w () s hs
    rw [hafter, updateWitnessSchedule_limits hstaffed.ids hw, hbefore]
    exact ih hu

/-- Up to the update, a block keeps the names of the witnesses different. -/
theorem applyBlockToSchedule_owners (hreaches : Reaches env initSupply calls s)
    (h : Returns (applyBlockToSchedule (call.context env) call.block) s () t) :
    (t.witnesses.rows.map (·.owner)).Nodup := by
  have htrailing := Reaches.trailing hreaches
  obtain ⟨_, front, hfront, h⟩ := h.bind
  obtain ⟨_, u, hu, ht⟩ := h.bind
  obtain ⟨hattested, -, -⟩ := applyBlockFront_lib htrailing.attested htrailing.low
    (blockNum_eq hreaches (ChainTip.applyBlockFront_head hfront).1) hfront
  have hu' : Attested (calls.length + 1) calls.length u :=
    (createBlockSummary_keeps (R := Preserves (Attested (calls.length + 1) calls.length)) _
      (fun _ _ hs => ⟨hs.owners, hs.confirmed, hs.scheduled⟩) call.block).rel front () u hu hattested
  exact ((clearExpiredTransactions_keeps attested_quietFrame).rel u () t ht hu').owners

/-- Every state in which a run updates the schedule is as the update needs it. -/
theorem RunsUpdate.regular (h : RunsUpdate env initSupply calls call s) : Regular s := by
  have hstaffed := h.staffed
  obtain ⟨⟨u, hu, hs⟩, -⟩ := h
  have hwso : s.wso = u.wso := applyBlockToSchedule_sameWso.rel u () s hs
  have hlimits := Reaches.limits hu
  rw [← hwso] at hlimits
  have htop19 : s.wso.top19Weight = 1 := congrArg (fun x : ℕ × ℕ × ℕ => x.2.1) hlimits
  have htimeshare : s.wso.timeshareWeight = 5 := congrArg (fun x : ℕ × ℕ × ℕ => x.2.2) hlimits
  refine ⟨hstaffed.ids, applyBlockToSchedule_owners hu hs, ?_, ?_, ?_⟩
  · rw [hstaffed.maxVoted]
    decide
  · rw [htop19]
    decide
  · rw [htimeshare]
    decide

/-- Whenever an update of the schedule completes, it leaves behind the elected witnesses and the
runners, shuffled, with their classes and the sum of their weights; and every update of a run
from genesis starts in a state as this needs it. -/
theorem schedule_content :
    (∀ s t : ChainState, Regular s → Returns updateWitnessSchedule4 s () t →
      ∃ elected runners, Content s t elected runners) ∧
    ∀ (env : Env) (initSupply : ℕ) (calls : List BlockCall) (call : BlockCall) (s : ChainState),
      RunsUpdate env initSupply calls call s → Regular s :=
  ⟨fun _ _ hs h => ⟨_, _, (updateWitnessSchedule4_written hs.ids h).content hs⟩,
    fun _ _ _ _ _ h => RunsUpdate.regular h⟩

/-- The first update of a chain of empty blocks. -/
theorem schedule_content_emptyBlocks :
    ∃ s t, RunsUpdate sampleEnv 1000000 (firstCalls []) (updateCall []) s ∧
      Returns updateWitnessSchedule4 s () t ∧
      (∃ elected runners, Content s t elected runners) ∧ t.wso.numScheduledWitnesses = 21 := by
  have hends : endsIn (firstRound []) (initGenesis sampleEnv 1000000) (fun _ s =>
      s.dgp.headBlockNumber % wlsMaxWitnesses = 0 && endsIn updateWitnessSchedule4 s fun _ t =>
        t.wso.numScheduledWitnesses = 21) = true := by
    decide +kernel
  obtain ⟨_, s, hs, hend⟩ := returns_of_endsIn hends
  obtain ⟨hnum, hend⟩ := (Bool.and_eq_true _ _).mp hend
  obtain ⟨_, t, ht, hcount⟩ := returns_of_endsIn hend
  have hruns := runsUpdate_firstRound hs (of_decide_eq_true hnum)
  exact ⟨s, t, hruns, ht, schedule_content.1 s t
    (schedule_content.2 sampleEnv 1000000 (firstCalls []) (updateCall []) s hruns) ht,
    of_decide_eq_true hcount⟩

end Runs

end Whaleshares.ScheduleContent
