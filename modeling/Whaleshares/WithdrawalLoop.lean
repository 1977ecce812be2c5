import Whaleshares.Timeline

/-!
# The loop of the withdrawals

`process_vesting_withdrawals` goes through the accounts in the order of their next withdrawals and
withdraws from those that are due. Its runs are recorded here, with each account that it withdraws
from, as it was before. The loop finds every account that is due: it moves on before it withdraws,
and a withdrawal changes the place of no other account. A run of blocks is a course of steps in
which every block runs the loop once.
-/

namespace Whaleshares.WithdrawalLoop

open Config Fc Protocol Objects Program Database Vesting ApplyBlock Genesis ChainRun Footprint
  Sidelines LabelledRun Timeline SlotClock LockedAccount ElectionRun

section Recording

variable {env : Env} {fc : FcLib} {s t : ChainState} {sources : List AccountObject}

/-- The loop of `process_vesting_withdrawals`, with the accounts that it withdraws from. -/
def recordedLoop (fc : FcLib) : ℕ → Option AccountObject → Chain (List AccountObject)
  | _, none => pure []
  | 0, some _ => lift (.error ⟨.undefinedBehaviour, "process_vesting_withdrawals"⟩)
  | rounds + 1, some current => do
    let source ← getAccount current.name
    let now ← headBlockTime
    if source.nextVestingWithdrawal ≤ now then do
      let next ← nextInWithdrawalOrder source
      processVestingWithdrawal fc source
      let later ← recordedLoop fc rounds next
      pure (source :: later)
    else pure []

/-- `process_vesting_withdrawals`, with the accounts that it withdraws from. -/
def recordedWithdrawals (fc : FcLib) : Chain (List AccountObject) := do
  let rounds ← gets withdrawalRounds
  let first ← gets fun s =>
    s.accounts.first (fun _ => true) AccountObject.byNextVestingWithdrawal
  recordedLoop fc rounds first

/-- Recording the loop changes nothing. -/
theorem vestingWithdrawalLoop_eq (rounds : ℕ) (current : Option AccountObject) :
    vestingWithdrawalLoop fc rounds current = recordedLoop fc rounds current >>= fun _ => pure () := by
  induction rounds generalizing current with
  | zero =>
    cases current with
    | none => rfl
    | some a => rfl
  | succ rounds ih =>
    cases current with
    | none => rfl
    | some a =>
      unfold vestingWithdrawalLoop recordedLoop
      simp only [bind_assoc, ih]
      refine bind_congr fun source => bind_congr fun now => ?_
      split
      · simp only [bind_assoc, pure_bind]
      · rfl

/-- Recording `process_vesting_withdrawals` changes nothing. -/
theorem processVestingWithdrawals_eq (fc : FcLib) :
    processVestingWithdrawals fc = recordedWithdrawals fc >>= fun _ => pure () := by
  unfold processVestingWithdrawals recordedWithdrawals
  simp only [bind_assoc, vestingWithdrawalLoop_eq]

/-- Every run of `process_vesting_withdrawals` can be recorded. -/
theorem processVestingWithdrawals_recorded (h : Returns (processVestingWithdrawals fc) s () t) :
    ∃ sources, Returns (recordedWithdrawals fc) s sources t := by
  rw [processVestingWithdrawals_eq] at h
  obtain ⟨sources, u, hu, h⟩ := h.bind
  obtain ⟨-, rfl⟩ := h.pure
  exact ⟨sources, hu⟩

/-- The rounds of the loop are steps of a history. -/
theorem recordedLoop_history {rounds : ℕ} {current : Option AccountObject}
    (h : Returns (recordedLoop env.toFcLib rounds current) s sources t) :
    ∃ steps, History env s steps t ∧ steps.map (·.event) = sources.map .withdrawal := by
  induction rounds generalizing current s sources with
  | zero =>
    cases current with
    | none =>
      obtain ⟨rfl, rfl⟩ := h.pure
      exact ⟨[], rfl, rfl⟩
    | some a => cases h
  | succ rounds ih =>
    cases current with
    | none =>
      obtain ⟨rfl, rfl⟩ := h.pure
      exact ⟨[], rfl, rfl⟩
    | some a =>
      obtain ⟨source, hsource, h⟩ := lookup_bind h
      have h := h.gets_bind
      split at h
      next hdue =>
        obtain ⟨_, v, hv, h⟩ := h.gets_bind.bind
        obtain ⟨later, w, hw, h⟩ := h.bind
        obtain ⟨rfl, rfl⟩ := h.pure
        obtain ⟨steps, hsteps, hevents⟩ := ih hw
        have hname : source.name = a.name := by simpa [named] using List.find?_some hsource
        have hfirst : Occurs env (.withdrawal source) s v :=
          .withdrawal (hname ▸ hsource) hdue hv
        exact ⟨⟨s, .withdrawal source, v⟩ :: steps, ⟨rfl, hfirst, hsteps⟩, by
          rw [List.map_cons, List.map_cons, hevents]⟩
      next =>
        obtain ⟨rfl, rfl⟩ := h.pure
        exact ⟨[], rfl, rfl⟩

/-- A recorded run of `process_vesting_withdrawals` is a history of withdrawals. -/
theorem recordedWithdrawals_history (h : Returns (recordedWithdrawals env.toFcLib) s sources t) :
    ∃ steps, History env s steps t ∧ steps.map (·.event) = sources.map .withdrawal :=
  recordedLoop_history h.gets_bind.gets_bind

end Recording

section Register

variable {env : Env} {s t : ChainState}

/-- The id and the name of an account. -/
def label (a : AccountObject) : ℕ × AccountName := (a.id, a.name)

/-- Accounts with these ids and names are told apart by either, and the next id is new. -/
structure Register (labels : List (ℕ × AccountName)) (bound : ℕ) : Prop where
  ids : (labels.map Prod.fst).Nodup
  names : (labels.map Prod.snd).Nodup
  bounded : ∀ l ∈ labels, l.1 < bound

/-- The accounts of a state are told apart by their ids and by their names. -/
def Registered (s : ChainState) : Prop :=
  Register (s.accounts.rows.map label) s.accounts.nextId

/-- The names of registered accounts differ. -/
theorem Registered.names (h : Registered s) : (s.accounts.rows.map (·.name)).Nodup := by
  have hnames := Register.names h
  rw [List.map_map] at hnames
  exact hnames

/-- The ids of registered accounts differ. -/
theorem Registered.ids (h : Registered s) : (s.accounts.rows.map (·.id)).Nodup := by
  have hids := Register.ids h
  rw [List.map_map] at hids
  exact hids

/-- A registered account is found by its name. -/
theorem Registered.find (h : Registered s) {a : AccountObject} (ha : a ∈ s.accounts.rows) :
    s.accounts.find (named a.name) = some a :=
  (Table.find_key (fun a : AccountObject => a.name) (k := a.name) h.names).mpr ⟨ha, rfl⟩

/-- The accounts stay registered. -/
def StaysRegistered (s t : ChainState) : Prop := Registered s → Registered t

instance : IsPreorder ChainState StaysRegistered where
  refl _ := id
  trans _ _ _ hst htu := htu ∘ hst

/-- A change that keeps what begins with the label of each account keeps them registered. -/
theorem staysRegistered_of_view {β : Type} {view : AccountObject → (ℕ × AccountName) × β}
    (hview : ∀ a, (view a).1 = label a) {x : Table AccountObject}
    (hx : x.rows.map view = s.accounts.rows.map view) (hnext : x.nextId = s.accounts.nextId) :
    StaysRegistered s { s with accounts := x } := by
  intro h
  change Register (x.rows.map label) x.nextId
  rw [map_eq_of_map_eq (·.1) hview hx, hnext]
  exact h

/-- What the footprint leaves alone keeps the accounts registered. -/
theorem staysRegistered_sideFrame : SideFrame StaysRegistered where
  accounts _ _ := staysRegistered_of_view fun _ => rfl
  comments _ _ _ _ := id
  accountAuthorities _ _ := id
  witnesses _ _ := id
  witnessVotes _ _ := id
  rewardFunds _ _ _ := id
  transactions _ _ := id
  dgp _ _ := id
  wso _ _ := id
  hardforks _ _ := id
  blockSummaries _ _ := id

/-- A new account has a new name and a new id. -/
theorem staysRegistered_account : AllowsAccount StaysRegistered := by
  intro s x a hrows hname hconduct hnext h
  have hlabel : label a = (s.accounts.nextId, a.name) := congrArg (·.1) hconduct
  change Register (x.rows.map label) x.nextId
  rw [hrows, hnext, List.map_append, List.map_singleton, hlabel]
  refine ⟨?_, ?_, fun l hl => ?_⟩
  · rw [List.map_append]
    refine List.nodup_append'.mpr ⟨Register.ids h, List.nodup_singleton _, fun id hid hmem => ?_⟩
    obtain ⟨l, hl, rfl⟩ := List.mem_map.mp hid
    exact absurd (List.mem_singleton.mp hmem) (h.bounded l hl).ne
  · rw [List.map_append]
    refine List.nodup_append'.mpr ⟨Register.names h, List.nodup_singleton _, fun name hold hmem => ?_⟩
    rw [List.map_map] at hold
    obtain ⟨old, hrow, rfl⟩ := List.mem_map.mp hold
    exact hname old hrow (List.mem_singleton.mp hmem).symm
  · rcases List.mem_append.mp hl with hl | hl
    · exact (h.bounded l hl).trans (Nat.lt_succ_self _)
    · rw [List.mem_singleton.mp hl]
      exact Nat.lt_succ_self _

/-- A power-down leaves the accounts registered. -/
theorem staysRegistered_powerDown : AllowsPowerDown StaysRegistered := fun _ _ =>
  staysRegistered_of_view fun _ => rfl

/-- A withdrawal leaves the accounts registered. -/
theorem withdrawal_registered {fc : FcLib} {source : AccountObject} {r : Unit}
    (h : Returns (processVestingWithdrawal fc source) s r t) : StaysRegistered s t :=
  (processVestingWithdrawal_aside fc staysRegistered_sideFrame staysRegistered_powerDown _).rel _ _ _ h

/-- Every step of a history leaves the accounts registered. -/
theorem step_registered {event : Event} (h : Occurs env event s t) : StaysRegistered s t := by
  have hside := staysRegistered_sideFrame
  cases h with
  | operation ctx henv op hvalid hnull h =>
    cases op with
    | withdrawVesting o =>
      exact (applyWithdrawVesting_aside _ staysRegistered_powerDown o).rel _ _ _ h
    | vote o =>
      have hpower : AllowsPower StaysRegistered := fun _ _ => staysRegistered_of_view fun _ => rfl
      exact (applyVote_aside _ hside hpower (fun _ _ _ _ => id) (fun _ _ => id) o).rel _ _ _ h
    | comment o => exact (applyComment_aside hside (fun _ _ => id) _ o).rel _ _ _ h
    | deleteComment o =>
      exact (applyDeleteComment_aside (fun _ _ => id) (fun _ _ => id) o).rel _ _ _ h
    | setWithdrawVestingRoute o =>
      have hroutes : AllowsRoutes StaysRegistered :=
        ⟨fun _ _ => staysRegistered_of_view fun _ => rfl, fun _ _ => id⟩
      exact (applySetWithdrawVestingRoute_aside hroutes o).rel _ _ _ h
    | accountCreate o =>
      exact (applyAccountCreate_aside ctx hside staysRegistered_account o).rel _ _ _ h
    | _ =>
      refine (applyOperation_aside ctx hside ?_).rel _ _ _ h
      trivial
  | withdrawal hsource hdue h => exact withdrawal_registered h
  | cashout h =>
    exact (processCommentCashout_aside _ hside (fun _ _ _ _ => id) (fun _ _ => id)).rel _ _ _ h
  | burning h => exact (clearNullAccountBalance_aside _ hside).rel _ _ _ h
  | upkeep hm hlater h => exact (hm.aside hside).rel _ _ _ h

/-- The accounts of the genesis are registered. -/
theorem registered_initGenesis (env : Env) (initSupply : ℕ) :
    Registered (initGenesis env initSupply) := by
  have hids : ((initGenesis env initSupply).accounts.rows.map label).map Prod.fst =
      List.range (5 + wlsMaxWitnesses) := rfl
  have hnames : ((initGenesis env initSupply).accounts.rows.map label).map Prod.snd =
      genesisNames := rfl
  refine ⟨hids ▸ List.nodup_range, hnames ▸ genesisNames_nodup, fun l hl => ?_⟩
  have hid : l.1 ∈ List.range (5 + wlsMaxWitnesses) := hids ▸ List.mem_map_of_mem hl
  exact List.mem_range.mp hid

end Register

section Visits

variable {fc : FcLib} {name : AccountName} {s t u : ChainState} {sources : List AccountObject}
  {source a b c : AccountObject} {r : Unit}

/-- An account has no power-down. -/
def Idle (d : ℤ × TimePointSec × ℤ × ℤ) : Prop := d = (0, timePointSecMaximum, 0, 0)

/-- What changes neither accounts nor their number leaves a power-down alone. -/
theorem untouched_conduct (name : AccountName) : SideFrame (Untouched powerDown Idle name) :=
  untouched_sideFrame (k := fun c => c.2.2.1) fun _ => rfl

/-- The end of a withdrawal leaves the name of the account alone. -/
theorem finishWithdrawal_name {toWithdraw : ℤ} {converted : Assets.Asset} (a b : AccountObject)
    (h : finishWithdrawal fc toWithdraw converted a = .ok b) : b.name = a.name := by
  obtain ⟨_, _, _, -, -, -, rfl⟩ := finishWithdrawal_eq_ok h
  rfl

/-- A withdrawal leaves the power-downs of other accounts alone. -/
theorem withdrawal_untouched (hne : source.name ≠ name)
    (h : Returns (processVestingWithdrawal fc source) s r t) :
    Untouched powerDown Idle name s t := by
  have hside := untouched_conduct name
  obtain ⟨_, _, u, v, -, hsu, huv, hvt⟩ := processVestingWithdrawal_finishes _
    (fun _ _ => depositAsVests_aside _ hside _ _ _)
    (fun _ _ => depositAsSteem_aside _ hside _ _ _ _) (fun _ => modifyDgp_aside hside _)
    (fun _ _ => adjustProxiedWitnessVotes_aside _ hside _ _) h
  have hother : Untouched powerDown Idle name u v :=
    modifyAccount_untouched finishWithdrawal_name hne huv
  exact Trans.trans hsu (Trans.trans hother hvt)

/-- The accounts keep their ids and names. -/
def SameLabels (s t : ChainState) : Prop :=
  t.accounts.rows.map label = s.accounts.rows.map label

instance : IsPreorder ChainState SameLabels where
  refl _ := rfl
  trans _ _ _ hst htu := Eq.trans htu hst

/-- What the footprint leaves alone keeps the labels. -/
theorem sameLabels_sideFrame : SideFrame SameLabels where
  accounts s x hx _ := show x.rows.map label = s.accounts.rows.map label from
    map_eq_of_map_eq (·.1) (fun _ => rfl) hx
  comments _ _ _ _ := rfl
  accountAuthorities _ _ := rfl
  witnesses _ _ := rfl
  witnessVotes _ _ := rfl
  rewardFunds _ _ _ := rfl
  transactions _ _ := rfl
  dgp _ _ := rfl
  wso _ _ := rfl
  hardforks _ _ := rfl
  blockSummaries _ _ := rfl

/-- A withdrawal leaves the ids and names of accounts alone. -/
theorem withdrawal_labels (h : Returns (processVestingWithdrawal fc source) s r t) :
    SameLabels s t :=
  (processVestingWithdrawal_aside _ sameLabels_sideFrame
    (fun s x hx _ => show x.rows.map label = s.accounts.rows.map label from
      map_eq_of_map_eq (·.1) (fun _ => rfl) hx) _).rel _ _ _ h

/-- Two states of an account, in the same place of the order of withdrawals. -/
structure SamePlace (a b : AccountObject) : Prop where
  name : b.name = a.name
  id : b.id = a.id
  next : b.nextVestingWithdrawal = a.nextVestingWithdrawal

/-- A withdrawal leaves the places of other accounts alone. -/
theorem withdrawal_place (hs : Registered s) (hne : source.name ≠ a.name)
    (ha : a ∈ s.accounts.rows) (h : Returns (processVestingWithdrawal fc source) s r t) :
    ∃ b ∈ t.accounts.rows, SamePlace a b := by
  have hview : viewOf powerDown s a.name = some (powerDown a) :=
    congrArg (Option.map powerDown) (hs.find ha)
  obtain ⟨b, hb, hdown⟩ :=
    Option.map_eq_some_iff.mp ((withdrawal_untouched hne h).eq_some hview)
  have hrow : b ∈ t.accounts.rows := List.mem_of_find?_eq_some hb
  have hname : b.name = a.name := by simpa [named] using List.find?_some hb
  have hlabel : label b ∈ s.accounts.rows.map label := by
    rw [← show t.accounts.rows.map label = s.accounts.rows.map label from withdrawal_labels h]
    exact List.mem_map_of_mem hrow
  obtain ⟨a', ha', hsame⟩ := List.mem_map.mp hlabel
  obtain ⟨hid, hname'⟩ := Prod.mk.inj hsame
  have heq : a' = a := Table.eq_of_key_eq (·.name) hs.names ha' ha (hname'.trans hname)
  rw [heq] at hid
  exact ⟨b, hrow, hname, hid.symm, (Prod.mk.inj (Prod.mk.inj hdown).2).1⟩

/-- The place of an account in the order of withdrawals. -/
def placeOf (a : AccountObject) : ℕ ×ₗ ℕ := toLex (a.nextVestingWithdrawal, a.id)

/-- The order of withdrawals is that of the places. -/
theorem byNext_iff : a.byNextVestingWithdrawal b = true ↔ placeOf a ≤ placeOf b := by
  unfold AccountObject.byNextVestingWithdrawal placeOf
  rw [Prod.Lex.toLex_le_toLex, Bool.or_eq_true, Bool.and_eq_true, decide_eq_true_eq,
    decide_eq_true_eq, decide_eq_true_eq]

/-- The order of withdrawals is total. -/
theorem byNext_total (a b : AccountObject) :
    a.byNextVestingWithdrawal b = true ∨ b.byNextVestingWithdrawal a = true := by
  rw [byNext_iff, byNext_iff]
  exact le_total _ _

/-- The order of withdrawals is transitive. -/
theorem byNext_trans (a b c : AccountObject) (hab : a.byNextVestingWithdrawal b = true)
    (hbc : b.byNextVestingWithdrawal c = true) : a.byNextVestingWithdrawal c = true := by
  rw [byNext_iff] at *
  exact hab.trans hbc

/-- An account before another one in the order is due if that one is. -/
theorem byNext_due {now : TimePointSec} (hle : a.byNextVestingWithdrawal b = true)
    (hdue : b.nextVestingWithdrawal ≤ now) : a.nextVestingWithdrawal ≤ now := by
  rcases Prod.Lex.toLex_le_toLex.mp (byNext_iff.mp hle) with hlt | ⟨heq, -⟩
  · exact hlt.le.trans hdue
  · exact heq.le.trans hdue

/-- Two states of an account in the same place have the same place. -/
theorem SamePlace.placeOf (h : SamePlace a b) : placeOf b = placeOf a := by
  unfold WithdrawalLoop.placeOf
  rw [h.next, h.id]

/-- Of two accounts with different ids only one is not after the other. -/
theorem byNext_after (hle : a.byNextVestingWithdrawal b = true) (hne : a.id ≠ b.id) :
    b.byNextVestingWithdrawal a = false := by
  rw [← Bool.not_eq_true, byNext_iff, not_le]
  refine lt_of_le_of_ne (byNext_iff.mp hle) fun hsame => hne ?_
  exact congrArg (fun p : ℕ ×ₗ ℕ => (ofLex p).2) hsame

/-- The loop, from an account on, withdraws from every account that is due and not before it. -/
theorem recordedLoop_visits {rounds : ℕ} (hs : Registered s)
    (h : Returns (recordedLoop fc rounds (some c)) s sources t)
    (hc : ∃ c' ∈ s.accounts.rows, SamePlace c c') (ha : a ∈ s.accounts.rows)
    (hdue : a.nextVestingWithdrawal ≤ s.dgp.time) (hle : c.byNextVestingWithdrawal a = true) :
    ∃ source ∈ sources, source.name = a.name := by
  induction rounds generalizing s sources a c with
  | zero => cases h
  | succ rounds ih =>
    obtain ⟨c', hrow, hplace⟩ := hc
    obtain ⟨source, hsource, h⟩ := lookup_bind h
    have hsame : source = c' := by
      have hfind := hs.find hrow
      rw [hplace.name] at hfind
      exact Option.some.inj (hsource.symm.trans hfind)
    obtain rfl := hsame
    have hfirst : source.byNextVestingWithdrawal a = true := by
      rw [byNext_iff, hplace.placeOf]
      exact byNext_iff.mp hle
    have h := h.gets_bind
    rw [if_pos (byNext_due hfirst hdue)] at h
    obtain ⟨_, v, hv, h⟩ := h.gets_bind.bind
    obtain ⟨later, w, hw, h⟩ := h.bind
    obtain ⟨rfl, rfl⟩ := h.pure
    by_cases hname : source.name = a.name
    · exact ⟨source, List.mem_cons_self, hname⟩
    -- the next account is not after this one
    have hid : source.id ≠ a.id := fun hid =>
      hname (congrArg (·.name) (Table.eq_of_key_eq (·.id) hs.ids hrow ha hid))
    have hafter := byNext_after hfirst hid
    have hregistered : Registered v := withdrawal_registered hv hs
    have htime : v.dgp.time = s.dgp.time := sameClock_time
      ((processVestingWithdrawal_keeps fc
        (sameClock_moneyFrame.toOperationFrame fc).toStakeFrame _).rel _ _ _ hv)
    cases hnext : s.accounts.first (fun b => !b.byNextVestingWithdrawal source)
        AccountObject.byNextVestingWithdrawal with
    | none =>
      have hnone := Table.first_eq_none byNext_total byNext_trans hnext a ha
      simp [hafter] at hnone
    | some n =>
      obtain ⟨hn, hbehind, hleast⟩ := Table.first_eq_some byNext_total byNext_trans hnext
      rw [hnext] at hw
      have hother : source.name ≠ n.name := fun hsame => by
        have heq : source = n := Table.eq_of_key_eq (·.name) hs.names hrow hn hsame
        rw [← heq] at hbehind
        rcases byNext_total source source with hself | hself <;> simp [hself] at hbehind
      obtain ⟨n', hn', hplaceN⟩ := withdrawal_place hs hother hn hv
      obtain ⟨a', ha', hplaceA⟩ := withdrawal_place hs hname ha hv
      have hlater : n.byNextVestingWithdrawal a' = true := by
        rw [byNext_iff, hplaceA.placeOf]
        exact byNext_iff.mp (hleast a ha (by rw [hafter]; rfl))
      obtain ⟨found, hfound, hsame⟩ := ih hregistered hw ⟨n', hn', hplaceN⟩ ha'
        (by rw [hplaceA.next, htime]; exact hdue) hlater
      exact ⟨found, List.mem_cons_of_mem _ hfound, hsame.trans hplaceA.name⟩

/-- The loop of `process_vesting_withdrawals` withdraws from every account that is due. -/
theorem recordedWithdrawals_visits (hs : Registered s)
    (h : Returns (recordedWithdrawals fc) s sources t) (ha : a ∈ s.accounts.rows)
    (hdue : a.nextVestingWithdrawal ≤ s.dgp.time) : ∃ source ∈ sources, source.name = a.name := by
  have h := h.gets_bind.gets_bind
  cases hfirst : s.accounts.first (fun _ => true) AccountObject.byNextVestingWithdrawal with
  | none =>
    have hnone := Table.first_eq_none byNext_total byNext_trans hfirst a ha
    cases hnone
  | some c =>
    obtain ⟨hc, -, hleast⟩ := Table.first_eq_some byNext_total byNext_trans hfirst
    rw [hfirst] at h
    exact recordedLoop_visits hs h ⟨c, hc, rfl, rfl, rfl⟩ ha hdue (hleast a ha rfl)

end Visits

section Courses

variable {env : Env} {s t u : ChainState} {ops : List Operation} {call : BlockCall}

/-- What comes next in a run: a step that is no withdrawal, or the loop of
`process_vesting_withdrawals`, with the accounts that it withdraws from. -/
inductive Turn where
  | step (event : Event)
  | loop (sources : List AccountObject)

/-- A turn that can be taken in a state, and the state that it leads to. -/
inductive Takes (env : Env) : Turn → ChainState → ChainState → Prop where
  | step {event : Event} (hquiet : event.Quiet) {s t : ChainState} (h : Occurs env event s t) :
      Takes env (.step event) s t
  | loop {sources : List AccountObject} {s t : ChainState}
      (h : Returns (recordedWithdrawals env.toFcLib) s sources t) : Takes env (.loop sources) s t

/-- The turns lead from one state to another. -/
abbrev Course (env : Env) (s : ChainState) (turns : List (Moment ChainState Turn))
    (t : ChainState) : Prop :=
  Path (Takes env) s turns t

/-- The operation of a turn, if it is one. -/
def Turn.operation? : Turn → Option Operation
  | .step event => event.operation?
  | .loop _ => none

/-- The operations of a course, in order. -/
def courseOperations (turns : List (Moment ChainState Turn)) : List Operation :=
  turns.filterMap fun m => m.event.operation?

/-- The turns of the block of a call: its operations among other steps, and then the loop, once. -/
def BlockTurns (call : BlockCall) (turns : List (Moment ChainState Turn)) : Prop :=
  ∃ steps last, turns = steps ++ [last] ∧ (∀ m ∈ steps, ∃ event, m.event = .step event) ∧
    (∃ sources, last.event = .loop sources) ∧ courseOperations steps = BlockCall.operations call

/-- A history without withdrawals is a course of its steps. -/
theorem course_of_quiet (h : Quiet env ops s t) :
    ∃ turns, Course env s turns t ∧ (∀ m ∈ turns, ∃ event, m.event = .step event) ∧
      courseOperations turns = ops := by
  obtain ⟨steps, hsteps, hops, hquiet⟩ := h
  refine ⟨steps.map (Moment.relabel .step),
    Path.relabel _ hsteps fun m hm hstep => .step (hquiet m hm) hstep, fun m hm => ?_, ?_⟩
  · obtain ⟨m', -, rfl⟩ := List.mem_map.mp hm
    exact ⟨m'.event, rfl⟩
  · unfold courseOperations
    rw [List.filterMap_map]
    exact hops

/-- A checked block is a course of its turns. -/
theorem applyBlock_course (hchecked : Checked call.skip) (h : Returns (call.run env) s () t)
    (hs : Locked s) : ∃ turns, Course env s turns t ∧ BlockTurns call turns := by
  have henv : (call.context env).env = env := rfl
  obtain ⟨u, hquiet, hloop⟩ := applyBlock_quiet henv hchecked h hs
  obtain ⟨turns, hturns, hsteps, hops⟩ := course_of_quiet hquiet
  obtain ⟨sources, hsources⟩ := processVestingWithdrawals_recorded hloop
  have hlast : Takes env (.loop sources) u t := .loop hsources
  exact ⟨turns ++ [⟨u, .loop sources, t⟩], hturns.append (.single hlast), turns, _, rfl, hsteps,
    ⟨sources, rfl⟩, hops⟩

/-- Checked blocks, one after the other, are a course of their turns. -/
theorem runBlocks_course {calls : List BlockCall} (hchecked : ∀ call ∈ calls, Checked call.skip)
    (h : Returns (runBlocks env calls) s () t) (hs : Locked s) :
    ∃ turns, Course env s turns.flatten t ∧ List.Forall₂ BlockTurns calls turns := by
  induction calls generalizing s with
  | nil =>
    obtain ⟨-, rfl⟩ := h.pure
    exact ⟨[], rfl, .nil⟩
  | cons call rest ih =>
    obtain ⟨_, u, hcall, hrest⟩ := h.bind
    have hfirst := hchecked call List.mem_cons_self
    obtain ⟨turns, hturns, hblock⟩ := applyBlock_course hfirst hcall hs
    obtain ⟨later, hlater, hblocks⟩ := ih (fun c hc => hchecked c (List.mem_cons_of_mem _ hc))
      hrest (applyBlock_locked hfirst hcall hs)
    exact ⟨turns :: later, hturns.append hlater, .cons hblock hblocks⟩

/-- Every run of checked blocks is a course of their turns. -/
theorem Reaches.course {initSupply : ℕ} {calls : List BlockCall}
    (hchecked : ∀ call ∈ calls, Checked call.skip) (h : Reaches env initSupply calls t) :
    ∃ turns, Course env (initGenesis env initSupply) turns.flatten t ∧
      List.Forall₂ BlockTurns calls turns :=
  runBlocks_course hchecked h (locked_initGenesis env initSupply)

/-- A run of withdrawals has no operations. -/
theorem operations_withdrawals {steps : List Step} {sources : List AccountObject}
    (h : steps.map (·.event) = sources.map .withdrawal) : operations steps = [] := by
  refine List.filterMap_eq_nil_iff.mpr fun m hm => ?_
  have hevent : m.event ∈ sources.map Event.withdrawal := h ▸ List.mem_map_of_mem hm
  obtain ⟨source, -, hsource⟩ := List.mem_map.mp hevent
  rw [← hsource]
  rfl

/-- A course is a history, with the rounds of its loops as steps. -/
theorem course_history {turns : List (Moment ChainState Turn)} (h : Course env s turns t) :
    ∃ steps, History env s steps t ∧ operations steps = courseOperations turns := by
  induction turns generalizing s with
  | nil => exact ⟨[], h, rfl⟩
  | cons m rest ih =>
    obtain ⟨hbefore, hm, hrest⟩ := h
    obtain ⟨later, hlater, hops⟩ := ih hrest
    obtain ⟨v, turn, w⟩ := m
    obtain rfl : v = s := hbefore
    cases hm with
    | step hquiet hstep =>
      rename_i event
      refine ⟨⟨v, event, w⟩ :: later, ⟨rfl, hstep, hlater⟩, ?_⟩
      unfold operations courseOperations at *
      rw [List.filterMap_cons, List.filterMap_cons, hops]
      rfl
    | loop hloop =>
      obtain ⟨steps, hsteps, hevents⟩ := recordedWithdrawals_history hloop
      refine ⟨steps ++ later, hsteps.append hlater, ?_⟩
      have hnone := operations_withdrawals hevents
      unfold operations courseOperations at *
      rw [List.filterMap_append, hnone, hops, List.nil_append]
      rfl

/-- The operations of a run of blocks are those of their turns. -/
theorem courseOperations_flatten {calls : List BlockCall}
    {turns : List (List (Moment ChainState Turn))} (h : List.Forall₂ BlockTurns calls turns) :
    courseOperations turns.flatten = calls.flatMap BlockCall.operations := by
  induction h with
  | nil => rfl
  | cons hblock _ ih =>
    obtain ⟨steps, last, rfl, -, ⟨sources, hlast⟩, hops⟩ := hblock
    have hnone : courseOperations [last] = [] := by
      unfold courseOperations
      rw [List.filterMap_cons_none (by rw [hlast]; rfl), List.filterMap_nil]
    unfold courseOperations at *
    rw [List.flatten_cons, List.flatMap_cons, List.filterMap_append, List.filterMap_append, hops,
      hnone, ih, List.append_nil]

/-- A run of checked blocks has a history, with the operations of its blocks. -/
theorem Reaches.unfolds {initSupply : ℕ} {calls : List BlockCall}
    (hchecked : ∀ call ∈ calls, Checked call.skip) (h : Reaches env initSupply calls t) :
    ∃ steps, History env (initGenesis env initSupply) steps t ∧
      operations steps = calls.flatMap BlockCall.operations := by
  obtain ⟨turns, hturns, hblocks⟩ := Reaches.course hchecked h
  obtain ⟨steps, hsteps, hops⟩ := course_history hturns
  exact ⟨steps, hsteps, hops.trans (courseOperations_flatten hblocks)⟩

/-- The accounts stay registered in a course. -/
theorem course_registered {turns : List (Moment ChainState Turn)} (h : Course env s turns t)
    (hs : Registered s) : Registered t := by
  obtain ⟨steps, hsteps, -⟩ := course_history h
  exact Path.invariant hsteps hs fun m _ hm => step_registered hm

end Courses

end Whaleshares.WithdrawalLoop
