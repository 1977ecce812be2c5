import Whaleshares.CommentParents
import Whaleshares.WithdrawalLoop

/-!
# The limit of voting power

Voting power regenerates with time, is computed only when an account votes, rounded down each
time, and never exceeds 100%. A vote takes its share of it, rounded up. So between two of its
votes an account uses at most one full charge and what time has regenerated in between,
whichever of its votes are new and whichever are changed.
-/

namespace Whaleshares.VotingPower

open Config Fc Assets Protocol Objects Program Database CommentEvaluators Genesis Footprint
  Sidelines LabelledRun Timeline SlotClock WithdrawalLoop

section Charge

variable {o : VoteOperation} {voter : AccountObject} {dgp : DynamicGlobalPropertyObject}
  {left : VotePower}

/-- The seconds since the last vote of an account. -/
def elapsed (time : TimePointSec) (voter : AccountObject) : ℤ := time - voter.lastVoteTime

/-- What time regenerates of the voting power. -/
def regenerated (seconds : ℤ) : ℤ := wls100Percent * seconds / wlsVoteRegenerationSeconds

/-- Regeneration in two parts is at most regeneration at once. -/
theorem regenerated_add_le (x y : ℤ) : regenerated x + regenerated y ≤ regenerated (x + y) := by
  unfold regenerated wls100Percent wlsVoteRegenerationSeconds
  omega

/-- The power that is used is not negative. -/
theorem usedPower_nonneg {rate : ℕ} {power weight used : ℤ} (hpower : 0 < power)
    (h : usedPower rate power weight = .ok used) : 0 ≤ used := by
  obtain ⟨_, hdenom, h⟩ := bind_eq_ok h
  have hdenom : 0 < ((rate * wlsVoteRegenerationSeconds % 2 ^ 32 / (60 * 60 * 24) : ℕ) : ℤ) := by
    simpa using fcAssert_eq_ok hdenom
  rw [← Except.ok.inj h]
  have hshare : 0 ≤ (power * weight.natAbs).tdiv wls100Percent :=
    Int.tdiv_nonneg (Int.mul_nonneg hpower.le (Int.natCast_nonneg _)) (Int.natCast_nonneg _)
  exact Int.tdiv_nonneg (by omega) hdenom.le

/-- A vote uses some of the power that the voter had regenerated to, and leaves the rest. -/
theorem votePower_uses (h : votePower o voter dgp = .ok left) :
    3 ≤ elapsed dgp.time voter ∧ ∃ used,
      usedPower dgp.votePowerReserveRate (currentPower voter (elapsed dgp.time voter)) o.weight =
        .ok used ∧
      0 ≤ used ∧ 0 ≤ left.left ∧
      left.left = currentPower voter (elapsed dgp.time voter) - used := by
  obtain ⟨_, helapsed, h⟩ := bind_eq_ok h
  obtain ⟨_, hpower, h⟩ := bind_eq_ok h
  obtain ⟨used, hused, h⟩ := bind_eq_ok h
  obtain ⟨_, henough, h⟩ := bind_eq_ok h
  obtain ⟨shares, -, h⟩ := bind_eq_ok h
  obtain ⟨_, -, h⟩ := bind_eq_ok h
  have helapsed : (wlsMinVoteIntervalSec : ℤ) ≤ dgp.time - voter.lastVoteTime := by
    simpa using fcAssert_eq_ok helapsed
  have hpower : 0 < currentPower voter (dgp.time - voter.lastVoteTime) := by
    simpa using fcAssert_eq_ok hpower
  have henough : used ≤ currentPower voter (dgp.time - voter.lastVoteTime) := by
    simpa using fcAssert_eq_ok henough
  have hnonneg := usedPower_nonneg hpower hused
  have hleft : left.left = currentPower voter (dgp.time - voter.lastVoteTime) - used := by
    rw [← Except.ok.inj h]
  refine ⟨helapsed, used, hused, hnonneg, ?_, hleft⟩
  rw [hleft]
  omega

/-- The regenerated power is at most 100%, and at most the old power with what time adds. -/
theorem currentPower_le (voter : AccountObject) {seconds : ℤ} (h : 0 ≤ seconds) :
    currentPower voter seconds ≤ wls100Percent ∧
      currentPower voter seconds ≤ voter.votingPower + regenerated seconds := by
  have hdiv : ((wls100Percent : ℤ) * seconds).tdiv wlsVoteRegenerationSeconds =
      regenerated seconds :=
    Int.tdiv_eq_ediv_of_nonneg (Int.mul_nonneg (Int.natCast_nonneg _) h)
  unfold currentPower
  rw [hdiv]
  exact ⟨min_le_right _ _, min_le_left _ _⟩

end Charge

section Spending

/-- The voting power that a vote uses, `used_power`; none on a comment that is paid out. -/
def powerUsed (o : VoteOperation) (s : ChainState) : ℤ :=
  match s.comments.find (CommentObject.hasPermlink o.author o.permlink),
    s.accounts.find (named o.voter) with
  | some comment, some voter =>
    if comment.cashoutTime = timePointSecMaximum then 0
    else
      match usedPower s.dgp.votePowerReserveRate (currentPower voter (elapsed s.dgp.time voter))
        o.weight with
      | .ok used => used
      | .error _ => 0
  | _, _ => 0

/-- The voting power that an account uses in a step. -/
def cost (name : AccountName) (m : Step) : ℤ :=
  match m.event with
  | .operation (.vote o) => if o.voter = name then powerUsed o m.before else 0
  | _ => 0

/-- The voting power that an account uses in a history. -/
def spent (name : AccountName) (steps : List Step) : ℤ := (steps.map (cost name)).sum

end Spending

section Power

variable {env : Env} {name : AccountName} {event : Event} {s t : ChainState}

/-- The voting power of the account of a name. -/
abbrev powerOf (s : ChainState) (name : AccountName) : Option (ℕ × TimePointSec) :=
  viewOf power s name

/-- An account keeps its voting power, or it is new and has full power. -/
abbrev SamePower (name : AccountName) : ChainState → ChainState → Prop :=
  Untouched power (fun p => p.1 = wls100Percent) name

/-- What the footprint leaves alone keeps the power. -/
theorem samePower_sideFrame (name : AccountName) : SideFrame (SamePower name) :=
  untouched_sideFrame (k := fun c => c.2.1) fun _ => rfl

/-- The steps of the withdrawals keep the power. -/
theorem samePower_powerDown (name : AccountName) : AllowsPowerDown (SamePower name) :=
  untouched_powerDown (k := fun c => c.2.1) fun _ => rfl

/-- The steps of the routes keep the power. -/
theorem samePower_routes (name : AccountName) : AllowsRoutes (SamePower name) :=
  untouched_routes (k := fun c => c.2.1) fun _ => rfl

/-- The other steps of accounts keep the power. -/
theorem samePower_account (name : AccountName) : AllowsAccount (SamePower name) :=
  untouched_account (k := fun c => c.2.1) (fun _ => rfl) fun _ _ _ => rfl

/-- A voter has what its vote leaves, computed at the time of the vote. -/
theorem voted_power {now : TimePointSec} {left : VotePower}
    (h : Returns (modifyAccount (named name) fun a => .ok (voted now left a)) s () t)
    (hnonneg : 0 ≤ left.left) (hle : left.left ≤ wls100Percent) :
    powerOf t name = some (left.left.toNat, now) := by
  obtain ⟨a, b, -, hab, hb⟩ := modifyAccount_find (fun a b hab => by rw [← Except.ok.inj hab]; rfl) h
  have hsmall : left.left % 2 ^ 16 = left.left := by
    unfold wls100Percent at hle
    omega
  unfold powerOf viewOf
  rw [hb, ← Except.ok.inj hab]
  change some ((left.left % 2 ^ 16).toNat, now) = _
  rw [hsmall]

/-- A vote of another account changes nothing for an account. -/
theorem voted_samePower {now : TimePointSec} {left : VotePower} {other : AccountName}
    (h : Returns (modifyAccount (named other) fun a => .ok (voted now left a)) s () t)
    (hne : other ≠ name) : SamePower name s t :=
  modifyAccount_untouched (fun a b hab => by rw [← Except.ok.inj hab]; rfl) hne h

/-- What a step does to the voting power of an account: nothing, or it is a vote that uses some
of the power that the account has regenerated to at that time. -/
inductive PowerStep (name : AccountName) (m : Step) : Prop where
  | rests (hcost : cost name m = 0) (hsame : SamePower name m.before m.after)
  | votes (voter : AccountObject) (left : ℤ)
      (hfound : m.before.accounts.find (named name) = some voter)
      (helapsed : 3 ≤ elapsed m.before.dgp.time voter) (hnonneg : 0 ≤ cost name m)
      (hleft : 0 ≤ left)
      (hcost : left = currentPower voter (elapsed m.before.dgp.time voter) - cost name m)
      (hafter : powerOf m.after name = some (left.toNat, m.before.dgp.time))

/-- A vote takes its share from the regenerated power of the voter and keeps that of the others. -/
theorem applyVote_power {fc : FcLib} {o : VoteOperation} (h : Returns (applyVote fc o) s () t) :
    PowerStep name ⟨s, .operation (.vote o), t⟩ := by
  obtain ⟨comment, voter, hcharges⟩ := applyVote_charges fc (samePower_sideFrame name)
    untouched_polls untouched_commentVotes h
  have hpowerUsed : ∀ x, powerUsed o s = x →
      cost name ⟨s, .operation (.vote o), t⟩ = if o.voter = name then x else 0 := by
    intro x hx
    rw [← hx]
    rfl
  rcases hcharges.charge with ⟨hpaid, hsame⟩ | ⟨hopen, left, u, hleft, hu, hut⟩
  · refine .rests ?_ hsame
    have hused : powerUsed o s = 0 := by
      unfold powerUsed
      rw [hcharges.foundComment, hcharges.foundVoter]
      exact if_pos hpaid
    rw [hpowerUsed 0 hused, ite_self]
  · obtain ⟨helapsed, used, hused, hnonneg, hleft', heq⟩ := votePower_uses hleft
    have hpower : powerUsed o s = used := by
      unfold powerUsed
      rw [hcharges.foundComment, hcharges.foundVoter]
      simp only
      rw [if_neg hopen, hused]
    have hcost := hpowerUsed used hpower
    by_cases hname : o.voter = name
    · rw [if_pos hname] at hcost
      have hcap := (currentPower_le voter
        (by omega : 0 ≤ elapsed s.dgp.time voter)).1
      have hvoted : powerOf u name = some (left.left.toNat, s.dgp.time) :=
        voted_power (hname ▸ hu) hleft' (by omega)
      refine .votes voter left.left ?_ helapsed ?_ hleft' ?_ (hut.eq_some hvoted)
      · rw [← hname]
        exact hcharges.foundVoter
      · rw [hcost]
        exact hnonneg
      · rw [hcost]
        exact heq
    · rw [if_neg hname] at hcost
      exact .rests hcost (Trans.trans (voted_samePower hu hname) hut)

/-- A step of the chain takes power only by a vote of the account. -/
theorem step_power (name : AccountName) {m : Step} (h : Occurs env m.event m.before m.after) : PowerStep name m := by
  obtain ⟨s, event, t⟩ := m
  have hside := samePower_sideFrame name
  cases h with
  | operation ctx henv op hvalid hnull h =>
    cases op with
    | vote o => exact applyVote_power h
    | comment o =>
      exact .rests rfl
        ((applyComment_aside hside untouched_comments _ o).rel _ _ _ h)
    | deleteComment o =>
      exact .rests rfl
        ((applyDeleteComment_aside untouched_comments untouched_commentVotes
          o).rel _ _ _ h)
    | withdrawVesting o =>
      exact .rests rfl
        ((applyWithdrawVesting_aside _ (samePower_powerDown name) o).rel _ _ _ h)
    | setWithdrawVestingRoute o =>
      exact .rests rfl
        ((applySetWithdrawVestingRoute_aside (samePower_routes name) o).rel _ _ _ h)
    | accountCreate o =>
      exact .rests rfl
        ((applyAccountCreate_aside ctx hside (samePower_account name) o).rel _ _ _ h)
    | _ =>
      refine .rests rfl ((applyOperation_aside ctx hside ?_).rel _ _ _ h)
      trivial
  | withdrawal hsource hdue h =>
    exact .rests rfl
      ((processVestingWithdrawal_aside _ hside (samePower_powerDown name) _).rel _ _ _ h)
  | cashout h =>
    exact .rests rfl ((processCommentCashout_aside _ hside untouched_polls
      untouched_commentVotes).rel _ _ _ h)
  | burning h => exact .rests rfl ((clearNullAccountBalance_aside _ hside).rel _ _ _ h)
  | upkeep hm hlater h => exact .rests rfl ((hm.aside hside).rel _ _ _ h)

end Power

section Runs

variable {env : Env} {name : AccountName} {s t : ChainState} {steps : List Step}

/-- More power regenerates to more. -/
theorem regenerated_mono {x y : ℤ} (h : x ≤ y) : regenerated x ≤ regenerated y := by
  unfold regenerated wls100Percent wlsVoteRegenerationSeconds
  omega

/-- From an account's last vote on, what it uses and what it has left is at most what it had and
what time regenerates. -/
theorem run_spends (h : History env s steps t) {had : ℕ} {since : TimePointSec}
    (hs : powerOf s name = some (had, since)) (hsince : since ≤ s.dgp.time) :
    ∃ left latest, powerOf t name = some (left, latest) ∧ since ≤ latest ∧ latest ≤ t.dgp.time ∧
      spent name steps + left ≤ had + regenerated ((latest : ℤ) - since) := by
  induction steps generalizing s had since with
  | nil =>
    rw [show t = s from h]
    refine ⟨had, since, hs, Nat.le_refl _, hsince, ?_⟩
    have hzero : regenerated ((since : ℤ) - since) = 0 := by
      rw [Int.sub_self]
      rfl
    rw [hzero]
    change 0 + (had : ℤ) ≤ had + 0
    omega
  | cons m rest ih =>
    obtain ⟨rfl, hm, hrest⟩ := h
    have htime : m.before.dgp.time ≤ m.after.dgp.time := hm.later
    have hsum : spent name (m :: rest) = cost name m + spent name rest := List.sum_cons
    cases step_power name hm with
    | rests hcost hsame =>
      obtain ⟨left, latest, ht, hle, htle, hspent⟩ :=
        ih hrest (hsame.eq_some hs) (Nat.le_trans hsince htime)
      refine ⟨left, latest, ht, hle, htle, ?_⟩
      rw [hsum, hcost]
      omega
    | votes voter left₀ hfound helapsed hnonneg hleft hcost hafter =>
      have hvoter : (voter.votingPower, voter.lastVoteTime) = (had, since) := by
        unfold powerOf viewOf at hs
        rw [hfound] at hs
        exact Option.some.inj hs
      obtain ⟨rfl, rfl⟩ := Prod.mk.inj hvoter
      obtain ⟨left, latest, ht, hle, htle, hspent⟩ := ih hrest hafter htime
      refine ⟨left, latest, ht, Nat.le_trans hsince hle, htle, ?_⟩
      have hcap := (currentPower_le voter
        (by omega : 0 ≤ elapsed m.before.dgp.time voter)).2
      have hadd := regenerated_add_le (elapsed m.before.dgp.time voter)
        ((latest : ℤ) - m.before.dgp.time)
      have htotal : elapsed m.before.dgp.time voter + ((latest : ℤ) - m.before.dgp.time) =
          (latest : ℤ) - voter.lastVoteTime := by
        unfold elapsed
        ring
      rw [htotal] at hadd
      rw [hsum]
      omega

/-- In any part of a run, an account uses at most one full charge and what time regenerates. -/
theorem spent_le (name : AccountName) (h : History env s steps t) :
    spent name steps ≤ wls100Percent + regenerated ((t.dgp.time : ℤ) - s.dgp.time) := by
  induction steps generalizing s with
  | nil =>
    rw [show t = s from h, Int.sub_self]
    change (0 : ℤ) ≤ _
    decide
  | cons m rest ih =>
    obtain ⟨rfl, hm, hrest⟩ := h
    have htime : (m.before.dgp.time : ℤ) ≤ m.after.dgp.time := Int.ofNat_le.mpr hm.later
    have hsum : spent name (m :: rest) = cost name m + spent name rest := List.sum_cons
    cases step_power name hm with
    | rests hcost hsame =>
      have hmono : regenerated ((t.dgp.time : ℤ) - m.after.dgp.time) ≤
          regenerated ((t.dgp.time : ℤ) - m.before.dgp.time) := regenerated_mono (by omega)
      have hlater := ih hrest
      rw [hsum, hcost]
      omega
    | votes voter left₀ hfound helapsed hnonneg hleft hcost hafter =>
      obtain ⟨left, latest, -, -, hle, hspent⟩ := run_spends hrest hafter hm.later
      have huntil : (latest : ℤ) ≤ t.dgp.time := Int.ofNat_le.mpr hle
      have hmono : regenerated ((latest : ℤ) - m.before.dgp.time) ≤
          regenerated ((t.dgp.time : ℤ) - m.before.dgp.time) := regenerated_mono (by omega)
      have hcap := (currentPower_le voter
        (by omega : 0 ≤ elapsed m.before.dgp.time voter)).1
      rw [hsum]
      omega

/-- The account of a name has at most full voting power. -/
def Limited (name : AccountName) (s : ChainState) : Prop :=
  ∀ p, powerOf s name = some p → p.1 ≤ wls100Percent

/-- A step of the chain keeps the power limited. -/
theorem limited_step {m : Step} (h : Occurs env m.event m.before m.after)
    (hs : Limited name m.before) : Limited name m.after := by
  intro p hp
  cases step_power name h with
  | rests hcost hsame =>
    rcases hsame with hsame | ⟨-, q, hfull, hnew⟩
    · exact hs p (hsame.symm.trans hp)
    · rw [← Option.some.inj (hnew.symm.trans hp)]
      exact hfull.le
  | votes voter left hfound helapsed hnonneg hleft hcost hafter =>
    have hcap := (currentPower_le voter
      (by omega : 0 ≤ elapsed m.before.dgp.time voter)).1
    rw [← Option.some.inj (hafter.symm.trans hp)]
    change left.toNat ≤ wls100Percent
    omega

/-- The power at genesis is limited. -/
theorem limited_initGenesis (env : Env) (initSupply : ℕ) (name : AccountName) :
    Limited name (initGenesis env initSupply) := by
  intro p hp
  obtain ⟨a, ha, rfl⟩ := Option.map_eq_some_iff.mp hp
  have hmem : a ∈ genesisAccounts env initSupply := List.mem_of_find?_eq_some ha
  have hall : ∀ b ∈ genesisAccounts env initSupply, b.votingPower = wls100Percent := by
    intro b hb
    rcases List.mem_append.mp hb with hb | hb
    · simp only [List.mem_cons, List.not_mem_nil, or_false] at hb
      rcases hb with rfl | rfl | rfl | rfl | rfl <;> rfl
    · obtain ⟨i, -, rfl⟩ := List.mem_map.mp hb
      rfl
  exact (hall a hmem).le

/-- A step is a vote of an account. -/
def Votes (name : AccountName) (m : Step) : Prop :=
  ∃ o, m.event = .operation (.vote o) ∧ o.voter = name

/-- In every run from the genesis an account has at most full voting power, and after a step,
such as one of its votes, up to a later vote it uses at most one full charge and what time has
regenerated between the two. -/
theorem voting_power_limited {initSupply : ℕ}
    (h : History env (initGenesis env initSupply) steps t) (name : AccountName) :
    (∀ a, t.accounts.find (named name) = some a → a.votingPower ≤ wls100Percent) ∧
      ∀ earlier first middle last later, steps = earlier ++ first :: (middle ++ last :: later) →
        Votes name last →
        spent name (middle ++ [last]) ≤ wls100Percent +
          wls100Percent * ((last.before.dgp.time : ℤ) - first.before.dgp.time) /
            wlsVoteRegenerationSeconds := by
  constructor
  · intro a ha
    have hlimited := Path.invariant h (limited_initGenesis env initSupply name)
      fun m _ hm => limited_step hm
    exact hlimited (power a) (Option.map_eq_some_iff.mpr ⟨a, ha, rfl⟩)
  · rintro earlier first middle last later rfl ⟨o, hlast, -⟩
    obtain ⟨u, -, -, hfirst, h⟩ := path_append.mp h
    obtain ⟨v, hmiddle, hv, hstep, -⟩ := path_append.mp h
    have hwindow : History env first.after (middle ++ [last]) last.after :=
      hmiddle.append ⟨hv, hstep, rfl⟩
    have hspent := spent_le name hwindow
    have hstart : (first.before.dgp.time : ℤ) ≤ first.after.dgp.time :=
      Int.ofNat_le.mpr hfirst.later
    have hend : last.after.dgp.time = last.before.dgp.time := by
      rw [hlast] at hstep
      cases hstep with
      | operation ctx henv op hvalid hnull h =>
        have hframe := sameClock_moneyFrame.toOperationFrame ctx.env.toFcLib
        exact sameClock_time ((applyOperation_keeps ctx hframe _).rel _ _ _ h)
    rw [hend] at hspent
    have hmono : regenerated ((last.before.dgp.time : ℤ) - first.after.dgp.time) ≤
        regenerated ((last.before.dgp.time : ℤ) - first.before.dgp.time) :=
      regenerated_mono (by omega)
    unfold regenerated at hmono hspent
    omega

end Runs

section Sample

open ChainRun CommentParents

/-- A vote of the first miner on its first post. -/
def firstPostVote (weight : ℤ) : VoteOperation :=
  ⟨initMinerName 0, initMinerName 0, bytesOf "post", weight⟩

/-- The first miner powers up. -/
def poweredBlock : SignedBlock :=
  sampleChain [referring 0 0 [.transferToVesting ⟨initMinerName 0, .empty, wls 1000⟩]] 0

/-- It posts and votes on its post. -/
def votedBlock : SignedBlock :=
  sampleBlock (poweredBlock.id sampleEnv) (wlsGenesisTime + 2 * wlsBlockInterval) (initMinerName 0)
    [referring 1 1 [.comment firstPost, .vote (firstPostVote 10000)]]

/-- It changes its vote. -/
def changedBlock : SignedBlock :=
  sampleBlock (votedBlock.id sampleEnv) (wlsGenesisTime + 3 * wlsBlockInterval) (initMinerName 0)
    [referring 2 2 [.vote (firstPostVote 5000)]]

/-- The three blocks. -/
def twoVotes : List BlockCall :=
  [sampleCall poweredBlock, sampleCall votedBlock, sampleCall changedBlock]

/-- Between two votes the account of the instance keeps to the limit. -/
theorem voting_power_limited_twoVotes : ∃ earlier first middle last later s,
    History sampleEnv (initGenesis sampleEnv 1000000)
      (earlier ++ first :: (middle ++ last :: later)) s ∧
    Votes (initMinerName 0) first ∧ Votes (initMinerName 0) last ∧
    spent (initMinerName 0) (middle ++ [last]) ≤ wls100Percent +
      wls100Percent * ((last.before.dgp.time : ℤ) - first.before.dgp.time) /
        wlsVoteRegenerationSeconds := by
  have hends : endsIn (runBlocks sampleEnv twoVotes) (initGenesis sampleEnv 1000000)
      (fun _ _ => true) = true := by
    decide +kernel
  obtain ⟨_, s, hs, -⟩ := returns_of_endsIn hends
  have hchecked : ∀ call ∈ twoVotes, ElectionRun.Checked call.skip := by
    intro call hcall
    simp only [twoVotes, List.mem_cons, List.not_mem_nil, or_false] at hcall
    rcases hcall with rfl | rfl | rfl <;> exact ⟨rfl, rfl, rfl⟩
  obtain ⟨steps, hsteps, hops⟩ := Reaches.unfolds hchecked hs
  obtain ⟨earlier, first, rest, rfl, hfirst, -, hrest⟩ := operations_split
    [.transferToVesting ⟨initMinerName 0, .empty, wls 1000⟩, .comment firstPost] hops
  obtain ⟨middle, last, later, rfl, hlast, -, -⟩ := operations_split [] hrest
  have hvotes : Votes (initMinerName 0) last := ⟨_, hlast, rfl⟩
  exact ⟨earlier, first, middle, last, later, s, hsteps, ⟨_, hfirst, rfl⟩, hvotes,
    (voting_power_limited hsteps (initMinerName 0)).2 _ _ _ _ _ rfl hvotes⟩

end Sample

end Whaleshares.VotingPower
