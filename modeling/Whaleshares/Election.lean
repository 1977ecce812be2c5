import Whaleshares.VoteLedger

/-!
# Operations that change the roll

New accounts and witnesses, votes for witnesses, and proxies. While an account changes its
proxy it has told the rest of the state that it passes on nothing, so that its place in the
chains of proxies does not matter.
-/

namespace Whaleshares.Election

open Config Fc Assets Protocol Objects Program Database WitnessVotes Vesting Evaluators Footprint
  Forest ElectoralRoll Tally VoteLedger

variable {told debt : AccountName → ℕ → ℤ} {s t : ChainState} {fc : FcLib} {u : Unit}

section Newcomers

/-- The amounts told, with nothing from one account. -/
def without (told : AccountName → ℕ → ℤ) (name : AccountName) : AccountName → ℕ → ℤ :=
  fun n level => if n = name then 0 else told n level

/-- The account that is left out is told nothing. -/
theorem without_self (told : AccountName → ℕ → ℤ) (name : AccountName) : without told name name = 0 :=
  funext fun _ => if_pos rfl

/-- The other accounts are told the same. -/
theorem without_of_ne {n name : AccountName} (h : n ≠ name) : without told name n = told n :=
  funext fun _ => if_neg h

variable {r : Roll} {name : AccountName}

/-- A new account changes no inflow. -/
theorem inflow_enroll (hfresh : ∀ e ∈ r.entries, e.name ≠ name) {n : AccountName}
    (hn : n ≠ .empty) (level : ℕ) :
    inflow (without told name) (r.enroll name) n level = inflow told r n level := by
  simp only [inflow, Roll.enroll, List.map_append, List.map_cons, List.map_nil, List.sum_append,
    List.sum_cons, List.sum_nil, if_neg (Ne.symm hn), add_zero]
  refine congrArg List.sum (List.map_congr_left fun e he => ?_)
  rw [without_of_ne (hfresh e he)]

/-- A new account changes no votes for a witness. -/
theorem tally_enroll (hfresh : ∀ e ∈ r.entries, e.name ≠ name) (w : ℕ) :
    tally (without told name) (r.enroll name) w = tally told r w := by
  simp only [tally, Roll.enroll, List.map_append, List.map_cons, List.map_nil, List.sum_append,
    List.sum_cons, List.sum_nil, without_self, total_zero, ite_self, add_zero]
  refine congrArg List.sum (List.map_congr_left fun e he => ?_)
  rw [without_of_ne (hfresh e he)]
  rfl

/-- Nothing arrives at an account that is not on the roll. -/
theorem inflow_stranger (hvalid : r.Valid) (hfresh : ∀ e ∈ r.entries, e.name ≠ name)
    (hname : name ≠ .empty) (level : ℕ) : inflow told r name level = 0 := by
  refine List.sum_eq_zero fun z hz => ?_
  obtain ⟨e, he, rfl⟩ := List.mem_map.mp hz
  refine if_neg fun hlink => ?_
  obtain ⟨p, hp, hpname⟩ := hvalid.proxies e he (hlink ▸ hname)
  exact hfresh p hp (hpname.trans hlink)

/-- A new account without stake keeps the votes counted. -/
theorem createAccount_counted {f : ℕ → AccountObject}
    (hf : ∀ id, stake (f id) = (id, name, .empty, [0, 0, 0, 0], 0, 0)) (hsize : name.size ≠ 0)
    (h : Returns (createAccount fun id => .ok (f id)) s u t) (hs : Counted s) : Counted t := by
  obtain ⟨x, hx, rfl⟩ := map_eq_ok h.update
  obtain ⟨row, hrow, hclash, hrows, hnext⟩ := Table.create_rows hx
  have hstake : stake row = (s.accounts.nextId, name, .empty, [0, 0, 0, 0], 0, 0) := by
    rw [← Except.ok.inj hrow]
    exact hf _
  simp only [stake, Prod.mk.injEq] at hstake
  obtain ⟨hid, hname, hproxy, hproxied, hvoted, hshares⟩ := hstake
  have hentry : entry row = ⟨s.accounts.nextId, name, .empty, 0⟩ := by
    simp only [entry, hid, hname, hproxy, hvoted]
  have hroll : roll { s with accounts := x } = (roll s).enroll name := by
    simp only [roll, Roll.enroll, hrows, hnext, List.map_append, List.map_cons, List.map_nil,
      hentry]
  have hfresh : ∀ e ∈ (roll s).entries, e.name ≠ name := by
    intro e he hsame
    obtain ⟨a, ha, rfl⟩ := List.mem_map.mp he
    have hno := of_decide_eq_false (hclash a ha)
    rw [hname] at hno
    exact hno hsame.symm
  have hnonempty : name ≠ .empty := fun hempty => hsize (hempty ▸ size_empty)
  have hmem : ∀ a ∈ x.rows, a ∈ s.accounts.rows ∨ a = row := by
    intro a ha
    rw [hrows] at ha
    simpa using ha
  obtain ⟨told, hsettled, htold⟩ := hs.owes
  refine ⟨hroll ▸ hs.valid.enroll hsize hfresh, ?_, without told name,
    ⟨fun a ha => ?_, fun w hw => ?_⟩, fun a ha level hlevel => ?_⟩
  · rw [hroll]
    intro e he hnull
    rcases List.mem_append.mp he with he | he
    · exact hs.idle e he hnull
    · rw [List.mem_singleton.mp he]
      exact ⟨rfl, rfl⟩
  · rw [hroll]
    rcases hmem a ha with ha | rfl
    · rw [hsettled.proxied a ha]
      refine List.map_congr_left fun level _ => ?_
      rw [inflow_enroll hfresh (name_ne_empty hs.valid ha)]
    · rw [hproxied, hname]
      have hzeros : [0, 0, 0, 0] = (List.range wlsMaxProxyRecursionDepth).map fun _ => (0 : ℤ) := rfl
      rw [hzeros]
      refine List.map_congr_left fun level _ => ?_
      rw [inflow_enroll hfresh hnonempty, inflow_stranger hs.valid hfresh hnonempty]
  · rw [hroll, tally_enroll hfresh]
    exact hsettled.votes w hw
  · rcases hmem a ha with ha | rfl
    · have hold : a.name ≠ name := hfresh _ (mem_entries ha)
      rw [without_of_ne hold]
      exact htold a ha level hlevel
    · rw [hname, without_self]
      simp only [passed, hproxied, hshares, Pi.zero_apply, add_zero]
      rcases level with _ | _ | _ | _ | _ | level <;> rfl

/-- A witness that nobody has voted for has no votes. -/
theorem newcomer_counted : AllowsNewcomer (Preserves Counted) := by
  intro s x w hrows howner hid hw hnext hs
  have hroll : roll { s with witnesses := x } = (roll s).stand := by
    simp only [roll, Roll.stand, hrows, hnext, hid, List.map_append, List.map_cons, List.map_nil]
  obtain ⟨told, hsettled, htold⟩ := hs.owes
  have hzero : tally told (roll s).stand w.id = 0 := by
    refine List.sum_eq_zero fun z hz => ?_
    obtain ⟨e, he, rfl⟩ := List.mem_map.mp hz
    refine if_neg fun hboth => ?_
    obtain ⟨b, hb, -, hwitness⟩ := Roll.backs_iff.mp hboth.2
    have hlt := hs.valid.witness_lt _ (hs.valid.candidate b hb)
    have hlt : b.witness < s.witnesses.nextId := hlt
    omega
  refine ⟨hroll ▸ hs.valid.stand, hroll ▸ hs.idle, told, ⟨fun a ha => ?_, fun v hv => ?_⟩, htold⟩
  · rw [hroll]
    exact hsettled.proxied a ha
  · rw [hroll]
    change v ∈ x.rows at hv
    rw [hrows] at hv
    rcases List.mem_append.mp hv with hv | hv
    · exact hsettled.votes v hv
    · rw [List.mem_singleton.mp hv, hzero]
      exact hw.votes

end Newcomers

section Votes

/-- Setting the number of votes amends the voter. -/
theorem setVotedFor_amends {f : ℕ → ℕ} {voter : AccountObject}
    (hnames : (s.accounts.rows.map (·.name)).Nodup) (hvoter : voter ∈ s.accounts.rows)
    (h : Returns (setVotedFor voter.name f) s u t) :
    Amends s t voter { voter with witnessesVotedFor := f voter.witnessesVotedFor } := by
  obtain ⟨a, b, -, ha, hab, hm⟩ := modifyAccount_amends hnames h fun a b hab => by
    rw [← Except.ok.inj hab]
  have hname : a.name = voter.name := by simpa [named] using ha
  have hsame : a = voter := Table.eq_of_key_eq AccountObject.name hnames hm.mem hvoter hname
  rw [← Except.ok.inj hab, hsame] at hm
  exact hm

/-- The state after an account changed its votes, the counter of its votes, and the votes
of the witnesses. -/
theorem recast_counted {voter : AccountObject} (b : AccountObject) (change : ℕ → ℤ) (hs : Counted s)
    (hvoter : voter ∈ s.accounts.rows) (hnull : voter.name ≠ nullAccount)
    (hrows : t.accounts.rows = Table.amend AccountObject.name b s.accounts.rows)
    (hstake : stake b = stake { voter with witnessesVotedFor := b.witnessesVotedFor })
    (hvalid : (roll t).Valid)
    (hentries : (roll t).entries = Table.amend Entry.name (entry b) (roll s).entries)
    (hothers : ∀ account, account ≠ voter.id → ∀ w,
      (roll t).backs account w = (roll s).backs account w)
    (hwit : ∀ w ∈ t.witnesses.rows, ∃ v ∈ s.witnesses.rows, w.id = v.id ∧
      w.votes = v.votes + change v.id)
    (hchange : ∀ w, change w =
      (if voter.proxy = .empty ∧ (roll t).backs voter.id w = true then voteWeight voter else 0) -
        (if voter.proxy = .empty ∧ (roll s).backs voter.id w = true then voteWeight voter else 0)) :
    Counted t := by
  simp only [stake, Prod.mk.injEq] at hstake
  obtain ⟨hid, hname, hproxy, hproxied, -, hshares⟩ := hstake
  obtain ⟨told, hsettled, htold⟩ := hs.owes
  have hmem : ∀ a ∈ t.accounts.rows, ∃ c ∈ s.accounts.rows, c.name = a.name ∧
      c.proxiedVsfVotes = a.proxiedVsfVotes ∧ c.vestingShares = a.vestingShares := by
    intro a ha
    rw [hrows] at ha
    rcases Table.mem_amend ha with rfl | ⟨ha, -⟩
    · exact ⟨voter, hvoter, hname.symm, hproxied.symm, hshares.symm⟩
    · exact ⟨a, ha, rfl, rfl, rfl⟩
  have hweight : total (told voter.name) = voteWeight voter := by
    rw [← total_passed (hsettled.length hvoter)]
    refine total_congr fun level hlevel => ?_
    have htold := htold voter hvoter level hlevel
    simp only [Pi.zero_apply, add_zero] at htold
    exact htold.symm
  refine ⟨hvalid, ?_, told, hsettled.recast ?_ ?_ hwit ?_, ?_⟩
  · rw [Roll.Idle, hentries]
    intro c hc hcnull
    rcases Table.mem_amend hc with rfl | ⟨hc, -⟩
    · exact absurd (hname.symm.trans hcnull) hnull
    · exact hs.idle c hc hcnull
  · intro a ha
    obtain ⟨c, hc, hcname, hcproxied, -⟩ := hmem a ha
    exact ⟨c, hc, hcname, hcproxied⟩
  · exact inflow_amend hs.valid (mem_entries hvoter) hname hproxy hentries
  · intro w
    rw [tally_amend hs.valid (mem_entries hvoter) hid hname hproxy hentries hothers w, hchange w,
      ← hweight]
    rfl
  · intro a ha level hlevel
    obtain ⟨c, hc, hcname, hcproxied, hcshares⟩ := hmem a ha
    rw [← hcname, ← htold c hc level hlevel]
    simp only [passed, hcproxied, hcshares]

/-- A vote for a witness adds the weight of the voter to it. -/
theorem approveWitness_counted (hexact : fc.SafeExact) {o : AccountWitnessVoteOperation}
    {voter : AccountObject} {witness : WitnessObject} (hvoter : voter ∈ s.accounts.rows)
    (hname : voter.name = o.account) (hproxy : voter.proxy = .empty)
    (hnull : o.account ≠ nullAccount) (hwitness : witness ∈ s.witnesses.rows)
    (hnew : (roll s).backs voter.id witness.id = false)
    (h : Returns (approveWitness fc o voter witness) s u t) (hs : Counted s) : Counted t := by
  obtain ⟨_, -, h⟩ := h.lift_bind
  obtain ⟨_, hlimit, h⟩ := h.lift_bind
  obtain ⟨_, s₁, h₁, h⟩ := h.bind
  obtain ⟨weight, hweight, h⟩ := h.lift_bind
  obtain ⟨_, s₂, h₂, h₃⟩ := h.bind
  have hlimit : voter.witnessesVotedFor < wlsMaxAccountWitnessVotes := by
    simpa using fcAssert_eq_ok hlimit
  have hmod : (voter.witnessesVotedFor + 1) % 2 ^ 16 = voter.witnessesVotedFor + 1 := by
    unfold wlsMaxAccountWitnessVotes at hlimit
    omega
  have hweight : weight = voteWeight voter := witnessVoteWeight_eq hexact hweight
  obtain ⟨x, hx, rfl⟩ := map_eq_ok h₁.update
  obtain ⟨ballot, hballot, -, hrows, hnext⟩ := Table.create_rows hx
  have hballot : ballot = ⟨s.witnessVotes.nextId, witness.id, voter.id⟩ :=
    (Except.ok.inj hballot).symm
  have hids : (roll { s with witnessVotes := x }).witnesses.Nodup := hs.valid.witnesses
  have hrecounts := adjustWitnessVote_recounts hexact hids h₂
  rw [← hname] at h₃ hnull
  have haccounts : s₂.accounts = s.accounts := hrecounts.accounts
  have hm := setVotedFor_amends (by rw [haccounts]; exact accounts_names hs.valid)
    (haccounts ▸ hvoter) h₃
  have hroll : roll t = (roll s).vote (entry voter) witness.id := by
    rw [hm.roll_eq, hrecounts.roll_eq]
    simp only [roll, Roll.vote, hrows, hnext, hballot, entry, hmod]
  refine recast_counted
    { voter with witnessesVotedFor := (voter.witnessesVotedFor + 1) % 2 ^ 16 }
    (fun w => if w = witness.id then weight else 0) hs hvoter hnull ?_ rfl ?_ ?_ ?_ ?_ ?_
  · rw [hm.rows, haccounts]
  · rw [hroll]
    exact hs.valid.vote (mem_entries hvoter) hproxy (List.mem_map_of_mem hwitness) hnew hlimit
  · rw [hroll]
    simp only [Roll.vote, entry, hmod]
  · intro account haccount w
    rw [hroll, Roll.backs_vote]
    have hne : (entry voter).id ≠ account := Ne.symm haccount
    simp [hne]
  · intro w hw
    rw [hm.witnesses] at hw
    exact hrecounts.votes hw
  · intro w
    rw [hroll, Roll.backs_vote]
    by_cases hw : w = witness.id
    · simp [hw, hnew, hproxy, hweight, entry]
    · simp [hw, Ne.symm hw]

/-- A vote that is taken back takes the weight of the voter from the witness. -/
theorem rejectWitness_counted (hexact : fc.SafeExact) {o : AccountWitnessVoteOperation}
    {voter : AccountObject} {witness : WitnessObject} {vote : WitnessVoteObject}
    (hvoter : voter ∈ s.accounts.rows) (hname : voter.name = o.account)
    (hproxy : voter.proxy = .empty) (hnull : o.account ≠ nullAccount)
    (hvote : vote ∈ s.witnessVotes.rows) (haccount : vote.account = voter.id)
    (hwitness : vote.witness = witness.id)
    (h : Returns (rejectWitness fc o voter witness vote) s u t) (hs : Counted s) : Counted t := by
  obtain ⟨_, -, h⟩ := h.lift_bind
  obtain ⟨weight, hweight, h⟩ := h.lift_bind
  obtain ⟨delta, hdelta, h⟩ := h.lift_bind
  obtain ⟨_, s₁, h₁, h⟩ := h.bind
  obtain ⟨_, s₂, h₂, h⟩ := h.bind
  have hweight : weight = voteWeight voter := witnessVoteWeight_eq hexact hweight
  have hdelta : delta = -weight := (hexact.checked hdelta).1
  have hrecounts := adjustWitnessVote_recounts hexact hs.valid.witnesses h₁
  rw [← hname] at h₂ hnull
  have haccounts : s₁.accounts = s.accounts := hrecounts.accounts
  have hm := setVotedFor_amends (by rw [haccounts]; exact accounts_names hs.valid)
    (haccounts ▸ hvoter) h₂
  have ht : t = { s₂ with witnessVotes := s₂.witnessVotes.remove fun v => v.id = vote.id } :=
    (Except.ok.inj h.update).symm
  have hvotes : s₂.witnessVotes = s.witnessVotes := by
    rw [hm.witnessVotes]
    obtain ⟨x, rfl, -⟩ := hrecounts.state
    rfl
  have hbacked : (roll s).backs voter.id witness.id = true :=
    Roll.backs_iff.mpr ⟨vote, hvote, haccount, hwitness⟩
  have hvalid := hs.valid.retract (mem_entries hvoter) hvote haccount
  have hcount : voter.witnessesVotedFor = (roll s).count voter.id :=
    hs.valid.votedFor _ (mem_entries hvoter)
  have hmod : (voter.witnessesVotedFor + (2 ^ 16 - 1)) % 2 ^ 16 = voter.witnessesVotedFor - 1 := by
    have hlimit : voter.witnessesVotedFor ≤ wlsMaxAccountWitnessVotes :=
      hs.valid.limit _ (mem_entries hvoter)
    have hpos : voter.witnessesVotedFor ≠ 0 := by
      intro hzero
      rw [hzero] at hcount
      exact Roll.count_eq_zero.mp hcount.symm vote hvote haccount
    unfold wlsMaxAccountWitnessVotes at hlimit
    omega
  have hroll : roll t = (roll s).retract (entry voter) vote := by
    have hroll₂ : roll s₂ = { roll s with
        entries := Table.amend Entry.name
          { entry voter with votedFor := voter.witnessesVotedFor - 1 } (roll s).entries } := by
      rw [hm.roll_eq, hrecounts.roll_eq]
      simp only [entry, hmod]
    have hballots : roll t = { roll s₂ with
        ballots := s.witnessVotes.rows.filter fun v => !decide (v.id = vote.id) } := by
      rw [ht]
      simp only [roll, Table.remove, hvotes]
    rw [hballots, hroll₂]
    rfl
  refine recast_counted
    { voter with witnessesVotedFor := (voter.witnessesVotedFor + (2 ^ 16 - 1)) % 2 ^ 16 }
    (fun w => if w = witness.id then delta else 0) hs hvoter hnull ?_ rfl ?_ ?_ ?_ ?_ ?_
  · rw [ht, hm.rows, haccounts]
  · rw [hroll]
    exact hvalid
  · rw [hroll]
    simp only [Roll.retract, entry, hmod]
  · intro account hne w
    rw [hroll, Roll.backs_retract hs.valid hvote]
    have hne : vote.account ≠ account := fun hsame => hne (hsame.symm.trans haccount)
    simp [hne]
  · intro w hw
    rw [ht] at hw
    change w ∈ s₂.witnesses.rows at hw
    rw [hm.witnesses] at hw
    exact hrecounts.votes hw
  · intro w
    rw [hroll, Roll.backs_retract hs.valid hvote]
    by_cases hw : w = witness.id
    · simp [hw, hbacked, hproxy, hweight, hdelta, haccount, hwitness]
    · simp [hw, hwitness, Ne.symm hw]

/-- `account_witness_vote` keeps the votes counted. -/
theorem applyAccountWitnessVote_counted (hexact : fc.SafeExact) {o : AccountWitnessVoteOperation}
    (hnull : o.account ≠ nullAccount) (h : Returns (applyAccountWitnessVote fc o) s u t)
    (hs : Counted s) : Counted t := by
  obtain ⟨voter, hvoter, hname, -, h⟩ := getAccount_bind h
  obtain ⟨_, hsize, h⟩ := h.lift_bind
  obtain ⟨witness, hwitness, h⟩ := lookup_bind h
  have hwitness : witness ∈ s.witnesses.rows := List.mem_of_find?_eq_some hwitness
  have hproxy : voter.proxy = .empty := by
    have hsize : voter.proxy.size = 0 := by simpa using fcAssert_eq_ok hsize
    exact (hs.valid.proxy_size (mem_entries hvoter)).mp hsize
  have h := h.gets_bind
  cases hfound : s.witnessVotes.find fun v => v.account = voter.id && v.witness = witness.id with
  | none =>
    rw [hfound] at h
    refine approveWitness_counted hexact hvoter hname hproxy hnull hwitness ?_ h hs
    rw [Bool.eq_false_iff]
    intro hbacks
    obtain ⟨b, hb, haccount, hwit⟩ := Roll.backs_iff.mp hbacks
    have hno := List.find?_eq_none.mp hfound b hb
    simp [haccount, hwit] at hno
  | some vote =>
    rw [hfound] at h
    have hmatch := List.find?_some hfound
    simp only [Bool.and_eq_true, decide_eq_true_eq] at hmatch
    exact rejectWitness_counted hexact hvoter hname hproxy hnull
      (List.mem_of_find?_eq_some hfound) hmatch.1 hmatch.2 h hs

end Votes

section Proxies

variable {x : AccountObject}

/-- The walk along the proxies of a new proxy does not meet an account of the chain. -/
theorem checkProxyChain_free {steps : ℕ} {chain : List ℕ} {cprox : AccountObject}
    (hvalid : (roll s).Valid) (hcprox : cprox ∈ s.accounts.rows) (hx : x ∈ s.accounts.rows)
    (hchain : x.id ∈ chain) (h : Returns (checkProxyChain steps chain cprox) s u t) :
    t = s ∧ ∀ k, climb (roll s).proxyOf (k + 1) cprox.name ≠ some x.name := by
  induction steps generalizing chain cprox with
  | zero => cases h
  | succ steps ih =>
    have hlink : (roll s).proxyOf cprox.name = (entry cprox).link :=
      Roll.proxyOf_of_mem hvalid.names (mem_entries hcprox)
    unfold checkProxyChain at h
    split at h
    next hsize =>
      obtain ⟨next, hnext, hname, -, h⟩ := getAccount_bind h
      obtain ⟨_, hloop, h⟩ := h.lift_bind
      obtain ⟨_, -, h⟩ := h.lift_bind
      have hloop : next.id ∉ chain := by simpa using fcAssert_eq_ok hloop
      obtain ⟨rfl, hfree⟩ := ih hnext (List.mem_cons_of_mem _ hchain) h
      have hne : cprox.proxy ≠ .empty := fun hempty => hsize (hempty ▸ size_empty)
      refine ⟨rfl, fun k => ?_⟩
      have hclimb : climb (roll t).proxyOf (k + 1) cprox.name =
          climb (roll t).proxyOf k next.name := by
        change ((roll t).proxyOf cprox.name).bind _ = _
        rw [hlink, hname]
        simp [Entry.link, entry, hne]
      rw [hclimb]
      cases k with
      | zero =>
        intro hsame
        have hsame : next = x := Table.eq_of_key_eq AccountObject.name
          (accounts_names hvalid) hnext hx (Option.some.inj hsame)
        exact hloop (hsame ▸ hchain)
      | succ k => exact hfree k
    next hsize =>
      obtain ⟨-, rfl⟩ := h.pure
      have hempty : cprox.proxy = .empty :=
        (hvalid.proxy_size (mem_entries hcprox)).mp (not_not.mp hsize)
      refine ⟨rfl, fun k => ?_⟩
      change ((roll t).proxyOf cprox.name).bind _ ≠ _
      rw [hlink]
      simp [Entry.link, entry, hempty]

/-- `b` is `x` with another proxy or another number of votes. -/
structure SameWeight (x b : AccountObject) : Prop where
  id : b.id = x.id
  name : b.name = x.name
  proxied : b.proxiedVsfVotes = x.proxiedVsfVotes
  shares : b.vestingShares = x.vestingShares

/-- With the same weight an account passes on the same. -/
theorem SameWeight.passed {b : AccountObject} (h : SameWeight x b) :
    passed b = Tally.passed x := by
  funext level
  unfold Tally.passed
  rw [h.proxied, h.shares]

/-- An account that has told nothing can change its proxy and its votes. -/
theorem Owes.rearrange {b : AccountObject} (hvalid : (roll s).Valid) (hx : x ∈ s.accounts.rows)
    (hweight : SameWeight x b)
    (hrows : t.accounts.rows = Table.amend AccountObject.name b s.accounts.rows)
    (hentries : (roll t).entries = Table.amend Entry.name (entry b) (roll s).entries)
    (hwitnesses : t.witnesses = s.witnesses)
    (hothers : ∀ account, account ≠ x.id → ∀ w,
      (roll t).backs account w = (roll s).backs account w)
    (ho : Owes (due x.name (passed x)) s) : Owes (due b.name (passed b)) t := by
  obtain ⟨told, hsettled, htold⟩ := ho
  have hsilent : ∀ level ≤ wlsMaxProxyRecursionDepth, told x.name level = 0 := by
    intro level hlevel
    have hx := htold x hx level hlevel
    rw [due_self] at hx
    omega
  have hother : ∀ old ∈ (roll s).entries, old.name ≠ (entry b).name → old.id ≠ x.id := by
    intro old hold hname hid
    refine hname ?_
    rw [Table.eq_of_key_eq Entry.id hvalid.ids hold (mem_entries hx) hid]
    exact hweight.name.symm
  have hmem : ∀ a ∈ t.accounts.rows, ∃ c ∈ s.accounts.rows, c.name = a.name ∧
      c.proxiedVsfVotes = a.proxiedVsfVotes ∧ c.vestingShares = a.vestingShares := by
    intro a ha
    rw [hrows] at ha
    rcases Table.mem_amend ha with rfl | ⟨ha, -⟩
    · exact ⟨x, hx, hweight.name.symm, hweight.proxied.symm, hweight.shares.symm⟩
    · exact ⟨a, ha, rfl, rfl, rfl⟩
  refine ⟨told, ⟨fun a ha => ?_, fun w hw => ?_⟩, fun a ha level hlevel => ?_⟩
  · obtain ⟨c, hc, hname, hproxied, -⟩ := hmem a ha
    rw [← hproxied, hsettled.proxied c hc, hname]
    refine List.map_congr_left fun level hlevel => ?_
    have hlevel : level ≤ wlsMaxProxyRecursionDepth := le_of_lt (List.mem_range.mp hlevel)
    unfold inflow
    rw [hentries]
    refine (congrArg List.sum (Table.amend_map_congr (fun old hold hsame => ?_)
      fun _ _ _ => rfl)).symm
    have hb : (entry b).name = x.name := hweight.name
    have hold : old.name = x.name := hsame.trans hb
    rw [hb, hold, hsilent level hlevel, ite_self, ite_self]
  · rw [hwitnesses] at hw
    rw [hsettled.votes w hw]
    unfold tally
    rw [hentries]
    refine (congrArg List.sum (Table.amend_map_congr (fun old hold hsame => ?_)
      fun old hold hne => ?_)).symm
    · have hb : (entry b).name = x.name := hweight.name
      have hold : old.name = x.name := hsame.trans hb
      have hzero : total (told x.name) = 0 := (total_congr hsilent).trans total_zero
      rw [hb, hold, hzero, ite_self, ite_self]
    · rw [hothers old.id (hother old hold hne)]
  · obtain ⟨c, hc, hname, hproxied, hshares⟩ := hmem a ha
    have hpassed : passed a level = passed c level := by
      unfold passed
      rw [hproxied, hshares]
    rw [hpassed, htold c hc level hlevel, hname, hweight.passed, hweight.name]

/-- An account that is idle stays so when another entry is amended. -/
theorem Idle.amend {r r' : Roll} {e : Entry} {name : AccountName} (h : r.Idle name)
    (hentries : r'.entries = Table.amend Entry.name e r.entries) (hne : e.name ≠ name) :
    r'.Idle name := by
  unfold Roll.Idle
  rw [hentries]
  intro c hc hname
  rcases Table.mem_amend hc with rfl | ⟨hc, -⟩
  · exact absurd hname hne
  · exact h c hc hname

/-- Clearing the votes of one account leaves those of the others. -/
theorem backs_abstain {r : Roll} {e : Entry} {account : ℕ} (hne : account ≠ e.id) (w : ℕ) :
    (r.abstain e).backs account w = r.backs account w := by
  rw [Bool.eq_iff_iff, Roll.backs_iff, Roll.backs_iff]
  simp only [Roll.abstain, List.mem_filter, Bool.not_eq_true', decide_eq_false_iff_not]
  constructor
  · rintro ⟨b, ⟨hb, -⟩, hboth⟩
    exact ⟨b, hb, hboth⟩
  · rintro ⟨b, hb, haccount, hw⟩
    exact ⟨b, ⟨hb, fun hid => hne (haccount.symm.trans hid)⟩, haccount, hw⟩

/-- `clear_witness_votes` takes the votes of an account from the roll. -/
theorem clearWitnessVotes_spec {name : AccountName} (hvalid : (roll s).Valid)
    (h : Returns (clearWitnessVotes name) s u t) :
    ∃ x ∈ s.accounts.rows, x.name = name ∧ roll t = (roll s).abstain (entry x) ∧
      t.accounts.rows =
        Table.amend AccountObject.name { x with witnessesVotedFor := 0 } s.accounts.rows ∧
      t.witnesses = s.witnesses := by
  obtain ⟨x, hx, hname, hfind, h⟩ := getAccount_bind h
  obtain ⟨_, v, hv, h⟩ := h.bind
  have hv : v = { s with witnessVotes := s.witnessVotes.remove fun b => b.account = x.id } :=
    (Except.ok.inj hv.update).symm
  have hnames : (s.accounts.rows.map (·.name)).Nodup := accounts_names hvalid
  have hnames : (v.accounts.rows.map (·.name)).Nodup := by
    rw [hv]
    exact hnames
  obtain ⟨a, b, hfound, -, hab, hm⟩ := modifyAccount_amends hnames h fun a b hab => by
    rw [← Except.ok.inj hab]
  have hsame : a = x := by
    rw [hv] at hfound
    exact Option.some.inj (hfound.symm.trans hfind)
  rw [← Except.ok.inj hab, hsame] at hm
  refine ⟨x, hx, hname, ?_, ?_, ?_⟩
  · rw [hm.roll_eq, hv]
    rfl
  · rw [hm.rows, hv]
  · rw [hm.witnesses, hv]

/-- Setting the proxy amends the account. -/
theorem setProxy_amends {o : AccountWitnessProxyOperation} (hvalid : (roll s).Valid)
    (hx : x ∈ s.accounts.rows) (hname : x.name = o.account) (h : Returns (setProxy o) s u t) :
    Amends s t x { x with proxy := o.proxy } := by
  obtain ⟨a, b, -, ha, hab, hm⟩ := modifyAccount_amends (accounts_names hvalid) h fun a b hab => by
    rw [← Except.ok.inj hab]
  have ha : a.name = o.account := by simpa [named] using ha
  have hsame : a = x := Table.eq_of_key_eq AccountObject.name (accounts_names hvalid)
    hm.mem hx (ha.trans hname.symm)
  rwa [← Except.ok.inj hab, hsame] at hm

/-- The negated amounts are exact. -/
theorem mapM_neg (hexact : fc.SafeExact) {amounts negated : List ℤ}
    (h : amounts.mapM fc.neg = .ok negated) : negated = amounts.map fun amount => -amount := by
  induction amounts generalizing negated with
  | nil =>
    rw [List.mapM_nil] at h
    exact (Except.ok.inj h).symm
  | cons amount rest ih =>
    rw [List.mapM_cons] at h
    obtain ⟨first, hfirst, h⟩ := bind_eq_ok h
    obtain ⟨others, hothers, h⟩ := bind_eq_ok h
    have hfirst : first = -amount := (hexact.checked hfirst).1
    rw [← Except.ok.inj h, hfirst, ih hothers, List.map_cons]

/-- The negated amounts are negated level by level. -/
theorem getD_neg (amounts : List ℤ) (level : ℕ) :
    (amounts.map fun amount => -amount).getD level 0 = -amounts.getD level 0 := by
  simp only [List.getD_eq_getElem?_getD, List.getElem?_map]
  cases amounts[level]? <;> simp

/-- An account takes a proxy, after the rest of the state was told that it passes on
nothing. -/
theorem setNewProxy_counted (hexact : fc.SafeExact) {o : AccountWitnessProxyOperation}
    {deltas : List ℤ} (hself : o.proxy ≠ o.account) (hnull : o.account ≠ nullAccount)
    (hvalid : (roll s).Valid) (hidle : (roll s).Idle nullAccount) (hx : x ∈ s.accounts.rows)
    (hname : x.name = o.account)
    (hdeltas : deltas = (x.vestingShares :: x.proxiedVsfVotes).map fun amount => -amount)
    (ho : Owes (due x.name (passed x)) s) (h : Returns (setNewProxy fc o x deltas) s u t) :
    Counted t := by
  obtain ⟨p, hp, hpname, -, h⟩ := getAccount_bind h
  obtain ⟨_, s₁, h₁, h⟩ := h.bind
  obtain ⟨_, s₂, h₂, h⟩ := h.bind
  obtain ⟨_, s₃, h₃, h⟩ := h.bind
  obtain ⟨amounts, hamounts, h⟩ := h.lift_bind
  have hchain : x.id ∈ if x.id = p.id then [x.id] else [x.id, p.id] := by split <;> simp
  obtain ⟨hsame, habove⟩ := checkProxyChain_free hvalid hp hx hchain h₁
  rw [hsame] at h₂
  have hfree : ∀ steps, climb (roll s).proxyOf steps p.name ≠ some x.name := by
    intro steps
    cases steps with
    | zero =>
      intro heq
      have heq : p.name = x.name := Option.some.inj heq
      exact hself (hpname.symm.trans (heq.trans hname))
    | succ steps => exact habove steps
  -- the votes of the account are dropped
  obtain ⟨y, hy, hyname, hroll₂, hrows₂, hwitnesses₂⟩ := clearWitnessVotes_spec hvalid h₂
  have hyx : y = x := Table.eq_of_key_eq AccountObject.name (accounts_names hvalid) hy hx
    (hyname.trans hname.symm)
  rw [hyx] at hroll₂ hrows₂
  have hvalid₂ : (roll s₂).Valid := hroll₂ ▸ hvalid.abstain (mem_entries hx)
  have hidle₂ : (roll s₂).Idle nullAccount := by
    rw [hroll₂]
    exact Idle.amend hidle rfl fun heq => hnull (hname.symm.trans heq)
  have ho₂ : Owes (due x.name (passed x)) s₂ := by
    refine Owes.rearrange (b := { x with witnessesVotedFor := 0 }) hvalid hx
      ⟨rfl, rfl, rfl, rfl⟩ hrows₂ (by rw [hroll₂]; rfl) hwitnesses₂ ?_ ho
    intro account hne w
    rw [hroll₂]
    exact backs_abstain hne w
  -- the account takes its new proxy
  have hx₂ : { x with witnessesVotedFor := 0 } ∈ s₂.accounts.rows := by
    rw [hrows₂]
    exact Table.mem_amend_self _ hx rfl
  have hm := setProxy_amends hvalid₂ hx₂ hname h₃
  have hproxyOf : (roll s₂).proxyOf = (roll s).proxyOf := by
    rw [hroll₂]
    exact Roll.proxyOf_amend { entry x with votedFor := 0 } hvalid (mem_entries hx) rfl rfl
  obtain ⟨q, hq, hqname⟩ : ∃ q ∈ (roll s₂).entries, q.name = p.name := by
    rw [hroll₂]
    by_cases hpx : p.name = x.name
    · exact absurd (congrArg some hpx) (hfree 0)
    · exact ⟨entry p, Table.mem_amend_of_ne (mem_entries hp) hpx, rfl⟩
  have hroll₃ : roll s₃ = (roll s₂).follow { entry x with votedFor := 0 } q.name := by
    rw [hm.roll_eq, hqname, hpname]
    rfl
  have hvalid₃ : (roll s₃).Valid := by
    rw [hroll₃]
    refine hvalid₂.follow (mem_entries hx₂) hq ?_ ?_
    · intro b hb
      rw [hroll₂] at hb
      simpa using (List.mem_filter.mp hb).2
    · intro steps
      rw [hproxyOf, hqname]
      exact hfree steps
  have ho₃ : Owes (0 + due x.name (amounts.getD · 0)) s₃ := by
    have hmoved := Owes.rearrange (b := { x with witnessesVotedFor := 0, proxy := o.proxy }) hvalid₂
      hx₂ ⟨rfl, rfl, rfl, rfl⟩ hm.rows (by rw [hm.roll_eq]) hm.witnesses
      (fun account _ w => by rw [hm.roll_eq]; rfl) ho₂
    refine hmoved.congr fun a ha level hlevel => ?_
    have hdouble : amounts.getD level 0 = passed x level := by
      rw [mapM_neg hexact hamounts, hdeltas, getD_neg, getD_neg]
      exact neg_neg _
    simp only [zero_add, due, hdouble]
    rfl
  rw [← hname] at h
  obtain ⟨howes, hroll⟩ := adjustProxiedWitnessVotesArray_settles hexact hvalid₃ h ho₃
  refine ⟨hroll ▸ hvalid₃, ?_, howes⟩
  rw [hroll, hroll₃]
  exact Idle.amend hidle₂ rfl fun heq => hnull (hname.symm.trans heq)

/-- `account_witness_proxy` keeps the votes counted. -/
theorem applyAccountWitnessProxy_counted (hexact : fc.SafeExact) {o : AccountWitnessProxyOperation}
    (hself : o.proxy ≠ o.account) (hempty : o.proxy.size = 0 → o.proxy = .empty)
    (hnull : o.account ≠ nullAccount) (h : Returns (applyAccountWitnessProxy fc o) s u t)
    (hs : Counted s) : Counted t := by
  obtain ⟨x, hx, hname, hfind, h⟩ := getAccount_bind h
  obtain ⟨_, hchange, h⟩ := h.lift_bind
  obtain ⟨deltas, hdeltas, h⟩ := h.lift_bind
  obtain ⟨_, s₁, h₁, h⟩ := h.bind
  have hchange : x.proxy ≠ o.proxy := by simpa using fcAssert_eq_ok hchange
  have hdeltas : deltas = (x.vestingShares :: x.proxiedVsfVotes).map fun amount => -amount :=
    mapM_neg hexact hdeltas
  have hstart : Owes (due x.name (passed x) + due x.name (deltas.getD · 0)) s := by
    refine hs.owes.congr fun a _ level _ => ?_
    simp only [Pi.add_apply, Pi.zero_apply, due]
    split
    · rw [hdeltas, getD_neg]
      unfold passed
      omega
    · rfl
  rw [← hname] at h₁ hfind
  obtain ⟨ho₁, hroll₁⟩ := adjustProxiedWitnessVotesArray_settles hexact hs.valid h₁ hstart
  have hvalid₁ : (roll s₁).Valid := hroll₁ ▸ hs.valid
  have hidle₁ : (roll s₁).Idle nullAccount := hroll₁ ▸ hs.idle
  -- the account itself is not above itself, so the propagation has left it as it was
  have hx₁ : x ∈ s₁.accounts.rows := by
    have hfind₁ := adjustProxiedArrayLevels_find hexact hs.valid h₁ (x := x.name)
      fun steps => hs.valid.grounded.acyclic x.name steps
    rw [hfind] at hfind₁
    exact List.mem_of_find?_eq_some hfind₁
  split at h
  next => exact setNewProxy_counted hexact hself hnull hvalid₁ hidle₁ hx₁ hname hdeltas ho₁ h
  next hsize =>
    have hproxy : o.proxy = .empty := hempty (not_not.mp hsize)
    have hm := setProxy_amends hvalid₁ hx₁ hname h
    have hroll : roll t = (roll s₁).follow (entry x) .empty := by
      rw [hm.roll_eq, ← hproxy]
      rfl
    have hvalid : (roll t).Valid := hroll ▸ hvalid₁.follow_nobody (mem_entries hx₁)
    refine ⟨hvalid, ?_, ?_⟩
    · rw [hroll]
      exact Idle.amend hidle₁ rfl fun heq => hnull (hname.symm.trans heq)
    · have hmoved := Owes.rearrange (b := { x with proxy := o.proxy }) hvalid₁ hx₁
        ⟨rfl, rfl, rfl, rfl⟩ hm.rows (by rw [hm.roll_eq]) hm.witnesses
        (fun account _ w => by rw [hm.roll_eq]; rfl) ho₁
      rw [← zero_add (due _ _)] at hmoved
      refine hmoved.forgive hvalid hm.mem_new (.inl hproxy) (.inr ?_)
      rw [hm.witnessVotes]
      exact hvalid₁.no_ballots (mem_entries hx₁) fun heq => hchange (heq.trans hproxy.symm)

end Proxies

end Whaleshares.Election
