import Whaleshares.ProxyAccounting

/-!
# The votes of witnesses, recounted

In a state with counted votes the votes of a witness are the weights of the accounts without
a proxy that voted for it, so no witness has more votes than there are shares. The routines
that count all votes again therefore return and find the votes and the numbers of votes
that the chain has kept.
-/

namespace Whaleshares.WitnessTallies

open Config Fc Assets Protocol Objects Program Database WitnessVotes Vesting Evaluators ApplyBlock
  Genesis ChainRun Ledger Conservation Forest ElectoralRoll Tally VoteLedger ElectionRun
  ProxyAccounting

section Weights

variable {s : ChainState} {a : AccountObject} {w : ℕ}

/-- The weight that an account gives to a witness. -/
def given (s : ChainState) (w : ℕ) (a : AccountObject) : ℤ :=
  if a.proxy = .empty ∧ (roll s).backs a.id w = true then voteWeight a else 0

/-- The votes of a witness are what the accounts give to it. -/
theorem counted_votes (hs : Counted s) {w : WitnessObject} (hw : w ∈ s.witnesses.rows) :
    w.votes = (s.accounts.rows.map (given s w.id)).sum := by
  obtain ⟨told, hsettled, htold⟩ := hs.owes
  rw [hsettled.votes w hw]
  unfold tally
  change ((s.accounts.rows.map entry).map _).sum = _
  rw [List.map_map]
  refine congrArg List.sum (List.map_congr_left fun a ha => ?_)
  have hweight : total (told a.name) = voteWeight a := by
    rw [← total_passed (hsettled.length ha)]
    refine total_congr fun level hlevel => ?_
    have hlevel := htold a ha level hlevel
    simp only [Pi.zero_apply, add_zero] at hlevel
    exact hlevel.symm
  simp only [Function.comp_apply, given, entry, hweight]

/-- No account has negative shares. -/
theorem shares_nonneg (hbalance : InBalance s) (ha : a ∈ s.accounts.rows) :
    0 ≤ a.vestingShares :=
  (hbalance.sound (purse a) (List.mem_map_of_mem ha)).vestingShares

/-- No account has negative proxied votes. -/
theorem proxied_nonneg (hs : Counted s) (hbalance : InBalance s) (ha : a ∈ s.accounts.rows) :
    ∀ votes ∈ a.proxiedVsfVotes, 0 ≤ votes := by
  intro votes hvotes
  obtain ⟨told, hsettled, -⟩ := hs.owes
  obtain ⟨level, hlevel, rfl⟩ := List.getElem_of_mem hvotes
  have hlength := hsettled.length ha
  have hsum := counted_proxied hs ha (show level < wlsMaxProxyRecursionDepth by omega)
  rw [List.getD_eq_getElem _ _ hlevel] at hsum
  rw [hsum]
  refine List.sum_nonneg fun z hz => ?_
  obtain ⟨b, hb, rfl⟩ := List.mem_map.mp hz
  exact shares_nonneg hbalance (List.mem_filter.mp hb).1

/-- No weight is negative. -/
theorem voteWeight_nonneg (hs : Counted s) (hbalance : InBalance s) (ha : a ∈ s.accounts.rows) :
    0 ≤ voteWeight a :=
  add_nonneg (shares_nonneg hbalance ha) (List.sum_nonneg (proxied_nonneg hs hbalance ha))

/-- The weights of the accounts without a proxy are not more than there are shares. -/
theorem weights_le (hs : Counted s) (hbalance : InBalance s) :
    ((s.accounts.rows.filter fun a => a.proxy = .empty).map voteWeight).sum ≤
      s.dgp.totalVestingShares := by
  have htotal := counted_shares hs
  rw [← inBalance_shares hbalance] at htotal
  have hothers : 0 ≤ ((s.accounts.rows.filter fun a => a.proxy ≠ .empty).map fun a =>
      a.proxiedVsfVotes.getD (wlsMaxProxyRecursionDepth - 1) 0).sum := by
    refine List.sum_nonneg fun z hz => ?_
    obtain ⟨a, ha, rfl⟩ := List.mem_map.mp hz
    have ha := (List.mem_filter.mp ha).1
    rw [List.getD_eq_getElem?_getD]
    cases hget : a.proxiedVsfVotes[wlsMaxProxyRecursionDepth - 1]? with
    | none => exact le_rfl
    | some votes => exact proxied_nonneg hs hbalance ha votes (List.mem_of_getElem? hget)
  omega

/-- A witness is given at most all shares. -/
theorem given_le (hs : Counted s) (hbalance : InBalance s) (w : ℕ) :
    (s.accounts.rows.map (given s w)).sum ≤ s.dgp.totalVestingShares := by
  refine le_trans ?_ (weights_le hs hbalance)
  rw [sum_filter_rows]
  refine List.sum_le_sum fun a ha => ?_
  unfold given
  by_cases hproxy : a.proxy = .empty
  · simp only [hproxy, true_and, if_true]
    split
    · exact le_rfl
    · exact voteWeight_nonneg hs hbalance ha
  · simp [hproxy]

/-- The weight of an account without a proxy is not more than there are shares. -/
theorem voteWeight_le (hs : Counted s) (hbalance : InBalance s) (ha : a ∈ s.accounts.rows)
    (hproxy : a.proxy = .empty) : voteWeight a ≤ s.dgp.totalVestingShares := by
  refine le_trans ?_ (weights_le hs hbalance)
  refine List.single_le_sum ?_ _ (List.mem_map_of_mem (List.mem_filter.mpr ⟨ha, by simpa using hproxy⟩))
  intro z hz
  obtain ⟨b, hb, rfl⟩ := List.mem_map.mp hz
  exact voteWeight_nonneg hs hbalance (List.mem_filter.mp hb).1

end Weights

section Recount

variable {s : ChainState} {fc : FcLib} {a : AccountObject}

/-- A loop of additions whose sum fits returns it. -/
theorem foldlM_add_returns (htotal : fc.SafeTotal) {amounts : List ℤ} {start : ℤ}
    (hstart : 0 ≤ start) (hamounts : ∀ amount ∈ amounts, 0 ≤ amount)
    (hsum : start + amounts.sum < 2 ^ 63) :
    amounts.foldlM fc.add start = .ok (start + amounts.sum) := by
  induction amounts generalizing start with
  | nil =>
    rw [List.sum_nil, add_zero]
    rfl
  | cons amount rest ih =>
    have hfirst := hamounts amount List.mem_cons_self
    have hrest : ∀ z ∈ rest, 0 ≤ z := fun z hz => hamounts z (List.mem_cons_of_mem _ hz)
    have hnonneg := List.sum_nonneg hrest
    rw [List.sum_cons] at hsum ⊢
    have hadd : fc.add start amount = .ok (start + amount) :=
      htotal.checked (by omega) (by omega)
    rw [List.foldlM_cons, hadd]
    change rest.foldlM fc.add (start + amount) = _
    rw [ih (by omega) hrest (by omega), add_assoc]

/-- `witness_vote_weight` returns the weight of an account without a proxy. -/
theorem witnessVoteWeight_returns (htotal : fc.SafeTotal) (hs : Counted s) (hbalance : InBalance s)
    (ha : a ∈ s.accounts.rows) (hproxy : a.proxy = .empty) :
    a.witnessVoteWeight fc = .ok (voteWeight a) := by
  refine foldlM_add_returns htotal (shares_nonneg hbalance ha) (proxied_nonneg hs hbalance ha) ?_
  have hle := voteWeight_le hs hbalance ha hproxy
  have hlt : s.dgp.totalVestingShares < 2 ^ 63 := hbalance.shares_lt
  unfold voteWeight at hle
  omega

/-- A change of votes that stays between zero and the shares returns. -/
theorem changeWitnessVote_returns (htotal : fc.SafeTotal) (time : ℕ) {shares delta : ℤ}
    {w : WitnessObject} (hlow : 0 ≤ w.votes + delta) (hhigh : w.votes + delta ≤ shares)
    (hshares : shares < 2 ^ 63) : ∃ v, changeWitnessVote fc time shares delta w = .ok v := by
  have hadd : fc.add w.votes delta = .ok (w.votes + delta) :=
    htotal.checked (by omega) (by omega)
  have hassert : fcAssert (w.votes + delta ≤ shares) "" = .ok () := by
    simp [fcAssert, hhigh]
  have hpos : uint128 (w.votes + delta + 1) ≠ 0 := by
    unfold uint128 uint128Bound
    omega
  unfold changeWitnessVote
  rw [hadd]
  simp only [uint128Div, if_neg hpos, Except.bind, Bind.bind, hassert]
  exact ⟨_, rfl⟩

/-- The change of the votes of a witness returns if these stay between zero and all shares. -/
theorem adjustWitnessVote_returns (htotal : fc.SafeTotal) (hids : (roll s).witnesses.Nodup)
    {w : WitnessObject} {delta : ℤ} (hw : w ∈ s.witnesses.rows) (hlow : 0 ≤ w.votes + delta)
    (hhigh : w.votes + delta ≤ s.dgp.totalVestingShares)
    (hshares : s.dgp.totalVestingShares < 2 ^ 63) :
    ∃ t, Returns (adjustWitnessVote fc w.id delta) s () t := by
  obtain ⟨v, hv⟩ := changeWitnessVote_returns htotal s.wso.currentVirtualTime hlow hhigh hshares
  have hfind : s.witnesses.find (fun v => v.id = w.id) = some w :=
    (Table.find_key WitnessObject.id hids).mpr ⟨hw, rfl⟩
  obtain ⟨x, hx⟩ := Table.exists_modify unknownKey hfind hv
  refine ⟨{ s with witnesses := x }, ?_⟩
  refine Returns.intro_bind (a := s.wso.currentVirtualTime) rfl ?_
  refine Returns.intro_bind (a := s.dgp.totalVestingShares) rfl ?_
  refine Returns.intro_update ?_
  rw [hx]
  rfl

/-- The votes of every witness stay within the shares when changes are added. -/
def Room (s : ChainState) (change : ℕ → ℤ) : Prop :=
  ∀ w ∈ s.witnesses.rows, 0 ≤ w.votes ∧ w.votes + change w.id ≤ s.dgp.totalVestingShares

/-- After a recount that takes part of the room the rest is left. -/
theorem Room.step {t : ChainState} {f g : ℕ → ℤ} (h : Room s (f + g)) (hf : ∀ w, 0 ≤ f w)
    (hst : Recounts s t f) : Room t g := by
  intro w hw
  obtain ⟨old, hold, hid, hvotes⟩ := hst.votes hw
  obtain ⟨hlow, hhigh⟩ := h old hold
  have hdgp : t.dgp = s.dgp := by
    obtain ⟨x, rfl, -⟩ := hst.state
    rfl
  have hnonneg := hf old.id
  rw [hdgp, hvotes, hid]
  rw [Pi.add_apply] at hhigh
  exact ⟨by omega, by omega⟩

/-- The loop over the votes of an account returns where there is room for its weight. -/
theorem recountEach_returns (hexact : fc.SafeExact) (htotal : fc.SafeTotal) {weight : ℤ}
    {votes : List WitnessVoteObject} (hweight : a.witnessVoteWeight fc = .ok weight)
    (hnonneg : 0 ≤ weight) (hids : (roll s).witnesses.Nodup)
    (hcandidates : ∀ v ∈ votes, v.witness ∈ (roll s).witnesses)
    (hroom : Room s fun w => (votes.map (·.witness)).count w * weight)
    (hshares : s.dgp.totalVestingShares < 2 ^ 63) :
    ∃ t, Returns (forEach (fun v => do
      let weight ← lift (a.witnessVoteWeight fc)
      adjustWitnessVote fc v.witness weight) votes) s () t ∧
      Recounts s t fun w => (votes.map (·.witness)).count w * weight := by
  induction votes generalizing s with
  | nil =>
    have hzero : (fun w => ((([] : List WitnessVoteObject).map (·.witness)).count w : ℤ) * weight) =
        0 := by
      funext w
      simp
    rw [hzero]
    exact ⟨s, rfl, Recounts.refl s⟩
  | cons vote rest ih =>
    have hsplit : (fun w => (((vote :: rest).map (·.witness)).count w : ℤ) * weight) =
        (fun w => if w = vote.witness then weight else 0) +
          fun w => ((rest.map (·.witness)).count w : ℤ) * weight := by
      funext w
      rw [List.map_cons, List.count_cons]
      by_cases hw : w = vote.witness
      · simp [hw, Int.add_mul, Int.add_comm]
      · simp [hw, Ne.symm hw]
    rw [hsplit] at hroom ⊢
    obtain ⟨w, hw, hid⟩ := List.mem_map.mp (hcandidates vote List.mem_cons_self)
    have hid : w.id = vote.witness := hid
    obtain ⟨hlow, hhigh⟩ := hroom w hw
    have hcount : 0 ≤ ((rest.map (·.witness)).count w.id : ℤ) * weight :=
      Int.mul_nonneg (Int.natCast_nonneg _) hnonneg
    rw [Pi.add_apply, if_pos hid] at hhigh
    obtain ⟨v, hv⟩ := adjustWitnessVote_returns htotal hids hw
      (show 0 ≤ w.votes + weight by omega) (by omega) hshares
    rw [hid] at hv
    have hfirst := adjustWitnessVote_recounts hexact hids hv
    have hstep := hroom.step (fun w => by split <;> omega) hfirst
    have hroll := hfirst.roll_eq
    have hdgp : v.dgp = s.dgp := by
      obtain ⟨x, rfl, -⟩ := hfirst.state
      rfl
    obtain ⟨t, ht, hrest⟩ := ih (hroll ▸ hids)
      (fun b hb => hroll ▸ hcandidates b (List.mem_cons_of_mem _ hb)) hstep (hdgp ▸ hshares)
    refine ⟨t, ?_, hfirst.trans hrest⟩
    exact Returns.intro_bind ((Returns.intro_lift hweight).intro_bind hv) ht

/-- `recountVotes` adds the weight of an account to the witnesses that it voted for. -/
theorem recountVotes_returns (hexact : fc.SafeExact) (htotal : fc.SafeTotal)
    (hvalid : (roll s).Valid)
    (hweight : a.proxy = .empty → a.witnessVoteWeight fc = .ok (voteWeight a))
    (hnonneg : 0 ≤ voteWeight a) (hroom : Room s fun w => given s w a)
    (hshares : s.dgp.totalVestingShares < 2 ^ 63) :
    ∃ t, Returns (recountVotes fc a) s () t ∧ Recounts s t fun w => given s w a := by
  unfold recountVotes
  by_cases hproxy : a.proxy = .empty
  · have hgiven : (fun w => given s w a) = fun w =>
        (((s.witnessVotes.select (fun v => v.account = a.id)
          WitnessVoteObject.byWitness).map (·.witness)).count w : ℤ) * voteWeight a := by
      funext w
      rw [count_select hvalid]
      simp only [given, hproxy, true_and]
      split <;> simp
    rw [hgiven] at hroom ⊢
    have hcandidates : ∀ v ∈ s.witnessVotes.select (fun v => v.account = a.id)
        WitnessVoteObject.byWitness, v.witness ∈ (roll s).witnesses := by
      intro v hv
      exact hvalid.candidate v (List.mem_filter.mp ((List.mem_insertionSort _).mp hv)).1
    obtain ⟨t, ht, hrecounts⟩ := recountEach_returns hexact htotal (hweight hproxy) hnonneg
      hvalid.witnesses hcandidates hroom hshares
    refine ⟨t, ?_, hrecounts⟩
    rw [whenever, if_pos hproxy]
    exact Returns.intro_bind (a := s.witnessVotes.select (fun v => v.account = a.id)
      WitnessVoteObject.byWitness) rfl ht
  · have hgiven : (fun w => given s w a) = 0 := by
      funext w
      simp [given, hproxy]
    rw [hgiven, whenever, if_neg hproxy]
    exact ⟨s, rfl, Recounts.refl s⟩

/-- What an account gives to a witness depends on the roll alone. -/
theorem given_congr {t : ChainState} (hroll : roll t = roll s) (w : ℕ) : given t w = given s w := by
  funext a
  simp only [given, hroll]

/-- The loop over accounts adds all their weights. -/
theorem recountAll_returns (hexact : fc.SafeExact) (htotal : fc.SafeTotal)
    {accounts : List AccountObject} (hvalid : (roll s).Valid)
    (hweight : ∀ a ∈ accounts, a.proxy = .empty → a.witnessVoteWeight fc = .ok (voteWeight a))
    (hnonneg : ∀ a ∈ accounts, 0 ≤ voteWeight a)
    (hroom : Room s fun w => (accounts.map (given s w)).sum)
    (hshares : s.dgp.totalVestingShares < 2 ^ 63) :
    ∃ t, Returns (forEach (recountVotes fc) accounts) s () t ∧
      Recounts s t fun w => (accounts.map (given s w)).sum := by
  induction accounts generalizing s with
  | nil => exact ⟨s, rfl, Recounts.refl s⟩
  | cons a rest ih =>
    have hsplit : (fun w => ((a :: rest).map (given s w)).sum) =
        (fun w => given s w a) + fun w => (rest.map (given s w)).sum := by
      funext w
      simp
    rw [hsplit] at hroom ⊢
    have ha := hnonneg a List.mem_cons_self
    have hone : ∀ b ∈ a :: rest, ∀ w, 0 ≤ given s w b := by
      intro b hb w
      unfold given
      split
      · exact hnonneg b hb
      · exact le_rfl
    have hfirst : Room s fun w => given s w a := by
      intro w hw
      obtain ⟨hlow, hhigh⟩ := hroom w hw
      have hrest : 0 ≤ (rest.map (given s w.id)).sum := by
        refine List.sum_nonneg fun z hz => ?_
        obtain ⟨b, hb, rfl⟩ := List.mem_map.mp hz
        exact hone b (List.mem_cons_of_mem _ hb) w.id
      rw [Pi.add_apply] at hhigh
      have hfirst : w.votes + given s w.id a ≤ s.dgp.totalVestingShares := by omega
      exact ⟨hlow, hfirst⟩
    obtain ⟨v, hv, hrecounts⟩ := recountVotes_returns hexact htotal hvalid
      (hweight a List.mem_cons_self) ha hfirst hshares
    have hstep := hroom.step (hone a List.mem_cons_self) hrecounts
    have hroll := hrecounts.roll_eq
    have hdgp : v.dgp = s.dgp := by
      obtain ⟨x, rfl, -⟩ := hrecounts.state
      rfl
    obtain ⟨t, ht, hrest⟩ := ih (s := v) (hroll ▸ hvalid)
      (fun b hb => hweight b (List.mem_cons_of_mem _ hb))
      (fun b hb => hnonneg b (List.mem_cons_of_mem _ hb))
      (by simpa only [given_congr hroll] using hstep) (hdgp ▸ hshares)
    simp only [given_congr hroll] at hrest
    exact ⟨t, Returns.intro_bind hv ht, hrecounts.trans hrest⟩

end Recount

section Retally

variable {s : ChainState} {fc : FcLib}

/-- The first loop of `retally_witness_votes` returns and clears the votes. -/
theorem clearVotes_returns {witnesses : List WitnessObject}
    (hids : (s.witnesses.rows.map (·.id)).Nodup)
    (hmem : ∀ w ∈ witnesses, w.id ∈ s.witnesses.rows.map (·.id)) :
    ∃ x, Returns (forEach (fun itr => modifyWitness (fun w => w.id = itr.id) fun w => .ok
        { w with votes := 0, virtualPosition := 0 }) witnesses) s () { s with witnesses := x } ∧
      x.nextId = s.witnesses.nextId ∧
      x.rows.map (fun w => (w.id, w.votes)) = s.witnesses.rows.map fun w =>
        (w.id, if w.id ∈ witnesses.map (·.id) then 0 else w.votes) := by
  induction witnesses generalizing s with
  | nil =>
    refine ⟨s.witnesses, rfl, rfl, ?_⟩
    simp
  | cons first rest ih =>
    obtain ⟨old, hold, hid⟩ := List.mem_map.mp (hmem first List.mem_cons_self)
    have hid : old.id = first.id := hid
    have hfind : s.witnesses.find (fun w => w.id = first.id) = some old :=
      (Table.find_key WitnessObject.id hids).mpr ⟨hold, hid⟩
    obtain ⟨y, hy⟩ := Table.exists_modify unknownKey
      (f := fun w : WitnessObject => .ok { w with votes := 0, virtualPosition := 0 }) hfind rfl
    obtain ⟨a, b, hfound, -, -, hab, hrows, hnext⟩ := Table.modify_amend WitnessObject.id hy
      hids fun a b hab => by rw [← Except.ok.inj hab]
    have ha : a = old := Option.some.inj (hfound.symm.trans hfind)
    have hb : b.id = first.id ∧ b.votes = 0 := by
      rw [← Except.ok.inj hab, ha]
      exact ⟨hid, rfl⟩
    have hcleared : y.rows.map (fun w => (w.id, w.votes)) = s.witnesses.rows.map fun w =>
        (w.id, if w.id = first.id then 0 else w.votes) := by
      rw [hrows]
      refine Table.amend_map_congr (fun w _ hw => ?_) fun w _ hw => ?_
      · have hw : w.id = first.id := hw.trans hb.1
        simp only [hb, hw, if_true]
      · have hw : w.id ≠ first.id := fun heq => hw (heq.trans hb.1.symm)
        simp only [hw, if_false]
    have hsame : y.rows.map (·.id) = s.witnesses.rows.map (·.id) := by
      have hfst := congrArg (List.map Prod.fst) hcleared
      rwa [List.map_map, List.map_map] at hfst
    obtain ⟨x, hx, hnext', hvotes⟩ := ih (s := { s with witnesses := y }) (hsame ▸ hids)
      fun w hw => hsame ▸ hmem w (List.mem_cons_of_mem _ hw)
    refine ⟨x, ?_, hnext'.trans hnext, hvotes.trans ?_⟩
    · have hfirst : Returns (modifyWitness (fun w => w.id = first.id) fun w => .ok
          { w with votes := 0, virtualPosition := 0 }) s () { s with witnesses := y } := by
        refine Returns.intro_update ?_
        rw [hy]
        rfl
      exact Returns.intro_bind hfirst hx
    · have hstep := congrArg (List.map fun p : ℕ × ℤ =>
        (p.1, if p.1 ∈ rest.map (·.id) then 0 else p.2)) hcleared
      rw [List.map_map, List.map_map] at hstep
      refine hstep.trans (List.map_congr_left fun w _ => ?_)
      simp only [Function.comp_apply, List.map_cons, List.mem_cons]
      by_cases hw : w.id = first.id
      · simp [hw]
      · simp [hw]

/-- `retally_witness_votes` returns and finds the votes that were kept. -/
theorem retallyWitnessVotes_returns (hexact : fc.SafeExact) (htotal : fc.SafeTotal)
    (hs : Counted s) (hbalance : InBalance s) :
    ∃ t, Returns (retallyWitnessVotes fc) s () t ∧
      t.witnesses.rows.map (fun w => (w.id, w.votes)) =
        s.witnesses.rows.map fun w => (w.id, w.votes) := by
  have hids : (s.witnesses.rows.map (·.id)).Nodup := hs.valid.witnesses
  obtain ⟨x, hx, hnext, hcleared⟩ := clearVotes_returns hids fun w hw => List.mem_map_of_mem hw
  have hzero : x.rows.map (fun w => (w.id, w.votes)) = s.witnesses.rows.map fun w => (w.id, 0) := by
    rw [hcleared]
    refine List.map_congr_left fun w hw => ?_
    rw [if_pos (List.mem_map_of_mem hw)]
  have hroll : roll { s with witnesses := x } = roll s := by
    have hfst := congrArg (List.map Prod.fst) hzero
    rw [List.map_map, List.map_map] at hfst
    have hsame : x.rows.map (·.id) = s.witnesses.rows.map (·.id) := hfst
    simp only [roll, hsame, hnext]
  have hroom : Room { s with witnesses := x } fun w =>
      (s.accounts.rows.map (given { s with witnesses := x } w)).sum := by
    intro w hw
    have hpair : (w.id, w.votes) ∈ x.rows.map fun w => (w.id, w.votes) := List.mem_map_of_mem hw
    rw [hzero] at hpair
    obtain ⟨old, -, hold⟩ := List.mem_map.mp hpair
    have hvotes : w.votes = 0 := (congrArg Prod.snd hold).symm
    have hle := given_le hs hbalance w.id
    rw [← given_congr hroll, ← zero_add (List.sum _)] at hle
    rw [hvotes]
    exact ⟨le_rfl, hle⟩
  obtain ⟨t, ht, hrecounts⟩ := recountAll_returns hexact htotal (hroll ▸ hs.valid)
    (fun a ha hproxy => witnessVoteWeight_returns htotal hs hbalance ha hproxy)
    (fun a ha => voteWeight_nonneg hs hbalance ha) hroom hbalance.shares_lt
  refine ⟨t, ?_, ?_⟩
  · refine Returns.intro_bind (a := s.witnesses.rows) rfl (Returns.intro_bind hx ?_)
    exact Returns.intro_bind (a := s.accounts.rows) rfl ht
  · obtain ⟨y, rfl, -, hrows⟩ := hrecounts.state
    have hstep := congrArg (List.map fun p : ℕ × ℤ =>
      (p.1, p.2 + (s.accounts.rows.map (given s p.1)).sum)) hzero
    rw [List.map_map, List.map_map] at hstep
    simp only [given_congr hroll] at hrows
    refine hrows.trans (hstep.trans (List.map_congr_left fun w hw => ?_))
    simp only [Function.comp_apply, zero_add]
    rw [← counted_votes hs hw]

/-- `retally_witness_vote_counts` finds the numbers of votes that were kept. -/
theorem retallyWitnessVoteCounts_returns (hs : Counted s) :
    Returns (retallyWitnessVoteCounts true) s () s := by
  refine Returns.intro_bind (a := s.accounts.rows) rfl ?_
  refine Returns.intro_forEach_same fun a ha => ?_
  refine Returns.intro_bind (a := s.witnessVotes.select (fun v => v.account = a.id)
    WitnessVoteObject.byWitness) rfl ?_
  have hcount : a.witnessesVotedFor = (roll s).count a.id := hs.valid.votedFor _ (mem_entries ha)
  have hlimit : a.witnessesVotedFor ≤ wlsMaxAccountWitnessVotes :=
    hs.valid.limit _ (mem_entries ha)
  have hlength : (s.witnessVotes.select (fun v => v.account = a.id)
      WitnessVoteObject.byWitness).length = a.witnessesVotedFor := by
    unfold Table.select
    rw [List.length_insertionSort, ← List.countP_eq_length_filter, hcount]
    rfl
  have hsmall : a.witnessesVotedFor < 2 ^ 16 := by
    unfold wlsMaxAccountWitnessVotes at hlimit
    omega
  have hsame : ¬a.witnessesVotedFor ≠ (s.witnessVotes.select (fun v => v.account = a.id)
      WitnessVoteObject.byWitness).length % 2 ^ 16 := by
    rw [hlength, Nat.mod_eq_of_lt hsmall]
    exact not_not.mpr rfl
  simp only [Bool.true_or, if_true, whenever, if_neg hsame]
  rfl

end Retally

section Runs

/-- In every state that accepted blocks reach from `init_genesis`, if every proxy without a
size that an operation sets is the empty one: the votes of a witness are the weights of the
accounts without a proxy that voted for it, and no more than there are shares; an account
counts its votes, has at most thirty, and none with a proxy; and the routines that count all
votes again return with the same result. -/
theorem witness_votes_of_reaches {env : Env} {initSupply : ℕ} {calls : List BlockCall}
    {s : ChainState} (hexact : env.SafeExact) (htotal : env.SafeTotal) (hnamed : Named calls)
    (h : Reaches env initSupply calls s) :
    (∀ w ∈ s.witnesses.rows, w.votes = ((s.accounts.rows.filter fun a =>
        a.proxy = .empty ∧ ∃ v ∈ s.witnessVotes.rows, v.account = a.id ∧ v.witness = w.id).map
          voteWeight).sum ∧
      w.votes ≤ s.dgp.totalVestingShares) ∧
    (∀ a ∈ s.accounts.rows,
      a.witnessesVotedFor = s.witnessVotes.rows.countP (fun v => v.account = a.id) ∧
      a.witnessesVotedFor ≤ wlsMaxAccountWitnessVotes ∧
      (a.proxy ≠ .empty → ∀ v ∈ s.witnessVotes.rows, v.account ≠ a.id)) ∧
    (∃ t, Returns (retallyWitnessVotes env.toFcLib) s () t ∧
      t.witnesses.rows.map (fun w => (w.id, w.votes)) =
        s.witnesses.rows.map fun w => (w.id, w.votes)) ∧
    Returns (retallyWitnessVoteCounts true) s () s := by
  have hcounted : Counted s := (Reaches.voting hexact hnamed h).counted
  have hbalance : InBalance s :=
    Reaches.inBalance hexact (fun call hcall => (hnamed.checked call hcall).validate) h
  refine ⟨fun w hw => ⟨?_, ?_⟩, fun a ha => ⟨?_, ?_, ?_⟩,
    retallyWitnessVotes_returns hexact htotal hcounted hbalance,
    retallyWitnessVoteCounts_returns hcounted⟩
  · rw [counted_votes hcounted hw, sum_filter_rows]
    refine congrArg List.sum (List.map_congr_left fun a _ => ?_)
    simp only [given, Roll.backs_iff]
    rfl
  · rw [counted_votes hcounted hw]
    exact given_le hcounted hbalance w.id
  · exact hcounted.valid.votedFor _ (mem_entries ha)
  · exact hcounted.valid.limit _ (mem_entries ha)
  · exact hcounted.valid.no_ballots (mem_entries ha)

/-- The account `wls` turns tokens into shares and votes for the first miner. -/
def vestAndVote : SignedTransaction where
  refBlockNum := 0
  refBlockPrefix := 0
  expiration := wlsGenesisTime + 60
  operations :=
    [.transferToVesting { source := whaleshareAccount, target := .empty, amount := wls 200 },
      .accountWitnessVote { account := whaleshareAccount, witness := initMinerName 0, approve := true }]
  signatures := [⟨0⟩]

/-- The call of the first block, with the vote of `wls`. -/
def voteCall : BlockCall := sampleCall (sampleChain [vestAndVote] 0)

/-- The sample call has named proxies. -/
theorem voteCall_named : Named [voteCall] := by
  constructor
  · intro call hcall
    rw [List.mem_singleton.mp hcall]
    exact ⟨rfl, rfl, rfl⟩
  · intro call hcall trx htrx op hop o ho
    rw [List.mem_singleton.mp hcall] at htrx
    have htrx : trx = vestAndVote := List.mem_singleton.mp htrx
    rw [htrx] at hop
    simp only [vestAndVote, List.mem_cons, List.not_mem_nil, or_false] at hop
    rcases hop with rfl | rfl <;> cases ho

/-- After a vote the recount finds what the chain has kept. -/
theorem witness_votes_of_reaches_vote :
    ∃ s, Reaches sampleEnv 1000000 [voteCall] s ∧ (∃ w ∈ s.witnesses.rows, 0 < w.votes) ∧
      Returns (retallyWitnessVoteCounts true) s () s := by
  have hends : endsIn (runBlocks sampleEnv [voteCall]) (initGenesis sampleEnv 1000000)
      (fun _ s => s.witnesses.rows.any fun w => 0 < w.votes) = true := by
    decide +kernel
  obtain ⟨_, s, hs, hvotes⟩ := returns_of_endsIn hends
  exact ⟨s, hs, by simpa using hvotes, (witness_votes_of_reaches sampleEnv_safeExact
    sampleEnv_safeTotal voteCall_named hs).2.2.2⟩

/-- With a proxy that begins with a zero byte an account can still vote, and its vote
counts, although it has a proxy. -/
theorem hollow_proxy_votes :
    ∃ s, Reaches sampleEnv 1000000 [followCall hollowProxy [initMinerName 0]] s ∧
      Checked (followCall hollowProxy [initMinerName 0]).skip ∧
      (∃ a ∈ s.accounts.rows, a.proxy ≠ .empty ∧ ∃ v ∈ s.witnessVotes.rows, v.account = a.id) ∧
      ∃ w ∈ s.witnesses.rows, w.votes ≠ ((s.accounts.rows.filter fun a => a.proxy = .empty ∧
        ∃ v ∈ s.witnessVotes.rows, v.account = a.id ∧ v.witness = w.id).map voteWeight).sum := by
  have hends : endsIn (runBlocks sampleEnv [followCall hollowProxy [initMinerName 0]])
      (initGenesis sampleEnv 1000000) (fun _ s => decide (
        (∃ a ∈ s.accounts.rows, a.proxy ≠ .empty ∧ ∃ v ∈ s.witnessVotes.rows, v.account = a.id) ∧
        ∃ w ∈ s.witnesses.rows, w.votes ≠ ((s.accounts.rows.filter fun a => a.proxy = .empty ∧
          ∃ v ∈ s.witnessVotes.rows, v.account = a.id ∧ v.witness = w.id).map voteWeight).sum)) =
        true := by
    decide +kernel
  obtain ⟨_, s, hs, hboth⟩ := returns_of_endsIn hends
  obtain ⟨hvoter, hvotes⟩ := of_decide_eq_true hboth
  exact ⟨s, hs, ⟨rfl, rfl, rfl⟩, hvoter, hvotes⟩

end Runs

end Whaleshares.WitnessTallies
