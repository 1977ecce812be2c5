import Whaleshares.ScheduleContent

/-!
# The pay of a witness

`process_funds` divides what a block creates between content, development and the producer. The
share of the producer is weighted by its class, and divided by the sum of the weights of the
schedule. A block changes classes in the update of the schedule only, and what it pays goes to
the witness that produced it.
-/

namespace Whaleshares.WitnessPay

open Config Fc Assets Protocol Objects Program Database WitnessVotes Vesting Rewards ApplyBlock
  WitnessSchedule Genesis ChainRun Footprint ScheduleSafety ScheduleContent

section Funds

variable (fc : FcLib)

/-- What `process_funds` computes before it changes the supply. -/
structure Funds where
  content : ℤ
  devfund : ℤ
  /-- What is left for the witness, before it is weighted. -/
  share : ℤ
  producer : AccountName
  /-- What the witness is paid. -/
  reward : ℤ

/-- The first part of `process_funds`, up to the reward of the witness. -/
def computeFunds : Chain Funds := do
  let props ← gets (·.dgp)
  let wso ← gets (·.wso)
  let newSteem ← lift (fc.mul props.currentSupply (getCurrentInflationRate props.headBlockNumber))
  let newSteem ← lift (fc.div newSteem (wls100Percent * wlsBlocksPerYear))
  let contentReward ← lift (percentOf fc newSteem wlsContentRewardPercent)
  let funds ← gets (·.rewardFunds.rows)
  let contentReward ← payRewardFunds fc contentReward 0 funds
  let devfundReward ← lift (percentOf fc newSteem wlsDevFundPercent)
  let share ← lift (fc.sub newSteem contentReward)
  let share ← lift (fc.sub share devfundReward)
  let cwit ← getWitness props.currentWitness
  let witnessReward ← lift (witnessPay fc wso cwit.schedule share)
  pure ⟨contentReward, devfundReward, share, cwit.owner, witnessReward⟩

/-- The rest of `process_funds`. -/
def payFunds (funds : Funds) : Chain Unit := do
  let paid ← lift (fc.add funds.content funds.devfund)
  let newSteem ← lift (fc.add paid funds.reward)
  modifyDgp fun p => do
    let supply ← increase fc wlsSymbol p.currentSupply (wls newSteem)
    pure { p with currentSupply := supply }
  let _ ← createVesting fc funds.producer (wls funds.reward) false
  modifyAccount (named devFundAccount) (depositBalance fc (wls funds.devfund))

/-- The funds are computed first and paid then. -/
theorem processFunds_eq : processFunds fc = (do
    let funds ← computeFunds fc
    payFunds fc funds) := by
  simp only [processFunds, computeFunds, payFunds, bind_assoc, pure_bind]

end Funds

section Shares

variable {fc : FcLib} {s t : ChainState} {f : Funds}

/-- A percentage of an amount, rounded towards zero. -/
def percentage (amount : ℤ) (percent : ℕ) : ℤ := (amount * percent).tdiv wls100Percent

/-- The tokens that a block creates. -/
def inflation (s : ChainState) : ℤ :=
  (s.dgp.currentSupply * getCurrentInflationRate s.dgp.headBlockNumber).tdiv
    (wls100Percent * wlsBlocksPerYear)

/-- The part of a reward that the funds take. -/
def usedRewards (reward : ℤ) (funds : List RewardFundObject) : ℤ :=
  (funds.map fun rf => percentage reward rf.percentContentRewards).sum

/-- The share of the witnesses in what a block creates. -/
def unweightedShare (s : ChainState) : ℤ :=
  inflation s -
    usedRewards (percentage (inflation s) wlsContentRewardPercent) s.rewardFunds.rows -
    percentage (inflation s) wlsDevFundPercent

/-- The weight of the class of the witness that is paid in a state. -/
def producerWeight (s : ChainState) : ℕ := scheduledWeight s s.dgp.currentWitness

/-- An exact division rounds towards zero. -/
theorem div_eq_ok (hexact : fc.SafeExact) {a b w : ℤ} (h : fc.div a b = .ok w) : w = a.tdiv b := by
  unfold FcLib.div at h
  split at h
  · cases h
  · exact (hexact.checked h).1

/-- A percentage that is computed is rounded towards zero. -/
theorem percentOf_eq_ok (hexact : fc.SafeExact) {amount w : ℤ} {percent : ℕ}
    (h : percentOf fc amount percent = .ok w) : w = percentage amount percent := by
  obtain ⟨product, hproduct, h⟩ := bind_eq_ok h
  rw [div_eq_ok hexact h, (hexact.checked hproduct).1]
  rfl

/-- The funds take no more than the reward, and nothing but the funds changes. -/
theorem payRewardFunds_used (hexact : fc.SafeExact) {reward used r : ℤ}
    {funds : List RewardFundObject} (h : Returns (payRewardFunds fc reward used funds) s r t) :
    r = used + usedRewards reward funds ∧ (used ≤ reward → r ≤ reward) ∧
      ∃ x, t = { s with rewardFunds := x } := by
  induction funds generalizing used s with
  | nil =>
    obtain ⟨rfl, rfl⟩ := h.pure
    exact ⟨(Int.add_zero r).symm, id, t.rewardFunds, rfl⟩
  | cons rf rest ih =>
    obtain ⟨product, hproduct, h⟩ := h.lift_bind
    obtain ⟨share, hshare, h⟩ := h.lift_bind
    obtain ⟨_, u, hu, h⟩ := h.bind
    obtain ⟨sum, hsum, h⟩ := h.lift_bind
    obtain ⟨_, hbound, h⟩ := h.lift_bind
    obtain ⟨y, -, rfl⟩ := map_eq_ok hu.update
    obtain ⟨hr, hle, x, ht⟩ := ih h
    have hbound : sum ≤ reward := by simpa using fcAssert_eq_ok hbound
    have hshare : share = percentage reward rf.percentContentRewards := by
      rw [div_eq_ok hexact hshare, (hexact.checked hproduct).1]
      rfl
    have hsum : sum = used + share := (hexact.checked hsum).1
    refine ⟨?_, fun _ => hle hbound, x, ht⟩
    rw [hr, hsum, hshare, Int.add_assoc]
    rfl

/-- The inflation of a supply is not negative. -/
theorem inflation_nonneg (hsupply : 0 ≤ s.dgp.currentSupply) : 0 ≤ inflation s := by
  have hrate : 0 ≤ getCurrentInflationRate s.dgp.headBlockNumber :=
    le_trans (Int.natCast_nonneg _) (le_max_right _ _)
  exact Int.tdiv_nonneg (Int.mul_nonneg hsupply hrate) (by decide)

/-- Content and development take nine tenths of what is created. -/
theorem percentages_le {amount : ℤ} (h : 0 ≤ amount) :
    percentage amount wlsContentRewardPercent + percentage amount wlsDevFundPercent ≤ amount ∧
      0 ≤ percentage amount wlsContentRewardPercent := by
  have hcontent : percentage amount wlsContentRewardPercent = amount * 8500 / 10000 :=
    Int.tdiv_eq_ediv_of_nonneg (Int.mul_nonneg h (Int.natCast_nonneg _))
  have hdevfund : percentage amount wlsDevFundPercent = amount * 500 / 10000 :=
    Int.tdiv_eq_ediv_of_nonneg (Int.mul_nonneg h (Int.natCast_nonneg _))
  rw [hcontent, hdevfund]
  omega

/-- What the first part of `process_funds` computes. -/
structure Computed (fc : FcLib) (s : ChainState) (f : Funds) (cwit : WitnessObject) : Prop where
  share : f.share = unweightedShare s
  nonneg : 0 ≤ s.dgp.currentSupply → 0 ≤ f.share
  found : s.witnesses.find (ownedBy s.dgp.currentWitness) = some cwit
  reward : witnessPay fc s.wso cwit.schedule f.share = .ok f.reward

/-- The first part of `process_funds` computes the share and pays the producer by its class. -/
theorem computeFunds_computed (hexact : fc.SafeExact) (h : Returns (computeFunds fc) s f t) :
    ∃ cwit, Computed fc s f cwit := by
  obtain ⟨product, hproduct, h⟩ := h.gets_bind.gets_bind.lift_bind
  obtain ⟨newSteem, hnew, h⟩ := h.lift_bind
  obtain ⟨content, hcontent, h⟩ := h.lift_bind
  obtain ⟨used, u, hu, h⟩ := h.gets_bind.bind
  obtain ⟨dev, hdev, h⟩ := h.lift_bind
  obtain ⟨left, hleft, h⟩ := h.lift_bind
  obtain ⟨share, hshare, h⟩ := h.lift_bind
  obtain ⟨cwit, hfound, h⟩ := lookup_bind h
  obtain ⟨reward, hreward, h⟩ := h.lift_bind
  obtain ⟨rfl, -⟩ := h.pure
  obtain ⟨hused, hle, x, rfl⟩ := payRewardFunds_used hexact hu
  have hnew : newSteem = inflation s := by
    rw [div_eq_ok hexact hnew, (hexact.checked hproduct).1]
    rfl
  rw [hnew] at hcontent hdev hleft
  have hcontent := percentOf_eq_ok hexact hcontent
  have hdev := percentOf_eq_ok hexact hdev
  have hleft : left = inflation s - used := (hexact.checked hleft).1
  have hshare : share = left - dev := (hexact.checked hshare).1
  rw [hcontent] at hused hle
  refine ⟨cwit, ?_, fun hsupply => ?_, hfound, hreward⟩
  · change share = unweightedShare s
    rw [hshare, hleft, hdev, hused, Int.zero_add]
    rfl
  · obtain ⟨hsum, hcontentNonneg⟩ := percentages_le (inflation_nonneg hsupply)
    have hbound := hle hcontentNonneg
    change 0 ≤ share
    omega

/-- The weighted pay, rounded towards zero. -/
theorem Computed.reward_eq (hexact : fc.SafeExact) {cwit : WitnessObject}
    (h : Computed fc s f cwit) (hweight : 0 < producerWeight s) :
    f.reward = (f.share * wlsMaxWitnesses * producerWeight s).tdiv
      s.wso.witnessPayNormalizationFactor := by
  have heq : producerWeight s = (payWeight s.wso cwit.schedule).getD 0 := by
    unfold producerWeight scheduledWeight
    rw [h.found]
    rfl
  have hreward := h.reward
  unfold witnessPay at hreward
  obtain ⟨all, hall, hreward⟩ := bind_eq_ok hreward
  cases hclass : payWeight s.wso cwit.schedule with
  | none =>
    rw [heq, hclass] at hweight
    exact absurd hweight (Nat.lt_irrefl 0)
  | some weight =>
    rw [hclass] at hreward heq
    obtain ⟨weighted, hweighted, hreward⟩ := bind_eq_ok hreward
    rw [div_eq_ok hexact hreward, (hexact.checked hweighted).1, (hexact.checked hall).1, heq]
    rfl

end Shares

section Classes

variable {fc : FcLib} {s t v : ChainState} {ctx : Context} {b : SignedBlock}

/-- The name and the class of a witness. -/
def posting (w : WitnessObject) : AccountName × ScheduleType := (w.owner, w.schedule)

/-- The schedule stays, and so do the classes of the witnesses; new witnesses come last. -/
def SameClasses (s t : ChainState) : Prop :=
  t.wso = s.wso ∧
    ∃ new, t.witnesses.rows.map posting = s.witnesses.rows.map posting ++ new

/-- The same classes twice are the same classes. -/
theorem SameClasses.trans (hst : SameClasses s t) (htv : SameClasses t v) : SameClasses s v := by
  obtain ⟨hwso, new, hnew⟩ := hst
  obtain ⟨hwso', new', hnew'⟩ := htv
  exact ⟨hwso'.trans hwso, new ++ new', by rw [hnew', hnew, List.append_assoc]⟩

instance : IsPreorder ChainState SameClasses where
  refl _ := ⟨rfl, [], (List.append_nil _).symm⟩
  trans _ _ _ hst htu := hst.trans htu

/-- The classes depend on the postings and the schedule alone. -/
theorem SameClasses.of_postings (hwso : t.wso = s.wso)
    (hrows : t.witnesses.rows.map posting = s.witnesses.rows.map posting) : SameClasses s t :=
  ⟨hwso, [], by rw [hrows, List.append_nil]⟩

/-- The classes depend on the witnesses and the schedule alone. -/
theorem SameClasses.of_witnesses (hwso : t.wso = s.wso) (hwitnesses : t.witnesses = s.witnesses) :
    SameClasses s t :=
  .of_postings hwso (by rw [hwitnesses])

/-- A change of votes keeps the posting of the witness. -/
theorem changeWitnessVote_posting {time : ℕ} {shares delta : ℤ} {w x : WitnessObject}
    (h : changeWitnessVote fc time shares delta w = .ok x) : posting x = posting w := by
  unfold changeWitnessVote at h
  obtain ⟨votes, -, h⟩ := bind_eq_ok h
  obtain ⟨-, -, h⟩ := bind_eq_ok h
  obtain ⟨lap, -, h⟩ := bind_eq_ok h
  rw [← Except.ok.inj h]
  rfl

/-- Operations keep the classes. -/
theorem sameClasses_operationFrame (fc : FcLib) : OperationFrame fc SameClasses where
  quietAccounts _ _ _ _ := .of_witnesses rfl rfl
  comments _ _ := .of_witnesses rfl rfl
  commentVotes _ _ := .of_witnesses rfl rfl
  withdrawVestingRoutes _ _ := .of_witnesses rfl rfl
  transactions _ _ := .of_witnesses rfl rfl
  quietWitnesses _ _ hx _ :=
    .of_postings rfl (map_eq_of_map_eq (fun r => (r.2.1.2.1, r.2.2)) (fun _ => rfl) hx)
  rewardAccounts _ _ _ _ := .of_witnesses rfl rfl
  rewardFunds _ _ := .of_witnesses rfl rfl
  rewardTotals _ _ _ _ := .of_witnesses rfl rfl
  ballots _ _ _ := .of_witnesses rfl rfl
  witnessVotes _ _ := .of_witnesses rfl rfl
  tallies _ _ _ _ hx :=
    .of_postings rfl (Table.modify_map_eq hx fun _ _ h => changeWitnessVote_posting h)
  anyAccounts _ _ := .of_witnesses rfl rfl
  totals _ _ _ := .of_witnesses rfl rfl
  accountAuthorities _ _ := .of_witnesses rfl rfl
  newcomer s x w hx _ _ _ _ := ⟨rfl, [posting w], by
    change x.rows.map posting = s.witnesses.rows.map posting ++ [posting w]
    rw [hx, List.map_append, List.map_singleton]⟩

/-- The routines before the schedule keep the classes. -/
theorem sameClasses_headerFrame : HeaderFrame SameClasses where
  toQuietFrame := (sameClasses_operationFrame ChainRun.sampleEnv.toFcLib).toQuietFrame
  header _ _ _ := .of_witnesses rfl rfl
  signed _ _ hx _ :=
    .of_postings rfl (map_eq_of_map_eq (fun r => (r.1.2.1, r.2)) (fun _ => rfl) hx)
  blockSummaries _ _ := .of_witnesses rfl rfl

/-- A block changes classes in the update of the schedule only. -/
theorem applyBlockToSchedule_classes : Keeps SameClasses (applyBlockToSchedule ctx b) :=
  applyBlockToSchedule_keeps sameClasses_headerFrame (sameClasses_operationFrame _)

/-- The routines behind the schedule keep the classes. -/
theorem afterSchedule_classes : Keeps SameClasses (afterSchedule ctx) :=
  afterSchedule_keeps ctx (sameClasses_operationFrame _).toStakeFrame

/-- Away from the end of a round, the update of the schedule does nothing. -/
theorem updateWitnessSchedule_idle (hnum : s.dgp.headBlockNumber % wlsMaxWitnesses ≠ 0)
    (h : Returns updateWitnessSchedule s () t) : t = s := by
  have h : Returns (pure () : Chain Unit) s () t := by simpa [whenever, hnum] using h.gets_bind
  exact h.pure.2

/-- The weight of a witness from the list of postings. -/
theorem scheduledWeight_eq_postings (s : ChainState) (name : AccountName) :
    scheduledWeight s name = (((s.witnesses.rows.map posting).find? fun x => x.1 = name).bind
      fun x => payWeight s.wso x.2).getD 0 := by
  unfold scheduledWeight Table.find
  rw [List.find?_map, Option.bind_map]
  rfl

/-- With the same classes a witness has the same weight. -/
theorem SameClasses.weight_eq (h : SameClasses s t) {name : AccountName}
    (hname : ∃ w ∈ s.witnesses.rows, w.owner = name) :
    scheduledWeight t name = scheduledWeight s name := by
  obtain ⟨hwso, new, hnew⟩ := h
  obtain ⟨w, hw, howner⟩ := hname
  have hfound : ((s.witnesses.rows.map posting).find? fun x => x.1 = name).isSome := by
    rw [List.find?_isSome]
    exact ⟨posting w, List.mem_map_of_mem hw, decide_eq_true howner⟩
  rw [scheduledWeight_eq_postings, scheduledWeight_eq_postings, hnew, List.find?_append, hwso,
    Option.or_of_isSome hfound]

/-- The schedule that the producer of a block is paid by gives it the weight and the factor of
the schedule that it produced the block by. -/
def SettledBy (v s : ChainState) : Prop :=
  producerWeight s = scheduledWeight v s.dgp.currentWitness ∧
    s.wso.witnessPayNormalizationFactor = v.wso.witnessPayNormalizationFactor

/-- The producer is paid by the classes of the last update. -/
theorem SameClasses.settled (h : SameClasses v s)
    (hname : ∃ w ∈ v.witnesses.rows, w.owner = s.dgp.currentWitness) : SettledBy v s :=
  ⟨h.weight_eq hname, by rw [h.1]⟩

end Classes

section Producer

variable {s t : ChainState} {ctx : Context} {b : SignedBlock}

/-- The producer of the block stays. -/
def SameProducer (s t : ChainState) : Prop := t.dgp.currentWitness = s.dgp.currentWitness

instance : IsPreorder ChainState SameProducer where
  refl _ := rfl
  trans _ _ _ hst htu := Eq.trans htu hst

/-- The producer is part of the head. -/
theorem currentWitness_of_head {d e : DynamicGlobalPropertyObject} (h : head d = head e) :
    d.currentWitness = e.currentWitness := by
  have hwitness : (head d).currentWitness = (head e).currentWitness := by rw [h]
  exact hwitness

/-- Operations keep the producer. -/
theorem sameProducer_operationFrame (fc : FcLib) : OperationFrame fc SameProducer where
  quietAccounts _ _ _ _ := rfl
  comments _ _ := rfl
  commentVotes _ _ := rfl
  withdrawVestingRoutes _ _ := rfl
  transactions _ _ := rfl
  quietWitnesses _ _ _ _ := rfl
  rewardAccounts _ _ _ _ := rfl
  rewardFunds _ _ := rfl
  rewardTotals _ _ hhead _ := currentWitness_of_head hhead
  ballots _ _ _ := rfl
  witnessVotes _ _ := rfl
  tallies _ _ _ _ _ := rfl
  anyAccounts _ _ := rfl
  totals _ _ hhead := currentWitness_of_head hhead
  accountAuthorities _ _ := rfl
  newcomer _ _ _ _ _ _ _ _ := rfl

/-- The turns of the witnesses keep the producer. -/
theorem sameProducer_turnFrame : TurnFrame SameProducer where
  turns _ _ _ _ := rfl
  blockSize _ _ := rfl
  wso _ _ _ := rfl
  hardforks _ _ := rfl

/-- A change of the global properties beside the producer keeps it. -/
theorem setDgp_producer {f : DynamicGlobalPropertyObject → DynamicGlobalPropertyObject}
    (hf : ∀ d, (f d).currentWitness = d.currentWitness) :
    Keeps SameProducer (modifyDgp fun d => .ok (f d)) := by
  refine replace_keeps fun s d hd => ?_
  change d.currentWitness = s.dgp.currentWitness
  rw [← Except.ok.inj hd]
  exact hf s.dgp

/-- The shift of the participation keeps the producer. -/
theorem shiftMissed_producer (missed : ℕ) (dgp : DynamicGlobalPropertyObject) :
    (shiftMissed missed dgp).currentWitness = dgp.currentWitness := by
  induction missed generalizing dgp with
  | zero => rfl
  | succ missed ih =>
    unfold shiftMissed
    rw [ih]
    rfl

/-- Advancing the head keeps the producer. -/
theorem advanceHead_producer (missed : ℕ) (dgp : DynamicGlobalPropertyObject) :
    (advanceHead ctx b missed dgp).currentWitness = dgp.currentWitness := by
  have hshift : (shiftSlots missed dgp).currentWitness = dgp.currentWitness := by
    unfold shiftSlots
    split
    · rfl
    · exact shiftMissed_producer missed (shiftSlot true dgp)
  exact hshift

/-- The new global properties keep the producer. -/
theorem updateGlobalDynamicData_producer :
    Keeps SameProducer (updateGlobalDynamicData ctx b) :=
  .bind (.gets _) fun _ => .bind (missSlots_keeps
      (sameProducer_operationFrame ctx.env.toFcLib).toQuietFrame b _ _) fun _ =>
    .bind (setDgp_producer fun dgp => advanceHead_producer _ dgp) fun _ =>
    .bind (.gets _) fun _ => .lift _

/-- The new last irreversible block keeps the producer. -/
theorem updateLastIrreversibleBlock_producer : Keeps SameProducer updateLastIrreversibleBlock :=
  .bind (.gets _) fun _ => .ite (setDgp_producer fun _ => by rfl)
    (.bind scheduledWitnesses_keeps fun _ => .bind (.lift _) fun _ =>
      setDgp_producer fun _ => by rfl)

/-- The witness of the block becomes the one that is paid. -/
theorem applyBlockToSchedule_producer (h : Returns (applyBlockToSchedule ctx b) s () t) :
    t.dgp.currentWitness = b.witness := by
  have hframe := sameProducer_operationFrame ctx.env.toFcLib
  obtain ⟨_, front, hfront, h⟩ := h.bind
  obtain ⟨_, -, hfront⟩ := hfront.lift_bind
  obtain ⟨_, s₁, -, hfront⟩ := hfront.bind
  obtain ⟨_, -, hfront⟩ := hfront.gets_bind.lift_bind
  obtain ⟨_, s₂, hset, hfront⟩ := hfront.bind
  obtain ⟨d, hd, rfl⟩ := map_eq_ok hset.update
  have hwitness : ({ s₁ with dgp := d } : ChainState).dgp.currentWitness = b.witness := by
    rw [← Except.ok.inj hd]
  have hfront : SameProducer { s₁ with dgp := d } front := by
    refine Keeps.rel (R := SameProducer) ?_ _ _ _ hfront
    refine .bind (processHeaderExtensions_keeps hframe.toQuietFrame b) fun _ =>
      .bind (lookup_keeps _ _) fun _ => .bind (.gets _) fun _ => .bind (.lift _) fun _ =>
      .bind (.forEach (fun trx => applyTransaction_keeps ctx hframe trx) _) fun _ =>
      .bind updateGlobalDynamicData_producer fun _ =>
      .bind (.bind (.gets _) fun _ => replace_keeps fun _ _ _ => rfl) fun _ =>
      updateLastIrreversibleBlock_producer
  have hback : SameProducer front t := by
    refine Keeps.rel (R := SameProducer) ?_ _ _ _ h
    exact .bind (createBlockSummary_keeps ctx (fun _ _ => rfl) b) fun _ =>
      clearExpiredTransactions_keeps hframe.toQuietFrame
  exact (Eq.trans hback hfront).trans hwitness

end Producer

end Whaleshares.WitnessPay
