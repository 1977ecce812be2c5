import Whaleshares.Conservation
import Whaleshares.Election
import Whaleshares.LockedAccount

/-!
# The votes stay counted along a run

Every operation that passes its checks, and every block that is applied with them, keeps the
votes counted. The one exception is a proxy that begins with a zero byte: it has no size, so
it is set as if it were the empty one, and yet it is not the empty one.
-/

namespace Whaleshares.ElectionRun

open Config Fc Assets Protocol Objects Program Database WitnessVotes Vesting Rewards Evaluators
  CommentEvaluators ApplyBlock Genesis ChainRun Footprint Forest ElectoralRoll Tally VoteLedger
  Election LockedAccount

section Operations

variable {s t : ChainState} {fc : FcLib} {u : Unit} {ctx : Context}

/-- `transfer` keeps the election. -/
theorem applyTransfer_same {o : TransferOperation} (h : Returns (applyTransfer fc o) s u t) :
    SameElection s t := by
  obtain ⟨_, -, h⟩ := lookup_bind h
  obtain ⟨_, -, h⟩ := lookup_bind h
  obtain ⟨_, -, h⟩ := h.lift_bind
  obtain ⟨_, -, h⟩ := h.lift_bind
  obtain ⟨_, -, h⟩ := h.lift_bind
  obtain ⟨_, -, h⟩ := h.lift_bind
  obtain ⟨_, v, hv, h⟩ := h.bind
  exact Trans.trans (adjustBalance_same hv) (adjustBalance_same h)

/-- `transfer_to_vesting` keeps the votes counted. -/
theorem applyTransferToVesting_counted (hexact : fc.SafeExact) {o : TransferToVestingOperation}
    (h : Returns (applyTransferToVesting fc o) s u t) (hs : Counted s) : Counted t := by
  obtain ⟨_, -, h⟩ := lookup_bind h
  obtain ⟨_, -, h⟩ := lookup_bind h
  obtain ⟨_, -, h⟩ := h.lift_bind
  obtain ⟨_, -, h⟩ := h.lift_bind
  obtain ⟨_, -, h⟩ := h.lift_bind
  obtain ⟨_, -, h⟩ := h.lift_bind
  obtain ⟨_, v, hv, h⟩ := h.bind
  obtain ⟨_, w, hw, h⟩ := h.bind
  obtain ⟨-, rfl⟩ := h.pure
  exact createVesting_counted hexact hw ((adjustBalance_same hv).counted hs)

/-- A valid new name has a size. -/
theorem accountCreate_size {o : AccountCreateOperation} (h : o.validate fc = .ok u) :
    o.newAccountName.size ≠ 0 := by
  obtain ⟨_, hname, -⟩ := bind_eq_ok h
  have hvalid := fcAssert_eq_ok hname
  simp only [isValidAccountName, Bool.and_eq_true, decide_eq_true_eq] at hvalid
  obtain ⟨⟨hlength, -⟩, -⟩ := hvalid
  unfold AccountName.size
  unfold wlsMinAccountNameLength at hlength
  omega

/-- `account_create` keeps the votes counted. -/
theorem applyAccountCreate_counted (hexact : ctx.env.SafeExact) {o : AccountCreateOperation}
    (hvalid : o.validate ctx.env.toFcLib = .ok ()) (h : Returns (applyAccountCreate ctx o) s u t)
    (hs : Counted s) : Counted t := by
  obtain ⟨s₁, s₂, s₃, hpays, hcreates, hauthorizes, hvests⟩ := applyAccountCreate_parts h
  have hsame₁ : SameElection s s₁ := by
    refine (modifyRewards_keeps sameElection_rewardFrame fun a b hab => ?_).rel _ _ _ hpays
    obtain ⟨_, -, hab⟩ := bind_eq_ok hab
    rw [← Except.ok.inj hab]
    rfl
  have hsame₃ : SameElection s₂ s₃ :=
    (createAccountAuthority_keeps sameElection_authorities _).rel _ _ _ hauthorizes
  have hs₃ := hsame₃.counted
    (createAccount_counted (fun _ => rfl) (accountCreate_size hvalid) hcreates (hsame₁.counted hs))
  rcases hvests with ⟨-, _, h⟩ | ⟨-, rfl⟩
  · exact createVesting_counted hexact h hs₃
  · exact hs₃

/-- `claim_reward_balance` keeps the votes counted. -/
theorem applyClaimRewardBalance_counted (hexact : fc.SafeExact) {o : ClaimRewardBalanceOperation}
    (h : Returns (applyClaimRewardBalance fc o) s u t) (hs : Counted s) : Counted t := by
  obtain ⟨_, -, h⟩ := lookup_bind h
  obtain ⟨_, -, h⟩ := h.lift_bind
  obtain ⟨_, -, h⟩ := h.lift_bind
  obtain ⟨_, -, h⟩ := h.lift_bind
  obtain ⟨_, -, h⟩ := h.lift_bind
  obtain ⟨_, -, h⟩ := h.lift_bind
  obtain ⟨_, -, h⟩ := h.lift_bind
  obtain ⟨_, s₁, h₁, h⟩ := h.bind
  obtain ⟨_, s₂, h₂, h⟩ := h.bind
  obtain ⟨_, s₃, h₃, h⟩ := h.bind
  obtain ⟨_, s₄, h₄, h⟩ := h.bind
  have hs₂ := (adjustBalance_same h₂).counted ((adjustRewardBalance_same h₁).counted hs)
  have hclaim : ∀ toMove a b, claimShares fc o.rewardVests toMove a = .ok b →
      entry b = entry a ∧ b.proxiedVsfVotes = a.proxiedVsfVotes ∧
        b.vestingShares = a.vestingShares + o.rewardVests.amount := by
    intro toMove a b hab
    obtain ⟨shares, hshares, hab⟩ := bind_eq_ok hab
    obtain ⟨_, -, hab⟩ := bind_eq_ok hab
    obtain ⟨_, -, hab⟩ := bind_eq_ok hab
    rw [← Except.ok.inj hab]
    exact ⟨rfl, rfl, (increase_eq_ok hexact hshares).1⟩
  obtain ⟨a, b, -, ha, hab, hm⟩ := modifyAccount_amends (accounts_names hs₂.valid) h₃ fun a b hab =>
    congrArg Entry.name (hclaim _ a b hab).1
  have hname : a.name = o.account := by simpa [named] using ha
  have hcredits : Credits s₂ s₃ o.account o.rewardVests.amount :=
    ⟨a, b, hm, hname, hclaim _ a b hab⟩
  exact hcredits.propagated hexact hs₂ (modifyDgp_same h₄) h

/-- A valid proxy is not the account itself. -/
theorem accountWitnessProxy_self {o : AccountWitnessProxyOperation} (h : o.validate = .ok u) :
    o.proxy ≠ o.account := by
  obtain ⟨_, -, h⟩ := bind_eq_ok h
  split at h
  · obtain ⟨_, -, h⟩ := bind_eq_ok h
    simpa using fcAssert_eq_ok h
  · simpa using fcAssert_eq_ok h

/-- A proxy that has no size is the empty one. -/
def ProxyNamed (op : Operation) : Prop :=
  ∀ o, op = .accountWitnessProxy o → o.proxy.size = 0 → o.proxy = .empty

/-- A valid operation that does not act for the null account keeps the votes counted. -/
theorem applyOperation_counted (hexact : ctx.env.SafeExact) {op : Operation}
    (hvalid : op.validate ctx.env.toFcLib = .ok ())
    (hnull : nullAccount ∉ op.requiredAuthorities.active) (hproxy : ProxyNamed op)
    (h : Returns (applyOperation ctx op) s u t) (hs : Counted s) : Counted t := by
  have hquiet := sameElection_rewardFrame.toQuietFrame
  have hkeeps : Keeps SameElection (applyOperation ctx op) → Counted t :=
    fun hk => SameElection.counted (hk.rel _ _ _ h) hs
  by_cases hplain : isPlain op = true
  · exact hkeeps (applyOperation_plain hquiet hplain)
  cases op with
  | transfer o => exact (applyTransfer_same h).counted hs
  | transferToVesting o => exact applyTransferToVesting_counted hexact h hs
  | accountCreate o => exact applyAccountCreate_counted hexact hvalid h hs
  | accountUpdate o => exact hkeeps (applyAccountUpdate_keeps hquiet sameElection_authorities o)
  | witnessUpdate o =>
    have hframe : QuietFrame (Preserves Counted) := hquiet.mono fun _ _ hsame =>
      SameElection.counted hsame
    exact (applyWitnessUpdate_keeps hframe newcomer_counted ctx o).rel _ _ _ h hs
  | accountWitnessVote o =>
    refine applyAccountWitnessVote_counted hexact (fun haccount => hnull ?_) h hs
    exact List.mem_singleton.mpr haccount.symm
  | accountWitnessProxy o =>
    have hself := accountWitnessProxy_self hvalid
    refine applyAccountWitnessProxy_counted hexact hself (hproxy o rfl)
      (fun haccount => hnull ?_) h hs
    exact List.mem_singleton.mpr haccount.symm
  | claimRewardBalance o => exact applyClaimRewardBalance_counted hexact h hs
  | _ => exact absurd rfl hplain

end Operations

section Blocks

variable {s t : ChainState} {u : Unit} {ctx : Context}

/-- The votes are counted, and nobody can act for the null account. -/
structure Voting (s : ChainState) : Prop where
  counted : Counted s
  locked : Locked s

/-- The checks of operations and authorities are made. -/
structure Checked (skip : SkipFlags) : Prop where
  validate : skip.validate = false
  transactionSignatures : skip.transactionSignatures = false
  authorityCheck : skip.authorityCheck = false

/-- The routines before the schedule keep the votes counted. -/
theorem voting_headerFrame : HeaderFrame (Preserves Voting) := by
  refine (sameElection_headerFrame.and sameAuthorities_headerFrame).mono fun s t hsame hs => ?_
  exact ⟨hsame.1.counted hs.counted, hsame.2.locked hs.locked⟩

/-- A transaction with named proxies keeps the votes counted. -/
theorem applyTransaction_voting (hexact : ctx.env.SafeExact) (hchecked : Checked ctx.skip)
    {trx : SignedTransaction} (hproxies : ∀ op ∈ trx.operations, ProxyNamed op) :
    Keeps (Preserves Voting) (applyTransaction ctx trx) := by
  constructor
  intro s r t h hs
  obtain ⟨_, hvalid, h⟩ := h.lift_bind
  obtain ⟨_, -, h⟩ := h.gets_bind.lift_bind
  obtain ⟨_, hauthorities, h⟩ := h.lift_bind
  obtain ⟨_, -, h⟩ := h.lift_bind
  obtain ⟨_, v, hv, h⟩ := h.bind
  rw [hchecked.validate, if_neg Bool.false_ne_true] at hvalid
  rw [hchecked.transactionSignatures, hchecked.authorityCheck, Bool.or_self,
    if_neg Bool.false_ne_true] at hauthorities
  obtain ⟨_, -, hvalid⟩ := bind_eq_ok hvalid
  have hops := forM_eq_ok hvalid
  have hnull := checkAuthorities_null hs.locked hauthorities
  have hsv : Voting v := (Keeps.whenever
    (createTransaction_keeps voting_headerFrame.toQuietFrame _)).rel _ _ _ hv hs
  refine h.forEach hsv fun op hop x y hx hy => ?_
  obtain ⟨hactive, howner⟩ := hnull op hop
  exact ⟨applyOperation_counted hexact (hops op hop) hactive (hproxies op hop) hy hx.counted,
    applyOperation_locked hactive howner hy hx.locked⟩

/-- The second part of a block keeps the votes counted. -/
theorem applyBlockBack_counted (hexact : ctx.env.SafeExact) {b : SignedBlock}
    (h : Returns (applyBlockBack ctx b) s u t) (hs : Counted s) : Counted t := by
  obtain ⟨_, s₁, h₁, h⟩ := h.bind
  obtain ⟨_, s₂, h₂, h⟩ := h.bind
  obtain ⟨_, s₃, h₃, h⟩ := h.bind
  obtain ⟨_, s₄, h₄, h⟩ := h.bind
  obtain ⟨_, s₅, h₅, h⟩ := h.bind
  obtain ⟨_, s₆, h₆, h⟩ := h.bind
  obtain ⟨_, s₇, h₇, h⟩ := h.bind
  have hsame₁ : SameElection s s₁ :=
    (createBlockSummary_keeps ctx sameElection_headerFrame.blockSummaries b).rel _ _ _ h₁
  have hsame₂ : SameElection s₁ s₂ :=
    (clearExpiredTransactions_keeps sameElection_rewardFrame.toQuietFrame).rel _ _ _ h₂
  have hsame₃ : SameElection s₂ s₃ :=
    (updateWitnessSchedule_keeps sameElection_turnFrame).rel _ _ _ h₃
  have hsame₆ : SameElection s₅ s₆ :=
    (processCommentCashout_keeps _ sameElection_rewardFrame).rel _ _ _ h₆
  have hsame : SameElection s₇ t := processHardforks_keeps.rel _ _ _ h
  have hs₃ := hsame₃.counted (hsame₂.counted (hsame₁.counted hs))
  have hs₅ := processFunds_counted hexact h₅ (clearNullAccountBalance_counted h₄ hs₃)
  exact hsame.counted (processVestingWithdrawals_counted hexact h₇ (hsame₆.counted hs₅))

/-- Every accepted block keeps the votes counted. -/
theorem applyBlock_voting (hexact : ctx.env.SafeExact) (hchecked : Checked ctx.skip)
    {b : SignedBlock} (hproxies : ∀ trx ∈ b.transactions, ∀ op ∈ trx.operations, ProxyNamed op)
    (h : Returns (applyBlock ctx b) s u t) (hs : Voting s) : Voting t := by
  obtain ⟨_, v, hv, h⟩ := h.bind
  have hfront : Voting v := (applyBlockFront_keeps ctx voting_headerFrame b fun trx htrx =>
    applyTransaction_voting hexact hchecked (hproxies trx htrx)).rel _ _ _ hv hs
  have hsame : SameAuthorities v t := (applyBlockBack_authorities b).rel _ _ _ h
  exact ⟨applyBlockBack_counted hexact h hfront.counted, hsame.locked hfront.locked⟩

end Blocks

section Runs

/-- The names of the first accounts, by their ids. -/
def genesisNames : List AccountName :=
  [minerAccount, nullAccount, nameOf "temp", whaleshareAccount, devFundAccount] ++
    (List.range wlsMaxWitnesses).map initMinerName

/-- The entry of a first account. -/
def genesisEntry (row : AccountName × ℕ) : Entry := ⟨row.2, row.1, .empty, 0⟩

/-- The roll of genesis has the accounts of genesis and no ballots. -/
theorem roll_initGenesis (env : Env) (initSupply : ℕ) :
    roll (initGenesis env initSupply) =
      ⟨genesisNames.zipIdx.map genesisEntry, List.range wlsMaxWitnesses, [],
        5 + wlsMaxWitnesses, wlsMaxWitnesses, 0⟩ := by
  rfl

/-- The names of genesis are different. -/
theorem genesisNames_nodup : genesisNames.Nodup := by decide +kernel

/-- The names of genesis have a size. -/
theorem genesisNames_sized : ∀ name ∈ genesisNames, name.size ≠ 0 := by decide +kernel

/-- The roll of genesis is valid. -/
theorem valid_initGenesis (env : Env) (initSupply : ℕ) :
    (roll (initGenesis env initSupply)).Valid := by
  rw [roll_initGenesis]
  have hempty : ∀ e ∈ genesisNames.zipIdx.map genesisEntry,
      e.proxy = .empty ∧ e.votedFor = 0 ∧ e.name ∈ genesisNames ∧ e.id < 5 + wlsMaxWitnesses := by
    intro e he
    obtain ⟨row, hrow, rfl⟩ := List.mem_map.mp he
    obtain ⟨-, hlt, hname⟩ := List.mem_zipIdx hrow
    refine ⟨rfl, rfl, ?_, ?_⟩
    · change row.1 ∈ genesisNames
      rw [hname]
      exact List.getElem_mem _
    · have hlength : genesisNames.length = 5 + wlsMaxWitnesses := rfl
      change row.2 < _
      omega
  have hnames : (genesisNames.zipIdx.map genesisEntry).map (·.name) = genesisNames := by
    rw [List.map_map]
    exact List.zipIdx_map_fst 0 genesisNames
  have hids : (genesisNames.zipIdx.map genesisEntry).map (·.id) =
      List.range' 0 genesisNames.length := by
    rw [List.map_map]
    exact List.zipIdx_map_snd 0 genesisNames
  constructor
  case names =>
    rw [hnames]
    exact genesisNames_nodup
  case ids =>
    rw [hids]
    exact List.nodup_range'
  case id_lt => exact fun e he => (hempty e he).2.2.2
  case sized => exact fun e he => genesisNames_sized _ (hempty e he).2.2.1
  case proxies => exact fun e he hproxy => absurd (hempty e he).1 hproxy
  case grounded =>
    intro name
    refine ⟨1, ?_⟩
    change (Roll.proxyOf _ name).bind some = none
    rw [Option.bind_fun_some, Option.eq_none_iff_forall_not_mem]
    intro proxy hproxy
    obtain ⟨e, he, -, hsame, hne⟩ := Roll.proxyOf_eq_some hproxy
    exact hne (hsame.symm.trans (hempty e he).1)
  case witnesses => exact List.nodup_range
  case witness_lt => exact fun w hw => List.mem_range.mp hw
  case ballotIds => exact List.nodup_nil
  case ballot_lt => exact fun b hb => absurd hb List.not_mem_nil
  case pairs => exact List.nodup_nil
  case voter => exact fun b hb => absurd hb List.not_mem_nil
  case candidate => exact fun b hb => absurd hb List.not_mem_nil
  case votedFor => exact fun e he => (hempty e he).2.1
  case limit =>
    intro e he
    rw [(hempty e he).2.1]
    exact Nat.zero_le _

/-- The votes of genesis are counted. -/
theorem voting_initGenesis (env : Env) (initSupply : ℕ) : Voting (initGenesis env initSupply) := by
  have hzero : ∀ a ∈ (initGenesis env initSupply).accounts.rows,
      a.vestingShares = 0 ∧ a.proxiedVsfVotes = [0, 0, 0, 0] := by
    intro a ha
    rcases List.mem_append.mp ha with ha | ha
    · simp only [List.mem_cons, List.not_mem_nil, or_false] at ha
      rcases ha with rfl | rfl | rfl | rfl | rfl <;> exact ⟨rfl, rfl⟩
    · obtain ⟨i, -, rfl⟩ := List.mem_map.mp ha
      exact ⟨rfl, rfl⟩
  have hinflow : ∀ r name level, inflow 0 r name level = 0 := by
    intro r name level
    refine List.sum_eq_zero fun z hz => ?_
    obtain ⟨e, -, rfl⟩ := List.mem_map.mp hz
    exact ite_self 0
  refine ⟨⟨valid_initGenesis env initSupply, ?_, 0, ⟨fun a ha => ?_, fun w hw => ?_⟩,
    fun a ha level _ => ?_⟩, locked_initGenesis env initSupply⟩
  · rw [roll_initGenesis]
    intro e he _
    obtain ⟨row, -, rfl⟩ := List.mem_map.mp he
    exact ⟨rfl, rfl⟩
  · rw [(hzero a ha).2, List.map_congr_left fun level _ => hinflow _ a.name level]
    rfl
  · obtain ⟨i, -, rfl⟩ := List.mem_map.mp hw
    refine (List.sum_eq_zero fun z hz => ?_).symm
    obtain ⟨e, -, rfl⟩ := List.mem_map.mp hz
    exact ite_self 0
  · simp only [passed, (hzero a ha).1, (hzero a ha).2, Pi.zero_apply, add_zero]
    rcases level with _ | _ | _ | _ | _ | level <;> rfl

/-- In every block of a run the checks are made, and the proxies that have no size are
empty. -/
structure Named (calls : List BlockCall) : Prop where
  checked : ∀ call ∈ calls, Checked call.skip
  proxies : ∀ call ∈ calls, ∀ trx ∈ call.block.transactions, ∀ op ∈ trx.operations, ProxyNamed op

/-- In every reachable state with named proxies the votes are counted. -/
theorem Reaches.voting {env : Env} {initSupply : ℕ} {calls : List BlockCall} {s : ChainState}
    (hexact : env.SafeExact) (hnamed : Named calls) (h : Reaches env initSupply calls s) :
    Voting s := by
  refine h.induction (voting_initGenesis env initSupply) fun call hcall v w hv hw => ?_
  exact applyBlock_voting hexact (hnamed.checked call hcall) (hnamed.proxies call hcall) hw hv

end Runs

end Whaleshares.ElectionRun
