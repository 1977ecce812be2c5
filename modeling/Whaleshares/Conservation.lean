import Whaleshares.ChainRun
import Whaleshares.RewardLedger

/-!
# Conservation of tokens and shares

Every operation and every routine of a block keeps the balance of the books, so the
totals that `validate_invariants` compares agree in every state of a run.
-/

namespace Whaleshares.Conservation

open Config Fc Assets Protocol Objects Program Database Vesting Evaluators CommentEvaluators
  ApplyBlock Genesis ChainRun Ledger Footprint VestingLedger RewardLedger

variable {s t : ChainState} {tokens shares : ℤ}

section Operations

variable {fc : FcLib} {u : Unit}

/-- A new account with an empty purse keeps the balance. -/
theorem createAccount_balanced {f : ℕ → AccountObject} {name : AccountName}
    (hf : ∀ id, purse (f id) = Purse.new id name)
    (h : Returns (createAccount fun id => .ok (f id)) s u t)
    (hs : Balanced tokens shares (books s)) : Balanced tokens shares (books t) := by
  obtain ⟨x, hx, rfl⟩ := map_eq_ok h.update
  obtain ⟨row, hrow, -, hrows, -⟩ := Table.create_rows hx
  have hnew : purse row = Purse.new s.accounts.nextId name := by
    rw [← Except.ok.inj hrow]
    exact hf _
  have hbooks : books { s with accounts := x } =
      { books s with purses := (books s).purses ++ [Purse.new s.accounts.nextId name] } := by
    simp [books, hrows, hnew]
  rw [hbooks]
  exact hs.newPurse

/-- A comparison that holds compares the amounts. -/
theorem ge_eq_ok {a b : Asset} (h : a.ge b = .ok true) : b.amount ≤ a.amount := by
  obtain ⟨lt, hlt, h⟩ := bind_eq_ok h
  obtain ⟨_, -, hlt⟩ := bind_eq_ok hlt
  have hlt := Except.ok.inj hlt
  have h := Except.ok.inj h
  rw [← hlt] at h
  simpa using h

/-- A comparison that holds compares the amounts from the other side. -/
theorem le_eq_ok {a b : Asset} (h : a.le b = .ok true) : a.amount ≤ b.amount := by
  unfold Asset.le at h
  split at h
  next heq => rw [heq]
  next =>
    obtain ⟨_, -, h⟩ := bind_eq_ok h
    have h := Except.ok.inj h
    have hlt : a.amount < b.amount := by simpa using h
    omega

/-- A valid fee is not negative. -/
theorem accountCreate_fee_nonneg {o : AccountCreateOperation} (h : o.validate fc = .ok u) :
    0 ≤ o.fee.amount := by
  obtain ⟨_, -, h⟩ := bind_eq_ok h
  obtain ⟨_, -, h⟩ := bind_eq_ok h
  obtain ⟨_, -, h⟩ := bind_eq_ok h
  obtain ⟨_, -, h⟩ := bind_eq_ok h
  obtain ⟨_, -, h⟩ := bind_eq_ok h
  obtain ⟨ge, hge, h⟩ := bind_eq_ok h
  rw [fcAssert_eq_ok h] at hge
  exact ge_eq_ok hge

/-- The fee of a new account becomes its first shares. -/
theorem applyAccountCreate_balanced {ctx : Context} (hexact : ctx.env.SafeExact)
    {o : AccountCreateOperation} (hvalid : o.validate ctx.env.toFcLib = .ok ())
    (h : Returns (applyAccountCreate ctx o) s u t) (hs : Balanced tokens shares (books s)) :
    Balanced tokens shares (books t) := by
  obtain ⟨s₁, s₂, s₃, hpays, hcreates, hauthorizes, hvests⟩ := applyAccountCreate_parts h
  have hb₁ : Balanced (tokens + o.fee.amount) shares (books s₁) := by
    obtain ⟨a, b, -, hab, hm⟩ := modifyAccount_moves hpays
    obtain ⟨balance, hbalance, hab⟩ := bind_eq_ok hab
    have hbalance := (decrease_eq_ok hexact hbalance).1
    rw [← Except.ok.inj hab] at hm
    have hsound := hs.sound _ hm.purses.mem
    refine hm.balanced hs ⟨hsound.1, hsound.2, hsound.3, hsound.4, hsound.5⟩ rfl rfl ?_ ?_
    all_goals
      simp only [purse]
      omega
  have hbooks₃ : SameBooks s₂ s₃ :=
    (createAccountAuthority_keeps sameBooks_stepFrame.accountAuthorities _).rel _ _ _ hauthorizes
  have hb₃ := hbooks₃.balanced (createAccount_balanced (fun _ => rfl) hcreates hb₁)
  have hfee := accountCreate_fee_nonneg hvalid
  rcases hvests with ⟨-, _, h⟩ | ⟨hpos, rfl⟩
  · have hb := createVesting_balanced hexact h hb₃
    have htokens : tokens + o.fee.amount - o.fee.amount = tokens := by omega
    rwa [htokens] at hb
  · have hzero : tokens + o.fee.amount = tokens := by omega
    rwa [hzero] at hb₃

/-- A transfer takes from one account what it gives to another. -/
theorem applyTransfer_balanced (hexact : fc.SafeExact) {o : TransferOperation}
    (h : Returns (applyTransfer fc o) s u t) (hs : Balanced tokens shares (books s)) :
    Balanced tokens shares (books t) := by
  obtain ⟨source, -, h⟩ := lookup_bind h
  obtain ⟨target, -, h⟩ := lookup_bind h
  obtain ⟨_, -, h⟩ := h.lift_bind
  obtain ⟨_, -, h⟩ := h.lift_bind
  obtain ⟨_, -, h⟩ := h.lift_bind
  obtain ⟨delta, hdelta, h⟩ := h.lift_bind
  obtain ⟨_, v, hv, h⟩ := h.bind
  have hdelta := neg_amount hexact hdelta
  have hb := adjustBalance_balanced hexact h (adjustBalance_balanced hexact hv hs)
  have htokens : tokens - delta.amount - o.amount.amount = tokens := by omega
  rwa [htokens] at hb

/-- `transfer_to_vesting` keeps the balance. -/
theorem applyTransferToVesting_balanced (hexact : fc.SafeExact) {o : TransferToVestingOperation}
    (h : Returns (applyTransferToVesting fc o) s u t) (hs : Balanced tokens shares (books s)) :
    Balanced tokens shares (books t) := by
  obtain ⟨source, -, h⟩ := lookup_bind h
  obtain ⟨target, -, h⟩ := lookup_bind h
  obtain ⟨_, -, h⟩ := h.lift_bind
  obtain ⟨_, -, h⟩ := h.lift_bind
  obtain ⟨_, -, h⟩ := h.lift_bind
  obtain ⟨delta, hdelta, h⟩ := h.lift_bind
  obtain ⟨_, v, hv, h⟩ := h.bind
  obtain ⟨_, w, hw, h⟩ := h.bind
  obtain ⟨-, rfl⟩ := h.pure
  have hdelta := neg_amount hexact hdelta
  have hb := createVesting_balanced hexact hw (adjustBalance_balanced hexact hv hs)
  have htokens : tokens - delta.amount - o.amount.amount = tokens := by omega
  rwa [htokens] at hb

/-- A valid claim has no negative shares. -/
theorem claim_rewardVests_nonneg {o : ClaimRewardBalanceOperation} (h : o.validate = .ok u) :
    0 ≤ o.rewardVests.amount := by
  obtain ⟨_, -, h⟩ := bind_eq_ok h
  obtain ⟨_, -, h⟩ := bind_eq_ok h
  obtain ⟨_, -, h⟩ := bind_eq_ok h
  obtain ⟨_, -, h⟩ := bind_eq_ok h
  obtain ⟨_, hvests, h⟩ := bind_eq_ok h
  simpa using fcAssert_eq_ok hvests

/-- A claim moves no more tokens than stand behind the claimable shares. -/
theorem rewardVestingSteemToMove_le (hexact : fc.SafeExact) {o : ClaimRewardBalanceOperation}
    {a : AccountObject} {toMove : ℤ} (hsound : (purse a).Sound) (hnonneg : 0 ≤ o.rewardVests.amount)
    (hle : o.rewardVests.amount ≤ a.rewardVestingBalance)
    (h : rewardVestingSteemToMove fc o a = .ok toMove) : toMove ≤ a.rewardVestingSteem := by
  have hbalance : a.rewardVestingBalance < 2 ^ 63 := hsound.rewardVestingBalance_lt
  have hsteem : 0 ≤ a.rewardVestingSteem := hsound.rewardVestingSteem
  have hsteemLt : a.rewardVestingSteem < 2 ^ 63 := hsound.rewardVestingSteem_lt
  unfold rewardVestingSteemToMove at h
  split at h
  · rw [← Except.ok.inj h]
  · obtain ⟨share, hshare, h⟩ := bind_eq_ok h
    obtain ⟨small, hsmall, h⟩ := bind_eq_ok h
    obtain ⟨hpos, hshare⟩ := uint128Div_eq_ok hshare
    have hsmall := (toUint64_eq_ok hsmall).1
    have hmove := (hexact.stored h).1
    have hvests := uint128_of_nonneg hnonneg (by omega)
    have hvalue := uint128_of_nonneg hsteem (by omega)
    have htotal := uint128_of_nonneg (hnonneg.trans hle) (by omega)
    have hproduct : uint128Mul (uint128 o.rewardVests.amount) (uint128 a.rewardVestingSteem) ≤
        uint128 a.rewardVestingBalance * uint128 a.rewardVestingSteem := by
      refine (Nat.mod_le _ _).trans (Nat.mul_le_mul_right _ ?_)
      omega
    have hquotient : share ≤ uint128 a.rewardVestingSteem := by
      rw [hshare]
      exact Nat.div_le_of_le_mul hproduct
    omega

/-- The change of a purse that keeps what is claimable in shares keeps it for every name. -/
theorem Moves.claimable {x y p : Purse} {name : AccountName} (hm : Moves s t x y)
    (hname : y.name = x.name) (hbalance : y.rewardVestingBalance = x.rewardVestingBalance)
    (hsteem : y.rewardVestingSteem = x.rewardVestingSteem) (hp : Holds (books s).purses name p) :
    ∃ q, Holds (books t).purses name q ∧ q.rewardVestingBalance = p.rewardVestingBalance ∧
      q.rewardVestingSteem = p.rewardVestingSteem := by
  rcases hp.replaced hm.purses hname with h | ⟨rfl, h⟩
  · exact ⟨p, h, rfl, rfl⟩
  · exact ⟨y, h, hbalance, hsteem⟩

/-- A claim of shares moves them from the reward to the vesting shares. -/
theorem claimShares_purse (hexact : fc.SafeExact) {rewardVests toMove : Asset}
    {a b : AccountObject} (h : claimShares fc rewardVests toMove a = .ok b) :
    (purse b = { purse a with
      vestingShares := a.vestingShares + rewardVests.amount
      rewardVestingBalance := a.rewardVestingBalance - rewardVests.amount
      rewardVestingSteem := a.rewardVestingSteem - toMove.amount }) ∧
    a.rewardVestingBalance - rewardVests.amount < 2 ^ 63 ∧
    a.rewardVestingSteem - toMove.amount < 2 ^ 63 := by
  obtain ⟨added, hadded, h⟩ := bind_eq_ok h
  obtain ⟨balance, hbalance, h⟩ := bind_eq_ok h
  obtain ⟨steem, hsteem, h⟩ := bind_eq_ok h
  have hadded := (increase_eq_ok hexact hadded).1
  have hbalance := decrease_eq_ok hexact hbalance
  have hsteem := decrease_eq_ok hexact hsteem
  rw [← Except.ok.inj h]
  refine ⟨?_, by omega, by omega⟩
  simp only [purse, hadded, hbalance, hsteem]

/-- A claim makes shares and the tokens behind them of what was claimable. -/
theorem applyClaimRewardBalance_balanced (hexact : fc.SafeExact) {o : ClaimRewardBalanceOperation}
    (hvalid : o.validate = .ok ()) (h : Returns (applyClaimRewardBalance fc o) s u t)
    (hs : Balanced tokens shares (books s)) : Balanced tokens shares (books t) := by
  obtain ⟨acnt, hacnt, h⟩ := lookup_bind h
  obtain ⟨_, -, h⟩ := h.lift_bind
  obtain ⟨_, -, h⟩ := h.lift_bind
  obtain ⟨_, hle, h⟩ := h.lift_bind
  obtain ⟨_, hclaim, h⟩ := h.lift_bind
  obtain ⟨toMove, htoMove, h⟩ := h.lift_bind
  obtain ⟨delta, hdelta, h⟩ := h.lift_bind
  obtain ⟨_, s₁, h₁, h⟩ := h.bind
  obtain ⟨_, s₂, h₂, h⟩ := h.bind
  obtain ⟨_, s₃, h₃, h⟩ := h.bind
  obtain ⟨_, s₄, h₄, h⟩ := h.bind
  have hdelta := neg_amount hexact hdelta
  have hnonneg := claim_rewardVests_nonneg hvalid
  rw [fcAssert_eq_ok hclaim] at hle
  have hle : o.rewardVests.amount ≤ acnt.rewardVestingBalance := le_eq_ok hle
  have hholds := holds_of_find hacnt
  have hmove := rewardVestingSteemToMove_le hexact (hs.sound _ hholds.mem) hnonneg hle htoMove
  have hb₂ := adjustBalance_balanced hexact h₂ (adjustRewardBalance_balanced hexact h₁ hs)
  have htokens : tokens - delta.amount - o.rewardSteem.amount = tokens := by omega
  rw [htokens] at hb₂
  obtain ⟨a₁, -, hm₁⟩ := adjustRewardBalance_moves hexact h₁
  obtain ⟨a₂, -, hm₂⟩ := adjustBalance_moves hexact h₂
  obtain ⟨q₁, hq₁, hbalance₁, hsteem₁⟩ := Moves.claimable hm₁ rfl rfl rfl hholds
  obtain ⟨q₂, hq₂, hbalance₂, hsteem₂⟩ := Moves.claimable hm₂ rfl rfl rfl hq₁
  obtain ⟨a, b, ha, hab, hm⟩ := modifyAccount_moves h₃
  have hqa : q₂ = purse a := hq₂.unique (holds_of_find ha)
  have hbalance : a.rewardVestingBalance = acnt.rewardVestingBalance :=
    (congrArg Purse.rewardVestingBalance hqa).symm.trans (hbalance₂.trans hbalance₁)
  have hsteem : a.rewardVestingSteem = acnt.rewardVestingSteem :=
    (congrArg Purse.rewardVestingSteem hqa).symm.trans (hsteem₂.trans hsteem₁)
  have hsound := hb₂.sound _ hm.purses.mem
  have hVa : 0 ≤ a.vestingShares := hsound.vestingShares
  obtain ⟨hpurse, hbalanceLt, hsteemLt⟩ := claimShares_purse hexact hab
  obtain ⟨d, hd, rfl⟩ := modifyDgp_totals h₄
  obtain ⟨total, htotal, hd⟩ := bind_eq_ok hd
  obtain ⟨fund, hfund, hd⟩ := bind_eq_ok hd
  obtain ⟨pending, hpending, hd⟩ := bind_eq_ok hd
  obtain ⟨value, hvalue, hd⟩ := bind_eq_ok hd
  have htotal := increase_eq_ok hexact htotal
  have hfund := increase_eq_ok hexact hfund
  have hpending := decrease_eq_ok hexact hpending
  have hvalue := decrease_eq_ok hexact hvalue
  rw [hm.dgp] at htotal hfund hpending hvalue hd
  rw [hpurse] at hm
  have hbalanced : Balanced tokens shares (books { s₃ with dgp := d }) := by
    rw [← Except.ok.inj hd]
    refine hm.balanced_totals hb₂ ⟨?_, ?_, hbalanceLt, ?_, hsteemLt⟩ rfl rfl ?_ ?_ ?_ ?_ ?_ ?_
    all_goals
      simp only [purse, wls] at *
      omega
  have hbooks : SameBooks { s₃ with dgp := d } t :=
    (adjustProxiedWitnessVotes_keeps fc (sameBooks_stepFrame.toVoteFrame fc) _ _).rel _ _ _ h
  exact hbooks.balanced hbalanced

/-- A valid operation keeps the balance. -/
theorem applyOperation_balanced {ctx : Context} (hexact : ctx.env.SafeExact) {op : Operation}
    (hvalid : op.validate ctx.env.toFcLib = .ok ()) (h : Returns (applyOperation ctx op) s u t)
    (hs : Balanced tokens shares (books s)) : Balanced tokens shares (books t) := by
  have hquiet := sameBooks_stepFrame.toQuietFrame
  have hvote := sameBooks_stepFrame.toVoteFrame ctx.env.toFcLib
  have hwitness : AllowsNewcomer SameBooks := fun _ _ _ _ _ _ _ _ => rfl
  have hkeeps : Keeps SameBooks (applyOperation ctx op) → Balanced tokens shares (books t) :=
    fun hk => SameBooks.balanced (hk.rel _ _ _ h) hs
  by_cases hplain : isPlain op = true
  · exact hkeeps (applyOperation_plain hquiet hplain)
  cases op with
  | transfer o => exact applyTransfer_balanced hexact h hs
  | transferToVesting o => exact applyTransferToVesting_balanced hexact h hs
  | accountCreate o => exact applyAccountCreate_balanced hexact hvalid h hs
  | accountUpdate o => exact hkeeps (applyAccountUpdate_keeps hquiet sameBooks_stepFrame.accountAuthorities o)
  | witnessUpdate o => exact hkeeps (applyWitnessUpdate_keeps hquiet hwitness ctx o)
  | accountWitnessVote o => exact hkeeps (applyAccountWitnessVote_keeps hvote o)
  | accountWitnessProxy o => exact hkeeps (applyAccountWitnessProxy_keeps hvote o)
  | claimRewardBalance o => exact applyClaimRewardBalance_balanced hexact hvalid h hs
  | _ => exact absurd rfl hplain

end Operations

section Blocks

variable {ctx : Context} {u : Unit}

/-- The books of a state agree. -/
def InBalance (s : ChainState) : Prop := Balanced 0 0 (books s)

/-- What the footprint leaves alone keeps the balance. -/
theorem inBalance_stepFrame : StepFrame (Preserves InBalance) :=
  sameBooks_stepFrame.mono fun _ _ hbooks hs => SameBooks.balanced hbooks hs

/-- A transaction keeps the balance. -/
theorem applyTransaction_balanced (hexact : ctx.env.SafeExact) (hvalidate : ctx.skip.validate = false)
    (trx : SignedTransaction) : Keeps (Preserves InBalance) (applyTransaction ctx trx) := by
  constructor
  intro s r t h hs
  obtain ⟨_, hvalid, h⟩ := h.lift_bind
  obtain ⟨_, -, h⟩ := h.gets_bind.lift_bind
  obtain ⟨_, -, h⟩ := h.lift_bind
  obtain ⟨_, -, h⟩ := h.lift_bind
  obtain ⟨_, v, hv, h⟩ := h.bind
  rw [hvalidate, if_neg Bool.false_ne_true] at hvalid
  obtain ⟨_, -, hvalid⟩ := bind_eq_ok hvalid
  have hops := forM_eq_ok hvalid
  have hbooks : SameBooks s v :=
    (Keeps.whenever (createTransaction_keeps sameBooks_stepFrame.toQuietFrame _)).rel _ _ _ hv
  refine h.forEach (hbooks.balanced hs) fun op hop x y hx hy => ?_
  exact applyOperation_balanced hexact (hops op hop) hy hx

/-- Every accepted block keeps the balance. -/
theorem applyBlock_balanced (hexact : ctx.env.SafeExact) (hvalidate : ctx.skip.validate = false)
    {b : SignedBlock} (h : Returns (applyBlock ctx b) s u t) (hs : InBalance s) : InBalance t := by
  obtain ⟨_, s₁, h₁, h⟩ := h.bind
  obtain ⟨_, s₂, h₂, h⟩ := h.bind
  obtain ⟨_, s₃, h₃, h⟩ := h.bind
  obtain ⟨_, s₄, h₄, h⟩ := h.bind
  obtain ⟨_, s₅, h₅, h⟩ := h.bind
  obtain ⟨_, s₆, h₆, h⟩ := h.bind
  obtain ⟨_, s₇, h₇, h⟩ := h.bind
  obtain ⟨_, s₈, h₈, h⟩ := h.bind
  have hb₁ := (applyBlockFront_keeps ctx inBalance_stepFrame.toHeaderFrame b fun trx _ =>
    applyTransaction_balanced hexact hvalidate trx).rel _ _ _ h₁ hs
  have hb₂ := (createBlockSummary_keeps ctx inBalance_stepFrame.blockSummaries b).rel _ _ _ h₂ hb₁
  have hb₃ := (clearExpiredTransactions_keeps inBalance_stepFrame.toQuietFrame).rel _ _ _ h₃ hb₂
  have hb₄ := (updateWitnessSchedule_keeps inBalance_stepFrame.toScheduleFrame.toRoundFrame.toTurnFrame).rel _ _ _ h₄ hb₃
  have hb₅ := clearNullAccountBalance_balanced hexact h₅ hb₄
  have hb₆ := processFunds_balanced hexact h₆ hb₅
  have hb₇ := processCommentCashout_balanced hexact h₇ hb₆
  have hb₈ := processVestingWithdrawals_balanced hexact h₈ hb₇
  have hkeeps : Keeps (Preserves InBalance) processHardforks := processHardforks_keeps
  exact hkeeps.rel _ _ _ h hb₈

/-- The genesis state is in balance. -/
theorem inBalance_initGenesis (env : Env) (initSupply : ℕ) : InBalance (initGenesis env initSupply) := by
  have hzero : (0 : ℤ) < 2 ^ 63 := by decide
  constructor
  · simp only [Books.sum, books, initGenesis, genesisAccounts, genesisProperties, totals,
      wlsMaxWitnesses, List.range_succ, List.range_zero]
    simp [genesisRewardFund, purse]
  · rfl
  · rfl
  · rfl
  · intro p hp
    obtain ⟨a, ha, rfl⟩ := List.mem_map.mp hp
    have hamounts : a.vestingShares = 0 ∧ a.rewardVestingBalance = 0 ∧ a.rewardVestingSteem = 0 := by
      simp only [initGenesis, genesisAccounts] at ha
      rcases List.mem_append.mp ha with ha | ha
      · simp only [List.mem_cons, List.not_mem_nil, or_false] at ha
        rcases ha with rfl | rfl | rfl | rfl | rfl <;> exact ⟨rfl, rfl, rfl⟩
      · obtain ⟨i, -, rfl⟩ := List.mem_map.mp ha
        exact ⟨rfl, rfl, rfl⟩
    constructor <;> simp [purse, hamounts]
  · exact hzero
  · exact hzero

/-- Every reachable state is in balance. -/
theorem Reaches.inBalance {env : Env} {initSupply : ℕ} {calls : List BlockCall}
    (hexact : env.SafeExact) (hvalidate : ∀ call ∈ calls, call.skip.validate = false)
    (h : Reaches env initSupply calls s) : InBalance s := by
  refine h.induction (inBalance_initGenesis env initSupply) fun call hcall v w hv hw => ?_
  exact applyBlock_balanced hexact (hvalidate call hcall) hw hv

end Blocks

/-- The equations of `validate_invariants` hold in every state that accepted blocks reach
from `init_genesis`. -/
theorem totals_agree_of_reaches {env : Env} {initSupply : ℕ} {calls : List BlockCall}
    {s : ChainState} (hexact : env.SafeExact)
    (hvalidate : ∀ call ∈ calls, call.skip.validate = false)
    (h : Reaches env initSupply calls s) :
    s.dgp.currentSupply = (s.accounts.rows.map (·.balance)).sum +
      (s.accounts.rows.map (·.rewardSteemBalance)).sum +
      (s.rewardFunds.rows.map (·.rewardBalance)).sum + s.dgp.totalVestingFundSteem +
      s.dgp.totalRewardFundSteem + s.dgp.pendingRewardedVestingSteem ∧
    s.dgp.totalVestingShares + s.dgp.pendingRewardedVestingShares =
      (s.accounts.rows.map (·.vestingShares)).sum +
      (s.accounts.rows.map (·.rewardVestingBalance)).sum ∧
    s.dgp.pendingRewardedVestingSteem = (s.accounts.rows.map (·.rewardVestingSteem)).sum := by
  have hbalanced : Balanced 0 0 (books s) := Reaches.inBalance hexact hvalidate h
  have hsum : ∀ amount : Purse → ℤ,
      (books s).sum amount = (s.accounts.rows.map fun a => amount (purse a)).sum := by
    intro amount
    simp only [Books.sum, books, List.map_map]
    rfl
  have hsupply := hbalanced.currentSupply
  have hshares := hbalanced.totalVestingShares
  have hpending := hbalanced.pendingShares
  have hsteem := hbalanced.pendingSteem
  rw [hsum] at hshares hpending hsteem
  rw [hsum, hsum] at hsupply
  simp only [books, totals, purse] at hsupply hshares hpending hsteem
  refine ⟨?_, ?_, ?_⟩ <;> omega

/-- The first miner burns some tokens and turns others into shares. -/
def burnAndVest : SignedTransaction where
  refBlockNum := 0
  refBlockPrefix := 0
  expiration := wlsGenesisTime + 60
  operations :=
    [.transfer { source := initMinerName 0, target := nullAccount, amount := wls 100, memo := [] },
      .transferToVesting { source := initMinerName 0, target := .empty, amount := wls 200 }]
  signatures := [⟨0⟩]

/-- After burning and vesting the totals of the instance agree. -/
theorem totals_agree_of_reaches_burnAndVest :
    ∃ s, Reaches sampleEnv 1000000
        ((List.range 3).map fun n => sampleCall (sampleChain [burnAndVest] n)) s ∧
      0 < s.dgp.totalVestingShares ∧
      s.dgp.currentSupply = (s.accounts.rows.map (·.balance)).sum +
        (s.accounts.rows.map (·.rewardSteemBalance)).sum +
        (s.rewardFunds.rows.map (·.rewardBalance)).sum + s.dgp.totalVestingFundSteem +
        s.dgp.totalRewardFundSteem + s.dgp.pendingRewardedVestingSteem := by
  have hends : endsIn (runBlocks sampleEnv
      ((List.range 3).map fun n => sampleCall (sampleChain [burnAndVest] n)))
      (initGenesis sampleEnv 1000000) (fun _ s => decide (0 < s.dgp.totalVestingShares)) = true := by
    decide +kernel
  obtain ⟨_, s, hs, hshares⟩ := returns_of_endsIn hends
  have hvalidate : ∀ call ∈ (List.range 3).map fun n => sampleCall (sampleChain [burnAndVest] n),
      call.skip.validate = false := by
    intro call hcall
    obtain ⟨n, -, rfl⟩ := List.mem_map.mp hcall
    rfl
  exact ⟨s, hs, of_decide_eq_true hshares, (totals_agree_of_reaches sampleEnv_safeExact hvalidate hs).1⟩

end Whaleshares.Conservation
