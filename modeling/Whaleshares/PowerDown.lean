import Whaleshares.Participation
import Whaleshares.WithdrawalLoop

/-!
# A power-down completes exactly

A request to withdraw `N` shares fixes a rate `r`, a thirteenth of `N` or one share. From then
on `process_vesting_withdrawals` takes `r` shares at a time, and in the end what is left. Until
another request the account never has fewer shares than are still to be withdrawn, so no
withdrawal is cut short: all that takes shares from an account is its own withdrawals, and the
burning of what the null account holds, for which nobody can act.
-/

namespace Whaleshares.PowerDown

open Config Fc Assets Protocol Objects Program Database WitnessVotes Vesting Rewards Evaluators
  CommentEvaluators ApplyBlock Genesis ChainRun Footprint Ledger VestingLedger Conservation
  Sidelines LabelledRun Timeline SlotClock WithdrawalLoop

section Growth

variable {env : Env} {fc : FcLib} {ctx : Context} {name : AccountName} {s t : ChainState} {u : Unit}

/-- The account of a name loses no shares. -/
def Gains (name : AccountName) (s t : ChainState) : Prop :=
  ∀ p, Holds (books s).purses name p →
    ∃ q, Holds (books t).purses name q ∧ p.vestingShares ≤ q.vestingShares

instance (name : AccountName) : IsPreorder ChainState (Gains name) where
  refl _ p h := ⟨p, h, le_refl _⟩
  trans _ _ _ hst htu p h := by
    obtain ⟨q, hq, hpq⟩ := hst p h
    obtain ⟨r, hr, hqr⟩ := htu q hq
    exact ⟨r, hr, hpq.trans hqr⟩

/-- Where no name loses shares, this one loses none. -/
theorem gains_of_grows (h : Grows s t) : Gains name s t := h name

/-- What the footprint leaves alone takes no shares. -/
theorem gains_stepFrame (name : AccountName) : StepFrame (Gains name) :=
  sameBooks_stepFrame.mono fun _ _ h => SameBooks.grows h name

/-- New global properties take no shares. -/
theorem gains_dgp (s : ChainState) (d : DynamicGlobalPropertyObject) :
    Gains name s { s with dgp := d } :=
  fun p h => ⟨p, h, le_refl _⟩

/-- A change of the global properties takes no shares. -/
theorem modifyDgp_gains {f : DynamicGlobalPropertyObject → Except Exc DynamicGlobalPropertyObject}
    (h : Returns (modifyDgp f) s u t) : Gains name s t := by
  obtain ⟨d, -, rfl⟩ := map_eq_ok h.update
  exact gains_dgp s d

/-- Rewards leave the stakes of accounts alone. -/
theorem gains_rewardFrame (name : AccountName) : RewardFrame (Gains name) where
  toQuietFrame := (gains_stepFrame name).toQuietFrame
  rewardAccounts s x hx _ p hp := by
    have hview : x.rows.map (fun a => ((purse a).name, (purse a).vestingShares)) =
        s.accounts.rows.map fun a => ((purse a).name, (purse a).vestingShares) :=
      map_eq_of_map_eq (fun c => (c.2.1, c.2.2.2.2.2)) (fun _ => rfl) hx
    have hpurses : (x.rows.map purse).map (fun p => (p.name, p.vestingShares)) =
        (s.accounts.rows.map purse).map fun p => (p.name, p.vestingShares) := by
      rw [List.map_map, List.map_map]
      exact hview
    have hfind := Table.find_map_congr (p := fun p => decide (p.name = name)) hpurses
      fun a b hab => by rw [(Prod.mk.inj hab).1]
    unfold Holds books at hp
    rw [hp] at hfind
    obtain ⟨q, hq, hqp⟩ := Option.map_eq_some_iff.mp hfind
    exact ⟨q, hq, (Prod.mk.inj hqp).2.ge⟩
  rewardFunds _ _ p h := ⟨p, h, le_refl _⟩
  rewardTotals s d _ _ := gains_dgp s d

/-- An adjusted balance takes no shares. -/
theorem adjustBalance_gains {p : AccountObject → Bool} {delta : Asset} :
    Keeps (Gains name) (adjustBalance fc p delta) := by
  refine modifyRewards_keeps (gains_rewardFrame name) fun a b h => ?_
  split at h
  · obtain ⟨x, -, h⟩ := bind_eq_ok h
    rw [← Except.ok.inj h]
    rfl
  · cases h

/-- An adjusted reward balance takes no shares. -/
theorem adjustRewardBalance_gains {p : AccountObject → Bool} {delta : Asset} :
    Keeps (Gains name) (adjustRewardBalance fc p delta) := by
  refine modifyRewards_keeps (gains_rewardFrame name) fun a b h => ?_
  split at h
  · obtain ⟨x, -, h⟩ := bind_eq_ok h
    rw [← Except.ok.inj h]
    rfl
  · cases h

/-- New shares go to an account. -/
theorem createVesting_gains (hexact : fc.SafeExact) (target : AccountName) (steem : Asset) :
    Keeps (Gains name) (createVesting fc target steem false) := by
  constructor
  intro s r t h
  obtain ⟨price, -, h⟩ := h.gets_bind.lift_bind
  obtain ⟨shares, hshares, h⟩ := h.lift_bind
  obtain ⟨_, v, hv, h⟩ := h.bind
  obtain ⟨_, w, hw, h⟩ := h.bind
  obtain ⟨_, x, hx, h⟩ := h.bind
  obtain ⟨-, rfl⟩ := h.pure
  obtain ⟨a, b, -, hab, hm⟩ := modifyAccount_moves hv
  have hpurse := creditVesting_shares hexact hab
  have hnonneg := times_nonneg hexact hshares
  have hcredit : Gains name s v := by
    refine gains_of_grows (hm.grows (by rw [hpurse]) ?_)
    rw [hpurse]
    change a.vestingShares ≤ a.vestingShares + shares.amount
    omega
  have hvotes : Gains name w t := (Keeps.whenever (adjustProxiedWitnessVotes_keeps fc
    ((gains_stepFrame name).toVoteFrame fc) _ _)).rel _ _ _ hx
  have htotals : Gains name v w := modifyDgp_gains hw
  exact Trans.trans hcredit (Trans.trans htotals hvotes)

/-- `transfer_to_vesting` takes no shares. -/
theorem applyTransferToVesting_gains (hexact : fc.SafeExact) (o : TransferToVestingOperation) :
    Keeps (Gains name) (applyTransferToVesting fc o) :=
  .bind (lookup_keeps _ _) fun _ => .bind (lookup_keeps _ _) fun _ => .bind (.lift _) fun _ =>
    .bind (.lift _) fun _ => .bind (.lift _) fun _ => .bind (.lift _) fun _ =>
    .bind adjustBalance_gains fun _ => .bind (createVesting_gains hexact _ _) fun _ => .pure _

/-- `transfer` takes no shares. -/
theorem applyTransfer_gains (o : TransferOperation) : Keeps (Gains name) (applyTransfer fc o) :=
  .bind (lookup_keeps _ _) fun _ => .bind (lookup_keeps _ _) fun _ => .bind (.lift _) fun _ =>
    .bind (.lift _) fun _ => .bind (.lift _) fun _ => .bind (.lift _) fun _ =>
    .bind adjustBalance_gains fun _ => adjustBalance_gains

/-- A new account takes no shares from the others. -/
theorem createAccount_gains (f : ℕ → Except Exc AccountObject) :
    Keeps (Gains name) (createAccount f) := by
  refine replace_keeps fun s x hx p hp => ⟨p, ?_, le_refl _⟩
  obtain ⟨a, -, -, hrows, -⟩ := Table.create_rows hx
  unfold Holds books at hp ⊢
  change (x.rows.map purse).find? _ = _
  rw [hrows, List.map_append, List.find?_append, hp]
  rfl

/-- `account_create` takes no shares. -/
theorem applyAccountCreate_gains (hexact : ctx.env.SafeExact) (o : AccountCreateOperation) :
    Keeps (Gains name) (applyAccountCreate ctx o) := by
  have hauthority : AllowsAuthorities (Gains name) := fun _ _ p h => ⟨p, h, le_refl _⟩
  refine .bind (.lift _) fun _ => .bind (lookup_keeps _ _) fun _ => .bind (.lift _) fun _ =>
    .bind (.lift _) fun _ => .bind (.gets _) fun _ => .bind (.lift _) fun _ =>
    .bind (.lift _) fun _ => .bind (checkAccountAuths_keeps _) fun _ =>
    .bind (checkAccountAuths_keeps _) fun _ => .bind (checkAccountAuths_keeps _) fun _ =>
    .bind (modifyRewards_keeps (gains_rewardFrame name) fun a b hab => ?_) fun _ =>
    .bind (.gets _) fun _ => .bind (createAccount_gains _) fun _ =>
    .bind (createAccountAuthority_keeps hauthority _) fun _ =>
    .whenever (.bind (createVesting_gains hexact _ _) fun _ => .pure _)
  obtain ⟨_, -, hab⟩ := bind_eq_ok hab
  rw [← Except.ok.inj hab]
  rfl

/-- A claim adds the claimed shares. -/
theorem applyClaimRewardBalance_gains (hexact : fc.SafeExact) {o : ClaimRewardBalanceOperation}
    (hnonneg : 0 ≤ o.rewardVests.amount) :
    Keeps (Gains name) (applyClaimRewardBalance fc o) := by
  have hclaim : ∀ toMove, Keeps (Gains name)
      (modifyAccount (named o.account) (claimShares fc o.rewardVests toMove)) := by
    intro toMove
    constructor
    intro s r t h
    obtain ⟨a, b, -, hab, hm⟩ := modifyAccount_moves h
    obtain ⟨shares, hshares, hab⟩ := bind_eq_ok hab
    obtain ⟨_, -, hab⟩ := bind_eq_ok hab
    obtain ⟨_, -, hab⟩ := bind_eq_ok hab
    have hshares := (increase_eq_ok hexact hshares).1
    rw [← Except.ok.inj hab] at hm
    refine gains_of_grows (hm.grows rfl ?_)
    change a.vestingShares ≤ shares
    omega
  exact .bind (lookup_keeps _ _) fun _ => .bind (.lift _) fun _ => .bind (.lift _) fun _ =>
    .bind (.lift _) fun _ => .bind (.lift _) fun _ => .bind (.lift _) fun _ =>
    .bind (.lift _) fun _ => .bind adjustRewardBalance_gains fun _ =>
    .bind adjustBalance_gains fun _ => .bind (hclaim _) fun _ =>
    .bind ⟨fun _ _ _ h => modifyDgp_gains h⟩ fun _ =>
    adjustProxiedWitnessVotes_keeps fc ((gains_stepFrame name).toVoteFrame fc) _ _

/-- The funds of a block take no shares. -/
theorem processFunds_gains (hexact : fc.SafeExact) : Keeps (Gains name) (processFunds fc) := by
  have hframe := gains_rewardFrame name
  refine .bind (.gets _) fun _ => .bind (.gets _) fun _ => .bind (.lift _) fun _ =>
    .bind (.lift _) fun _ => .bind (.lift _) fun _ => .bind (.gets _) fun _ =>
    .bind (payRewardFunds_keeps fc hframe _ _ _) fun _ => .bind (.lift _) fun _ =>
    .bind (.lift _) fun _ => .bind (.lift _) fun _ => .bind (lookup_keeps _ _) fun _ =>
    .bind (.lift _) fun _ => .bind (.lift _) fun _ => .bind (.lift _) fun _ =>
    .bind ⟨fun _ _ _ h => modifyDgp_gains h⟩ fun _ =>
    .bind (createVesting_gains hexact _ _) fun _ => modifyRewards_keeps hframe fun a b hab => ?_
  obtain ⟨_, -, hab⟩ := bind_eq_ok hab
  rw [← Except.ok.inj hab]
  rfl

/-- What is taken from one account is no other's. -/
theorem modifyOther_gains {other : AccountName} (hne : other ≠ name)
    {f : AccountObject → Except Exc AccountObject} (hf : ∀ a b, f a = .ok b → b.name = a.name) :
    Keeps (Gains name) (modifyAccount (named other) f) := by
  constructor
  intro s r t h p hp
  obtain ⟨a, b, ha, hab, hm⟩ := modifyAccount_moves h
  have hother : a.name = other := by
    have hnamed : named other a = true := List.find?_some ha
    simpa [named] using hnamed
  rcases hp.replaced hm.purses (hf a b hab) with hp' | ⟨rfl, -⟩
  · exact ⟨p, hp', le_refl _⟩
  · have hsame : (purse a).name = name := by simpa using List.find?_some hp
    exact absurd (hother.symm.trans hsame) hne

/-- A change of the null account takes no shares from another name. -/
theorem setNull_gains (hname : name ≠ nullAccount) {f : AccountObject → AccountObject}
    (hf : ∀ a, (f a).name = a.name) :
    Keeps (Gains name) (modifyAccount (named nullAccount) fun a => .ok (f a)) := by
  refine modifyOther_gains hname.symm fun a b hab => ?_
  rw [← Except.ok.inj hab]
  exact hf a

/-- Burning what the null account holds takes no shares from another name. -/
theorem clearNullAccountBalance_gains (hname : name ≠ nullAccount) :
    Keeps (Gains name) (clearNullAccountBalance fc) := by
  refine .bind ?_ fun _ => .bind ?_ fun _ => .bind ?_ fun _ => .bind ?_ fun _ =>
    .whenever (.bind (.lift _) fun _ => ⟨fun _ _ _ h => modifyDgp_gains h⟩)
  · exact .bind (lookup_keeps _ _) fun a => .ite (.bind (.lift _) fun _ => .bind (.lift _) fun _ =>
      .bind adjustBalance_gains fun _ => .pure _) (.pure _)
  · exact .bind (lookup_keeps _ _) fun a => .ite (.bind (.gets _) fun _ => .bind (.lift _) fun _ =>
      .bind ⟨fun _ _ _ h => modifyDgp_gains h⟩ fun _ =>
      .bind (setNull_gains hname fun _ => by rfl) fun _ =>
      .bind (.lift _) fun _ => .pure _) (.pure _)
  · exact .bind (lookup_keeps _ _) fun a => .ite (.bind (.lift _) fun _ => .bind (.lift _) fun _ =>
      .bind adjustRewardBalance_gains fun _ => .pure _) (.pure _)
  · exact .bind (lookup_keeps _ _) fun a => .ite (.bind (.lift _) fun _ =>
      .bind ⟨fun _ _ _ h => modifyDgp_gains h⟩ fun _ =>
      .bind (setNull_gains hname fun _ => by rfl) fun _ => .pure _) (.pure _)

/-- No operation takes shares from an account. -/
theorem applyOperation_gains (hexact : ctx.env.SafeExact) {op : Operation}
    (hvalid : op.validate ctx.env.toFcLib = .ok ()) :
    Keeps (Gains name) (applyOperation ctx op) := by
  have hquiet := (gains_stepFrame name).toQuietFrame
  have hvote := (gains_stepFrame name).toVoteFrame ctx.env.toFcLib
  by_cases hplain : isPlain op = true
  · exact applyOperation_plain hquiet hplain
  cases op with
  | transfer o => exact applyTransfer_gains o
  | transferToVesting o => exact applyTransferToVesting_gains hexact o
  | accountCreate o => exact applyAccountCreate_gains hexact o
  | accountUpdate o =>
    exact applyAccountUpdate_keeps hquiet (fun _ _ p h => ⟨p, h, le_refl _⟩) o
  | witnessUpdate o =>
    exact applyWitnessUpdate_keeps hquiet (fun _ _ _ _ _ _ _ _ p h => ⟨p, h, le_refl _⟩) ctx o
  | accountWitnessVote o => exact applyAccountWitnessVote_keeps hvote o
  | accountWitnessProxy o => exact applyAccountWitnessProxy_keeps hvote o
  | claimRewardBalance o =>
    exact applyClaimRewardBalance_gains hexact (claim_rewardVests_nonneg hvalid)
  | _ => exact absurd rfl hplain

/-- The routes into shares take none from their targets. -/
theorem depositAsVests_gains (hexact : fc.SafeExact) (toWithdraw deposited : ℤ)
    (routes : List WithdrawVestingRouteObject) :
    Keeps (Gains name) (depositAsVests fc toWithdraw deposited routes) := by
  have hvotes := (gains_stepFrame name).toVoteFrame fc
  have hdeposit : ∀ p deposit, 0 < deposit →
      Keeps (Gains name) (modifyAccount p (depositShares fc deposit)) := by
    intro p deposit hpos
    constructor
    intro s r t h
    obtain ⟨a, b, -, hab, hm⟩ := modifyAccount_moves h
    obtain ⟨sum, hsum, hab⟩ := bind_eq_ok hab
    have hsum := (hexact.checked hsum).1
    rw [← Except.ok.inj hab] at hm
    refine gains_of_grows (hm.grows rfl ?_)
    change a.vestingShares ≤ sum
    omega
  induction routes generalizing deposited with
  | nil => exact .pure _
  | cons route rest ih =>
    refine .ite (.bind (.lift _) fun deposit => .bind (.lift _) fun deposited =>
      .bind ⟨fun s r t h => ?_⟩ fun _ => ih deposited) (ih deposited)
    rcases h.whenever with ⟨hpos, h⟩ | ⟨-, rfl⟩
    · obtain ⟨target, -, h⟩ := lookup_bind h
      obtain ⟨_, u, hu, h⟩ := h.bind
      have hfirst : Gains name s u := (hdeposit _ _ hpos).rel _ _ _ hu
      have hlast : Gains name u t := (adjustProxiedWitnessVotes_keeps fc hvotes _ _).rel _ _ _ h
      exact Trans.trans hfirst hlast
    · exact Std.Refl.refl t

/-- The routes into tokens take no shares. -/
theorem depositAsSteem_gains (toWithdraw deposited steem : ℤ)
    (routes : List WithdrawVestingRouteObject) :
    Keeps (Gains name) (depositAsSteem fc toWithdraw deposited steem routes) := by
  have hbalance : ∀ p converted,
      Keeps (Gains name) (modifyAccount p (depositBalance fc converted)) := by
    refine fun p converted => modifyRewards_keeps (gains_rewardFrame name) fun a b hab => ?_
    obtain ⟨x, -, hab⟩ := bind_eq_ok hab
    rw [← Except.ok.inj hab]
    rfl
  induction routes generalizing deposited steem with
  | nil => exact .pure _
  | cons route rest ih =>
    exact .ite (ih deposited steem) (.bind (lookup_keeps _ _) fun _ => .bind (.lift _) fun deposit =>
      .bind (.lift _) fun deposited => .bind (.gets _) fun _ => .bind (.lift _) fun _ =>
      .bind (.lift _) fun steem => .bind (.whenever (.bind (hbalance _ _) fun _ =>
      ⟨fun _ _ _ h => modifyDgp_gains h⟩)) fun _ => ih deposited steem)

/-- The upkeep of a block besides the burning takes no shares. -/
theorem upkeep_gains (hexact : env.SafeExact) {m : Chain Unit} (hm : Upkeep env m) :
    Keeps (Gains name) m :=
  have hframe := gains_stepFrame name
  hm.keeps hframe.toHeaderFrame hframe.toScheduleFrame.toRoundFrame.toTurnFrame
    (processFunds_gains hexact)

end Growth

section Rest

variable {env : Env} {fc : FcLib} {name : AccountName} {s t : ChainState}

/-- An account keeps its power-down, and loses no shares. -/
structure Rests (name : AccountName) (s t : ChainState) : Prop where
  same : Untouched powerDown Idle name s t
  gains : Gains name s t

instance (name : AccountName) : IsPreorder ChainState (Rests name) where
  refl s := ⟨Std.Refl.refl s, Std.Refl.refl s⟩
  trans _ _ _ hst htu := ⟨Trans.trans hst.same htu.same, Trans.trans hst.gains htu.gains⟩

/-- What neither touches the power-down nor takes shares lets it rest. -/
theorem rests_keeps {α : Type} {m : Chain α}
    (hsame : Keeps (Untouched powerDown Idle name) m) (hgains : Keeps (Gains name) m) :
    Keeps (Rests name) m :=
  ⟨fun s r t h => ⟨hsame.rel s r t h, hgains.rel s r t h⟩⟩

/-- The account of a name after it rested. -/
theorem Rests.account (h : Rests name s t) {a : AccountObject}
    (ha : s.accounts.find (named name) = some a) :
    ∃ b, t.accounts.find (named name) = some b ∧ powerDown b = powerDown a ∧
      a.vestingShares ≤ b.vestingShares := by
  have hview : viewOf powerDown s name = some (powerDown a) := congrArg (Option.map powerDown) ha
  obtain ⟨b, hb, hdown⟩ := Option.map_eq_some_iff.mp (h.same.eq_some hview)
  obtain ⟨q, hq, hle⟩ := h.gains _ (holds_of_find ha)
  have hqb : q = purse b := hq.unique (holds_of_find hb)
  rw [hqb] at hle
  exact ⟨b, hb, hdown, hle⟩

/-- The withdrawal of an account, without the end. -/
theorem withdrawal_finishes (name : AccountName) (hexact : fc.SafeExact) {source : AccountObject} {r : Unit}
    (h : Returns (processVestingWithdrawal fc source) s r t) :
    ∃ toWithdraw converted u v, withdrawalOf fc source = .ok toWithdraw ∧ Rests name s u ∧
      Returns (modifyAccount (named source.name) (finishWithdrawal fc toWithdraw converted)) u () v ∧
      Rests name v t := by
  have hside := untouched_conduct name
  refine processVestingWithdrawal_finishes fc (fun _ _ => ?_) (fun _ _ => ?_) (fun _ => ?_)
    (fun _ _ => ?_) h
  · exact rests_keeps (depositAsVests_aside fc hside _ _ _) (depositAsVests_gains hexact _ _ _)
  · exact rests_keeps (depositAsSteem_aside fc hside _ _ _ _) (depositAsSteem_gains _ _ _ _)
  · exact rests_keeps (modifyDgp_aside hside _) ⟨fun _ _ _ h => modifyDgp_gains h⟩
  · exact rests_keeps (adjustProxiedWitnessVotes_aside fc hside _ _)
      (adjustProxiedWitnessVotes_keeps fc ((gains_stepFrame name).toVoteFrame fc) _ _)

/-- A change of another account lets the power-down rest. -/
theorem modifyOther_rests {other : AccountName} (hne : other ≠ name)
    {f : AccountObject → Except Exc AccountObject} (hf : ∀ a b, f a = .ok b → b.name = a.name) :
    Keeps (Rests name) (modifyAccount (named other) f) :=
  rests_keeps ⟨fun _ _ _ h => modifyAccount_untouched hf hne h⟩ (modifyOther_gains hne hf)

/-- The withdrawal of another account. -/
theorem otherWithdrawal_rests (hexact : fc.SafeExact) {source : AccountObject}
    (hne : source.name ≠ name) : Keeps (Rests name) (processVestingWithdrawal fc source) := by
  constructor
  intro s r t h
  obtain ⟨_, _, u, v, -, hsu, huv, hvt⟩ := withdrawal_finishes name hexact h
  have hfinish : Rests name u v := (modifyOther_rests hne finishWithdrawal_name).rel _ _ _ huv
  exact Trans.trans hsu (Trans.trans hfinish hvt)

/-- The step is no request of the account to withdraw, and no withdrawal of it. -/
def Unrelated (name : AccountName) : Event → Prop
  | .operation (.withdrawVesting o) => o.account ≠ name
  | .withdrawal source => source.name ≠ name
  | _ => True

/-- In a step that is no request and no withdrawal of it an account keeps its power-down. -/
theorem step_untouched {m : Step} (h : Occurs env m.event m.before m.after)
    (hunrelated : Unrelated name m.event) : Untouched powerDown Idle name m.before m.after := by
  obtain ⟨s, event, t⟩ := m
  have hside := untouched_conduct name
  cases h with
  | operation ctx henv op hvalid hnull h =>
    cases op with
    | withdrawVesting o =>
      have hne : o.account ≠ name := hunrelated
      obtain ⟨_, -, h⟩ := lookup_bind h
      obtain ⟨_, -, h⟩ := h.gets_bind.gets_bind.lift_bind
      split at h
      · obtain ⟨_, -, h⟩ := h.lift_bind
        exact modifyAccount_untouched (fun a b hab => by rw [← Except.ok.inj hab]; rfl) hne h
      · refine modifyAccount_untouched (fun a b hab => ?_) hne h
        obtain ⟨_, -, hab⟩ := bind_eq_ok hab
        obtain ⟨_, -, hab⟩ := bind_eq_ok hab
        rw [← Except.ok.inj hab]
    | vote o =>
      exact (applyVote_aside _ hside (untouched_power (k := fun c => c.2.1) fun _ => rfl)
        untouched_polls untouched_commentVotes o).rel _ _ _ h
    | comment o => exact (applyComment_aside hside untouched_comments _ o).rel _ _ _ h
    | deleteComment o =>
      exact (applyDeleteComment_aside untouched_comments untouched_commentVotes o).rel _ _ _ h
    | setWithdrawVestingRoute o =>
      exact (applySetWithdrawVestingRoute_aside
        (untouched_routes (k := fun c => c.2.2) fun _ => rfl) o).rel _ _ _ h
    | accountCreate o =>
      exact (applyAccountCreate_aside ctx hside
        (untouched_account (k := fun c => c.2.2.1) (fun _ => rfl) fun _ _ _ => rfl) o).rel _ _ _ h
    | _ =>
      refine (applyOperation_aside ctx hside ?_).rel _ _ _ h
      trivial
  | withdrawal hsource hdue h =>
    exact withdrawal_untouched hunrelated h
  | cashout h =>
    exact (processCommentCashout_aside _ hside untouched_polls untouched_commentVotes).rel _ _ _ h
  | burning h => exact (clearNullAccountBalance_aside _ hside).rel _ _ _ h
  | upkeep hm hlater h => exact (hm.aside hside).rel _ _ _ h

/-- Such a step takes no shares from an account either, but for the null account. -/
theorem step_rests (hexact : env.SafeExact) (hname : name ≠ nullAccount) {m : Step}
    (h : Occurs env m.event m.before m.after) (hunrelated : Unrelated name m.event) :
    Rests name m.before m.after := by
  refine ⟨step_untouched h hunrelated, ?_⟩
  obtain ⟨s, event, t⟩ := m
  cases h with
  | operation ctx henv op hvalid hnull h =>
    rw [← henv] at hexact hvalid
    exact (applyOperation_gains hexact hvalid).rel _ _ _ h
  | withdrawal hsource hdue h =>
    exact ((otherWithdrawal_rests hexact hunrelated).rel _ _ _ h).gains
  | cashout h => exact (processCommentCashout_keeps _ (gains_rewardFrame name)).rel _ _ _ h
  | burning h => exact (clearNullAccountBalance_gains hname).rel _ _ _ h
  | upkeep hm hlater h => exact (upkeep_gains hexact hm).rel _ _ _ h

end Rest

section Schedule

variable {amount : ℤ}

/-- The shares that a request to withdraw `amount` takes each time. -/
def rateOf (amount : ℤ) : ℤ := max 1 (amount / wlsVestingWithdrawIntervals)

/-- The withdrawals that follow a request to withdraw `amount`. -/
def schedule (amount : ℤ) : List ℤ :=
  List.replicate (amount / rateOf amount).toNat (rateOf amount) ++
    if amount % rateOf amount = 0 then [] else [amount % rateOf amount]

/-- A rate is positive. -/
theorem rateOf_pos (amount : ℤ) : 0 < rateOf amount := by
  unfold rateOf
  omega

/-- The number of rounds is that of the quotient. -/
theorem natCast_rounds (hpos : 0 < amount) :
    ((amount / rateOf amount).toNat : ℤ) = amount / rateOf amount :=
  Int.toNat_of_nonneg (Int.ediv_nonneg hpos.le (rateOf_pos amount).le)

/-- The withdrawals add up to the request. -/
theorem schedule_sum (hpos : 0 < amount) : (schedule amount).sum = amount := by
  have hdivision := Int.mul_ediv_add_emod amount (rateOf amount)
  unfold schedule
  rw [List.sum_append, List.sum_replicate, nsmul_eq_mul, natCast_rounds hpos, mul_comm]
  split
  next hzero =>
    rw [hzero] at hdivision
    exact hdivision
  next =>
    rw [List.sum_singleton]
    exact hdivision

/-- A quotient rounded up is one more than rounded down, where something is left. -/
theorem ediv_up {x r : ℤ} (hr : 0 < r) :
    (x + r - 1) / r = x / r + if x % r = 0 then 0 else 1 := by
  have hdivision := Int.emod_add_mul_ediv x r
  have hlow := Int.emod_nonneg x hr.ne'
  have hhigh := Int.emod_lt_of_pos x hr
  have hsplit : x + r - 1 = (x % r + r - 1) + r * (x / r) := by omega
  rw [hsplit, Int.add_mul_ediv_left _ _ hr.ne', add_comm]
  congr 1
  split
  next hzero =>
    rw [hzero]
    exact Int.ediv_eq_zero_of_lt (by omega) (by omega)
  next hrest =>
    have hone : x % r + r - 1 = (x % r - 1) + r * 1 := by omega
    rw [hone, Int.add_mul_ediv_left _ _ hr.ne', Int.ediv_eq_zero_of_lt (by omega) (by omega)]
    rfl

/-- There are as many withdrawals as the rate fits into the request, rounded up. -/
theorem schedule_length (hpos : 0 < amount) :
    ((schedule amount).length : ℤ) = (amount + rateOf amount - 1) / rateOf amount := by
  have hrounds := natCast_rounds hpos
  unfold schedule
  rw [ediv_up (rateOf_pos amount), List.length_append, List.length_replicate, Int.natCast_add,
    hrounds]
  split
  all_goals rfl

/-- Each withdrawal takes the rate, but the last may take less. -/
theorem schedule_regular (hpos : 0 < amount) :
    ∃ rounds last, schedule amount = List.replicate rounds (rateOf amount) ++ [last] ∧
      0 < last ∧ last ≤ rateOf amount := by
  have hrate := rateOf_pos amount
  have hrounds := natCast_rounds hpos
  have hdivision := Int.mul_ediv_add_emod amount (rateOf amount)
  have hlow := Int.emod_nonneg amount hrate.ne'
  have hhigh := Int.emod_lt_of_pos amount hrate
  unfold schedule
  split
  next hzero =>
    have hsome : (amount / rateOf amount).toNat ≠ 0 := by
      intro hnone
      rw [← hrounds, hnone, hzero] at hdivision
      simp only [Nat.cast_zero, mul_zero, add_zero] at hdivision
      omega
    obtain ⟨rounds, hrounds⟩ := Nat.exists_eq_succ_of_ne_zero hsome
    refine ⟨rounds, rateOf amount, ?_, hrate, le_refl _⟩
    rw [hrounds, List.append_nil]
    exact List.replicate_succ'
  next hrest => exact ⟨_, _, rfl, by omega, by omega⟩

/-- What the schedule is, from its last withdrawal. -/
theorem schedule_eq {rounds : ℕ} {last : ℤ} (hpos : 0 < last) (hle : last ≤ rateOf amount)
    (hsum : rounds * rateOf amount + last = amount) :
    schedule amount = List.replicate rounds (rateOf amount) ++ [last] := by
  have hrate := rateOf_pos amount
  rw [mul_comm] at hsum
  unfold schedule
  rcases hle.lt_or_eq with hlt | heq
  · have hsplit : last + rateOf amount * rounds = amount := by omega
    obtain ⟨hquotient, hrest⟩ := (Int.ediv_emod_unique hrate).mpr ⟨hsplit, by omega, hlt⟩
    rw [hquotient, hrest, if_neg hpos.ne', Int.toNat_natCast]
  · have hsplit : 0 + rateOf amount * (rounds + 1) = amount := by
      rw [mul_add, mul_one]
      omega
    obtain ⟨hquotient, hrest⟩ := (Int.ediv_emod_unique hrate).mpr ⟨hsplit, le_refl _, hrate⟩
    rw [hquotient, hrest, if_pos rfl, List.append_nil, heq]
    exact List.replicate_succ'

/-- How far the power-down of an account has come after a request and some withdrawals. -/
inductive Progress (amount : ℤ) (a : AccountObject) : List ℤ → Prop where
  /-- There is more to withdraw, and the account has it. -/
  | running (rounds : ℕ) (next : TimePointSec) (hmore : rounds * rateOf amount < amount)
      (hdown : powerDown a = (rateOf amount, next, rounds * rateOf amount, amount))
      (hshares : amount - rounds * rateOf amount ≤ a.vestingShares) :
      Progress amount a (List.replicate rounds (rateOf amount))
  /-- All is withdrawn; at the end of time there may be rounds that take nothing. -/
  | finished (idle : ℕ) (hdown : powerDown a = (0, timePointSecMaximum, amount, amount))
      (hshares : 0 ≤ a.vestingShares) :
      Progress amount a (schedule amount ++ List.replicate idle 0)

variable {a b : AccountObject} {taken : List ℤ}

/-- A rest with at least as many shares keeps the progress of the account. -/
theorem Progress.of_rests (h : Progress amount a taken) (hdown : powerDown b = powerDown a)
    (hshares : a.vestingShares ≤ b.vestingShares) : Progress amount b taken := by
  cases h with
  | running rounds next hmore hold hleft =>
    exact .running rounds next hmore (hdown.trans hold) (hleft.trans hshares)
  | finished idle hold hleft => exact .finished idle (hdown.trans hold) (hleft.trans hshares)

/-- The withdrawals so far are the first of the schedule, or all of it. -/
theorem Progress.onSchedule (h : Progress amount a taken) :
    taken <+: schedule amount ∨ ∃ idle, taken = schedule amount ++ List.replicate idle 0 := by
  cases h with
  | running rounds next hmore hdown hshares =>
    have hrate := rateOf_pos amount
    have hle : rounds ≤ (amount / rateOf amount).toNat := by
      have hquotient := (Int.le_ediv_iff_mul_le hrate).mpr hmore.le
      omega
    obtain ⟨rest, hrest⟩ := Nat.exists_eq_add_of_le hle
    refine .inl ?_
    unfold schedule
    rw [hrest, List.replicate_add, List.append_assoc]
    exact List.prefix_append _ _
  | finished idle hdown hshares => exact .inr ⟨idle, rfl⟩

/-- No more is left to withdraw than the account has. -/
theorem Progress.covered (h : Progress amount a taken) :
    a.toWithdraw - a.withdrawn ≤ a.vestingShares := by
  cases h with
  | running rounds next hmore hdown hshares =>
    simp only [powerDown, Prod.mk.injEq] at hdown
    obtain ⟨-, -, hwithdrawn, htotal⟩ := hdown
    rw [hwithdrawn, htotal]
    exact hshares
  | finished idle hdown hshares =>
    simp only [powerDown, Prod.mk.injEq] at hdown
    obtain ⟨-, -, hwithdrawn, htotal⟩ := hdown
    rw [hwithdrawn, htotal]
    omega

/-- When the schedule is carried out, the power-down is over. -/
theorem Progress.over (h : Progress amount a taken) (hpos : 0 < amount)
    (hall : schedule amount <+: taken) :
    a.vestingWithdrawRate = 0 ∧ a.nextVestingWithdrawal = timePointSecMaximum := by
  cases h with
  | running rounds next hmore hdown hshares =>
    -- these withdrawals do not add up to the request yet
    obtain ⟨hle, hreplicate⟩ := List.prefix_replicate_iff.mp hall
    have hsum := schedule_sum hpos
    rw [hreplicate, List.sum_replicate, nsmul_eq_mul] at hsum
    have hless : ((schedule amount).length : ℤ) * rateOf amount ≤ rounds * rateOf amount :=
      Int.mul_le_mul_of_nonneg_right (Int.ofNat_le.mpr hle) (rateOf_pos amount).le
    omega
  | finished idle hdown hshares =>
    simp only [powerDown, Prod.mk.injEq] at hdown
    exact ⟨hdown.1, hdown.2.1⟩

end Schedule

section Completion

variable {env : Env} {fc : FcLib} {name : AccountName} {amount toWithdraw : ℤ} {s t : ChainState}
  {source a b : AccountObject} {taken : List ℤ} {steps : List Step} {sources : List AccountObject}
  {turns : List (Moment ChainState Turn)}

/-- What a round takes from the account of a name. -/
def roundWithdrawal (fc : FcLib) (name : AccountName) (source : AccountObject) : List ℤ :=
  match withdrawalOf fc source with
  | .ok toWithdraw => if source.name = name then [toWithdraw] else []
  | .error _ => []

/-- What a round takes from its own account. -/
theorem roundWithdrawal_self (hname : source.name = name)
    (hwithdraw : withdrawalOf fc source = .ok toWithdraw) :
    roundWithdrawal fc name source = [toWithdraw] := by
  unfold roundWithdrawal
  rw [hwithdraw]
  exact if_pos hname

/-- A round takes nothing from another account. -/
theorem roundWithdrawal_other (hne : source.name ≠ name) : roundWithdrawal fc name source = [] := by
  unfold roundWithdrawal
  split
  · exact if_neg hne
  · rfl

/-- What a step takes from the account of a name, if it is a round. -/
def stepWithdrawals (fc : FcLib) (name : AccountName) : Event → List ℤ
  | .withdrawal source => roundWithdrawal fc name source
  | _ => []

/-- What a turn takes from the account of a name, if it is a loop: what each round takes. -/
def turnWithdrawals (fc : FcLib) (name : AccountName) : Turn → List ℤ
  | .loop sources => sources.flatMap (roundWithdrawal fc name)
  | .step _ => []

/-- The withdrawals of an account in a course. -/
def withdrawals (fc : FcLib) (name : AccountName) (turns : List (Moment ChainState Turn)) :
    List ℤ :=
  turns.flatMap fun m => turnWithdrawals fc name m.event

/-- The next withdrawal of an account in the middle of its power-down. -/
theorem withdrawalOf_running (hexact : fc.SafeExact) {rounds : ℕ} {next : TimePointSec}
    (hmore : rounds * rateOf amount < amount)
    (hdown : powerDown source = (rateOf amount, next, rounds * rateOf amount, amount))
    (hshares : amount - rounds * rateOf amount ≤ source.vestingShares)
    (h : withdrawalOf fc source = .ok toWithdraw) :
    toWithdraw = min (rateOf amount) (amount - rounds * rateOf amount) := by
  have hrate := rateOf_pos amount
  have hnonneg : 0 ≤ (rounds : ℤ) * rateOf amount :=
    Int.mul_nonneg (Int.natCast_nonneg _) hrate.le
  simp only [powerDown, Prod.mk.injEq] at hdown
  obtain ⟨hsourceRate, -, hwithdrawn, htotal⟩ := hdown
  obtain ⟨remaining, hremaining, h⟩ := bind_eq_ok h
  have hremaining := (hexact.checked hremaining).1
  rw [hwithdrawn, htotal] at hremaining
  rw [hsourceRate, htotal] at h
  split at h
  next hless =>
    obtain ⟨rest, hrest, h⟩ := bind_eq_ok h
    unfold FcLib.mod at hrest
    rw [if_neg hrate.ne'] at hrest
    have hrest := (hexact.checked hrest).1
    rw [Int.tmod_eq_emod_of_nonneg (by omega)] at hrest
    -- what is left is less than the rate, so it is the remainder of the whole
    have hsplit : remaining + rateOf amount * rounds = amount := by
      rw [mul_comm]
      omega
    have hmod := ((Int.ediv_emod_unique hrate).mpr ⟨hsplit, by omega, hless⟩).2
    rw [← Except.ok.inj h]
    omega
  next hmany =>
    rw [← Except.ok.inj h]
    omega

/-- The account after its withdrawal. -/
theorem finishWithdrawal_down (hexact : fc.SafeExact) {converted : Asset}
    (h : finishWithdrawal fc toWithdraw converted a = .ok b) :
    b.vestingShares = a.vestingShares - toWithdraw ∧
      powerDown b =
        if a.withdrawn + toWithdraw ≥ a.toWithdraw ∨ a.vestingShares - toWithdraw = 0 then
          (0, timePointSecMaximum, a.withdrawn + toWithdraw, a.toWithdraw)
        else
          (a.vestingWithdrawRate,
            TimePointSec.plus a.nextVestingWithdrawal wlsVestingWithdrawIntervalSeconds,
            a.withdrawn + toWithdraw, a.toWithdraw) := by
  obtain ⟨shares, _, withdrawn, hshares, -, hwithdrawn, rfl⟩ := finishWithdrawal_eq_ok h
  have hshares := (hexact.checked hshares).1
  have hwithdrawn := (hexact.checked hwithdrawn).1
  refine ⟨hshares, ?_⟩
  rw [← hshares, ← hwithdrawn]
  unfold powerDown
  split
  · rfl
  · rfl

/-- A withdrawal takes the power-down one step further. -/
theorem Progress.withdraws (hexact : fc.SafeExact) (h : Progress amount source taken)
    (hwithdraw : withdrawalOf fc source = .ok toWithdraw) (hsame : powerDown a = powerDown source)
    (hgains : source.vestingShares ≤ a.vestingShares) {converted : Asset}
    (hfinish : finishWithdrawal fc toWithdraw converted a = .ok b) :
    Progress amount b (taken ++ [toWithdraw]) := by
  have hrate := rateOf_pos amount
  obtain ⟨hleft, hdown⟩ := finishWithdrawal_down hexact hfinish
  cases h with
  | running rounds next hmore hold hshares =>
    have htoWithdraw := withdrawalOf_running hexact hmore hold hshares hwithdraw
    rw [hold] at hsame
    simp only [powerDown, Prod.mk.injEq] at hsame
    obtain ⟨hrateOf, -, hwithdrawn, htotal⟩ := hsame
    rw [hrateOf, hwithdrawn, htotal] at hdown
    have hnext : ((rounds + 1 : ℕ) : ℤ) * rateOf amount =
        rounds * rateOf amount + rateOf amount := by
      rw [Nat.cast_add, Nat.cast_one, add_mul, one_mul]
    by_cases hlast : amount - rounds * rateOf amount ≤ rateOf amount
    · have hall : toWithdraw = amount - rounds * rateOf amount := by omega
      rw [if_pos (.inl (by omega)), hall] at hdown
      have hwhole : rounds * rateOf amount + (amount - rounds * rateOf amount) = amount := by omega
      rw [hwhole] at hdown
      have htaken : Progress amount b (schedule amount ++ List.replicate 0 0) :=
        .finished 0 hdown (by omega)
      rw [List.replicate_zero, List.append_nil, schedule_eq (by omega) hlast (by omega)] at htaken
      rwa [hall]
    · have hsome : toWithdraw = rateOf amount := by omega
      rw [if_neg (by omega), hsome, ← hnext] at hdown
      rw [hsome, ← List.replicate_succ']
      exact .running (rounds + 1) _ (by omega) hdown (by omega)
  | finished idle hold hshares =>
    have hzero : toWithdraw = 0 := by
      simp only [powerDown, Prod.mk.injEq] at hold
      obtain ⟨hnoRate, -, hwithdrawn, htotal⟩ := hold
      obtain ⟨remaining, hremaining, hwithdraw⟩ := bind_eq_ok hwithdraw
      have hremaining := (hexact.checked hremaining).1
      rw [hwithdrawn, htotal] at hremaining
      rw [hnoRate, if_neg (by omega)] at hwithdraw
      rw [← Except.ok.inj hwithdraw]
      omega
    rw [hold] at hsame
    simp only [powerDown, Prod.mk.injEq] at hsame
    obtain ⟨-, -, hwithdrawn, htotal⟩ := hsame
    rw [hwithdrawn, htotal, hzero, if_pos (.inl (by omega)), add_zero] at hdown
    rw [hzero, List.append_assoc, ← List.replicate_succ']
    exact .finished (idle + 1) hdown (by omega)

/-- The account of a name has come so far with its power-down. -/
def Progressing (amount : ℤ) (name : AccountName) (s : ChainState) (taken : List ℤ) : Prop :=
  ∃ a, s.accounts.find (named name) = some a ∧ Progress amount a taken

/-- A rest keeps the progress under the name. -/
theorem Progressing.of_rests (h : Progressing amount name s taken) (hst : Rests name s t) :
    Progressing amount name t taken := by
  obtain ⟨a, ha, hprogress⟩ := h
  obtain ⟨b, hb, hdown, hgains⟩ := hst.account ha
  exact ⟨b, hb, hprogress.of_rests hdown hgains⟩

/-- An accepted request starts a power-down. -/
theorem applyWithdrawVesting_starts (hexact : fc.SafeExact) {o : WithdrawVestingOperation}
    (hpos : 0 < o.vestingShares.amount) {r : Unit} (h : Returns (applyWithdrawVesting fc o) s r t) :
    Progressing o.vestingShares.amount o.account t [] := by
  obtain ⟨account, haccount, h⟩ := lookup_bind h
  obtain ⟨_, hcheck, h⟩ := h.gets_bind.gets_bind.lift_bind
  rw [if_neg hpos.ne'] at h
  obtain ⟨a, b, ha, hab, hb⟩ := modifyAccount_find (fun a b hab => by
    obtain ⟨_, -, hab⟩ := bind_eq_ok hab
    obtain ⟨_, -, hab⟩ := bind_eq_ok hab
    rw [← Except.ok.inj hab]) h
  have hsame : a = account := Option.some.inj (ha.symm.trans haccount)
  have henough : o.vestingShares.amount ≤ account.vestingShares := by
    obtain ⟨_, -, hcheck⟩ := bind_eq_ok hcheck
    obtain ⟨_, -, hcheck⟩ := bind_eq_ok hcheck
    obtain ⟨enough, henough, hcheck⟩ := bind_eq_ok hcheck
    obtain ⟨_, htrue, -⟩ := bind_eq_ok hcheck
    rw [fcAssert_eq_ok htrue] at henough
    exact ge_eq_ok henough
  obtain ⟨rate, hrate, hab⟩ := bind_eq_ok hab
  obtain ⟨_, -, hab⟩ := bind_eq_ok hab
  have hrateOf : (if rate = 0 then 1 else rate) = rateOf o.vestingShares.amount := by
    unfold FcLib.div at hrate
    rw [if_neg (by decide)] at hrate
    have hrate := (hexact.checked hrate).1
    rw [Int.tdiv_eq_ediv_of_nonneg hpos.le] at hrate
    have hnonneg : 0 ≤ o.vestingShares.amount / wlsVestingWithdrawIntervals :=
      Int.ediv_nonneg hpos.le (Int.natCast_nonneg _)
    unfold rateOf
    split <;> omega
  refine ⟨b, hb, ?_⟩
  rw [← Except.ok.inj hab, hrateOf, hsame]
  refine .running 0 (TimePointSec.plus s.dgp.time wlsVestingWithdrawIntervalSeconds) ?_ ?_ ?_
  · rwa [Nat.cast_zero, zero_mul]
  · rw [Nat.cast_zero, zero_mul]
    rfl
  · rw [Nat.cast_zero, zero_mul, sub_zero]
    exact henough

/-- One step of a power-down. -/
theorem step_progress (hexact : env.SafeExact) (hname : name ≠ nullAccount) {m : Step}
    (h : Occurs env m.event m.before m.after)
    (hlast : ∀ o, m.event = .operation (.withdrawVesting o) → o.account ≠ name)
    (hs : Progressing amount name m.before taken) :
    Progressing amount name m.after (taken ++ stepWithdrawals env.toFcLib name m.event) := by
  by_cases hunrelated : Unrelated name m.event
  · have hrests : Progressing amount name m.after taken :=
      hs.of_rests (step_rests hexact hname h hunrelated)
    have hnone : stepWithdrawals env.toFcLib name m.event = [] := by
      unfold stepWithdrawals
      split
      next source hevent =>
        rw [hevent] at hunrelated
        exact roundWithdrawal_other hunrelated
      next => rfl
    rwa [hnone, List.append_nil]
  · obtain ⟨s, event, t⟩ := m
    cases h with
    | operation ctx henv op hvalid hnull h =>
      cases op with
      | withdrawVesting o => exact absurd (hlast o rfl) hunrelated
      | _ => exact absurd trivial hunrelated
    | withdrawal hsource hdue h =>
      rename_i source
      have hnamed : source.name = name := not_not.mp hunrelated
      obtain ⟨toWithdraw, converted, u, v, hwithdraw, hsu, huv, hvt⟩ :=
        withdrawal_finishes name hexact h
      rw [hnamed] at hsource huv
      obtain ⟨source', hsource', hprogress⟩ := hs
      have hsame : source' = source := Option.some.inj (hsource'.symm.trans hsource)
      rw [hsame] at hprogress
      obtain ⟨a', ha', hdown, hgains⟩ := hsu.account hsource
      obtain ⟨a, b, ha, hab, hb⟩ := modifyAccount_find finishWithdrawal_name huv
      have hfound : a' = a := Option.some.inj (ha'.symm.trans ha)
      rw [hfound] at hdown hgains
      have hfinished : Progressing amount name v _ :=
        ⟨b, hb, hprogress.withdraws hexact hwithdraw hdown hgains hab⟩
      have htaken : stepWithdrawals env.toFcLib name (.withdrawal source) = [toWithdraw] :=
        roundWithdrawal_self hnamed hwithdraw
      rw [htaken]
      exact hfinished.of_rests hvt
    | cashout h => exact absurd trivial hunrelated
    | burning h => exact absurd trivial hunrelated
    | upkeep hm hlater h => exact absurd trivial hunrelated

/-- A power-down goes on through a history without another request. -/
theorem run_progress (hexact : env.SafeExact) (hname : name ≠ nullAccount)
    (h : History env s steps t)
    (hlast : ∀ m ∈ steps, ∀ o, m.event = .operation (.withdrawVesting o) → o.account ≠ name)
    (hs : Progressing amount name s taken) :
    Progressing amount name t
      (taken ++ steps.flatMap fun m => stepWithdrawals env.toFcLib name m.event) := by
  induction steps generalizing s taken with
  | nil =>
    rw [show t = s from h]
    rwa [List.flatMap_nil, List.append_nil]
  | cons m rest ih =>
    obtain ⟨rfl, hm, hrest⟩ := h
    have hstep := step_progress hexact hname hm (hlast m List.mem_cons_self) hs
    have hlater := ih hrest (fun m' hm' => hlast m' (List.mem_cons_of_mem _ hm')) hstep
    rwa [List.flatMap_cons, ← List.append_assoc]

/-- One turn of a power-down. -/
theorem turn_progress (hexact : env.SafeExact) (hname : name ≠ nullAccount)
    {m : Moment ChainState Turn} (h : Takes env m.event m.before m.after)
    (hlast : ∀ o, m.event = .step (.operation (.withdrawVesting o)) → o.account ≠ name)
    (hs : Progressing amount name m.before taken) :
    Progressing amount name m.after (taken ++ turnWithdrawals env.toFcLib name m.event) := by
  obtain ⟨s, turn, t⟩ := m
  cases h with
  | step hquiet hstep =>
    rename_i event
    have hprogress := step_progress (m := ⟨s, event, t⟩) hexact hname hstep
      (fun o ho => hlast o (congrArg Turn.step ho)) hs
    have hnone : stepWithdrawals env.toFcLib name event = [] := by
      unfold stepWithdrawals
      split
      next source => exact absurd rfl (hquiet source)
      next => rfl
    rwa [hnone] at hprogress
  | loop hloop =>
    rename_i sources
    obtain ⟨steps, hsteps, hevents⟩ := recordedWithdrawals_history hloop
    have hrounds : steps.flatMap (fun m => stepWithdrawals env.toFcLib name m.event) =
        sources.flatMap (roundWithdrawal env.toFcLib name) := by
      rw [← List.flatMap_map Moment.event (stepWithdrawals env.toFcLib name), hevents,
        List.flatMap_map]
      rfl
    have hprogress := run_progress hexact hname hsteps (fun m hm o ho => by
      have hevent : m.event ∈ sources.map Event.withdrawal := hevents ▸ List.mem_map_of_mem hm
      obtain ⟨source, -, hsource⟩ := List.mem_map.mp hevent
      rw [ho] at hsource
      cases hsource) hs
    rwa [hrounds] at hprogress

/-- A power-down goes on through a course without another request. -/
theorem course_progress (hexact : env.SafeExact) (hname : name ≠ nullAccount)
    (h : Course env s turns t)
    (hlast : ∀ m ∈ turns, ∀ o, m.event = .step (.operation (.withdrawVesting o)) →
      o.account ≠ name)
    (hs : Progressing amount name s taken) :
    Progressing amount name t (taken ++ withdrawals env.toFcLib name turns) := by
  induction turns generalizing s taken with
  | nil =>
    rw [show t = s from h]
    unfold withdrawals
    rwa [List.flatMap_nil, List.append_nil]
  | cons m rest ih =>
    obtain ⟨rfl, hm, hrest⟩ := h
    have hturn := turn_progress hexact hname hm (hlast m List.mem_cons_self) hs
    have hlater := ih hrest (fun m' hm' => hlast m' (List.mem_cons_of_mem _ hm')) hturn
    unfold withdrawals at hlater ⊢
    rwa [List.flatMap_cons, ← List.append_assoc]

/-- The loop takes its instalment from the account of a name, if it is due. -/
theorem loop_withdraws (hexact : env.SafeExact) (hs : Registered s)
    (h : Returns (recordedWithdrawals env.toFcLib) s sources t)
    (ha : s.accounts.find (named name) = some a) (hdue : a.nextVestingWithdrawal ≤ s.dgp.time) :
    sources.flatMap (roundWithdrawal env.toFcLib name) ≠ [] := by
  have haname : a.name = name := by simpa [named] using List.find?_some ha
  obtain ⟨source, hsource, hsame⟩ :=
    recordedWithdrawals_visits hs h (List.mem_of_find?_eq_some ha) hdue
  rw [haname] at hsame
  obtain ⟨steps, hsteps, hevents⟩ := recordedWithdrawals_history h
  have hevent : Event.withdrawal source ∈ steps.map (·.event) :=
    hevents ▸ List.mem_map_of_mem hsource
  obtain ⟨⟨u, _, v⟩, hm, rfl⟩ := List.mem_map.mp hevent
  obtain ⟨_, _, -, -, hround, -⟩ := Path.moment hsteps hm
  cases hround with
  | withdrawal _ _ hround =>
    obtain ⟨toWithdraw, _, _, _, hwithdraw, -⟩ := withdrawal_finishes name hexact hround
    intro hnone
    have hempty := List.flatMap_eq_nil_iff.mp hnone source hsource
    rw [roundWithdrawal_self hsame hwithdraw] at hempty
    exact absurd hempty (List.cons_ne_nil _ _)

/-- Every run of checked blocks is a course, in which each block runs the loop of
`process_vesting_withdrawals` once. In every course from the genesis, an accepted request to
withdraw some shares that no other request of that account follows is carried out exactly: every
loop that finds the account due withdraws from it; its withdrawals are the first of the schedule,
which takes the rate each time, but for a last one that may be smaller, which adds up to the
request and is as long as the rate fits into the request, rounded up; when it is carried out the
power-down is over, and no round takes anything more; and the account has at all times what is
left to withdraw. -/
theorem power_down_completes (hexact : env.SafeExact) (initSupply : ℕ) :
    (∀ calls t, (∀ call ∈ calls, ElectionRun.Checked call.skip) →
      Reaches env initSupply calls t →
        ∃ turns, Course env (initGenesis env initSupply) turns.flatten t ∧
          List.Forall₂ BlockTurns calls turns) ∧
    ∀ (earlier later : List (Moment ChainState Turn)) (start : Moment ChainState Turn)
      (t : ChainState) (o : WithdrawVestingOperation),
      Course env (initGenesis env initSupply) (earlier ++ start :: later) t →
      start.event = .step (.operation (.withdrawVesting o)) → 0 < o.vestingShares.amount →
      (∀ m ∈ later, ∀ o', m.event = .step (.operation (.withdrawVesting o')) →
        o'.account ≠ o.account) →
      (∀ m ∈ later, ∀ sources a, m.event = .loop sources →
        m.before.accounts.find (named o.account) = some a →
        a.nextVestingWithdrawal ≤ m.before.dgp.time →
        withdrawals env.toFcLib o.account [m] ≠ []) ∧
      ∃ a, t.accounts.find (named o.account) = some a ∧
        (withdrawals env.toFcLib o.account later <+: schedule o.vestingShares.amount ∨
          ∃ idle, withdrawals env.toFcLib o.account later =
            schedule o.vestingShares.amount ++ List.replicate idle 0) ∧
        (schedule o.vestingShares.amount <+: withdrawals env.toFcLib o.account later →
          a.vestingWithdrawRate = 0 ∧ a.nextVestingWithdrawal = timePointSecMaximum) ∧
        a.toWithdraw - a.withdrawn ≤ a.vestingShares ∧
        (∃ rounds last, schedule o.vestingShares.amount =
            List.replicate rounds (rateOf o.vestingShares.amount) ++ [last] ∧
          0 < last ∧ last ≤ rateOf o.vestingShares.amount) ∧
        (schedule o.vestingShares.amount).sum = o.vestingShares.amount ∧
        ((schedule o.vestingShares.amount).length : ℤ) =
          (o.vestingShares.amount + rateOf o.vestingShares.amount - 1) /
            rateOf o.vestingShares.amount := by
  refine ⟨fun calls t hchecked h => Reaches.course hchecked h, ?_⟩
  intro earlier later start t o h hstart hpos hlast
  obtain ⟨u, hearlier, rfl, hfirst, hlater⟩ := path_append.mp h
  have hregistered : Registered start.after :=
    course_registered (hearlier.append (.single hfirst)) (registered_initGenesis env initSupply)
  refine ⟨fun m hm sources a hevent ha hdue => ?_, ?_⟩
  · obtain ⟨before, _, -, hbefore, hloop, -⟩ := Path.moment hlater hm
    have hs : Registered m.before := course_registered hbefore hregistered
    rw [hevent] at hloop
    cases hloop with
    | loop hloop =>
      unfold withdrawals
      rw [List.flatMap_singleton, hevent]
      exact loop_withdraws hexact hs hloop ha hdue
  · have hbegun : o.account ≠ nullAccount ∧
        Progressing o.vestingShares.amount o.account start.after [] := by
      rw [hstart] at hfirst
      cases hfirst with
      | step _ hfirst =>
        cases hfirst with
        | operation ctx henv op hvalid hnull h =>
          rw [← henv] at hexact
          refine ⟨fun hsame => hnull.1 ?_, applyWithdrawVesting_starts hexact hpos h⟩
          rw [← hsame]
          exact List.mem_cons_self
    obtain ⟨a, ha, hprogress⟩ := course_progress hexact hbegun.1 hlater hlast hbegun.2
    rw [List.nil_append] at hprogress
    exact ⟨a, ha, hprogress.onSchedule, hprogress.over hpos, hprogress.covered,
      schedule_regular hpos, schedule_sum hpos, schedule_length hpos⟩

end Completion

section Sample

/-- `update_global_dynamic_data` for a block after a pause of at least 128 slots whose producer is
alone in the schedule: the loops over the missed slots are cut short. -/
def updateAfterPause (ctx : Context) (b : SignedBlock) : Chain Unit := do
  let s ← gets id
  let missed := missedBlocks s.dgp b
  lift (fcAssert (s.wso.numScheduledWitnesses = 1 &&
    s.wso.currentShuffledWitnesses.getD 0 .empty = b.witness &&
    (s.witnesses.find (ownedBy b.witness)).isSome && s.dgp.time ≤ b.header.timestamp &&
    128 ≤ missed && missed + 1 < 2 ^ 32) "no such pause")
  modifyDgp fun dgp => .ok
    { shiftSlots 128 dgp with
      headBlockNumber := b.blockNum
      headBlockId := b.id ctx.env
      time := b.header.timestamp
      currentAslot := (dgp.currentAslot + (missed + 1) % 2 ^ 32) % 2 ^ 64 }
  let dgp ← gets (·.dgp)
  lift (SignState.wlsAssert (ctx.skip.undoHistoryCheck ||
      (dgp.headBlockNumber + (2 ^ 32 - dgp.lastIrreversibleBlockNum)) % 2 ^ 32 < ctx.maxUndo)
    .undoDatabase
    "The database does not have enough undo history to support a blockchain with so many missed blocks. Please add a checkpoint if you would like to continue applying blocks beyond this point.")

/-- The loops cut short do what they do in full. -/
theorem updateAfterPause_eq {ctx : Context} {b : SignedBlock} {s t : ChainState} {r : Unit}
    (h : Returns (updateAfterPause ctx b) s r t) :
    Returns (updateGlobalDynamicData ctx b) s r t ∧ s.dgp.time ≤ t.dgp.time := by
  obtain ⟨_, hpause, h⟩ := h.gets_bind.lift_bind
  have hpause := fcAssert_eq_ok hpause
  simp only [Bool.and_eq_true, decide_eq_true_eq, Option.isSome_iff_exists, id] at hpause
  obtain ⟨⟨⟨⟨⟨hone, hname⟩, w, hw⟩, hlater⟩, hlong⟩, hrounds⟩ := hpause
  have hhead : (fun dgp => (Except.ok (advanceHead ctx b (missedBlocks s.dgp b) dgp) :
      Except Exc DynamicGlobalPropertyObject)) = fun dgp => .ok
        { shiftSlots 128 dgp with
          headBlockNumber := b.blockNum
          headBlockId := b.id ctx.env
          time := b.header.timestamp
          currentAslot := (dgp.currentAslot + (missedBlocks s.dgp b + 1) % 2 ^ 32) % 2 ^ 64 } := by
    funext dgp
    unfold advanceHead
    rw [Participation.shiftSlots_pause hlong hrounds]
  have hfull : Returns (updateGlobalDynamicData ctx b) s r t := by
    refine Returns.intro_bind (a := s.dgp) rfl
      ((Participation.missSlots_alone hone hname hw _ _).intro_bind ?_)
    rw [hhead]
    exact h
  refine ⟨hfull, ?_⟩
  have htime : t.dgp.time = b.header.timestamp :=
    congrArg (fun c => c.2.1) (updateGlobalDynamicData_clock hfull)
  rw [htime]
  exact hlater

/-- A block a week, up to the accounts that its loop withdraws from. -/
def weeks (ctx : Context) : List SignedBlock → Chain (List AccountObject)
  | [] => pure []
  | b :: rest => do
    updateAfterPause ctx b
    let sources ← recordedWithdrawals ctx.env.toFcLib
    let later ← weeks ctx rest
    pure (sources ++ later)

/-- The weeks are a course without operations. -/
theorem weeks_course {ctx : Context} (name : AccountName) {blocks : List SignedBlock}
    {s t : ChainState} {sources : List AccountObject} (h : Returns (weeks ctx blocks) s sources t) :
    ∃ turns, Course ctx.env s turns t ∧ courseOperations turns = [] ∧
      withdrawals ctx.env.toFcLib name turns =
        sources.flatMap (roundWithdrawal ctx.env.toFcLib name) := by
  induction blocks generalizing s sources with
  | nil =>
    obtain ⟨rfl, rfl⟩ := h.pure
    exact ⟨[], rfl, rfl, rfl⟩
  | cons b rest ih =>
    obtain ⟨_, u, hu, h⟩ := h.bind
    obtain ⟨first, v, hv, h⟩ := h.bind
    obtain ⟨later, w, hw, h⟩ := h.bind
    obtain ⟨rfl, rfl⟩ := h.pure
    obtain ⟨turns, hturns, hops, htaken⟩ := ih hw
    obtain ⟨hdata, hlater⟩ := updateAfterPause_eq hu
    have hstep : Takes ctx.env (.step .upkeep) s u :=
      .step Event.upkeep_quiet (.upkeep (.dynamicData ctx b) hlater hdata)
    have hloop : Takes ctx.env (.loop first) u v := .loop hv
    refine ⟨⟨s, .step .upkeep, u⟩ :: ⟨u, .loop first, v⟩ :: turns,
      ⟨rfl, hstep, rfl, hloop, hturns⟩, ?_, ?_⟩
    · exact hops
    · unfold withdrawals at *
      rw [List.flatMap_append, ← htaken]
      rfl

/-- A block late enough for the inflation rate to be less than a hundred percent, which the
amount of a request is measured against. -/
def lateBlock : SignedBlock :=
  sampleBlock ⟨5000, 0⟩ (wlsGenesisTime + wlsBlockInterval) (initMinerName 0) []

/-- The block of a week after the late block. -/
def weekBlock (week : ℕ) : SignedBlock :=
  sampleBlock ⟨5000 + week, 0⟩
    (wlsGenesisTime + wlsBlockInterval + week * wlsVestingWithdrawIntervalSeconds)
    (initMinerName 0) []

/-- The first miner powers up. -/
def powerUp : Operation := .transferToVesting ⟨initMinerName 0, .empty, wls 1000⟩

/-- It withdraws a hundred shares. -/
def powerDownHundred : WithdrawVestingOperation := ⟨initMinerName 0, vests 100⟩

/-- The calls of the small instance. -/
def sampleContext : Context := ⟨sampleEnv, {}, false, 10000⟩

/-- The late block and some operations after it. -/
def lateStart (ops : List Operation) : Chain Unit := do
  updateGlobalDynamicData sampleContext lateBlock
  Program.forEach (applyOperation sampleContext) ops

/-- Operations after the late block have a history without withdrawals. -/
theorem lateStart_quiet {ops : List Operation} {t : ChainState} {r : Unit}
    (h : Returns (lateStart ops) (initGenesis sampleEnv 1000000) r t)
    (hops : ∀ op ∈ ops, op.validate sampleEnv.toFcLib = .ok () ∧ NotForNull op) :
    Quiet sampleEnv ops (initGenesis sampleEnv 1000000) t := by
  obtain ⟨_, u, hu, ht⟩ := h.bind
  have htime : u.dgp.time = lateBlock.header.timestamp :=
    congrArg (fun c => c.2.1) (updateGlobalDynamicData_clock hu)
  have hlater : (initGenesis sampleEnv 1000000).dgp.time ≤ u.dgp.time := by
    rw [htime]
    decide
  have hfirst : Quiet sampleEnv [] (initGenesis sampleEnv 1000000) u :=
    .silent (.upkeep (.dynamicData sampleContext lateBlock) hlater hu) rfl Event.upkeep_quiet
  have hrest : Quiet sampleEnv (ops.flatMap fun op => [op]) u t :=
    Quiet.forEach (P := fun _ => True) ht trivial fun op hop _ _ _ hxy =>
      ⟨.operation (.operation sampleContext rfl op (hops op hop).1 (hops op hop).2 hxy), trivial⟩
  rw [List.flatMap_singleton'] at hrest
  exact hfirst.trans hrest

/-- A request of a hundred shares, carried out to its end in fifteen weeks. -/
theorem power_down_completes_hundred : ∃ earlier start later t a,
    Course sampleEnv (initGenesis sampleEnv 1000000) (earlier ++ start :: later) t ∧
      start.event = .step (.operation (.withdrawVesting powerDownHundred)) ∧
      withdrawals sampleEnv.toFcLib (initMinerName 0) later = List.replicate 14 7 ++ [2] ∧
      t.accounts.find (named (initMinerName 0)) = some a ∧
      a.vestingWithdrawRate = 0 ∧ a.nextVestingWithdrawal = timePointSecMaximum ∧
      a.toWithdraw - a.withdrawn ≤ a.vestingShares := by
  have hends : endsIn (lateStart [powerUp, .withdrawVesting powerDownHundred] >>= fun _ =>
      weeks sampleContext ((List.range' 1 15).map weekBlock)) (initGenesis sampleEnv 1000000)
      (fun sources _ => decide (sources.flatMap (roundWithdrawal sampleEnv.toFcLib
        (initMinerName 0)) = List.replicate 14 7 ++ [2])) = true := by
    decide +kernel
  have hchecks : ∀ op ∈ [powerUp, .withdrawVesting powerDownHundred],
      op.validate sampleEnv.toFcLib = .ok () ∧ NotForNull op := by
    intro op hop
    simp only [List.mem_cons, List.not_mem_nil, or_false] at hop
    rcases hop with rfl | rfl <;> exact ⟨by decide, by decide, by decide⟩
  obtain ⟨sources, t, ht, htaken⟩ := returns_of_endsIn hends
  obtain ⟨_, u, hu, ht⟩ := ht.bind
  obtain ⟨steps, hsteps, hops, hquiet⟩ := lateStart_quiet hu hchecks
  obtain ⟨earlier, start, rest, rfl, hstart, -, hrest⟩ := operations_split [powerUp] hops
  obtain ⟨turns, hturns, hnone, hweeks⟩ := weeks_course (initMinerName 0) ht
  have hcourse := (Path.relabel Turn.step hsteps fun m hm hm' =>
    Takes.step (hquiet m hm) hm').append hturns
  rw [List.map_append, List.map_cons, List.append_assoc, List.cons_append] at hcourse
  have hlater : courseOperations (rest.map (Moment.relabel .step) ++ turns) = [] := by
    unfold courseOperations at *
    rw [List.filterMap_append, List.filterMap_map, hnone, List.append_nil]
    exact hrest
  have hlast : ∀ m ∈ rest.map (Moment.relabel Turn.step) ++ turns, ∀ o,
      m.event = .step (.operation (.withdrawVesting o)) → o.account ≠ initMinerName 0 := by
    intro m hm o hevent
    have hop := List.filterMap_eq_nil_iff.mp hlater m hm
    rw [hevent] at hop
    cases hop
  have hall : withdrawals sampleEnv.toFcLib (initMinerName 0)
      (rest.map (Moment.relabel Turn.step) ++ turns) = List.replicate 14 7 ++ [2] := by
    have htaken := hweeks.trans (of_decide_eq_true htaken)
    have hidle : withdrawals sampleEnv.toFcLib (initMinerName 0)
        (rest.map (Moment.relabel Turn.step)) = [] := by
      unfold withdrawals
      rw [List.flatMap_map]
      exact List.flatMap_eq_nil_iff.mpr fun _ _ => rfl
    unfold withdrawals at hidle htaken ⊢
    rw [List.flatMap_append, hidle, List.nil_append]
    exact htaken
  have hrequest : (Moment.relabel Turn.step start).event =
      .step (.operation (.withdrawVesting powerDownHundred)) := congrArg Turn.step hstart
  obtain ⟨-, a, ha, -, hover, hcovered, -⟩ :=
    (power_down_completes sampleEnv_safeExact 1000000).2 _ _ _ _ _ hcourse hrequest (by decide) hlast
  obtain ⟨hrate, hnext⟩ := hover (by
    change schedule 100 <+: withdrawals sampleEnv.toFcLib (initMinerName 0) _
    rw [hall]
    exact ⟨[], by decide⟩)
  exact ⟨_, _, _, t, a, hcourse, hrequest, hall, ha, hrate, hnext, hcovered⟩

end Sample

end Whaleshares.PowerDown
