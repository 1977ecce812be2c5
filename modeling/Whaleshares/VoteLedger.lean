import Whaleshares.Tally
import Whaleshares.VestingLedger

/-!
# The votes stay counted

Every routine that moves shares, sets proxies or casts votes keeps the roll valid and
leaves no debt behind: the proxied votes of each account and the votes of each witness are
those of the shares as they stand.
-/

namespace Whaleshares.VoteLedger

open Config Fc Assets Protocol Objects Program Database WitnessVotes Vesting Rewards Evaluators
  ApplyBlock Footprint Forest ElectoralRoll Tally VestingLedger

section Frames

/-- Nothing changed that the election depends on. -/
structure SameElection (s t : ChainState) : Prop where
  accounts : t.accounts.rows.map stake = s.accounts.rows.map stake
  nextAccount : t.accounts.nextId = s.accounts.nextId
  witnesses : t.witnesses.rows.map (fun w => (w.id, w.votes)) =
    s.witnesses.rows.map fun w => (w.id, w.votes)
  nextWitness : t.witnesses.nextId = s.witnesses.nextId
  witnessVotes : t.witnessVotes = s.witnessVotes

instance : IsPreorder ChainState SameElection where
  refl _ := ⟨rfl, rfl, rfl, rfl, rfl⟩
  trans _ _ _ hst htu :=
    ⟨htu.accounts.trans hst.accounts, htu.nextAccount.trans hst.nextAccount,
      htu.witnesses.trans hst.witnesses, htu.nextWitness.trans hst.nextWitness,
      htu.witnessVotes.trans hst.witnessVotes⟩

/-- The payment of rewards keeps the election. -/
theorem sameElection_rewardFrame : RewardFrame SameElection where
  quietAccounts _ _ hx hnext :=
    ⟨map_eq_of_map_eq Prod.snd (fun _ => rfl) hx, hnext, rfl, rfl, rfl⟩
  comments _ _ := ⟨rfl, rfl, rfl, rfl, rfl⟩
  commentVotes _ _ := ⟨rfl, rfl, rfl, rfl, rfl⟩
  withdrawVestingRoutes _ _ := ⟨rfl, rfl, rfl, rfl, rfl⟩
  transactions _ _ := ⟨rfl, rfl, rfl, rfl, rfl⟩
  quietWitnesses _ _ hx hnext :=
    ⟨rfl, rfl, map_eq_of_map_eq (fun r => (r.2.1.1, r.2.1.2.2.1)) (fun _ => rfl) hx, hnext, rfl⟩
  rewardAccounts _ _ hx hnext := ⟨hx, hnext, rfl, rfl, rfl⟩
  rewardFunds _ _ := ⟨rfl, rfl, rfl, rfl, rfl⟩
  rewardTotals _ _ _ _ := ⟨rfl, rfl, rfl, rfl, rfl⟩

/-- The routines before the schedule keep the election. -/
theorem sameElection_headerFrame : HeaderFrame SameElection where
  toQuietFrame := sameElection_rewardFrame.toQuietFrame
  header _ _ _ := ⟨rfl, rfl, rfl, rfl, rfl⟩
  signed _ _ hx hnext :=
    ⟨rfl, rfl, map_eq_of_map_eq (fun r => (r.1.1, r.1.2.2.1)) (fun _ => rfl) hx, hnext, rfl⟩
  blockSummaries _ _ := ⟨rfl, rfl, rfl, rfl, rfl⟩

/-- The turns of the witnesses keep the election. -/
theorem sameElection_turnFrame : TurnFrame SameElection where
  turns _ _ hx hnext :=
    ⟨rfl, rfl, map_eq_of_map_eq (fun r => (r.1.1, r.2)) (fun _ => rfl) hx, hnext, rfl⟩
  blockSize _ _ := ⟨rfl, rfl, rfl, rfl, rfl⟩
  wso _ _ _ := ⟨rfl, rfl, rfl, rfl, rfl⟩
  hardforks _ _ := ⟨rfl, rfl, rfl, rfl, rfl⟩

/-- Changes of authorities keep the election. -/
theorem sameElection_authorities : AllowsAuthorities SameElection :=
  fun _ _ => ⟨rfl, rfl, rfl, rfl, rfl⟩

variable {s t : ChainState} {debt : AccountName → ℕ → ℤ}

/-- The same election has the same roll. -/
theorem SameElection.roll_eq (h : SameElection s t) : roll t = roll s := by
  have hentries : t.accounts.rows.map entry = s.accounts.rows.map entry :=
    map_eq_of_map_eq (fun r => (⟨r.1, r.2.1, r.2.2.1, r.2.2.2.2.1⟩ : Entry)) (fun _ => rfl)
      h.accounts
  have hids : t.witnesses.rows.map (·.id) = s.witnesses.rows.map (·.id) :=
    map_eq_of_map_eq Prod.fst (fun _ => rfl) h.witnesses
  simp only [roll, hentries, hids, h.nextAccount, h.nextWitness, h.witnessVotes]

/-- Lists with equal images have elements with equal images. -/
theorem exists_of_map_eq {α β : Type} {f : α → β} {xs ys : List α} (h : xs.map f = ys.map f)
    {x : α} (hx : x ∈ xs) : ∃ y ∈ ys, f y = f x := by
  have hmem : f x ∈ ys.map f := by
    rw [← h]
    exact List.mem_map_of_mem hx
  exact List.mem_map.mp hmem

/-- The same election owes the same. -/
theorem SameElection.owes (h : SameElection s t) (ho : Owes debt s) : Owes debt t := by
  obtain ⟨told, hsettled, htold⟩ := ho
  have hroll := h.roll_eq
  refine ⟨told, ⟨fun a ha => ?_, fun w hw => ?_⟩, fun a ha level hlevel => ?_⟩
  · obtain ⟨b, hb, hstake⟩ := exists_of_map_eq h.accounts ha
    simp only [stake, Prod.mk.injEq] at hstake
    obtain ⟨-, hname, -, hproxied, -⟩ := hstake
    rw [hroll, ← hname, ← hproxied]
    exact hsettled.proxied b hb
  · obtain ⟨v, hv, hvotes⟩ := exists_of_map_eq h.witnesses hw
    simp only [Prod.mk.injEq] at hvotes
    rw [hroll, ← hvotes.1, ← hvotes.2]
    exact hsettled.votes v hv
  · obtain ⟨b, hb, hstake⟩ := exists_of_map_eq h.accounts ha
    simp only [stake, Prod.mk.injEq] at hstake
    obtain ⟨-, hname, -, hproxied, -, hshares⟩ := hstake
    have hpassed : passed a level = passed b level := by
      unfold passed
      rw [hproxied, hshares]
    rw [hpassed, ← hname]
    exact htold b hb level hlevel

end Frames

section Invariant

/-- The roll is valid, the null account takes no part, and no account owes anything. -/
structure Counted (s : ChainState) : Prop where
  valid : (roll s).Valid
  idle : (roll s).Idle nullAccount
  owes : Owes 0 s

variable {s t : ChainState} {fc : FcLib}

/-- The same election stays counted. -/
theorem SameElection.counted (h : SameElection s t) (hs : Counted s) : Counted t where
  valid := h.roll_eq ▸ hs.valid
  idle := h.roll_eq ▸ hs.idle
  owes := h.owes hs.owes

/-- From `s` to `t`, an account got shares, and nothing else changed that the election
depends on. -/
def Credits (s t : ChainState) (name : AccountName) (delta : ℤ) : Prop :=
  ∃ a b, Amends s t a b ∧ a.name = name ∧ entry b = entry a ∧
    b.proxiedVsfVotes = a.proxiedVsfVotes ∧ b.vestingShares = a.vestingShares + delta

/-- A credit of shares leaves the roll. -/
theorem Credits.roll_eq {name : AccountName} {delta : ℤ} (h : Credits s t name delta)
    (hvalid : (roll s).Valid) : roll t = roll s := by
  obtain ⟨a, b, hm, -, hentry, -⟩ := h
  exact hm.roll_same hvalid hentry

/-- A credit of shares makes the account owe it on the lowest level. -/
theorem Credits.owes {name : AccountName} {delta : ℤ} (h : Credits s t name delta)
    (hs : Counted s) : Owes (0 + due name (first delta)) t := by
  obtain ⟨a, b, hm, rfl, hentry, hproxied, hshares⟩ := h
  exact hm.deposit hs.valid hentry hproxied hshares hs.owes

/-- Shares that an account gets, and the propagation of the change. -/
theorem Credits.propagated {name : AccountName} {delta : ℤ} {v w : ChainState} {u : Unit}
    (hexact : fc.SafeExact) (hs : Counted s) (h : Credits s v name delta) (hsame : SameElection v w)
    (hadjust : Returns (adjustProxiedWitnessVotes fc name delta) w u t) : Counted t := by
  have hroll := hsame.roll_eq.trans (h.roll_eq hs.valid)
  have hvalid : (roll w).Valid := hroll ▸ hs.valid
  obtain ⟨howes, hrollt⟩ :=
    adjustProxiedWitnessVotes_settles hexact hvalid hadjust (hsame.owes (h.owes hs))
  rw [hroll] at hrollt
  exact ⟨hrollt ▸ hs.valid, hrollt ▸ hs.idle, howes⟩

/-- New global properties keep the election. -/
theorem sameElection_dgp (s : ChainState) (d : DynamicGlobalPropertyObject) :
    SameElection s { s with dgp := d } := ⟨rfl, rfl, rfl, rfl, rfl⟩

/-- A change of the global properties keeps the election. -/
theorem modifyDgp_same {f : DynamicGlobalPropertyObject → Except Exc DynamicGlobalPropertyObject}
    {r : Unit} (h : Returns (modifyDgp f) s r t) : SameElection s t := by
  obtain ⟨d, -, rfl⟩ := map_eq_ok h.update
  exact sameElection_dgp s d

end Invariant

section Shares

variable {s t : ChainState} {fc : FcLib} {u : Unit}

/-- `create_vesting` for an account keeps the votes counted. -/
theorem createVesting_counted (hexact : fc.SafeExact) {name : AccountName} {steem r : Asset}
    (h : Returns (createVesting fc name steem false) s r t) (hs : Counted s) : Counted t := by
  obtain ⟨price, -, h⟩ := h.gets_bind.lift_bind
  obtain ⟨v, -, h⟩ := h.lift_bind
  obtain ⟨_, s₁, h₁, h⟩ := h.bind
  obtain ⟨_, s₂, h₂, h⟩ := h.bind
  obtain ⟨_, s₃, h₃, h⟩ := h.bind
  obtain ⟨-, rfl⟩ := h.pure
  have hcredit : ∀ a b, creditVesting fc false steem v a = .ok b →
      entry b = entry a ∧ b.proxiedVsfVotes = a.proxiedVsfVotes ∧
        b.vestingShares = a.vestingShares + v.amount := by
    intro a b hab
    obtain ⟨sum, hsum, hab⟩ := bind_eq_ok hab
    rw [← Except.ok.inj hab]
    exact ⟨rfl, rfl, (increase_eq_ok hexact hsum).1⟩
  obtain ⟨a, b, -, ha, hab, hm⟩ := modifyAccount_amends (accounts_names hs.valid) h₁ fun a b hab =>
    congrArg Entry.name (hcredit a b hab).1
  have hname : a.name = name := by simpa [named] using ha
  have hcredits : Credits s s₁ name v.amount := ⟨a, b, hm, hname, hcredit a b hab⟩
  rcases h₃.whenever with ⟨-, h₃⟩ | ⟨hfalse, -⟩
  · exact hcredits.propagated hexact hs (modifyDgp_same h₂) h₃
  · exact absurd rfl hfalse

/-- An adjusted balance keeps the election. -/
theorem adjustBalance_same {p : AccountObject → Bool} {delta : Asset}
    (h : Returns (adjustBalance fc p delta) s u t) : SameElection s t := by
  refine (modifyRewards_keeps sameElection_rewardFrame fun a b hab => ?_).rel s u t h
  split at hab
  · obtain ⟨balance, -, hab⟩ := bind_eq_ok hab
    rw [← Except.ok.inj hab]
    rfl
  · cases hab

/-- An adjusted reward balance keeps the election. -/
theorem adjustRewardBalance_same {p : AccountObject → Bool} {delta : Asset}
    (h : Returns (adjustRewardBalance fc p delta) s u t) : SameElection s t := by
  refine (modifyRewards_keeps sameElection_rewardFrame fun a b hab => ?_).rel s u t h
  split at hab
  · obtain ⟨balance, -, hab⟩ := bind_eq_ok hab
    rw [← Except.ok.inj hab]
    rfl
  · cases hab

/-- A deposit of tokens keeps the election. -/
theorem depositBalance_same {p : AccountObject → Bool} {converted : Asset}
    (h : Returns (modifyAccount p (depositBalance fc converted)) s u t) : SameElection s t := by
  refine (modifyRewards_keeps sameElection_rewardFrame fun a b hab => ?_).rel s u t h
  obtain ⟨balance, -, hab⟩ := bind_eq_ok hab
  rw [← Except.ok.inj hab]
  rfl

end Shares

section NullAccount

variable {s t : ChainState} {fc : FcLib} {u : Unit} {total r : Asset}

/-- Clearing the balance of the null account keeps the votes counted. -/
theorem clearNullBalance_counted (h : Returns (clearNullBalance fc total) s r t) (hs : Counted s) :
    Counted t := by
  obtain ⟨a, -, h⟩ := lookup_bind h
  split at h
  · obtain ⟨_, -, h⟩ := h.lift_bind
    obtain ⟨_, -, h⟩ := h.lift_bind
    obtain ⟨_, v, hv, h⟩ := h.bind
    obtain ⟨-, rfl⟩ := h.pure
    exact (adjustBalance_same hv).counted hs
  · obtain ⟨-, rfl⟩ := h.pure
    exact hs

/-- Clearing its reward balance keeps the votes counted. -/
theorem clearNullReward_counted (h : Returns (clearNullReward fc total) s r t) (hs : Counted s) :
    Counted t := by
  obtain ⟨a, -, h⟩ := lookup_bind h
  split at h
  · obtain ⟨_, -, h⟩ := h.lift_bind
    obtain ⟨_, -, h⟩ := h.lift_bind
    obtain ⟨_, v, hv, h⟩ := h.bind
    obtain ⟨-, rfl⟩ := h.pure
    exact (adjustRewardBalance_same hv).counted hs
  · obtain ⟨-, rfl⟩ := h.pure
    exact hs

/-- Clearing its reward shares keeps the votes counted. -/
theorem clearNullRewardVesting_counted (h : Returns (clearNullRewardVesting fc total) s r t)
    (hs : Counted s) : Counted t := by
  obtain ⟨a, -, h⟩ := lookup_bind h
  split at h
  · obtain ⟨_, -, h⟩ := h.lift_bind
    obtain ⟨_, v, hv, h⟩ := h.bind
    obtain ⟨_, w, hw, h⟩ := h.bind
    obtain ⟨-, rfl⟩ := h.pure
    have hkeeps : Keeps SameElection (modifyAccount (named nullAccount) fun a => .ok
        { a with rewardVestingSteem := 0, rewardVestingBalance := 0 }) := by
      refine modifyRewards_keeps sameElection_rewardFrame fun a b hab => ?_
      rw [← Except.ok.inj hab]
      rfl
    exact (hkeeps.rel v _ t hw).counted ((modifyDgp_same hv).counted hs)
  · obtain ⟨-, rfl⟩ := h.pure
    exact hs

/-- The shares of the null account are nobody's weight. -/
theorem Credits.idle {delta : ℤ} (hs : Counted s) (h : Credits s t nullAccount delta) :
    Counted t := by
  have hroll := h.roll_eq hs.valid
  have howes := h.owes hs
  obtain ⟨a, b, hm, hname, hentry, -⟩ := h
  have hvalid : (roll t).Valid := hroll ▸ hs.valid
  have hbname : b.name = nullAccount := hm.name.trans hname
  obtain ⟨hproxy, hvoted⟩ := (hroll ▸ hs.idle : (roll t).Idle nullAccount) (entry b)
    (mem_entries hm.mem_new) hbname
  have hcount : (roll t).count b.id = 0 := (hvalid.votedFor _ (mem_entries hm.mem_new)).symm.trans
    hvoted
  rw [← hbname] at howes
  exact ⟨hvalid, hroll ▸ hs.idle,
    howes.forgive hvalid hm.mem_new (.inl hproxy) (.inr (Roll.count_eq_zero.mp hcount))⟩

/-- Clearing its vesting shares keeps the votes counted. -/
theorem clearNullVesting_counted (h : Returns (clearNullVesting fc total) s r t) (hs : Counted s) :
    Counted t := by
  obtain ⟨a, -, h⟩ := lookup_bind h
  split at h
  · obtain ⟨_, -, h⟩ := h.gets_bind.lift_bind
    obtain ⟨_, v, hv, h⟩ := h.bind
    obtain ⟨_, w, hw, h⟩ := h.bind
    obtain ⟨_, -, h⟩ := h.lift_bind
    obtain ⟨-, rfl⟩ := h.pure
    have hsv := (modifyDgp_same hv).counted hs
    have hcleared : ∀ a b : AccountObject,
        (.ok { a with vestingShares := 0 } : Except Exc AccountObject) = .ok b →
        entry b = entry a ∧ b.proxiedVsfVotes = a.proxiedVsfVotes ∧ b.vestingShares = 0 := by
      intro a b hab
      rw [← Except.ok.inj hab]
      exact ⟨rfl, rfl, rfl⟩
    obtain ⟨c, d, -, hc, hcd, hm⟩ := modifyAccount_amends (accounts_names hsv.valid) hw fun a b hab =>
      congrArg Entry.name (hcleared a b hab).1
    obtain ⟨hentry, hproxied, hzero⟩ := hcleared c d hcd
    have hname : c.name = nullAccount := by simpa [named] using hc
    exact Credits.idle hsv ⟨c, d, hm, hname, hentry, hproxied,
      (by omega : d.vestingShares = c.vestingShares + -c.vestingShares)⟩
  · obtain ⟨-, rfl⟩ := h.pure
    exact hs

/-- Clearing all that the null account holds keeps the votes counted. -/
theorem clearNullAccountBalance_counted (h : Returns (clearNullAccountBalance fc) s u t)
    (hs : Counted s) : Counted t := by
  obtain ⟨_, s₁, h₁, h⟩ := h.bind
  obtain ⟨_, s₂, h₂, h⟩ := h.bind
  obtain ⟨_, s₃, h₃, h⟩ := h.bind
  obtain ⟨_, s₄, h₄, h⟩ := h.bind
  have hs₃ := clearNullReward_counted h₃
    (clearNullVesting_counted h₂ (clearNullBalance_counted h₁ hs))
  have hs₄ := clearNullRewardVesting_counted h₄ hs₃
  rcases h.whenever with ⟨-, h⟩ | ⟨-, rfl⟩
  · obtain ⟨_, -, h⟩ := h.lift_bind
    exact (modifyDgp_same h).counted hs₄
  · exact hs₄

end NullAccount

section Withdrawals

variable {s t : ChainState} {fc : FcLib} {u : Unit} {toWithdraw : ℤ}

/-- A deposit of shares credits its target. -/
theorem depositShares_credits (hexact : fc.SafeExact) {p : AccountObject → Bool} {deposit : ℤ}
    {target : AccountObject} (hs : (roll s).Valid) (htarget : s.accounts.find p = some target)
    (h : Returns (modifyAccount p (depositShares fc deposit)) s u t) :
    Credits s t target.name deposit := by
  have hdeposit : ∀ a b, depositShares fc deposit a = .ok b →
      entry b = entry a ∧ b.proxiedVsfVotes = a.proxiedVsfVotes ∧
        b.vestingShares = a.vestingShares + deposit := by
    intro a b hab
    obtain ⟨sum, hsum, hab⟩ := bind_eq_ok hab
    rw [← Except.ok.inj hab]
    exact ⟨rfl, rfl, (hexact.checked hsum).1⟩
  obtain ⟨a, b, hfind, -, hab, hm⟩ := modifyAccount_amends (accounts_names hs) h fun a b hab =>
    congrArg Entry.name (hdeposit a b hab).1
  have hsame : a = target := Option.some.inj (hfind.symm.trans htarget)
  exact ⟨a, b, hm, congrArg _ hsame, hdeposit a b hab⟩

/-- The routes into shares keep the votes counted and only add to what is deposited. -/
theorem depositAsVests_counted (hexact : fc.SafeExact) {deposited r : ℤ}
    {routes : List WithdrawVestingRouteObject}
    (h : Returns (depositAsVests fc toWithdraw deposited routes) s r t) (hs : Counted s) :
    Counted t ∧ deposited ≤ r := by
  induction routes generalizing deposited s with
  | nil =>
    obtain ⟨rfl, rfl⟩ := h.pure
    exact ⟨hs, le_rfl⟩
  | cons route rest ih =>
    unfold depositAsVests at h
    split at h
    · obtain ⟨deposit, hdeposit, h⟩ := h.lift_bind
      obtain ⟨sum, hsum, h⟩ := h.lift_bind
      obtain ⟨_, v, hv, h⟩ := h.bind
      have hnonneg := routeDeposit_nonneg hexact hdeposit
      have hsum : sum = deposited + deposit := (hexact.checked hsum).1
      have hsv : Counted v := by
        rcases hv.whenever with ⟨-, hv⟩ | ⟨-, rfl⟩
        · obtain ⟨target, htarget, hv⟩ := lookup_bind hv
          obtain ⟨_, w, hw, hv⟩ := hv.bind
          exact (depositShares_credits hexact hs.valid htarget hw).propagated hexact hs
            (Std.Refl.refl w) hv
        · exact hs
      obtain ⟨ht, hle⟩ := ih h hsv
      exact ⟨ht, by omega⟩
    · exact ih h hs

/-- The routes into tokens keep the election and only add to what is deposited. -/
theorem depositAsSteem_same (hexact : fc.SafeExact) {deposited steem r : ℤ}
    {routes : List WithdrawVestingRouteObject}
    (h : Returns (depositAsSteem fc toWithdraw deposited steem routes) s r t) :
    SameElection s t ∧ deposited ≤ r := by
  induction routes generalizing deposited steem s with
  | nil =>
    obtain ⟨rfl, rfl⟩ := h.pure
    exact ⟨Std.Refl.refl t, le_rfl⟩
  | cons route rest ih =>
    unfold depositAsSteem at h
    split at h
    · exact ih h
    · obtain ⟨_, -, h⟩ := lookup_bind h
      obtain ⟨deposit, hdeposit, h⟩ := h.lift_bind
      obtain ⟨sum, hsum, h⟩ := h.lift_bind
      obtain ⟨_, -, h⟩ := h.gets_bind.lift_bind
      obtain ⟨_, -, h⟩ := h.lift_bind
      obtain ⟨_, v, hv, h⟩ := h.bind
      have hnonneg := routeDeposit_nonneg hexact hdeposit
      have hsum : sum = deposited + deposit := (hexact.checked hsum).1
      have hsv : SameElection s v := by
        rcases hv.whenever with ⟨-, hv⟩ | ⟨-, rfl⟩
        · obtain ⟨_, w, hw, hv⟩ := hv.bind
          exact Trans.trans (depositBalance_same hw) (modifyDgp_same hv)
        · exact Std.Refl.refl v
      obtain ⟨ht, hle⟩ := ih h
      exact ⟨Trans.trans hsv ht, by omega⟩

/-- The end of a withdrawal takes its shares and leaves the entry of the account. -/
theorem finishWithdrawal_entry (hexact : fc.SafeExact) {converted : Asset} {a b : AccountObject}
    (h : finishWithdrawal fc toWithdraw converted a = .ok b) :
    entry b = entry a ∧ b.proxiedVsfVotes = a.proxiedVsfVotes ∧
      b.vestingShares = a.vestingShares + -toWithdraw := by
  obtain ⟨left, _, _, hleft, -, -, rfl⟩ := finishWithdrawal_eq_ok h
  have hleft : left = a.vestingShares + -toWithdraw := (hexact.checked hleft).1
  exact ⟨rfl, rfl, hleft⟩

/-- A withdrawal keeps the votes counted. -/
theorem processVestingWithdrawal_counted (hexact : fc.SafeExact) {source : AccountObject}
    (h : Returns (processVestingWithdrawal fc source) s u t) (hs : Counted s) : Counted t := by
  obtain ⟨toWithdraw, -, h⟩ := h.lift_bind
  have h := h.gets_bind
  obtain ⟨asVests, s₁, h₁, h⟩ := h.bind
  obtain ⟨asSteem, s₂, h₂, h⟩ := h.bind
  obtain ⟨rest, hrest, h⟩ := h.lift_bind
  obtain ⟨toConvert, htoConvert, h⟩ := h.lift_bind
  obtain ⟨_, hassert, h⟩ := h.lift_bind
  obtain ⟨converted, -, h⟩ := h.gets_bind.lift_bind
  obtain ⟨_, s₃, h₃, h⟩ := h.bind
  obtain ⟨_, s₄, h₄, h⟩ := h.bind
  have hrest : rest = toWithdraw - asSteem := (hexact.checked hrest).1
  have htoConvert : toConvert = rest - asVests := (hexact.checked htoConvert).1
  have hassert : 0 ≤ toConvert := by simpa using fcAssert_eq_ok hassert
  obtain ⟨hs₁, hvests⟩ := depositAsVests_counted hexact h₁ hs
  obtain ⟨hsame₂, hsteem⟩ := depositAsSteem_same hexact h₂
  have hs₂ := hsame₂.counted hs₁
  obtain ⟨a, b, -, ha, hab, hm⟩ := modifyAccount_amends (accounts_names hs₂.valid) h₃ fun _ _ hab =>
    congrArg Entry.name (finishWithdrawal_entry hexact hab).1
  have hname : a.name = source.name := by simpa [named] using ha
  have hcredits : Credits s₂ s₃ source.name (-toWithdraw) :=
    ⟨a, b, hm, hname, finishWithdrawal_entry hexact hab⟩
  rcases h.whenever with ⟨-, h⟩ | ⟨hpos, rfl⟩
  · obtain ⟨delta, hdelta, h⟩ := h.lift_bind
    have hdelta : delta = -toWithdraw := (hexact.checked hdelta).1
    rw [hdelta] at h
    exact hcredits.propagated hexact hs₂ (modifyDgp_same h₄) h
  · -- the shares that are left to convert are not negative, so none were withdrawn
    have hzero : toWithdraw = 0 := by omega
    refine (modifyDgp_same h₄).counted ?_
    have howes := hcredits.owes hs₂
    have hroll := hcredits.roll_eq hs₂.valid
    refine ⟨hroll ▸ hs₂.valid, hroll ▸ hs₂.idle, howes.congr fun c _ level _ => ?_⟩
    simp only [Pi.zero_apply, Pi.add_apply, due, first, hzero]
    split <;> simp

/-- The loop of the withdrawals keeps the votes counted. -/
theorem vestingWithdrawalLoop_counted (hexact : fc.SafeExact) {rounds : ℕ}
    {current : Option AccountObject} (h : Returns (vestingWithdrawalLoop fc rounds current) s u t)
    (hs : Counted s) : Counted t := by
  induction rounds generalizing current s with
  | zero =>
    cases current with
    | none =>
      obtain ⟨-, rfl⟩ := h.pure
      exact hs
    | some account => cases h
  | succ rounds ih =>
    cases current with
    | none =>
      obtain ⟨-, rfl⟩ := h.pure
      exact hs
    | some account =>
      obtain ⟨source, -, h⟩ := lookup_bind h
      have h := h.gets_bind
      split at h
      · have h := h.gets_bind
        obtain ⟨_, v, hv, h⟩ := h.bind
        exact ih h (processVestingWithdrawal_counted hexact hv hs)
      · obtain ⟨-, rfl⟩ := h.pure
        exact hs

/-- The withdrawals of a block keep the votes counted. -/
theorem processVestingWithdrawals_counted (hexact : fc.SafeExact)
    (h : Returns (processVestingWithdrawals fc) s u t) (hs : Counted s) : Counted t :=
  vestingWithdrawalLoop_counted hexact h.gets_bind.gets_bind hs

/-- The funds of a block keep the votes counted. -/
theorem processFunds_counted (hexact : fc.SafeExact) (h : Returns (processFunds fc) s u t)
    (hs : Counted s) : Counted t := by
  have h := h.gets_bind.gets_bind
  obtain ⟨_, -, h⟩ := h.lift_bind
  obtain ⟨_, -, h⟩ := h.lift_bind
  obtain ⟨_, -, h⟩ := h.lift_bind
  obtain ⟨_, s₁, h₁, h⟩ := h.gets_bind.bind
  obtain ⟨_, -, h⟩ := h.lift_bind
  obtain ⟨_, -, h⟩ := h.lift_bind
  obtain ⟨_, -, h⟩ := h.lift_bind
  obtain ⟨cwit, -, h⟩ := lookup_bind h
  obtain ⟨_, -, h⟩ := h.lift_bind
  obtain ⟨_, -, h⟩ := h.lift_bind
  obtain ⟨_, -, h⟩ := h.lift_bind
  obtain ⟨_, s₂, h₂, h⟩ := h.bind
  obtain ⟨_, s₃, h₃, h⟩ := h.bind
  have hsame₁ : SameElection s s₁ :=
    (payRewardFunds_keeps fc sameElection_rewardFrame _ _ _).rel _ _ _ h₁
  have hs₂ := (modifyDgp_same h₂).counted (hsame₁.counted hs)
  exact (depositBalance_same h).counted (createVesting_counted hexact h₃ hs₂)

end Withdrawals

end Whaleshares.VoteLedger
