import Whaleshares.PowerDown
import Whaleshares.VestingPrice
import Whaleshares.WithdrawRoutes

/-!
# What a withdrawal pays along its routes

A withdrawal sends a part of its shares along each route of the account, as shares or as
tokens, rounded down, and converts what is left for the account itself. Both passes over the
routes start above the route to the account of id zero, so that this route gets nothing and its
part goes to the account itself. The other routes are paid exactly.
-/

namespace Whaleshares.RoutePayout

open Config Fc Assets Protocol Objects Program Database WitnessVotes Vesting Evaluators Genesis
  ChainRun Footprint Ledger VestingLedger VestingPrice SharePool Sidelines LabelledRun Timeline
  WithdrawRoutes ApplyBlock CommentEvaluators

variable {fc : FcLib} {s t u : ChainState} {w : ℤ}

section Parts

/-- The shares of a withdrawal that a route asks for. -/
def asked (w : ℤ) (route : WithdrawVestingRouteObject) : ℤ := w * route.percent / wls100Percent

/-- The shares that the routes ask for that satisfy a condition. -/
def askedBy (w : ℤ) (p : WithdrawVestingRouteObject → Bool)
    (routes : List WithdrawVestingRouteObject) : ℤ := ((routes.filter p).map (asked w)).sum

variable {route : WithdrawVestingRouteObject} {routes routes' : List WithdrawVestingRouteObject}
  {p q : WithdrawVestingRouteObject → Bool}

/-- What a route asks for is not negative. -/
theorem asked_nonneg (route : WithdrawVestingRouteObject) (hw : 0 ≤ w) : 0 ≤ asked w route :=
  Int.ediv_nonneg (Int.mul_nonneg hw (Int.natCast_nonneg _)) (Int.natCast_nonneg _)

/-- A further route adds what it asks for. -/
theorem askedBy_cons : askedBy w p (route :: routes) =
    (if p route = true then asked w route else 0) + askedBy w p routes := by
  unfold askedBy
  by_cases h : p route = true
  · rw [List.filter_cons_of_pos h, List.map_cons, List.sum_cons, if_pos h]
  · rw [List.filter_cons_of_neg h, if_neg h, zero_add]

/-- What two lists of routes ask for is the sum of both. -/
theorem askedBy_append : askedBy w p (routes ++ routes') = askedBy w p routes + askedBy w p routes' := by
  unfold askedBy
  rw [List.filter_append, List.map_append, List.sum_append]

/-- The order of the routes does not matter for what they ask for. -/
theorem askedBy_perm (h : routes.Perm routes') : askedBy w p routes = askedBy w p routes' :=
  ((h.filter p).map (asked w)).sum_eq

/-- Routes that ask for nothing add nothing. -/
theorem askedBy_zero (h : ∀ r ∈ routes, asked w r = 0) : askedBy w p routes = 0 := by
  refine List.sum_eq_zero fun x hx => ?_
  obtain ⟨r, hr, rfl⟩ := List.mem_map.mp hx
  exact h r (List.mem_of_mem_filter hr)

/-- Where routes add nothing, each of them asks for nothing. -/
theorem asked_of_askedBy (hw : 0 ≤ w) (h : askedBy w p routes = 0) (hroute : route ∈ routes)
    (hp : p route = true) : asked w route = 0 := by
  have hnonneg : ∀ x ∈ (routes.filter p).map (asked w), 0 ≤ x := by
    intro x hx
    obtain ⟨r, -, rfl⟩ := List.mem_map.mp hx
    exact asked_nonneg r hw
  have hle := List.single_le_sum hnonneg (asked w route)
    (List.mem_map_of_mem (List.mem_filter.mpr ⟨hroute, hp⟩))
  have hlow := asked_nonneg route hw
  unfold askedBy at h
  omega

/-- The deposit along a route is what it asks for. -/
theorem routeDeposit_exact (hexact : fc.SafeExact) (hw : 0 ≤ w) (hlt : w < 2 ^ 63) {percent : ℕ}
    (hpercent : percent < 2 ^ 16) {deposit : ℤ} (h : routeDeposit fc w percent = .ok deposit) :
    deposit = w * percent / wls100Percent := by
  obtain ⟨share, hshare, h⟩ := bind_eq_ok h
  obtain ⟨small, hsmall, h⟩ := bind_eq_ok h
  have hW := uint128_of_nonneg hw (by omega)
  have hbound : uint128 w * percent < uint128Bound := by
    have hleft : uint128 w < 2 ^ 63 := by omega
    calc uint128 w * percent < 2 ^ 63 * 2 ^ 16 := Nat.mul_lt_mul'' hleft hpercent
      _ ≤ uint128Bound := by unfold uint128Bound; norm_num
  have hproduct : uint128Mul (uint128 w) percent = uint128 w * percent := Nat.mod_eq_of_lt hbound
  rw [(hexact.stored h).1, (toUint64_eq_ok hsmall).1, (uint128Div_eq_ok hshare).2, hproduct,
    Int.natCast_div, Int.natCast_mul, hW]

end Parts

section Holdings

/-- What an account holds. -/
def holding (a : AccountObject) : (ℕ × AccountName) × ℤ × ℤ :=
  ((a.id, a.name), a.vestingShares, a.balance)

/-- Shares and tokens are added to the accounts, by their ids. -/
def Credited (s t : ChainState) (shares tokens : ℕ → ℤ) : Prop :=
  t.accounts.rows.map holding = s.accounts.rows.map fun a =>
    ((a.id, a.name), a.vestingShares + shares a.id, a.balance + tokens a.id)

/-- An amount for one account. -/
def only (n : ℕ) (amount : ℤ) : ℕ → ℤ := fun i => if i = n then amount else 0

variable {shares tokens shares' tokens' : ℕ → ℤ}

/-- Nothing credited to one account is nothing credited to any. -/
theorem only_zero (n : ℕ) : only n 0 = fun _ => 0 := by
  funext i
  exact ite_self 0

/-- What is credited depends on the amounts of each account alone. -/
theorem Credited.congr (h : Credited s t shares tokens) (hshares : ∀ i, shares' i = shares i)
    (htokens : ∀ i, tokens' i = tokens i) : Credited s t shares' tokens' := by
  rw [funext hshares, funext htokens]
  exact h

/-- Without a step nothing is credited. -/
theorem Credited.refl (s : ChainState) : Credited s s (fun _ => 0) (fun _ => 0) := by
  unfold Credited holding
  simp only [add_zero]

/-- Two steps credit the sum of what each does. -/
theorem Credited.trans (hst : Credited s t shares tokens) (htu : Credited t u shares' tokens') :
    Credited s u (fun i => shares i + shares' i) (fun i => tokens i + tokens' i) := by
  have hnext : t.accounts.rows.map (fun a =>
      ((a.id, a.name), a.vestingShares + shares' a.id, a.balance + tokens' a.id)) =
      (t.accounts.rows.map holding).map fun c =>
        (c.1, c.2.1 + shares' c.1.1, c.2.2 + tokens' c.1.1) := by
    rw [List.map_map]
    rfl
  unfold Credited at *
  rw [htu, hnext, hst, List.map_map]
  refine List.map_congr_left fun a _ => ?_
  simp only [Function.comp, add_assoc]

/-- The same books credit nothing. -/
theorem Credited.of_sameBooks (h : SameBooks s t) :
    Credited s t (fun _ => 0) (fun _ => 0) := by
  have hpurses : t.accounts.rows.map purse = s.accounts.rows.map purse := congrArg (·.purses) h
  have hholding := congrArg
    (List.map fun p : Purse => ((p.id, p.name), p.vestingShares, p.balance)) hpurses
  rw [List.map_map, List.map_map] at hholding
  unfold Credited
  simp only [add_zero]
  exact hholding

/-- The accounts keep their ids. -/
theorem Credited.ids (h : Credited s t shares tokens) :
    t.accounts.rows.map (·.id) = s.accounts.rows.map (·.id) := by
  have hids := congrArg (List.map fun c : (ℕ × AccountName) × ℤ × ℤ => c.1.1) h
  rw [List.map_map, List.map_map] at hids
  exact hids

/-- The account of a name keeps its id. -/
theorem Credited.find (h : Credited s t shares tokens) {name : AccountName} {a b : AccountObject}
    (ha : s.accounts.find (named name) = some a) (hb : t.accounts.find (named name) = some b) :
    b.id = a.id := by
  have hpairs : t.accounts.rows.map (fun a => (a.id, a.name)) =
      s.accounts.rows.map fun a => (a.id, a.name) := by
    have hpairs := congrArg (List.map Prod.fst) h
    rw [List.map_map, List.map_map] at hpairs
    exact hpairs
  have hfind := Table.find_map_congr (p := named name) hpairs fun x y hxy => by
    simp only [named, (Prod.mk.inj hxy).2]
  unfold Table.find at ha hb
  rw [ha, hb] at hfind
  exact (Prod.mk.inj (Option.some.inj hfind)).1

/-- The change of one account credits it and no other. -/
theorem modifyAccount_credited (hids : (s.accounts.rows.map (·.id)).Nodup)
    {p : AccountObject → Bool} {f : AccountObject → Except Exc AccountObject} {r : Unit}
    (h : Returns (modifyAccount p f) s r t)
    (hf : ∀ a b, f a = .ok b → (b.id, b.name) = (a.id, a.name)) :
    ∃ a b, s.accounts.find p = some a ∧ f a = .ok b ∧
      Credited s t (only a.id (b.vestingShares - a.vestingShares))
        (only a.id (b.balance - a.balance)) ∧ t.dgp = s.dgp := by
  obtain ⟨x, hx, rfl⟩ := map_eq_ok h.update
  obtain ⟨before, a, b, after, hrows, hrows', hbefore, ha, hab⟩ := Table.modify_rows hx
  have hfind : s.accounts.find p = some a := by
    unfold Table.find
    rw [hrows, List.find?_append, List.find?_eq_none.mpr (by simpa using hbefore),
      List.find?_cons_of_pos ha]
    rfl
  refine ⟨a, b, hfind, hab, ?_, rfl⟩
  rw [hrows, List.map_append, List.map_cons] at hids
  obtain ⟨-, hafter, hapart⟩ := List.nodup_append'.mp hids
  obtain ⟨hnotAfter, -⟩ := List.nodup_cons.mp hafter
  have hother : ∀ c : AccountObject, c.id ≠ a.id → holding c =
      ((c.id, c.name), c.vestingShares + only a.id (b.vestingShares - a.vestingShares) c.id,
        c.balance + only a.id (b.balance - a.balance) c.id) := by
    intro c hne
    unfold only
    rw [if_neg hne, if_neg hne, add_zero, add_zero]
    rfl
  have hself : holding b =
      ((a.id, a.name), a.vestingShares + only a.id (b.vestingShares - a.vestingShares) a.id,
        a.balance + only a.id (b.balance - a.balance) a.id) := by
    unfold only
    rw [if_pos rfl, if_pos rfl, add_sub_cancel, add_sub_cancel, ← hf a b hab]
    rfl
  unfold Credited
  change x.rows.map holding = _
  rw [hrows, hrows', List.map_append, List.map_append, List.map_cons, List.map_cons, hself]
  congr 1
  · refine List.map_congr_left fun c hc => hother c fun heq => ?_
    exact hapart (List.mem_map_of_mem hc) (heq ▸ List.mem_cons_self)
  · congr 1
    refine List.map_congr_left fun c hc => hother c fun heq => ?_
    exact hnotAfter (heq ▸ List.mem_map_of_mem hc)

end Holdings

section Passes

/-- The price of a pool, as `get_vesting_share_price` gives it. -/
def priceOf (p : Pool) : Price :=
  if p.fund = 0 ∨ p.shares = 0 then ⟨wls 1, vests 1000⟩ else ⟨vests p.shares, wls p.fund⟩

/-- The price of the shares is that of the pool. -/
theorem price_pool (s : ChainState) : s.dgp.getVestingSharePrice = priceOf (vestingPool s) := rfl

/-- The tokens that routes get for their shares, one after the other, each at the price that the
pool has then. -/
inductive Redeemed (fc : FcLib) (w : ℤ) :
    Pool → List WithdrawVestingRouteObject → (ℕ → ℤ) → Pool → Prop where
  | nil (p : Pool) : Redeemed fc w p [] (fun _ => 0) p
  | skip {p q : Pool} {route : WithdrawVestingRouteObject}
      {rest : List WithdrawVestingRouteObject} {tokens : ℕ → ℤ}
      (hnothing : route.autoVest = true ∨ asked w route = 0) (hrest : Redeemed fc w p rest tokens q) :
      Redeemed fc w p (route :: rest) tokens q
  | pay {p q : Pool} {route : WithdrawVestingRouteObject} {rest : List WithdrawVestingRouteObject}
      {tokens : ℕ → ℤ} {value : Asset} (hauto : route.autoVest = false)
      (hvalue : (vests (asked w route)).times fc (priceOf p) = .ok value)
      (hrest : Redeemed fc w ⟨p.fund - value.amount, p.shares - asked w route⟩ rest tokens q) :
      Redeemed fc w p (route :: rest) (fun i => only route.toAccount value.amount i + tokens i) q

/-- The routes along which shares go as shares to an account. -/
def vestsTo (i : ℕ) (route : WithdrawVestingRouteObject) : Bool :=
  route.autoVest && route.toAccount = i

variable {routes : List WithdrawVestingRouteObject} {deposited steem total : ℤ}

/-- An account that is found by its id has it. -/
theorem accountId_find {n : ℕ} {a : AccountObject} (h : s.accounts.find (accountId n) = some a) :
    a.id = n := by
  simpa [accountId] using List.find?_some h

/-- The first pass: each route that deposits shares gets what it asks for. -/
theorem depositAsVests_pays (hexact : fc.SafeExact) (hw : 0 ≤ w) (hlt : w < 2 ^ 63)
    (hids : (s.accounts.rows.map (·.id)).Nodup) (hpercents : ∀ r ∈ routes, r.percent < 2 ^ 16)
    (h : Returns (depositAsVests fc w deposited routes) s total t) :
    total = deposited + askedBy w (·.autoVest) routes ∧
      Credited s t (fun i => askedBy w (vestsTo i) routes) (fun _ => 0) ∧
      vestingPool t = vestingPool s := by
  induction routes generalizing deposited s with
  | nil =>
    obtain ⟨rfl, rfl⟩ := h.pure
    exact ⟨(add_zero _).symm, .refl t, rfl⟩
  | cons route rest ih =>
    have hrest := fun r hr => hpercents r (List.mem_cons_of_mem _ hr)
    unfold depositAsVests at h
    split at h
    next hauto =>
      obtain ⟨deposit, hdeposit, h⟩ := h.lift_bind
      obtain ⟨sum, hsum, h⟩ := h.lift_bind
      obtain ⟨_, u, hu, h⟩ := h.bind
      have hdeposit : deposit = asked w route :=
        routeDeposit_exact hexact hw hlt (hpercents route List.mem_cons_self) hdeposit
      have hsum := (hexact.checked hsum).1
      have hstep : Credited s u (only route.toAccount deposit) (fun _ => 0) ∧
          vestingPool u = vestingPool s := by
        rcases hu.whenever with ⟨-, hu⟩ | ⟨hzero, rfl⟩
        · obtain ⟨target, htarget, hu⟩ := lookup_bind hu
          obtain ⟨_, v, hv, hu⟩ := hu.bind
          obtain ⟨a, b, ha, hab, hcredited, hdgp⟩ := modifyAccount_credited hids hv fun a b hab => by
            obtain ⟨_, -, hab⟩ := bind_eq_ok hab
            rw [← Except.ok.inj hab]
          obtain ⟨sum', hsum', hab⟩ := bind_eq_ok hab
          have hsum' := (hexact.checked hsum').1
          have hbooks : SameBooks v u :=
            (adjustProxiedWitnessVotes_keeps fc (sameBooks_stepFrame.toVoteFrame fc) _ _).rel _ _ _ hu
          have hid : a.id = route.toAccount := accountId_find ha
          have hshares : b.vestingShares - a.vestingShares = deposit := by
            rw [← Except.ok.inj hab]
            change sum' - a.vestingShares = deposit
            omega
          have hbalance : b.balance - a.balance = 0 := by
            rw [← Except.ok.inj hab]
            exact sub_self _
          rw [hid, hshares, hbalance, only_zero] at hcredited
          have hpool : vestingPool v = vestingPool s := by
            unfold vestingPool
            rw [hdgp]
          refine ⟨(hcredited.trans (.of_sameBooks hbooks)).congr (fun i => ?_) fun i => rfl,
            (vestingPool_sameBooks hbooks).trans hpool⟩
          exact (add_zero _).symm
        · have hzero : deposit = 0 := by
            have hnonneg := asked_nonneg route hw
            omega
          rw [hzero, only_zero]
          exact ⟨.refl u, rfl⟩
      obtain ⟨htotal, hcredited, hpool⟩ := ih (by rwa [hstep.1.ids]) hrest h
      refine ⟨?_, (hstep.1.trans hcredited).congr (fun i => ?_) fun i => rfl, hpool.trans hstep.2⟩
      · rw [htotal, hsum, hdeposit, askedBy_cons, if_pos hauto, add_assoc]
      · have hto : (if vestsTo i route = true then asked w route else 0) =
            only route.toAccount deposit i := by
          unfold vestsTo only
          rw [hauto, Bool.true_and, hdeposit]
          by_cases hi : route.toAccount = i
          · rw [if_pos (by simpa using hi), if_pos hi.symm]
          · rw [if_neg (by simpa using hi), if_neg (Ne.symm hi)]
        rw [askedBy_cons, hto]
    next hauto =>
      obtain ⟨htotal, hcredited, hpool⟩ := ih hids hrest h
      refine ⟨?_, hcredited.congr (fun i => ?_) fun i => rfl, hpool⟩
      · rw [htotal, askedBy_cons, if_neg hauto, zero_add]
      · have hnot : ¬ vestsTo i route = true := by
          unfold vestsTo
          simp [hauto]
        rw [askedBy_cons, if_neg hnot, zero_add]

/-- The second pass: each other route gets the value of what it asks for. -/
theorem depositAsSteem_pays (hexact : fc.SafeExact) (hw : 0 ≤ w) (hlt : w < 2 ^ 63)
    (hids : (s.accounts.rows.map (·.id)).Nodup) (hpercents : ∀ r ∈ routes, r.percent < 2 ^ 16)
    (h : Returns (depositAsSteem fc w deposited steem routes) s total t) :
    total = deposited + askedBy w (fun r => !r.autoVest) routes ∧
      ∃ tokens, Redeemed fc w (vestingPool s) routes tokens (vestingPool t) ∧
        Credited s t (fun _ => 0) tokens := by
  induction routes generalizing deposited steem s with
  | nil =>
    obtain ⟨rfl, rfl⟩ := h.pure
    exact ⟨(add_zero _).symm, _, .nil _, .refl t⟩
  | cons route rest ih =>
    have hrest := fun r hr => hpercents r (List.mem_cons_of_mem _ hr)
    unfold depositAsSteem at h
    split at h
    next hauto =>
      obtain ⟨htotal, tokens, hredeemed, hcredited⟩ := ih hids hrest h
      refine ⟨?_, tokens, .skip (.inl hauto) hredeemed, hcredited⟩
      rw [htotal, askedBy_cons, if_neg (by simp [hauto]), zero_add]
    next hauto =>
      have hauto : route.autoVest = false := Bool.eq_false_of_not_eq_true hauto
      obtain ⟨_, -, h⟩ := lookup_bind h
      obtain ⟨deposit, hdeposit, h⟩ := h.lift_bind
      obtain ⟨sum, hsum, h⟩ := h.lift_bind
      obtain ⟨converted, hconverted, h⟩ := h.gets_bind.lift_bind
      obtain ⟨steem', -, h⟩ := h.lift_bind
      obtain ⟨_, u, hu, h⟩ := h.bind
      have hdeposit : deposit = asked w route :=
        routeDeposit_exact hexact hw hlt (hpercents route List.mem_cons_self) hdeposit
      have hsum := (hexact.checked hsum).1
      have htotalCons : askedBy w (fun r => !r.autoVest) (route :: rest) =
          asked w route + askedBy w (fun r => !r.autoVest) rest := by
        rw [askedBy_cons, if_pos (by simp [hauto])]
      rcases hu.whenever with ⟨hpos, hu⟩ | ⟨hzero, hsame⟩
      · obtain ⟨_, v, hv, hu⟩ := hu.bind
        obtain ⟨a, b, ha, hab, hcredited, hdgp⟩ := modifyAccount_credited hids hv fun a b hab => by
          obtain ⟨_, -, hab⟩ := bind_eq_ok hab
          rw [← Except.ok.inj hab]
        obtain ⟨balance, hbalance, hab⟩ := bind_eq_ok hab
        have hbalance := (increase_eq_ok hexact hbalance).1
        have hid : a.id = route.toAccount := accountId_find ha
        have hshares : b.vestingShares - a.vestingShares = 0 := by
          rw [← Except.ok.inj hab]
          exact sub_self _
        have htokens : b.balance - a.balance = converted.amount := by
          rw [← Except.ok.inj hab]
          change balance - a.balance = converted.amount
          omega
        rw [hid, hshares, htokens, only_zero] at hcredited
        obtain ⟨d, hd, hstate⟩ := modifyDgp_totals hu
        obtain ⟨fund, hfund, hd⟩ := bind_eq_ok hd
        obtain ⟨left, hleft, hd⟩ := bind_eq_ok hd
        have hfund := (decrease_eq_ok hexact hfund).1
        have hleft := (hexact.checked hleft).1
        have hpool : vestingPool u = ⟨(vestingPool s).fund - converted.amount,
            (vestingPool s).shares - asked w route⟩ := by
          rw [hstate, ← Except.ok.inj hd, hfund, hleft, hdgp, hdeposit]
          rfl
        have hcredited : Credited s u (fun _ => 0) (only route.toAccount converted.amount) := by
          rw [hstate]
          exact hcredited
        obtain ⟨htotal, tokens, hredeemed, hlater⟩ := ih (by rwa [hcredited.ids]) hrest h
        rw [hpool] at hredeemed
        rw [hdeposit, price_pool] at hconverted
        refine ⟨?_, _, .pay hauto hconverted hredeemed, hcredited.trans hlater⟩
        rw [htotal, hsum, hdeposit, htotalCons, add_assoc]
      · have hnothing : asked w route = 0 := by
          have hnonneg := asked_nonneg route hw
          omega
        rw [hsame] at h
        obtain ⟨htotal, tokens, hredeemed, hcredited⟩ := ih hids hrest h
        refine ⟨?_, tokens, .skip (.inr hnothing) hredeemed, hcredited⟩
        rw [htotal, hsum, hdeposit, htotalCons, add_assoc]

end Passes

section Payout

variable {source : AccountObject}

/-- What the code relies on: the ids of accounts differ, shares and power-downs are not negative,
and amounts and percents have their bits. -/
structure WellFormed (s : ChainState) : Prop where
  ids : (s.accounts.rows.map (·.id)).Nodup
  percents : ∀ r ∈ s.withdrawVestingRoutes.rows, r.percent < 2 ^ 16
  shares : ∀ a ∈ s.accounts.rows, 0 ≤ a.vestingShares ∧ a.vestingShares < 2 ^ 63
  powerDowns : ∀ name a, s.accounts.find (named name) = some a →
    0 ≤ a.vestingWithdrawRate ∧ 0 ≤ a.toWithdraw

/-- The routes of an account. -/
def routesFrom (s : ChainState) (n : ℕ) : List WithdrawVestingRouteObject :=
  s.withdrawVestingRoutes.rows.filter fun r => r.fromAccount = n

/-- The routes of an account that the passes visit. -/
def visited (s : ChainState) (n : ℕ) : List WithdrawVestingRouteObject :=
  s.withdrawVestingRoutes.select (fun route => route.fromAccount = n && 0 < route.toAccount)
    WithdrawVestingRouteObject.byToAccount

/-- The routes of an account that the passes do not visit. -/
def unvisited (s : ChainState) (n : ℕ) : List WithdrawVestingRouteObject :=
  (routesFrom s n).filter fun r => !decide (0 < r.toAccount)

/-- What the two passes of a withdrawal of `w` shares deposit, `vests_deposited_as_vests` and
`vests_deposited_as_steem`. -/
def Deposited (fc : FcLib) (source : AccountObject) (w : ℤ) (s : ChainState)
    (asVests asSteem : ℤ) : Prop :=
  ∃ u v, Returns (depositAsVests fc w 0 (visited s source.id)) s asVests u ∧
    Returns (depositAsSteem fc w 0 0 (visited s source.id)) u asSteem v

/-- The shares that are left for the account itself when the routes got what they ask for. -/
def leftOver (w : ℤ) (order : List WithdrawVestingRouteObject) : ℤ :=
  w - askedBy w (fun r => !r.autoVest) order - askedBy w (·.autoVest) order

/-- From one state to another the routes are paid what they ask for: shares, or the value of the
shares at the price that the pool has when their turn comes. The account itself gives up the
shares of the withdrawal and gets the value of those that are left. -/
def Pays (fc : FcLib) (source : AccountObject) (w : ℤ) (s t : ChainState)
    (order : List WithdrawVestingRouteObject) : Prop :=
  ∃ tokens p value, Redeemed fc w (vestingPool s) order tokens p ∧
    (vests (leftOver w order)).times fc (priceOf p) = .ok value ∧
    Credited s t (fun i => askedBy w (vestsTo i) order + only source.id (-w) i)
      (fun i => tokens i + only source.id value.amount i) ∧
    vestingPool t = ⟨p.fund - value.amount, p.shares - leftOver w order⟩

/-- A withdrawal of `w` shares pays every route of the account, in the order of their targets, and
deposits what they ask for. -/
def PaidAlong (fc : FcLib) (source : AccountObject) (w : ℤ) (s t : ChainState) : Prop :=
  ∃ order, order.Perm (routesFrom s source.id) ∧
    order.Pairwise (fun r r' => r.toAccount ≤ r'.toAccount) ∧
    Deposited fc source w s (askedBy w (·.autoVest) order) (askedBy w (fun r => !r.autoVest) order) ∧
    Pays fc source w s t order

/-- A withdrawal from a well-formed state is a 64-bit number that is not negative. -/
theorem withdrawalOf_range (hs : WellFormed s)
    (hsource : s.accounts.find (named source.name) = some source) (hexact : fc.SafeExact)
    (h : withdrawalOf fc source = .ok w) : 0 ≤ w ∧ w < 2 ^ 63 := by
  obtain ⟨hnonneg, hlt⟩ := hs.shares source (List.mem_of_find?_eq_some hsource)
  obtain ⟨hrate, htotal⟩ := hs.powerDowns source.name source hsource
  have hle := withdrawalOf_le h
  obtain ⟨remaining, -, h⟩ := bind_eq_ok h
  split at h
  · obtain ⟨rest, hrest, h⟩ := bind_eq_ok h
    unfold FcLib.mod at hrest
    split at hrest
    · cases hrest
    · have hrest := (hexact.checked hrest).1
      have hmod : 0 ≤ source.toWithdraw.tmod source.vestingWithdrawRate :=
        Int.tmod_nonneg _ htotal
      have h := Except.ok.inj h
      omega
  · have h := Except.ok.inj h
    omega

/-- The visited routes are those of the account to ids above zero. -/
theorem visited_perm (s : ChainState) (n : ℕ) : (visited s n).Perm
    ((routesFrom s n).filter fun r => decide (0 < r.toAccount)) := by
  unfold visited Table.select routesFrom
  rw [List.filter_filter]
  refine (List.perm_insertionSort _ _).trans (List.Perm.of_eq ?_)
  refine List.filter_congr fun r _ => ?_
  exact Bool.and_comm _ _

/-- The visited and the other routes are those of the account. -/
theorem all_perm (s : ChainState) (n : ℕ) :
    (unvisited s n ++ visited s n).Perm (routesFrom s n) := by
  refine (List.perm_append_comm.trans ((visited_perm s n).append_right _)).trans ?_
  exact List.filter_append_perm _ _

/-- The visited routes are in the order of their targets. -/
theorem visited_sorted (s : ChainState) (n : ℕ) :
    (visited s n).Pairwise fun r r' => r.toAccount ≤ r'.toAccount := by
  have htotal : Std.Total fun a b : WithdrawVestingRouteObject => a.byToAccount b = true :=
    ⟨fun a b => by simpa [WithdrawVestingRouteObject.byToAccount] using Nat.le_total _ _⟩
  have htrans : IsTrans WithdrawVestingRouteObject fun a b => a.byToAccount b = true :=
    ⟨fun a b c hab hbc => by
      simp only [WithdrawVestingRouteObject.byToAccount, decide_eq_true_eq] at *
      exact Nat.le_trans hab hbc⟩
  have hsorted := List.pairwise_insertionSort
    (fun a b : WithdrawVestingRouteObject => a.byToAccount b = true)
    (s.withdrawVestingRoutes.rows.filter fun route => route.fromAccount = n && 0 < route.toAccount)
  exact hsorted.imp fun hab => by
    simpa [WithdrawVestingRouteObject.byToAccount] using hab

/-- A withdrawal pays the routes that are visited. -/
theorem processVestingWithdrawal_pays (hexact : fc.SafeExact) (hs : WellFormed s)
    (hsource : s.accounts.find (named source.name) = some source)
    (hw : withdrawalOf fc source = .ok w)
    (h : Returns (processVestingWithdrawal fc source) s () t) :
    Deposited fc source w s (askedBy w (·.autoVest) (visited s source.id))
        (askedBy w (fun r => !r.autoVest) (visited s source.id)) ∧
      Pays fc source w s t (visited s source.id) := by
  obtain ⟨hnonneg, hlt⟩ := withdrawalOf_range hs hsource hexact hw
  have hpercents : ∀ r ∈ visited s source.id, r.percent < 2 ^ 16 := fun r hr =>
    hs.percents r (List.mem_of_mem_filter
      (List.mem_of_mem_filter ((visited_perm s source.id).mem_iff.mp hr)))
  obtain ⟨toWithdraw, hwithdraw, h⟩ := h.lift_bind
  obtain rfl : toWithdraw = w := Except.ok.inj (hwithdraw.symm.trans hw)
  have h := h.gets_bind
  obtain ⟨asVests, s₁, h₁, h⟩ := h.bind
  obtain ⟨asSteem, s₂, h₂, h⟩ := h.bind
  obtain ⟨hvests, hcredited₁, hpool₁⟩ := depositAsVests_pays hexact hnonneg hlt hs.ids hpercents h₁
  obtain ⟨hsteem, tokens, hredeemed, hcredited₂⟩ := depositAsSteem_pays hexact hnonneg hlt
    (by rw [hcredited₁.ids]; exact hs.ids) hpercents h₂
  rw [zero_add] at hvests hsteem
  rw [hvests] at h₁
  rw [hsteem] at h₂
  refine ⟨⟨s₁, s₂, h₁, h₂⟩, ?_⟩
  obtain ⟨rest, hrest, h⟩ := h.lift_bind
  obtain ⟨toConvert, htoConvert, h⟩ := h.lift_bind
  obtain ⟨_, -, h⟩ := h.lift_bind
  obtain ⟨converted, hconverted, h⟩ := h.gets_bind.lift_bind
  obtain ⟨_, s₃, h₃, h⟩ := h.bind
  obtain ⟨_, s₄, h₄, h⟩ := h.bind
  have hrest := (hexact.checked hrest).1
  have htoConvert := (hexact.checked htoConvert).1
  have hleft : toConvert = leftOver toWithdraw (visited s source.id) := by
    unfold leftOver
    omega
  rw [hpool₁] at hredeemed
  rw [hleft] at hconverted h₄
  have hcredited := hcredited₁.trans hcredited₂
  obtain ⟨a, b, ha, hab, hcredited₃, hdgp⟩ :=
    modifyAccount_credited (by rw [hcredited.ids]; exact hs.ids) h₃ fun a b hab => by
      obtain ⟨_, -, hab⟩ := bind_eq_ok hab
      obtain ⟨_, -, hab⟩ := bind_eq_ok hab
      obtain ⟨_, -, hab⟩ := bind_eq_ok hab
      split at hab
      all_goals rw [← Except.ok.inj hab]
  have hid : a.id = source.id := hcredited.find hsource ha
  have hpurse := finishWithdrawal_purse hexact hab
  have hshares : b.vestingShares - a.vestingShares = -toWithdraw := by
    have hfield : b.vestingShares = a.vestingShares - toWithdraw :=
      congrArg Purse.vestingShares hpurse
    omega
  have hbalance : b.balance - a.balance = converted.amount := by
    have hfield : b.balance = a.balance + converted.amount := congrArg Purse.balance hpurse
    omega
  rw [hid, hshares, hbalance] at hcredited₃
  obtain ⟨d, hd, hstate⟩ := modifyDgp_totals h₄
  obtain ⟨fund, hfund, hd⟩ := bind_eq_ok hd
  obtain ⟨left, hleftShares, hd⟩ := bind_eq_ok hd
  have hfund := (decrease_eq_ok hexact hfund).1
  have hleftShares := (hexact.checked hleftShares).1
  have hpool : vestingPool s₄ = ⟨(vestingPool s₂).fund - converted.amount,
      (vestingPool s₂).shares - leftOver toWithdraw (visited s source.id)⟩ := by
    rw [hstate, ← Except.ok.inj hd, hfund, hleftShares, hdgp]
    rfl
  have hbooks : SameBooks s₄ t := by
    have hkeeps : Keeps SameBooks (whenever (0 < toWithdraw) do
        let delta ← lift (fc.neg toWithdraw)
        adjustProxiedWitnessVotes fc source.name delta) :=
      .whenever (.bind (.lift _) fun _ =>
        adjustProxiedWitnessVotes_keeps fc (sameBooks_stepFrame.toVoteFrame fc) _ _)
    exact hkeeps.rel _ _ _ h
  have hcredited₄ : Credited s₃ s₄ (fun _ => 0) (fun _ => 0) := by
    rw [hstate]
    exact .refl s₃
  refine ⟨tokens, vestingPool s₂, converted, hredeemed, hconverted, ?_,
    (vestingPool_sameBooks hbooks).trans hpool⟩
  refine (((hcredited.trans hcredited₃).trans hcredited₄).trans (.of_sameBooks hbooks)).congr
    (fun i => ?_) fun i => ?_
  · simp only [add_zero]
  · simp only [add_zero, zero_add]

/-- The passes come to one result. -/
theorem Deposited.unique {asVests asSteem asVests' asSteem' : ℤ}
    (h : Deposited fc source w s asVests asSteem) (h' : Deposited fc source w s asVests' asSteem') :
    asVests = asVests' ∧ asSteem = asSteem' := by
  obtain ⟨u, v, hu, hv⟩ := h
  obtain ⟨u', v', hu', hv'⟩ := h'
  obtain ⟨hvests, hstate⟩ := Prod.mk.inj (Except.ok.inj (hu.symm.trans hu'))
  rw [← hstate] at hv'
  exact ⟨hvests, (Prod.mk.inj (Except.ok.inj (hv.symm.trans hv'))).1⟩

/-- Routes that ask for nothing get nothing. -/
theorem Redeemed.append_nothing {p q : Pool} {tokens : ℕ → ℤ}
    {idle order : List WithdrawVestingRouteObject} (hidle : ∀ r ∈ idle, asked w r = 0)
    (h : Redeemed fc w p order tokens q) : Redeemed fc w p (idle ++ order) tokens q := by
  induction idle with
  | nil => exact h
  | cons r rest ih =>
    have hrest := ih fun r' hr' => hidle r' (List.mem_cons_of_mem _ hr')
    exact .skip (.inr (hidle r List.mem_cons_self)) hrest

/-- A withdrawal pays every route of the account exactly if a route of it to the account of id
zero asks for nothing. -/
theorem paid_along_iff (hexact : fc.SafeExact) (hs : WellFormed s)
    (hsource : s.accounts.find (named source.name) = some source)
    (hw : withdrawalOf fc source = .ok w)
    (h : Returns (processVestingWithdrawal fc source) s () t) :
    PaidAlong fc source w s t ↔
      ∀ route ∈ s.withdrawVestingRoutes.rows, route.fromAccount = source.id →
        route.toAccount = 0 → w * route.percent / wls100Percent = 0 := by
  have hnonneg := (withdrawalOf_range hs hsource hexact hw).1
  obtain ⟨hdeposited, hpays⟩ := processVestingWithdrawal_pays hexact hs hsource hw h
  have hall := all_perm s source.id
  constructor
  · rintro ⟨order, hperm, -, hdeposited', -⟩ route hroute hfrom hto
    have horder := hperm.trans hall.symm
    obtain ⟨hvests, hsteem⟩ := hdeposited.unique hdeposited'
    rw [askedBy_perm horder, askedBy_append] at hvests hsteem
    have hmember : route ∈ unvisited s source.id := by
      refine List.mem_filter.mpr ⟨List.mem_filter.mpr ⟨hroute, by simpa using hfrom⟩, ?_⟩
      simp [hto]
    have hnoVests : askedBy w (·.autoVest) (unvisited s source.id) = 0 := by omega
    have hnoSteem : askedBy w (fun r => !r.autoVest) (unvisited s source.id) = 0 := by omega
    cases hauto : route.autoVest with
    | true => exact asked_of_askedBy hnonneg hnoVests hmember hauto
    | false => exact asked_of_askedBy hnonneg hnoSteem hmember (by simp [hauto])
  · intro hzero
    have hidle : ∀ r ∈ unvisited s source.id, asked w r = 0 := by
      intro r hr
      obtain ⟨hr, hto⟩ := List.mem_filter.mp hr
      obtain ⟨hr, hfrom⟩ := List.mem_filter.mp hr
      exact hzero r hr (of_decide_eq_true hfrom) (by simpa using hto)
    have hasked : ∀ p, askedBy w p (unvisited s source.id ++ visited s source.id) =
        askedBy w p (visited s source.id) := fun p => by
      rw [askedBy_append, askedBy_zero hidle, zero_add]
    have hfirst : ∀ r ∈ unvisited s source.id, ∀ n, r.toAccount ≤ n := by
      intro r hr n
      have hto := (List.mem_filter.mp hr).2
      simp only [Bool.not_eq_true', decide_eq_false_iff_not] at hto
      omega
    refine ⟨unvisited s source.id ++ visited s source.id, hall, ?_, ?_, ?_⟩
    · exact List.pairwise_append.mpr ⟨List.pairwise_of_forall_mem_list fun r hr r' _ =>
        hfirst r hr r'.toAccount, visited_sorted s source.id, fun r hr r' _ =>
        hfirst r hr r'.toAccount⟩
    · rw [hasked, hasked]
      exact hdeposited
    · obtain ⟨tokens, p, value, hredeemed, hvalue, hcredited, hpool⟩ := hpays
      have hleft : leftOver w (unvisited s source.id ++ visited s source.id) =
          leftOver w (visited s source.id) := by
        unfold leftOver
        rw [hasked, hasked]
      refine ⟨tokens, p, value, hredeemed.append_nothing hidle, ?_, ?_, ?_⟩
      · rw [hleft]
        exact hvalue
      · refine hcredited.congr (fun i => ?_) fun i => rfl
        rw [hasked]
      · rw [hleft]
        exact hpool

end Payout

section Reachable

variable {env : Env} {name : AccountName} {steps : List Step}

/-- The power-down of an account is not negative. -/
def Sane (name : AccountName) (s : ChainState) : Prop :=
  ∀ d, viewOf powerDown s name = some d → 0 ≤ d.1 ∧ 0 ≤ d.2.2.2

/-- `withdraw_vesting` leaves a sane account. -/
theorem applyWithdrawVesting_sane (hexact : fc.SafeExact) {o : WithdrawVestingOperation} {r : Unit}
    (h : Returns (applyWithdrawVesting fc o) s r t) : Sane o.account t := by
  obtain ⟨account, -, h⟩ := lookup_bind h
  obtain ⟨_, hcheck, h⟩ := h.gets_bind.gets_bind.lift_bind
  obtain ⟨_, hnonneg, -⟩ := bind_eq_ok hcheck
  have hnonneg : 0 ≤ o.vestingShares.amount := by simpa using fcAssert_eq_ok hnonneg
  intro d hd
  unfold viewOf at hd
  split at h
  · obtain ⟨_, -, h⟩ := h.lift_bind
    obtain ⟨a, b, -, hab, hb⟩ := modifyAccount_find (fun a b hab => by
      rw [← Except.ok.inj hab]
      rfl) h
    rw [hb, ← Except.ok.inj hab] at hd
    rw [← Option.some.inj hd]
    exact ⟨le_refl _, le_refl _⟩
  · obtain ⟨a, b, -, hab, hb⟩ := modifyAccount_find (fun a b hab => by
      obtain ⟨_, -, hab⟩ := bind_eq_ok hab
      obtain ⟨_, -, hab⟩ := bind_eq_ok hab
      rw [← Except.ok.inj hab]) h
    obtain ⟨rate, hrate, hab⟩ := bind_eq_ok hab
    obtain ⟨_, -, hab⟩ := bind_eq_ok hab
    rw [hb, ← Except.ok.inj hab] at hd
    rw [← Option.some.inj hd]
    refine ⟨?_, hnonneg⟩
    unfold FcLib.div at hrate
    rw [if_neg (by decide)] at hrate
    have hrate := (hexact.checked hrate).1
    have hquotient : 0 ≤ o.vestingShares.amount.tdiv wlsVestingWithdrawIntervals :=
      Int.tdiv_nonneg hnonneg (Int.natCast_nonneg _)
    change 0 ≤ if rate = 0 then 1 else rate
    split <;> omega

/-- A step of the chain keeps an account sane. -/
theorem step_sane (hexact : env.SafeExact) {m : Step} (h : Occurs env m.event m.before m.after)
    (hs : Sane name m.before) : Sane name m.after := by
  by_cases hunrelated : PowerDown.Unrelated name m.event
  · rcases PowerDown.step_untouched h hunrelated with hsame | ⟨-, e, hidle, hnew⟩
    · intro d hd
      exact hs d (hsame.symm.trans hd)
    · intro d hd
      obtain rfl : e = d := Option.some.inj (hnew.symm.trans hd)
      rw [show e = (0, timePointSecMaximum, 0, 0) from hidle]
      exact ⟨le_refl _, le_refl _⟩
  · obtain ⟨s, event, t⟩ := m
    cases h with
    | operation ctx henv op hvalid hnull h =>
      rw [← henv] at hexact
      cases op with
      | withdrawVesting o =>
        have hname : o.account = name := not_not.mp hunrelated
        exact hname ▸ applyWithdrawVesting_sane hexact h
      | _ => exact absurd trivial hunrelated
    | withdrawal hsource hdue h =>
      rename_i source
      have hside := WithdrawalLoop.untouched_conduct name
      have hname : source.name = name := not_not.mp hunrelated
      obtain ⟨_, _, u, v, -, hsu, huv, hvt⟩ := processVestingWithdrawal_finishes _
        (fun _ _ => depositAsVests_aside _ hside _ _ _)
        (fun _ _ => depositAsSteem_aside _ hside _ _ _ _) (fun _ => modifyDgp_aside hside _)
        (fun _ _ => adjustProxiedWitnessVotes_aside _ hside _ _) h
      rw [hname] at hsource huv
      obtain ⟨a, b, ha, hab, hb⟩ := modifyAccount_find WithdrawalLoop.finishWithdrawal_name huv
      have hview : viewOf powerDown s name = some (powerDown source) :=
        congrArg (Option.map powerDown) hsource
      have hsame : powerDown a = powerDown source :=
        Option.some.inj ((congrArg (Option.map powerDown) ha).symm.trans (hsu.eq_some hview))
      have hafter : viewOf powerDown t name = some (powerDown b) :=
        hvt.eq_some (congrArg (Option.map powerDown) hb)
      have hbefore : 0 ≤ a.vestingWithdrawRate ∧ 0 ≤ a.toWithdraw :=
        hs (powerDown a) (hview.trans (congrArg some hsame.symm))
      have hdown := (PowerDown.finishWithdrawal_down hexact hab).2
      intro d hd
      obtain rfl : powerDown b = d := Option.some.inj (hafter.symm.trans hd)
      change 0 ≤ b.vestingWithdrawRate ∧ 0 ≤ b.toWithdraw
      split at hdown
      all_goals
        simp only [powerDown, Prod.mk.injEq] at hdown
        omega
    | cashout h => exact absurd trivial hunrelated
    | burning h => exact absurd trivial hunrelated
    | upkeep hm hlater h => exact absurd trivial hunrelated

/-- The accounts of genesis are sane. -/
theorem sane_initGenesis (env : Env) (initSupply : ℕ) (name : AccountName) :
    Sane name (initGenesis env initSupply) := by
  intro d hd
  obtain ⟨b, hb, rfl⟩ := Option.map_eq_some_iff.mp hd
  have hmem : b ∈ genesisAccounts env initSupply := List.mem_of_find?_eq_some hb
  have hall : ∀ b ∈ genesisAccounts env initSupply, powerDown b = (0, timePointSecMaximum, 0, 0) := by
    intro b hb
    rcases List.mem_append.mp hb with hb | hb
    · simp only [List.mem_cons, List.not_mem_nil, or_false] at hb
      rcases hb with rfl | rfl | rfl | rfl | rfl <;> rfl
    · obtain ⟨i, -, rfl⟩ := List.mem_map.mp hb
      rfl
  rw [hall b hmem]
  exact ⟨le_refl _, le_refl _⟩

/-- The percents of routes are at most 100%. -/
def Percents (s : ChainState) : Prop :=
  ∀ r ∈ s.withdrawVestingRoutes.rows, r.percent ≤ wls100Percent

/-- A valid route has at most the whole percent. -/
theorem setRoute_percent {o : SetWithdrawVestingRouteOperation} (h : o.validate = .ok ()) :
    o.percent ≤ wls100Percent := by
  obtain ⟨_, -, h⟩ := bind_eq_ok h
  obtain ⟨_, -, h⟩ := bind_eq_ok h
  simpa using fcAssert_eq_ok h

/-- A step of the chain keeps the percents of the routes. -/
theorem step_percents {m : Step} (h : Occurs env m.event m.before m.after) (hrouted : Routed m.before)
    (hs : Percents m.before) : Percents m.after := by
  rcases step_routes h with hsame | ⟨o, hevent, hreturns⟩
  · unfold Percents
    rw [hsame.1]
    exact hs
  · have hpercent : o.percent ≤ wls100Percent := by
      rw [hevent] at h
      cases h with
      | operation ctx henv op hvalid hnull h => exact setRoute_percent hvalid
    obtain ⟨source, target, -, -, -, -, hchange⟩ := setRoute_change hrouted.indices hreturns
    intro r hr
    cases hchange with
    | created id hnone hid hrows hnext hroom hcount =>
      rw [hrows] at hr
      rcases List.mem_append.mp hr with hr | hr
      · exact hs r hr
      · rw [List.mem_singleton.mp hr]
        exact hpercent
    | removed before after route hrows hroute hzero hrows' hnext hcount =>
      refine hs r ?_
      rw [hrows]
      rw [hrows'] at hr
      rcases List.mem_append.mp hr with hr | hr
      · exact List.mem_append_left _ hr
      · exact List.mem_append_right _ (List.mem_cons_of_mem _ hr)
    | replaced before after route hrows hroute hrows' hnext haccounts =>
      rw [hrows'] at hr
      rcases List.mem_append.mp hr with hr | hr
      · exact hs r (hrows ▸ List.mem_append_left _ hr)
      · rcases List.mem_cons.mp hr with rfl | hr
        · exact hpercent
        · exact hs r (hrows ▸ List.mem_append_right _ (List.mem_cons_of_mem _ hr))

/-- An account has at most all shares. -/
theorem InBalance.shares {s : ChainState} (h : Conservation.InBalance s) {a : AccountObject}
    (ha : a ∈ s.accounts.rows) : 0 ≤ a.vestingShares ∧ a.vestingShares < 2 ^ 63 := by
  have hmem : purse a ∈ (books s).purses := List.mem_map_of_mem ha
  have hall : ∀ x ∈ (books s).purses.map (·.vestingShares), 0 ≤ x := by
    intro x hx
    obtain ⟨p, hp, rfl⟩ := List.mem_map.mp hx
    exact (h.sound p hp).vestingShares
  have hle := List.single_le_sum hall a.vestingShares
    (List.mem_map_of_mem (f := fun p : Purse => p.vestingShares) hmem)
  have htotal := h.totalVestingShares
  have hlt := h.shares_lt
  unfold Books.sum at htotal
  exact ⟨hall _ (List.mem_map_of_mem (f := fun p : Purse => p.vestingShares) hmem), by omega⟩

/-- The states of runs are well formed. -/
theorem history_wellFormed (hexact : env.SafeExact) {initSupply : ℕ}
    (h : History env (initGenesis env initSupply) steps s) : WellFormed s := by
  have hbalance : Conservation.InBalance s := history_inBalance hexact h
  obtain ⟨hrouted, hpercents⟩ := Path.invariant (P := fun s => Routed s ∧ Percents s) h
    ⟨routed_initGenesis env initSupply, fun r hr => by cases hr⟩
    fun m _ hstep hs => ⟨step_routed hstep hs.1, step_percents hstep hs.1 hs.2⟩
  refine ⟨?_, fun r hr => ?_, fun a ha => InBalance.shares hbalance ha, fun name a ha => ?_⟩
  · have hids := hrouted.accounts
    rw [List.map_map] at hids
    exact hids
  · have hle := hpercents r hr
    unfold wls100Percent at hle
    omega
  · have hsane : Sane name s := Path.invariant h (sane_initGenesis env initSupply name)
      fun m _ hstep hs => step_sane hexact hstep hs
    exact hsane (powerDown a) (congrArg (Option.map powerDown) ha)

end Reachable

section Sample

open PowerDown

/-- The first miner powers up, withdraws a hundred shares and sends all of it to an account. -/
def routedDown (target : AccountName) : List Operation :=
  [powerUp, .withdrawVesting powerDownHundred,
    .setWithdrawVestingRoute ⟨initMinerName 0, target, 10000, true⟩]

/-- The operations of the instance are valid, and none acts for the null account. -/
theorem routedDown_checks {target : AccountName}
    (htarget : validateAccountName target = .ok ()) : ∀ op ∈ routedDown target,
    op.validate sampleEnv.toFcLib = .ok () ∧ NotForNull op := by
  intro op hop
  simp only [routedDown, List.mem_cons, List.not_mem_nil, or_false] at hop
  rcases hop with rfl | rfl | rfl
  · exact ⟨by decide, by decide, by decide⟩
  · exact ⟨by decide, by decide, by decide⟩
  · have hactive : nullAccount ∉ [initMinerName 0] := by decide
    refine ⟨?_, hactive, List.not_mem_nil⟩
    change (do
      validateAccountName (initMinerName 0)
      validateAccountName target
      fcAssert (decide (10000 ≤ wls100Percent)) "Percent must be valid wls percent" :
      Except Exc Unit) = _
    rw [htarget]
    decide

/-- The seven shares of a withdrawal that all go to the account of id zero stay with the account
that withdraws. -/
theorem paid_along_unvisited : ∃ steps s source t,
    History sampleEnv (initGenesis sampleEnv 1000000) steps s ∧
      s.accounts.find (named (initMinerName 0)) = some source ∧
      withdrawalOf sampleEnv.toFcLib source = .ok 7 ∧
      askedBy 7 (fun _ => true) (routesFrom s source.id) = 7 ∧
      Returns (processVestingWithdrawal sampleEnv.toFcLib source) s () t ∧
      ¬ PaidAlong sampleEnv.toFcLib source 7 s t := by
  have hends : endsIn (lateStart (routedDown minerAccount)) (initGenesis sampleEnv 1000000) (fun _ s =>
        match s.accounts.find (named (initMinerName 0)) with
        | some source =>
          decide (withdrawalOf sampleEnv.toFcLib source = .ok 7) &&
          decide (askedBy 7 (·.autoVest) (routesFrom s source.id) = 7) &&
          decide (askedBy 7 (fun _ => true) (routesFrom s source.id) = 7) &&
          decide (visited s source.id = []) &&
          endsIn (processVestingWithdrawal sampleEnv.toFcLib source) s fun _ _ => true
        | none => false) = true := by
    decide +kernel
  obtain ⟨_, s, hs, hcheck⟩ := returns_of_endsIn hends
  obtain ⟨steps, hsteps, -⟩ := lateStart_quiet hs (routedDown_checks (by decide))
  split at hcheck
  next source hsource =>
    simp only [Bool.and_eq_true, decide_eq_true_eq] at hcheck
    obtain ⟨⟨⟨⟨hwithdraw, hvests⟩, hall⟩, hvisited⟩, hend⟩ := hcheck
    obtain ⟨_, t, ht, -⟩ := returns_of_endsIn hend
    refine ⟨steps, s, source, t, hsteps, hsource, hwithdraw, hall, ht, ?_⟩
    rintro ⟨order, hperm, -, hdeposited, -⟩
    have hnothing : Deposited sampleEnv.toFcLib source 7 s 0 0 := by
      refine ⟨s, s, ?_, ?_⟩
      all_goals
        rw [hvisited]
        rfl
    have hzero := (hnothing.unique hdeposited).1
    rw [askedBy_perm hperm, hvests] at hzero
    exact absurd hzero (by decide)
  next => cases hcheck

/-- Along a route to an account above id zero exactly what it asks for is paid. -/
theorem paid_along_iff_temp : ∃ s source t,
    Returns (processVestingWithdrawal sampleEnv.toFcLib source) s () t ∧
      askedBy 7 (fun _ => true) (routesFrom s source.id) = 7 ∧
      PaidAlong sampleEnv.toFcLib source 7 s t := by
  have hends : endsIn (lateStart (routedDown (nameOf "temp"))) (initGenesis sampleEnv 1000000) (fun _ s =>
        match s.accounts.find (named (initMinerName 0)) with
        | some source =>
          decide (withdrawalOf sampleEnv.toFcLib source = .ok 7) &&
          decide (source.name = initMinerName 0) &&
          decide (askedBy 7 (fun _ => true) (routesFrom s source.id) = 7) &&
          s.withdrawVestingRoutes.rows.all (fun route => decide (route.toAccount ≠ 0)) &&
          endsIn (processVestingWithdrawal sampleEnv.toFcLib source) s fun _ _ => true
        | none => false) = true := by
    decide +kernel
  obtain ⟨_, s, hs, hcheck⟩ := returns_of_endsIn hends
  obtain ⟨steps, hsteps, -⟩ := lateStart_quiet hs (routedDown_checks (by decide))
  split at hcheck
  next source hsource =>
    simp only [Bool.and_eq_true, decide_eq_true_eq, List.all_eq_true] at hcheck
    obtain ⟨⟨⟨⟨hwithdraw, hname⟩, hall⟩, hroutes⟩, hend⟩ := hcheck
    obtain ⟨_, t, ht, -⟩ := returns_of_endsIn hend
    refine ⟨s, source, t, ht, hall, ?_⟩
    exact (paid_along_iff sampleEnv_safeExact (history_wellFormed sampleEnv_safeExact hsteps)
      (hname ▸ hsource) hwithdraw ht).mpr fun route hroute _ hto => absurd hto (hroutes route hroute)
  next => cases hcheck

end Sample

end Whaleshares.RoutePayout
