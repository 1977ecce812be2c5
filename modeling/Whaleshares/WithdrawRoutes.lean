import Whaleshares.Timeline

/-!
# The routes of withdrawals

An account can send parts of its withdrawals to others, along at most ten routes. After a
route is set the evaluator adds up the percents of the routes of the account. The scan starts
above the route to `account_id_type()`, the account of id zero, so that route is never
counted. Without it the limit of 100% holds, and the counter of the routes is right always.
-/

namespace Whaleshares.WithdrawRoutes

open Config Fc Assets Protocol Objects Program Database Vesting Evaluators Genesis ChainRun
  Footprint Sidelines LabelledRun Timeline

section Allotment

/-- The route from one account to another. -/
def connects (source target : ℕ) (r : WithdrawVestingRouteObject) : Bool :=
  r.fromAccount = source && r.toAccount = target

/-- The percents of the routes of an account to the accounts that satisfy a condition. -/
def allotted (routes : List WithdrawVestingRouteObject) (source : ℕ) (p : ℕ → Bool) : ℕ :=
  ((routes.filter fun r => r.fromAccount = source && p r.toAccount).map (·.percent)).sum

/-- The number of the routes of an account. -/
def routeCount (routes : List WithdrawVestingRouteObject) (source : ℕ) : ℕ :=
  routes.countP fun r => r.fromAccount = source

variable {routes before after : List WithdrawVestingRouteObject} {route : WithdrawVestingRouteObject}
  {source target : ℕ} {p q : ℕ → Bool}

/-- Without routes nothing is allotted. -/
theorem allotted_nil : allotted [] source p = 0 := rfl

/-- A further route allots its percent, if it starts at the account. -/
theorem allotted_cons : allotted (route :: routes) source p =
    (if route.fromAccount = source ∧ p route.toAccount = true then route.percent else 0) +
      allotted routes source p := by
  unfold allotted
  by_cases h : route.fromAccount = source ∧ p route.toAccount = true
  · rw [List.filter_cons_of_pos (by simpa using h), List.map_cons, List.sum_cons, if_pos h]
  · rw [List.filter_cons_of_neg (by simpa using h), if_neg h, Nat.zero_add]

/-- What two lists of routes allot is the sum of both. -/
theorem allotted_append : allotted (before ++ after) source p =
    allotted before source p + allotted after source p := by
  unfold allotted
  rw [List.filter_append, List.map_append, List.sum_append]

/-- What is allotted depends on the routes of the account alone. -/
theorem allotted_congr (h : ∀ r ∈ routes, r.fromAccount = source → p r.toAccount = q r.toAccount) :
    allotted routes source p = allotted routes source q := by
  unfold allotted
  congr 2
  refine List.filter_congr fun r hr => ?_
  by_cases hsource : r.fromAccount = source
  · rw [h r hr hsource]
  · simp [hsource]

/-- The routes to the account of id zero and the others are all routes. -/
theorem allotted_split (routes : List WithdrawVestingRouteObject) (source : ℕ) (p q : ℕ → Bool) :
    allotted routes source (fun n => p n && q n) + allotted routes source (fun n => p n && !q n) =
      allotted routes source p := by
  induction routes with
  | nil => rfl
  | cons route rest ih =>
    rw [allotted_cons, allotted_cons, allotted_cons]
    by_cases hsource : route.fromAccount = source
    · cases hp : p route.toAccount <;> cases hq : q route.toAccount <;>
        simp_all <;> omega
    · simp only [hsource, false_and, if_false]
      omega

end Allotment

section Change

variable {s t : ChainState} {o : SetWithdrawVestingRouteOperation} {source target : AccountObject}

/-- The id of an account and the counter of its routes. -/
def routeEntry (a : AccountObject) : ℕ × ℕ := (a.id, a.withdrawRoutes)

/-- No two routes have one id or the same ends. -/
structure RouteIndices (s : ChainState) : Prop where
  ids : (s.withdrawVestingRoutes.rows.map (·.id)).Nodup
  ends : (s.withdrawVestingRoutes.rows.map fun r => (r.fromAccount, r.toAccount)).Nodup

/-- The counter of the routes of one account changes. -/
structure Recounted (source : AccountObject) (count : ℕ) (s t : ChainState) : Prop where
  entries : ∃ before after,
    s.accounts.rows.map routeEntry = before ++ (source.id, source.withdrawRoutes) :: after ∧
      t.accounts.rows.map routeEntry = before ++ (source.id, count) :: after
  nextId : t.accounts.nextId = s.accounts.nextId

/-- What setting a route does: it creates the route, removes it, or replaces it. -/
inductive RouteChange (o : SetWithdrawVestingRouteOperation) (source target : AccountObject)
    (s t : ChainState) : Prop where
  | created (id : ℕ) (hnone : s.withdrawVestingRoutes.find (connects source.id target.id) = none)
      (hid : id = s.withdrawVestingRoutes.nextId)
      (hrows : t.withdrawVestingRoutes.rows = s.withdrawVestingRoutes.rows ++
        [⟨id, source.id, target.id, o.percent, o.autoVest⟩])
      (hnext : t.withdrawVestingRoutes.nextId = s.withdrawVestingRoutes.nextId + 1)
      (hroom : source.withdrawRoutes < wlsMaxWithdrawRoutes)
      (hcount : Recounted source (source.withdrawRoutes + 1) s t)
  | removed (before after : List WithdrawVestingRouteObject) (route : WithdrawVestingRouteObject)
      (hrows : s.withdrawVestingRoutes.rows = before ++ route :: after)
      (hroute : connects source.id target.id route = true) (hpercent : o.percent = 0)
      (hrows' : t.withdrawVestingRoutes.rows = before ++ after)
      (hnext : t.withdrawVestingRoutes.nextId = s.withdrawVestingRoutes.nextId)
      (hcount : Recounted source ((source.withdrawRoutes + (2 ^ 16 - 1)) % 2 ^ 16) s t)
  | replaced (before after : List WithdrawVestingRouteObject) (route : WithdrawVestingRouteObject)
      (hrows : s.withdrawVestingRoutes.rows = before ++ route :: after)
      (hroute : connects source.id target.id route = true)
      (hrows' : t.withdrawVestingRoutes.rows =
        before ++ ⟨route.id, source.id, target.id, o.percent, o.autoVest⟩ :: after)
      (hnext : t.withdrawVestingRoutes.nextId = s.withdrawVestingRoutes.nextId)
      (haccounts : t.accounts = s.accounts)

/-- The change of a counter in the state in which the account is found. -/
theorem recount {name : AccountName} {f : ℕ → ℕ} {v : ChainState} {u : Unit}
    (hsource : s.accounts.find (named name) = some source) (hv : v.accounts = s.accounts)
    (h : Returns (modifyAccount (named name) fun a => .ok
      { a with withdrawRoutes := f a.withdrawRoutes }) v u t) :
    Recounted source (f source.withdrawRoutes) s t ∧
      t.withdrawVestingRoutes = v.withdrawVestingRoutes := by
  obtain ⟨x, hx, rfl⟩ := map_eq_ok h.update
  rw [hv] at hx
  obtain ⟨before, row, after, hrows, hrows', hrow⟩ := Table.modify_found hx hsource
  refine ⟨⟨⟨before.map routeEntry, after.map routeEntry, ?_, ?_⟩, (Table.modify_eq_ok hx).2⟩, rfl⟩
  · rw [hrows, List.map_append]
    rfl
  · change x.rows.map routeEntry = _
    rw [hrows', ← Except.ok.inj hrow, List.map_append]
    rfl

/-- The checks before a route is changed. -/
def RouteChecks (s : ChainState) (o : SetWithdrawVestingRouteOperation)
    (source target : AccountObject) : Prop :=
  s.withdrawVestingRoutes.find (connects source.id target.id) = none →
    o.percent ≠ 0 ∧ source.withdrawRoutes < wlsMaxWithdrawRoutes

/-- A route that is found between two accounts is found by its id. -/
theorem find_route (hs : RouteIndices s) {route : WithdrawVestingRouteObject}
    (h : s.withdrawVestingRoutes.find (connects source.id target.id) = some route) :
    s.withdrawVestingRoutes.find (fun r => r.id = route.id) = some route :=
  (Table.find_key WithdrawVestingRouteObject.id hs.ids).mpr ⟨List.mem_of_find?_eq_some h, rfl⟩

/-- A route is changed exactly as the operation asks, after its checks. -/
theorem changeRoute_change (hs : RouteIndices s)
    (hsource : s.accounts.find (named o.fromAccount) = some source) {u : Unit}
    (h : Returns (changeRoute o source target
      (s.withdrawVestingRoutes.find (connects source.id target.id))) s u t) :
    RouteChecks s o source target ∧ RouteChange o source target s t := by
  cases hfound : s.withdrawVestingRoutes.find (connects source.id target.id) with
  | none =>
    rw [hfound] at h
    obtain ⟨_, hpercent, h⟩ := h.lift_bind
    obtain ⟨_, hroom, h⟩ := h.lift_bind
    obtain ⟨_, v, hv, h⟩ := h.bind
    obtain ⟨x, hx, rfl⟩ := map_eq_ok hv.update
    obtain ⟨route, hroute, -, hrows, hnext⟩ := Table.create_rows hx
    have hpercent : o.percent ≠ 0 := by simpa using fcAssert_eq_ok hpercent
    have hroom : source.withdrawRoutes < wlsMaxWithdrawRoutes := by
      simpa using fcAssert_eq_ok hroom
    obtain ⟨hcount, hsame⟩ := recount (f := fun n => (n + 1) % 2 ^ 16) hsource (by rfl) h
    have hsmall : (source.withdrawRoutes + 1) % 2 ^ 16 = source.withdrawRoutes + 1 := by
      unfold wlsMaxWithdrawRoutes at hroom
      omega
    rw [hsmall] at hcount
    refine ⟨fun _ => ⟨hpercent, hroom⟩,
      .created s.withdrawVestingRoutes.nextId hfound rfl ?_ ?_ hroom ⟨hcount.1, hcount.2⟩⟩
    · rw [hsame, Except.ok.inj hroute]
      exact hrows
    · rw [hsame]
      exact hnext
  | some route =>
    have hconnects : connects source.id target.id route = true := List.find?_some hfound
    have hfind := find_route hs hfound
    refine ⟨fun hnone => ?_, ?_⟩
    · rw [hfound] at hnone
      cases hnone
    rw [hfound] at h
    unfold changeRoute at h
    simp only at h
    split at h
    next hzero =>
      obtain ⟨_, v, hv, h⟩ := h.bind
      have hv := Except.ok.inj hv.update
      obtain ⟨before, after, hrows⟩ := List.append_of_mem (List.mem_of_find?_eq_some hfound)
      have hother := hs.ids
      rw [hrows, List.map_append, List.map_cons] at hother
      have hapart := List.nodup_append'.mp hother
      have hbefore : before.filter (fun r => !decide (r.id = route.id)) = before := by
        refine List.filter_eq_self.mpr fun r hr => ?_
        have hne : r.id ≠ route.id := fun heq =>
          hapart.2.2 (List.mem_map_of_mem hr) (by rw [heq]; exact List.mem_cons_self)
        simp [hne]
      have hafter : after.filter (fun r => !decide (r.id = route.id)) = after := by
        refine List.filter_eq_self.mpr fun r hr => ?_
        have hne : r.id ≠ route.id := fun heq =>
          (List.nodup_cons.mp hapart.2.1).1 (heq ▸ List.mem_map_of_mem hr)
        simp [hne]
      rw [← hv] at h
      obtain ⟨hcount, hsame⟩ := recount (f := fun n => (n + (2 ^ 16 - 1)) % 2 ^ 16) hsource (by rfl) h
      refine .removed before after route hrows hconnects hzero ?_ ?_ ⟨hcount.1, hcount.2⟩
      · rw [hsame]
        change s.withdrawVestingRoutes.rows.filter (fun r => !decide (r.id = route.id)) = _
        rw [hrows, List.filter_append, List.filter_cons_of_neg (by simp), hbefore, hafter]
      · rw [hsame]
        rfl
    next =>
      obtain ⟨x, hx, rfl⟩ := map_eq_ok h.update
      obtain ⟨before, row, after, hrows, hrows', hrow⟩ := Table.modify_found hx hfind
      refine .replaced before after route hrows hconnects ?_ (Table.modify_eq_ok hx).2 rfl
      rw [← Except.ok.inj hrow] at hrows'
      exact hrows'

/-- A change whose checks pass is made. -/
theorem changeRoute_exists (hs : RouteIndices s)
    (hsource : s.accounts.find (named o.fromAccount) = some source)
    (hchecks : RouteChecks s o source target) :
    ∃ t, Returns (changeRoute o source target
      (s.withdrawVestingRoutes.find (connects source.id target.id))) s () t := by
  cases hfound : s.withdrawVestingRoutes.find (connects source.id target.id) with
  | none =>
    obtain ⟨hpercent, hroom⟩ := hchecks hfound
    have hfree : s.withdrawVestingRoutes.rows.any (fun r =>
        decide (source.id = r.fromAccount) && decide (target.id = r.toAccount)) = false := by
      refine List.any_eq_false.mpr fun r hr hclash => ?_
      have hnot := List.find?_eq_none.mp hfound r hr
      simp only [Bool.and_eq_true, decide_eq_true_eq] at hclash
      exact hnot (by simp [connects, hclash])
    obtain ⟨x, hx⟩ := Table.exists_modify unknownKey hsource
      (f := fun a => .ok { a with withdrawRoutes := (a.withdrawRoutes + 1) % 2 ^ 16 }) rfl
    refine ⟨{ s with
      withdrawVestingRoutes := ⟨s.withdrawVestingRoutes.rows ++
        [⟨s.withdrawVestingRoutes.nextId, source.id, target.id, o.percent, o.autoVest⟩],
        s.withdrawVestingRoutes.nextId + 1⟩
      accounts := x }, ?_⟩
    refine Returns.intro_bind (Returns.intro_lift (fcAssert_of (by simpa using hpercent))) ?_
    refine Returns.intro_bind (Returns.intro_lift (fcAssert_of (by simpa using hroom))) ?_
    refine Returns.intro_bind (u := { s with withdrawVestingRoutes :=
      ⟨s.withdrawVestingRoutes.rows ++
        [⟨s.withdrawVestingRoutes.nextId, source.id, target.id, o.percent, o.autoVest⟩],
        s.withdrawVestingRoutes.nextId + 1⟩ }) (Returns.intro_update ?_) (Returns.intro_update ?_)
    · unfold Table.create
      simp only [Except.bind, hfree, Bool.false_eq_true, if_false]
      rfl
    · simp only
      rw [hx]
      rfl
  | some route =>
    have hfind := find_route hs hfound
    by_cases hzero : o.percent = 0
    · obtain ⟨x, hx⟩ := Table.exists_modify unknownKey hsource
        (f := fun a => .ok { a with withdrawRoutes := (a.withdrawRoutes + (2 ^ 16 - 1)) % 2 ^ 16 })
        rfl
      refine ⟨{ s with
        withdrawVestingRoutes := s.withdrawVestingRoutes.remove fun r => r.id = route.id
        accounts := x }, ?_⟩
      unfold changeRoute
      simp only [if_pos hzero]
      refine Returns.intro_bind (Returns.intro_update rfl) (Returns.intro_update ?_)
      simp only
      rw [hx]
      rfl
    · obtain ⟨x, hx⟩ := Table.exists_modify unknownKey hfind
        (f := fun r => .ok ⟨r.id, source.id, target.id, o.percent, o.autoVest⟩) rfl
      refine ⟨{ s with withdrawVestingRoutes := x }, ?_⟩
      unfold changeRoute
      simp only [if_neg hzero]
      refine Returns.intro_update ?_
      rw [hx]
      rfl

end Change

section Limit

variable {s t : ChainState} {o : SetWithdrawVestingRouteOperation} {source target : AccountObject}

/-- The percents of the routes of an account, to the accounts that satisfy a condition, after a
route is set. -/
def allottedAfter (s : ChainState) (o : SetWithdrawVestingRouteOperation)
    (source target : AccountObject) (p : ℕ → Bool) : ℕ :=
  allotted s.withdrawVestingRoutes.rows source.id (fun n => n ≠ target.id && p n) +
    if p target.id then o.percent else 0

/-- Where no route connects the accounts, the target may be left out. -/
theorem allotted_apart {routes : List WithdrawVestingRouteObject} (p : ℕ → Bool)
    (h : ∀ r ∈ routes, connects source.id target.id r = false) :
    allotted routes source.id p = allotted routes source.id (fun n => n ≠ target.id && p n) := by
  refine allotted_congr fun r hr hfrom => ?_
  have hne : r.toAccount ≠ target.id := by
    intro hto
    have hnot := h r hr
    rw [connects, hfrom, hto] at hnot
    simp at hnot
  simp [hne]

/-- The other routes have other ends. -/
theorem RouteIndices.apart (hs : RouteIndices s) {before after : List WithdrawVestingRouteObject}
    {route : WithdrawVestingRouteObject}
    (hrows : s.withdrawVestingRoutes.rows = before ++ route :: after)
    (hroute : connects source.id target.id route = true) :
    (∀ r ∈ before, connects source.id target.id r = false) ∧
      ∀ r ∈ after, connects source.id target.id r = false := by
  have hends := hs.ends
  rw [hrows, List.map_append, List.map_cons] at hends
  have hapart := List.nodup_append'.mp hends
  have hkey : ∀ r, connects source.id target.id r = true →
      (r.fromAccount, r.toAccount) = (route.fromAccount, route.toAccount) := by
    intro r hr
    simp only [connects, Bool.and_eq_true, decide_eq_true_eq] at hr hroute
    rw [hr.1, hr.2, hroute.1, hroute.2]
  constructor
  · intro r hr
    refine Bool.eq_false_of_not_eq_true fun hconnects => ?_
    refine hapart.2.2 (List.mem_map_of_mem (f := fun r => (r.fromAccount, r.toAccount)) hr) ?_
    rw [hkey r hconnects]
    exact List.mem_cons_self
  · intro r hr
    refine Bool.eq_false_of_not_eq_true fun hconnects => ?_
    have hmem := List.mem_map_of_mem (f := fun r : WithdrawVestingRouteObject =>
      (r.fromAccount, r.toAccount)) hr
    rw [hkey r hconnects] at hmem
    exact (List.nodup_cons.mp hapart.2.1).1 hmem

/-- After the change the target has its new percent, and the other routes of the account theirs. -/
theorem RouteChange.allotted_eq (hs : RouteIndices s) (h : RouteChange o source target s t)
    (p : ℕ → Bool) : allotted t.withdrawVestingRoutes.rows source.id p =
      allottedAfter s o source target p := by
  unfold allottedAfter
  cases h with
  | created id hnone hid hrows hnext hroom hcount =>
    have hapart : ∀ r ∈ s.withdrawVestingRoutes.rows, connects source.id target.id r = false :=
      fun r hr => Bool.eq_false_of_not_eq_true (List.find?_eq_none.mp hnone r hr)
    rw [hrows, allotted_append, allotted_apart p hapart, allotted_cons, allotted_nil, Nat.add_zero]
    simp
  | removed before after route hrows hroute hpercent hrows' hnext hcount =>
    obtain ⟨hbefore, hafter⟩ := hs.apart hrows hroute
    have hto : route.toAccount = target.id := by
      simp only [connects, Bool.and_eq_true, decide_eq_true_eq] at hroute
      exact hroute.2
    rw [hrows', hrows, allotted_append, allotted_append, allotted_cons, allotted_apart p hbefore,
      allotted_apart p hafter, hpercent, hto]
    simp
  | replaced before after route hrows hroute hrows' hnext haccounts =>
    obtain ⟨hbefore, hafter⟩ := hs.apart hrows hroute
    have hto : route.toAccount = target.id := by
      simp only [connects, Bool.and_eq_true, decide_eq_true_eq] at hroute
      exact hroute.2
    rw [hrows', hrows, allotted_append, allotted_append, allotted_cons, allotted_cons,
      allotted_apart p hbefore, allotted_apart p hafter, hto]
    simp only [decide_not, decide_true, Bool.not_true, Bool.false_and, Bool.false_eq_true,
      and_false, if_false, true_and]
    omega

/-- The routes of the other accounts stay. -/
theorem RouteChange.allotted_other (h : RouteChange o source target s t) {n : ℕ}
    (hn : source.id ≠ n) (p : ℕ → Bool) : allotted t.withdrawVestingRoutes.rows n p =
      allotted s.withdrawVestingRoutes.rows n p := by
  cases h with
  | created id hnone hid hrows hnext hroom hcount =>
    rw [hrows, allotted_append, allotted_cons, allotted_nil]
    simp [hn]
  | removed before after route hrows hroute hpercent hrows' hnext hcount =>
    have hfrom : route.fromAccount = source.id := by
      simp only [connects, Bool.and_eq_true, decide_eq_true_eq] at hroute
      exact hroute.1
    rw [hrows', hrows, allotted_append, allotted_append, allotted_cons, hfrom]
    simp [hn]
  | replaced before after route hrows hroute hrows' hnext haccounts =>
    have hfrom : route.fromAccount = source.id := by
      simp only [connects, Bool.and_eq_true, decide_eq_true_eq] at hroute
      exact hroute.1
    rw [hrows', hrows, allotted_append, allotted_append, allotted_cons, allotted_cons, hfrom]
    simp [hn]

/-- The evaluator adds up the percents of the routes to the accounts after the one of id zero. -/
theorem routesOf_percents (n : ℕ) :
    ((s.withdrawVestingRoutes.select (fun route => route.fromAccount = n && 0 < route.toAccount)
      WithdrawVestingRouteObject.byToAccount).map (·.percent)).sum =
      allotted s.withdrawVestingRoutes.rows n (fun m => 0 < m) := by
  have hperm := List.perm_insertionSort
    (fun a b : WithdrawVestingRouteObject => a.byToAccount b = true)
    (s.withdrawVestingRoutes.rows.filter fun route => route.fromAccount = n && 0 < route.toAccount)
  exact (hperm.map (·.percent)).sum_eq

/-- A route is accepted if and only if its checks pass and the percents that are added up, in
16 bits, are at most 100%. -/
theorem route_accepted_iff (hs : RouteIndices s)
    (hsource : s.accounts.find (named o.fromAccount) = some source)
    (htarget : s.accounts.find (named o.toAccount) = some target) :
    (∃ t, Returns (applySetWithdrawVestingRoute o) s () t) ↔ RouteChecks s o source target ∧
      allottedAfter s o source target (fun n => 0 < n) % 2 ^ 16 ≤ wls100Percent := by
  constructor
  · rintro ⟨t, h⟩
    obtain ⟨_, hfound, h⟩ := lookup_bind h
    rw [Option.some.inj (hfound.symm.trans hsource)] at h
    obtain ⟨_, hfound, h⟩ := lookup_bind h
    rw [Option.some.inj (hfound.symm.trans htarget)] at h
    obtain ⟨_, u, hu, h⟩ := h.gets_bind.bind
    obtain ⟨hchecks, hchange⟩ := changeRoute_change hs hsource hu
    obtain ⟨hlimit, -⟩ := h.gets_bind.lift
    have hlimit := fcAssert_eq_ok hlimit
    rw [routesOf_percents, hchange.allotted_eq hs] at hlimit
    exact ⟨hchecks, by simpa using hlimit⟩
  · rintro ⟨hchecks, hlimit⟩
    obtain ⟨u, hu⟩ := changeRoute_exists hs hsource hchecks
    obtain ⟨-, hchange⟩ := changeRoute_change hs hsource hu
    refine ⟨u, Returns.intro_bind (lookup_returns hsource) ?_⟩
    refine Returns.intro_bind (lookup_returns htarget) ?_
    refine Returns.intro_bind
      (a := s.withdrawVestingRoutes.find (connects source.id target.id)) rfl ?_
    refine Returns.intro_bind hu ?_
    refine Returns.intro_bind rfl (Returns.intro_lift (fcAssert_of ?_))
    rw [routesOf_percents, hchange.allotted_eq hs]
    simpa using hlimit

/-- A route is accepted exactly if its checks pass and the percents of all routes of the account,
after the change, are at most 100%. -/
def LimitExact (s : ChainState) (o : SetWithdrawVestingRouteOperation)
    (source target : AccountObject) : Prop :=
  (∃ t, Returns (applySetWithdrawVestingRoute o) s () t) ↔
    RouteChecks s o source target ∧
      allottedAfter s o source target (fun _ => true) ≤ wls100Percent

/-- Where the other checks pass, a route to the account of id zero has room beside the routes that
are added up. -/
def LeavesRoom (s : ChainState) (o : SetWithdrawVestingRouteOperation)
    (source target : AccountObject) : Prop :=
  RouteChecks s o source target →
    allottedAfter s o source target (fun n => 0 < n) % 2 ^ 16 ≤ wls100Percent →
    allottedAfter s o source target (fun n => 0 < n) +
      allottedAfter s o source target (fun n => n = 0) ≤ wls100Percent

/-- The routes to id zero and to the others add up to all. -/
theorem allottedAfter_all : allottedAfter s o source target (fun _ => true) =
    allottedAfter s o source target (fun n => 0 < n) +
      allottedAfter s o source target (fun n => n = 0) := by
  have hsplit := allotted_split s.withdrawVestingRoutes.rows source.id
    (fun n => n ≠ target.id) (fun n => 0 < n)
  have hzero : (fun n : ℕ => (decide (n ≠ target.id) && !decide (0 < n))) =
      fun n => decide (n ≠ target.id) && decide (n = 0) := by
    funext n
    cases n <;> simp
  have hone : (fun n : ℕ => (decide (n ≠ target.id) && true)) = fun n => decide (n ≠ target.id) :=
    funext fun n => Bool.and_true _
  rw [hzero] at hsplit
  unfold allottedAfter
  rw [hone, ← hsplit]
  by_cases htarget : target.id = 0
  · simp only [htarget, decide_true, if_true, Nat.lt_irrefl, decide_false, Bool.false_eq_true,
      if_false]
    omega
  · have hpos : 0 < target.id := Nat.pos_of_ne_zero htarget
    simp only [htarget, hpos, decide_true, if_true, decide_false, Bool.false_eq_true, if_false]
    omega

/-- The limit is exact if and only if the route to id zero leaves room. -/
theorem limit_exact_iff (hs : RouteIndices s)
    (hsource : s.accounts.find (named o.fromAccount) = some source)
    (htarget : s.accounts.find (named o.toAccount) = some target) :
    LimitExact s o source target ↔ LeavesRoom s o source target := by
  unfold LimitExact LeavesRoom
  rw [route_accepted_iff hs hsource htarget, allottedAfter_all]
  constructor
  · intro hexact hchecks hlimit
    exact (hexact.mp ⟨hchecks, hlimit⟩).2
  · intro hroom
    constructor
    · rintro ⟨hchecks, hlimit⟩
      exact ⟨hchecks, hroom hchecks hlimit⟩
    · rintro ⟨hchecks, htotal⟩
      refine ⟨hchecks, ?_⟩
      unfold wls100Percent at *
      omega

end Limit

section Runs

variable {env : Env} {s t : ChainState} {o : SetWithdrawVestingRouteOperation}
  {source target : AccountObject}

/-- The routes of the accounts, of which each entry has the id and the counter. -/
structure RouteBook (entries : List (ℕ × ℕ)) (bound : ℕ)
    (routes : Table WithdrawVestingRouteObject) : Prop where
  /-- The ids of accounts differ. -/
  accounts : (entries.map Prod.fst).Nodup
  /-- The next account has a new id. -/
  bounded : ∀ e ∈ entries, e.1 < bound
  /-- The ids of routes differ. -/
  ids : (routes.rows.map (·.id)).Nodup
  /-- The next route has a new id. -/
  idsBounded : ∀ r ∈ routes.rows, r.id < routes.nextId
  /-- There is one route between two accounts. -/
  ends : (routes.rows.map fun r => (r.fromAccount, r.toAccount)).Nodup
  /-- Every route starts at an account. -/
  sources : ∀ r ∈ routes.rows, r.fromAccount < bound
  /-- The counters are right. -/
  counted : ∀ e ∈ entries, routeCount routes.rows e.1 = e.2
  /-- An account has at most ten routes. -/
  few : ∀ e ∈ entries, e.2 ≤ wlsMaxWithdrawRoutes

/-- The routes are counted, and no two of them have one id or the same ends. -/
def Routed (s : ChainState) : Prop :=
  RouteBook (s.accounts.rows.map routeEntry) s.accounts.nextId s.withdrawVestingRoutes

/-- The routes of such a state have their indices. -/
theorem Routed.indices (h : Routed s) : RouteIndices s := ⟨h.ids, h.ends⟩

/-- The routes of two lists are counted together. -/
theorem routeCount_append (before after : List WithdrawVestingRouteObject) (n : ℕ) :
    routeCount (before ++ after) n = routeCount before n + routeCount after n :=
  List.countP_append

/-- A further route counts for its own account. -/
theorem routeCount_cons (route : WithdrawVestingRouteObject)
    (rest : List WithdrawVestingRouteObject) (n : ℕ) :
    routeCount (route :: rest) n = (if route.fromAccount = n then 1 else 0) + routeCount rest n := by
  unfold routeCount
  rw [List.countP_cons, Nat.add_comm]
  simp

/-- Another counter is right for an account where the number of its routes changed with it. -/
theorem RouteBook.recount {entries entries' : List (ℕ × ℕ)} {bound count count' : ℕ}
    {routes routes' : Table WithdrawVestingRouteObject} {id : ℕ}
    (h : RouteBook entries bound routes)
    (hentries : ∃ before after, entries = before ++ (id, count) :: after ∧
      entries' = before ++ (id, count') :: after)
    (hcount : routeCount routes'.rows id = count')
    (hother : ∀ n, id ≠ n → routeCount routes'.rows n = routeCount routes.rows n)
    (hfew : count' ≤ wlsMaxWithdrawRoutes)
    (hids : (routes'.rows.map (·.id)).Nodup) (hidsBounded : ∀ r ∈ routes'.rows, r.id < routes'.nextId)
    (hends : (routes'.rows.map fun r => (r.fromAccount, r.toAccount)).Nodup)
    (hsources : ∀ r ∈ routes'.rows, r.fromAccount < bound) : RouteBook entries' bound routes' := by
  obtain ⟨before, after, rfl, rfl⟩ := hentries
  have haccounts := h.accounts
  rw [List.map_append, List.map_cons] at haccounts
  have hapart := List.nodup_append'.mp haccounts
  -- The other entries are of other accounts.
  have hold : ∀ e ∈ before ++ (id, count') :: after, e = (id, count') ∨
      (e ∈ before ++ (id, count) :: after ∧ id ≠ e.1) := by
    intro e he
    rcases List.mem_append.mp he with he | he
    · refine .inr ⟨List.mem_append_left _ he, fun heq => ?_⟩
      exact hapart.2.2 (List.mem_map_of_mem (f := Prod.fst) he) (heq ▸ List.mem_cons_self)
    · rcases List.mem_cons.mp he with he | he
      · exact .inl he
      · refine .inr ⟨List.mem_append_right _ (List.mem_cons_of_mem _ he), fun heq => ?_⟩
        have hmem := List.mem_map_of_mem (f := Prod.fst) he
        rw [← heq] at hmem
        exact (List.nodup_cons.mp hapart.2.1).1 hmem
  have hentry : (id, count) ∈ before ++ (id, count) :: after :=
    List.mem_append_right _ List.mem_cons_self
  refine ⟨?_, fun e he => ?_, hids, hidsBounded, hends, hsources, fun e he => ?_, fun e he => ?_⟩
  · rw [List.map_append, List.map_cons]
    exact haccounts
  · rcases hold e he with rfl | ⟨he, -⟩
    · exact h.bounded (id, count) hentry
    · exact h.bounded e he
  · rcases hold e he with rfl | ⟨he, hne⟩
    · exact hcount
    · rw [hother e.1 hne]
      exact h.counted e he
  · rcases hold e he with rfl | ⟨he, -⟩
    · exact hfew
    · exact h.few e he

/-- A change of a route keeps what is counted. -/
theorem RouteChange.routed (hs : Routed s) (h : RouteChange o source target s t)
    (hsource : source ∈ s.accounts.rows) : Routed t := by
  have hentry : routeEntry source ∈ s.accounts.rows.map routeEntry := List.mem_map_of_mem hsource
  have hcounted : routeCount s.withdrawVestingRoutes.rows source.id = source.withdrawRoutes :=
    hs.counted _ hentry
  have hfew : source.withdrawRoutes ≤ wlsMaxWithdrawRoutes := hs.few _ hentry
  have hids := hs.ids
  have hidsBounded := hs.idsBounded
  have hends := hs.ends
  have hsources := hs.sources
  unfold Routed
  cases h with
  | created id hnone hid hrows hnext hroom hcount =>
    have hnew : source.id < s.accounts.nextId := hs.bounded _ hentry
    rw [hcount.nextId]
    refine RouteBook.recount hs hcount.entries ?_ (fun n hn => ?_) hroom ?_ ?_ ?_ ?_
    · rw [hrows, routeCount_append, hcounted, routeCount_cons]
      simp [routeCount]
    · rw [hrows, routeCount_append, routeCount_cons]
      simp [routeCount, hn]
    · rw [hrows, List.map_append]
      refine List.nodup_append'.mpr ⟨hids, List.nodup_singleton _, fun x hx hmem => ?_⟩
      obtain ⟨r, hr, rfl⟩ := List.mem_map.mp hx
      have hlt := hidsBounded r hr
      have heq : r.id = id := by simpa using hmem
      omega
    · intro r hr
      rw [hrows] at hr
      rw [hnext]
      rcases List.mem_append.mp hr with hr | hr
      · have hlt := hidsBounded r hr
        omega
      · rw [List.mem_singleton.mp hr, hid]
        exact Nat.lt_succ_self _
    · rw [hrows, List.map_append]
      refine List.nodup_append'.mpr ⟨hends, List.nodup_singleton _, fun x hx hmem => ?_⟩
      obtain ⟨r, hr, rfl⟩ := List.mem_map.mp hx
      have hnot := List.find?_eq_none.mp hnone r hr
      have heq : r.fromAccount = source.id ∧ r.toAccount = target.id := by simpa using hmem
      exact hnot (by simp [connects, heq])
    · intro r hr
      rw [hrows] at hr
      rcases List.mem_append.mp hr with hr | hr
      · exact hsources r hr
      · rw [List.mem_singleton.mp hr]
        exact hnew
  | removed before after route hrows hroute hpercent hrows' hnext hcount =>
    have hfrom : route.fromAccount = source.id := by
      simp only [connects, Bool.and_eq_true, decide_eq_true_eq] at hroute
      exact hroute.1
    rw [hrows] at hcounted hids hidsBounded hends hsources
    rw [routeCount_append, routeCount_cons, if_pos hfrom] at hcounted
    have hsub : (before ++ after).Sublist (before ++ route :: after) :=
      (List.Sublist.refl before).append (List.sublist_cons_self route after)
    rw [hcount.nextId]
    refine RouteBook.recount hs hcount.entries ?_ (fun n hn => ?_) ?_ ?_ ?_ ?_ ?_
    · rw [hrows', routeCount_append]
      unfold wlsMaxWithdrawRoutes at hfew
      omega
    · rw [hrows', hrows, routeCount_append, routeCount_append, routeCount_cons, hfrom, if_neg hn,
        Nat.zero_add]
    · unfold wlsMaxWithdrawRoutes at *
      omega
    · rw [hrows']
      exact hids.sublist (hsub.map _)
    · intro r hr
      rw [hrows'] at hr
      rw [hnext]
      exact hidsBounded r (hsub.subset hr)
    · rw [hrows']
      exact hends.sublist (hsub.map _)
    · intro r hr
      rw [hrows'] at hr
      exact hsources r (hsub.subset hr)
  | replaced before after route hrows hroute hrows' hnext haccounts =>
    obtain ⟨hfrom, hto⟩ : route.fromAccount = source.id ∧ route.toAccount = target.id := by
      simpa [connects] using hroute
    have hmap : t.withdrawVestingRoutes.rows.map (fun r => (r.id, r.fromAccount, r.toAccount)) =
        s.withdrawVestingRoutes.rows.map fun r => (r.id, r.fromAccount, r.toAccount) := by
      rw [hrows', hrows, List.map_append, List.map_append, List.map_cons, List.map_cons, hfrom, hto]
    have hmem : ∀ r ∈ t.withdrawVestingRoutes.rows, ∃ r' ∈ s.withdrawVestingRoutes.rows,
        r'.id = r.id ∧ r'.fromAccount = r.fromAccount := by
      intro r hr
      have hin := List.mem_map_of_mem
        (f := fun r : WithdrawVestingRouteObject => (r.id, r.fromAccount, r.toAccount)) hr
      rw [hmap] at hin
      obtain ⟨r', hr', heq⟩ := List.mem_map.mp hin
      simp only [Prod.mk.injEq] at heq
      exact ⟨r', hr', heq.1, heq.2.1⟩
    rw [haccounts]
    refine ⟨hs.accounts, hs.bounded, ?_, fun r hr => ?_, ?_, fun r hr => ?_, fun e he => ?_, hs.few⟩
    · rw [map_eq_of_map_eq Prod.fst (fun _ => rfl) hmap]
      exact hids
    · obtain ⟨r', hr', hid, -⟩ := hmem r hr
      rw [hnext, ← hid]
      exact hidsBounded r' hr'
    · rw [map_eq_of_map_eq Prod.snd (fun _ => rfl) hmap]
      exact hends
    · obtain ⟨r', hr', -, hsame⟩ := hmem r hr
      rw [← hsame]
      exact hsources r' hr'
    · have hold := hs.counted e he
      rw [hrows, routeCount_append, routeCount_cons, hfrom] at hold
      rw [hrows', routeCount_append, routeCount_cons]
      exact hold

/-- The routes stay, and stay counted. -/
def SameRoutes (s t : ChainState) : Prop :=
  t.withdrawVestingRoutes = s.withdrawVestingRoutes ∧ (Routed s → Routed t)

instance : IsPreorder ChainState SameRoutes where
  refl _ := ⟨rfl, id⟩
  trans _ _ _ hst htu := ⟨htu.1.trans hst.1, fun h => htu.2 (hst.2 h)⟩

/-- What counts of the accounts for their routes decides. -/
theorem sameRoutes_of_map {x : Table AccountObject}
    (hx : x.rows.map routeEntry = s.accounts.rows.map routeEntry)
    (hnext : x.nextId = s.accounts.nextId) : SameRoutes s { s with accounts := x } := by
  refine ⟨rfl, fun h => ?_⟩
  change RouteBook (x.rows.map routeEntry) x.nextId s.withdrawVestingRoutes
  rw [hx, hnext]
  exact h

/-- What the footprint leaves alone keeps the routes. -/
theorem sameRoutes_sideFrame : SideFrame SameRoutes where
  accounts _ _ hx hnext := sameRoutes_of_map
    (map_eq_of_map_eq (fun c => (c.1.1, c.2.2.2)) (fun _ => rfl) hx) hnext
  comments _ _ _ _ := ⟨rfl, id⟩
  accountAuthorities _ _ := ⟨rfl, id⟩
  witnesses _ _ := ⟨rfl, id⟩
  witnessVotes _ _ := ⟨rfl, id⟩
  rewardFunds _ _ _ := ⟨rfl, id⟩
  transactions _ _ := ⟨rfl, id⟩
  dgp _ _ := ⟨rfl, id⟩
  wso _ _ := ⟨rfl, id⟩
  hardforks _ _ := ⟨rfl, id⟩
  blockSummaries _ _ := ⟨rfl, id⟩

/-- Voting power does not touch the routes. -/
theorem sameRoutes_power : AllowsPower SameRoutes := fun _ _ hx hnext =>
  sameRoutes_of_map (map_eq_of_map_eq (fun c => (c.1.1, c.2.2)) (fun _ => rfl) hx) hnext

/-- A power down does not touch the routes. -/
theorem sameRoutes_powerDown : AllowsPowerDown SameRoutes := fun _ _ hx hnext =>
  sameRoutes_of_map (map_eq_of_map_eq (fun c => (c.1.1, c.2.2)) (fun _ => rfl) hx) hnext

/-- The polls of comments do not touch the routes. -/
theorem sameRoutes_polls : AllowsPolls SameRoutes := fun _ _ _ _ => ⟨rfl, id⟩

/-- Votes on comments do not touch the routes. -/
theorem sameRoutes_commentVotes : AllowsCommentVotes SameRoutes := fun _ _ => ⟨rfl, id⟩

/-- Comments do not touch the routes. -/
theorem sameRoutes_comments : AllowsComments SameRoutes := fun _ _ => ⟨rfl, id⟩

/-- A new account has no routes. -/
theorem RouteBook.enter {entries : List (ℕ × ℕ)} {bound : ℕ}
    {routes : Table WithdrawVestingRouteObject} (h : RouteBook entries bound routes) :
    RouteBook (entries ++ [(bound, 0)]) (bound + 1) routes := by
  have hnone : routeCount routes.rows bound = 0 := by
    refine List.countP_eq_zero.mpr fun r hr => ?_
    have hlt := h.sources r hr
    simp only [decide_eq_true_eq]
    omega
  have hcases : ∀ e ∈ entries ++ [(bound, 0)], e ∈ entries ∨ e = (bound, 0) := by
    intro e he
    simpa using he
  refine ⟨?_, fun e he => ?_, h.ids, h.idsBounded, h.ends, fun r hr => ?_, fun e he => ?_,
    fun e he => ?_⟩
  · rw [List.map_append]
    refine List.nodup_append'.mpr ⟨h.accounts, List.nodup_singleton _, fun x hx hmem => ?_⟩
    obtain ⟨e, he, rfl⟩ := List.mem_map.mp hx
    have hlt := h.bounded e he
    have heq : e.1 = bound := by simpa using hmem
    omega
  · rcases hcases e he with he | rfl
    · have hlt := h.bounded e he
      omega
    · exact Nat.lt_succ_self bound
  · have hlt := h.sources r hr
    omega
  · rcases hcases e he with he | rfl
    · exact h.counted e he
    · exact hnone
  · rcases hcases e he with he | rfl
    · exact h.few e he
    · exact Nat.zero_le _

/-- The other fields of accounts do not touch the routes. -/
theorem sameRoutes_account : AllowsAccount SameRoutes := by
  intro s x a hrows _ hconduct hnext
  refine ⟨rfl, fun h => ?_⟩
  have hentry : routeEntry a = (s.accounts.nextId, 0) :=
    congrArg (fun c => (c.1.1, c.2.2.2)) hconduct
  change RouteBook (x.rows.map routeEntry) x.nextId s.withdrawVestingRoutes
  rw [hrows, hnext, List.map_append, List.map_singleton, hentry]
  exact h.enter

/-- What a step does to the routes: nothing, or it sets a route. -/
theorem step_routes {event : Event} (h : Occurs env event s t) :
    SameRoutes s t ∨ ∃ o, event = .operation (.setWithdrawVestingRoute o) ∧
      Returns (applySetWithdrawVestingRoute o) s () t := by
  have hside := sameRoutes_sideFrame
  cases h with
  | operation ctx henv op hvalid hnull h =>
    cases op with
    | vote o =>
      exact .inl ((applyVote_aside _ hside sameRoutes_power sameRoutes_polls
        sameRoutes_commentVotes o).rel _ _ _ h)
    | comment o => exact .inl ((applyComment_aside hside sameRoutes_comments _ o).rel _ _ _ h)
    | deleteComment o =>
      exact .inl ((applyDeleteComment_aside sameRoutes_comments sameRoutes_commentVotes o).rel
        _ _ _ h)
    | withdrawVesting o =>
      exact .inl ((applyWithdrawVesting_aside _ sameRoutes_powerDown o).rel _ _ _ h)
    | setWithdrawVestingRoute o => exact .inr ⟨o, rfl, h⟩
    | accountCreate o =>
      exact .inl ((applyAccountCreate_aside ctx hside sameRoutes_account o).rel _ _ _ h)
    | _ =>
      refine .inl ((applyOperation_aside ctx hside ?_).rel _ _ _ h)
      trivial
  | withdrawal hsource hdue h =>
    exact .inl ((processVestingWithdrawal_aside _ hside sameRoutes_powerDown _).rel _ _ _ h)
  | cashout h =>
    exact .inl ((processCommentCashout_aside _ hside sameRoutes_polls
      sameRoutes_commentVotes).rel _ _ _ h)
  | burning h => exact .inl ((clearNullAccountBalance_aside _ hside).rel _ _ _ h)
  | upkeep hm hlater h => exact .inl ((hm.aside hside).rel _ _ _ h)

/-- An accepted route is set, within the limit that the evaluator checks. -/
theorem setRoute_change (hs : RouteIndices s)
    (h : Returns (applySetWithdrawVestingRoute o) s () t) : ∃ source target,
      s.accounts.find (named o.fromAccount) = some source ∧
      s.accounts.find (named o.toAccount) = some target ∧ RouteChecks s o source target ∧
      allottedAfter s o source target (fun n => 0 < n) % 2 ^ 16 ≤ wls100Percent ∧
      RouteChange o source target s t := by
  have haccepted : ∃ t, Returns (applySetWithdrawVestingRoute o) s () t := ⟨t, h⟩
  obtain ⟨source, hsource, h⟩ := lookup_bind h
  obtain ⟨target, htarget, h⟩ := lookup_bind h
  obtain ⟨_, u, hu, h⟩ := h.gets_bind.bind
  obtain ⟨-, hsame⟩ := h.gets_bind.lift
  obtain ⟨hchecks, hlimit⟩ := (route_accepted_iff hs hsource htarget).mp haccepted
  rw [hsame]
  exact ⟨source, target, hsource, htarget, hchecks, hlimit, (changeRoute_change hs hsource hu).2⟩

/-- A step of the chain keeps the routes counted. -/
theorem step_routed {event : Event} (h : Occurs env event s t) (hs : Routed s) : Routed t := by
  rcases step_routes h with hsame | ⟨o, -, h⟩
  · exact hsame.2 hs
  · obtain ⟨source, target, hsource, -, -, -, hchange⟩ := setRoute_change hs.indices h
    exact hchange.routed hs (List.mem_of_find?_eq_some hsource)

/-- Every account allots at most 100%. -/
def Allotted (s : ChainState) : Prop :=
  ∀ n, allotted s.withdrawVestingRoutes.rows n (fun _ => true) ≤ wls100Percent

/-- Every route that a step sets leaves room for a route to the account of id zero. -/
def RoomyStep (m : Step) : Prop :=
  ∀ o source target, m.event = .operation (.setWithdrawVestingRoute o) →
    m.before.accounts.find (named o.fromAccount) = some source →
    m.before.accounts.find (named o.toAccount) = some target →
    LeavesRoom m.before o source target

/-- A step with room keeps what is allotted within the limit. -/
theorem step_allotted {m : Step} (h : Occurs env m.event m.before m.after)
    (hroom : RoomyStep m) (hs : Routed m.before) (hallotted : Allotted m.before) :
    Allotted m.after := by
  rcases step_routes h with hsame | ⟨o, hevent, h⟩
  · unfold Allotted
    rw [hsame.1]
    exact hallotted
  · obtain ⟨source, target, hsource, htarget, hchecks, hlimit, hchange⟩ :=
      setRoute_change hs.indices h
    have hfits := hroom o source target hevent hsource htarget hchecks hlimit
    intro n
    by_cases hn : source.id = n
    · rw [← hn, hchange.allotted_eq hs.indices, allottedAfter_all]
      exact hfits
    · rw [hchange.allotted_other hn]
      exact hallotted n

/-- The genesis state has no routes and counts none. -/
theorem routed_initGenesis (env : Env) (initSupply : ℕ) : Routed (initGenesis env initSupply) := by
  have hentries : (initGenesis env initSupply).accounts.rows.map routeEntry =
      (List.range (5 + wlsMaxWitnesses)).map fun id => (id, 0) := by rfl
  have hfirst : ((List.range (5 + wlsMaxWitnesses)).map fun id => (id, 0)).map Prod.fst =
      List.range (5 + wlsMaxWitnesses) := by
    rw [List.map_map]
    exact List.map_id _
  unfold Routed
  rw [hentries]
  refine ⟨?_, ?_, List.nodup_nil, ?_, List.nodup_nil, ?_, ?_, ?_⟩
  · rw [hfirst]
    exact List.nodup_range
  · intro e he
    obtain ⟨id, hid, rfl⟩ := List.mem_map.mp he
    exact List.mem_range.mp hid
  · intro r hr
    cases hr
  · intro r hr
    cases hr
  · intro e he
    obtain ⟨id, -, rfl⟩ := List.mem_map.mp he
    rfl
  · intro e he
    obtain ⟨id, -, rfl⟩ := List.mem_map.mp he
    exact Nat.zero_le _

/-- A route is accepted exactly if its checks pass and all routes of the account fit into 100%, if
and only if it leaves room for a route to the account of id zero; and in every run in which all
routes that are set do, the routes of an account are at most 100%, and its counter is their
number. -/
theorem route_limit_iff (env : Env) (initSupply : ℕ) :
    (∀ s o source target, RouteIndices s →
      s.accounts.find (named o.fromAccount) = some source →
      s.accounts.find (named o.toAccount) = some target →
      (LimitExact s o source target ↔ LeavesRoom s o source target)) ∧
    ∀ steps t, History env (initGenesis env initSupply) steps t → (∀ m ∈ steps, RoomyStep m) →
      ∀ a ∈ t.accounts.rows,
        allotted t.withdrawVestingRoutes.rows a.id (fun _ => true) ≤ wls100Percent ∧
          routeCount t.withdrawVestingRoutes.rows a.id = a.withdrawRoutes := by
  refine ⟨fun s o source target hs hsource htarget => limit_exact_iff hs hsource htarget, ?_⟩
  intro steps t h hroomy a ha
  have hempty : Allotted (initGenesis env initSupply) := fun n => Nat.zero_le _
  obtain ⟨hrouted, hallotted⟩ := Path.invariant (P := fun s => Routed s ∧ Allotted s) h
    ⟨routed_initGenesis env initSupply, hempty⟩ fun m hm hstep hs =>
      ⟨step_routed hstep hs.1, step_allotted hstep (hroomy m hm) hs.1 hs.2⟩
  exact ⟨hallotted a.id, hrouted.counted _ (List.mem_map_of_mem (f := routeEntry) ha)⟩

end Runs

section Sample

/-- The first miner sends a part of its withdrawals to an account. -/
def sampleRoute (target : AccountName) (percent : ℕ) : SetWithdrawVestingRouteOperation :=
  ⟨initMinerName 0, target, percent, false⟩

/-- A transaction that sends all withdrawals of the first miner to the account of id zero. -/
def minersRoute : SignedTransaction where
  refBlockNum := 0
  refBlockPrefix := 0
  expiration := wlsGenesisTime + 60
  operations := [.setWithdrawVestingRoute (sampleRoute minerAccount 10000)]
  signatures := [⟨0⟩]

/-- What the first miner sets after it has a route to the account of id zero. -/
theorem route_limit_exceeded : ∃ s source target t,
    Reaches sampleEnv 1000000 [sampleCall (sampleChain [minersRoute] 0)] s ∧
    s.accounts.find (named (initMinerName 0)) = some source ∧
    s.accounts.find (named (nameOf "temp")) = some target ∧
    Returns (applySetWithdrawVestingRoute (sampleRoute (nameOf "temp") 10000)) s () t ∧
    allotted t.withdrawVestingRoutes.rows source.id (fun _ => true) = 2 * wls100Percent ∧
    ¬ LimitExact s (sampleRoute (nameOf "temp") 10000) source target := by
  have hends : endsIn (runBlocks sampleEnv [sampleCall (sampleChain [minersRoute] 0)])
      (initGenesis sampleEnv 1000000) (fun _ s =>
        (s.accounts.find (named (initMinerName 0))).any fun source =>
          (s.accounts.find (named (nameOf "temp"))).any fun target =>
            decide (allottedAfter s (sampleRoute (nameOf "temp") 10000) source target
              (fun _ => true) = 2 * wls100Percent) &&
            endsIn (applySetWithdrawVestingRoute (sampleRoute (nameOf "temp") 10000)) s fun _ t =>
              decide (allotted t.withdrawVestingRoutes.rows source.id (fun _ => true) =
                2 * wls100Percent)) = true := by
    decide +kernel
  obtain ⟨_, s, hs, hend⟩ := returns_of_endsIn hends
  obtain ⟨source, hsource, hend⟩ := (Option.any_eq_true _ _).mp hend
  obtain ⟨target, htarget, hend⟩ := (Option.any_eq_true _ _).mp hend
  obtain ⟨hafter, hend⟩ := Bool.and_eq_true_iff.mp hend
  obtain ⟨_, t, ht, hallotted⟩ := returns_of_endsIn hend
  refine ⟨s, source, target, t, hs, hsource, htarget, ht, of_decide_eq_true hallotted, ?_⟩
  intro hexact
  have hle := (hexact.mp ⟨t, ht⟩).2
  rw [of_decide_eq_true hafter] at hle
  exact absurd hle (by decide)

/-- After a first route the limit holds and the routes are counted. -/
theorem route_limit_iff_temp : ∃ t,
    Returns (applySetWithdrawVestingRoute (sampleRoute (nameOf "temp") 5000))
      (initGenesis sampleEnv 1000000) () t ∧
    ∀ a ∈ t.accounts.rows,
      allotted t.withdrawVestingRoutes.rows a.id (fun _ => true) ≤ wls100Percent ∧
        routeCount t.withdrawVestingRoutes.rows a.id = a.withdrawRoutes := by
  have hends : endsIn (applySetWithdrawVestingRoute (sampleRoute (nameOf "temp") 5000))
      (initGenesis sampleEnv 1000000) (fun _ _ => true) = true := by
    decide +kernel
  obtain ⟨_, t, ht, -⟩ := returns_of_endsIn hends
  have hstep : Occurs sampleEnv
      (.operation (.setWithdrawVestingRoute (sampleRoute (nameOf "temp") 5000)))
      (initGenesis sampleEnv 1000000) t :=
    .operation ⟨sampleEnv, {}, false, 10000⟩ rfl _ (by decide +kernel) ⟨by decide, by decide⟩ ht
  refine ⟨t, ht, (route_limit_iff sampleEnv 1000000).2 _ t (Path.single hstep) fun m hm => ?_⟩
  rw [List.mem_singleton.mp hm]
  intro o source target hevent hsource htarget _ _
  obtain rfl : sampleRoute (nameOf "temp") 5000 = o := by
    injection hevent with hop
    injection hop
  -- The first state has no routes.
  have hempty : ∀ p, allottedAfter (initGenesis sampleEnv 1000000)
      (sampleRoute (nameOf "temp") 5000) source target p = if p target.id then 5000 else 0 :=
    fun p => Nat.zero_add _
  rw [hempty, hempty]
  split <;> split <;> decide

end Sample

end Whaleshares.WithdrawRoutes
