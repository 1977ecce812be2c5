import Mathlib
import Whaleshares.ElectoralRoll

/-!
# The weight behind the votes

An account passes its vesting shares on to its proxy, and what was passed on to it one
level higher; an account without a proxy gives all of it to the witnesses that it voted
for. Within a routine an account can hold more than the rest of the state has been told:
the difference is its debt. Each step of the propagation moves a debt to the proxy or
settles it with the witnesses.
-/

namespace Whaleshares.Tally

open Config Fc Assets Protocol Objects Program Database WitnessVotes Footprint Forest
  ElectoralRoll

section Accounts

/-- What an account passes on, by level: its shares, then what was passed on to it. -/
def passed (a : AccountObject) (level : ℕ) : ℤ := (a.vestingShares :: a.proxiedVsfVotes).getD level 0

/-- The value of `witness_vote_weight`. -/
def voteWeight (a : AccountObject) : ℤ := a.vestingShares + a.proxiedVsfVotes.sum

/-- What arrives at an account on a level, by what each account is said to pass on. -/
def inflow (told : AccountName → ℕ → ℤ) (r : Roll) (name : AccountName) (level : ℕ) : ℤ :=
  (r.entries.map fun e => if e.proxy = name then told e.name level else 0).sum

/-- The weight of an account that is said to pass on these amounts. -/
def total (amounts : ℕ → ℤ) : ℤ := ((List.range (wlsMaxProxyRecursionDepth + 1)).map amounts).sum

/-- The votes for a witness, by what each account is said to pass on. -/
def tally (told : AccountName → ℕ → ℤ) (r : Roll) (witness : ℕ) : ℤ :=
  (r.entries.map fun e =>
    if e.proxy = .empty ∧ r.backs e.id witness = true then total (told e.name) else 0).sum

/-- The proxied votes and the votes for witnesses are those of the amounts told. -/
structure Settled (told : AccountName → ℕ → ℤ) (s : ChainState) : Prop where
  proxied : ∀ a ∈ s.accounts.rows, a.proxiedVsfVotes =
    (List.range wlsMaxProxyRecursionDepth).map (inflow told (roll s) a.name)
  votes : ∀ w ∈ s.witnesses.rows, w.votes = tally told (roll s) w.id

/-- Each account passes on what the rest of the state has been told, and its debt. -/
def Owes (debt : AccountName → ℕ → ℤ) (s : ChainState) : Prop :=
  ∃ told, Settled told s ∧ ∀ a ∈ s.accounts.rows, ∀ level ≤ wlsMaxProxyRecursionDepth,
    passed a level = told a.name level + debt a.name level

/-- Amounts that one account owes. -/
def due (name : AccountName) (amounts : ℕ → ℤ) : AccountName → ℕ → ℤ :=
  fun n level => if n = name then amounts level else 0

/-- The account that owes has its debt on each level. -/
theorem due_self (name : AccountName) (amounts : ℕ → ℤ) (level : ℕ) :
    due name amounts name level = amounts level := if_pos rfl

/-- The other accounts owe nothing. -/
theorem due_of_ne {n name : AccountName} (h : n ≠ name) (amounts : ℕ → ℤ) (level : ℕ) :
    due name amounts n level = 0 := if_neg h

variable {told debt : AccountName → ℕ → ℤ} {r : Roll} {e : Entry} {s t : ChainState}

/-- An account that passes on more adds it to what arrives at its proxy. -/
theorem inflow_add_due (hnames : (r.entries.map (·.name)).Nodup) (he : e ∈ r.entries)
    (amounts : ℕ → ℤ) (name : AccountName) (level : ℕ) :
    inflow (told + due e.name amounts) r name level =
      inflow told r name level + if e.proxy = name then amounts level else 0 := by
  unfold inflow
  rw [Table.sum_map_replace Entry.name hnames he
    (f := fun e => if e.proxy = name then told e.name level else 0)]
  · simp only [Pi.add_apply, due_self]
    split <;> omega
  · intro y _ hy
    simp only [Pi.add_apply, due_of_ne hy, add_zero]

/-- The weight of the sums is the sum of the weights. -/
theorem total_add (f g : ℕ → ℤ) : total (f + g) = total f + total g := by
  unfold total
  induction List.range (wlsMaxProxyRecursionDepth + 1) with
  | nil => rfl
  | cons level rest ih =>
    simp only [List.map_cons, List.sum_cons, Pi.add_apply] at ih ⊢
    omega

/-- Nothing passed on has no weight. -/
theorem total_zero : total 0 = 0 := rfl

/-- Only the levels up to the depth of the recursion count. -/
theorem total_congr {f g : ℕ → ℤ} (h : ∀ level ≤ wlsMaxProxyRecursionDepth, f level = g level) :
    total f = total g := by
  unfold total
  rw [List.map_congr_left fun level hlevel => h level ?_]
  have hlt := List.mem_range.mp hlevel
  omega

/-- An account without a proxy that passes on more adds it to the votes of its witnesses. -/
theorem tally_add_due (hnames : (r.entries.map (·.name)).Nodup) (he : e ∈ r.entries)
    (amounts : ℕ → ℤ) (witness : ℕ) :
    tally (told + due e.name amounts) r witness = tally told r witness +
      if e.proxy = .empty ∧ r.backs e.id witness = true then total amounts else 0 := by
  have hsame : due e.name amounts e.name = amounts := funext fun level => due_self _ _ level
  unfold tally
  rw [Table.sum_map_replace Entry.name hnames he
    (f := fun e => if e.proxy = .empty ∧ r.backs e.id witness = true then
      total (told e.name) else 0)]
  · simp only [Pi.add_apply, total_add, hsame]
    split <;> omega
  · intro y _ hy
    have hzero : due e.name amounts y.name = 0 := funext fun level => due_of_ne hy amounts level
    simp only [Pi.add_apply, hzero, add_zero]

/-- A debt counts only for the accounts and levels that there are. -/
theorem Owes.congr {debt' : AccountName → ℕ → ℤ} (h : Owes debt s)
    (hdebt : ∀ a ∈ s.accounts.rows, ∀ level ≤ wlsMaxProxyRecursionDepth,
      debt' a.name level = debt a.name level) : Owes debt' s := by
  obtain ⟨told, hsettled, htold⟩ := h
  refine ⟨told, hsettled, fun a ha level hlevel => ?_⟩
  rw [htold a ha level hlevel, hdebt a ha level hlevel]

/-- Each account has its entry in the roll. -/
theorem mem_entries {a : AccountObject} (ha : a ∈ s.accounts.rows) :
    entry a ∈ (roll s).entries := List.mem_map_of_mem ha

/-- In a valid roll no two accounts share their name. -/
theorem accounts_names (h : (roll s).Valid) : (s.accounts.rows.map (·.name)).Nodup := by
  have hnames := h.names
  change ((s.accounts.rows.map entry).map (·.name)).Nodup at hnames
  rwa [List.map_map] at hnames

/-- Telling the debt of an account adds it to the inflow of the proxy alone. -/
theorem inflow_due {a : AccountObject} (told : AccountName → ℕ → ℤ) (hvalid : (roll s).Valid) (ha : a ∈ s.accounts.rows)
    (amounts : ℕ → ℤ) (name : AccountName) (level : ℕ) :
    inflow (told + due a.name amounts) (roll s) name level =
      inflow told (roll s) name level + if a.proxy = name then amounts level else 0 :=
  inflow_add_due hvalid.names (mem_entries ha) amounts name level

/-- Telling the debt of an account without a proxy adds its weight to the witnesses it voted for. -/
theorem tally_due {a : AccountObject} (told : AccountName → ℕ → ℤ) (hvalid : (roll s).Valid) (ha : a ∈ s.accounts.rows)
    (amounts : ℕ → ℤ) (witness : ℕ) :
    tally (told + due a.name amounts) (roll s) witness = tally told (roll s) witness +
      if a.proxy = .empty ∧ (roll s).backs a.id witness = true then total amounts else 0 :=
  tally_add_due hvalid.names (mem_entries ha) amounts witness

/-- No account has the empty name. -/
theorem name_ne_empty {a : AccountObject} (hvalid : (roll s).Valid) (ha : a ∈ s.accounts.rows) :
    a.name ≠ .empty := by
  intro hempty
  have hsize : a.name.size ≠ 0 := hvalid.sized _ (mem_entries ha)
  rw [hempty] at hsize
  exact hsize size_empty

/-- A debt that the votes do not depend on can be told at once: on the levels below the
last one nothing changes, and the account has a proxy or has not voted. -/
theorem Owes.forgive {a : AccountObject} {amounts : ℕ → ℤ} (hvalid : (roll s).Valid)
    (ha : a ∈ s.accounts.rows) (h : Owes (debt + due a.name amounts) s)
    (hlevels : a.proxy = .empty ∨ ∀ level < wlsMaxProxyRecursionDepth, amounts level = 0)
    (hballots : a.proxy ≠ .empty ∨ ∀ b ∈ s.witnessVotes.rows, b.account ≠ a.id) :
    Owes debt s := by
  obtain ⟨told, hsettled, htold⟩ := h
  refine ⟨told + due a.name amounts, ⟨fun c hc => ?_, fun w hw => ?_⟩, fun c hc level hlevel => ?_⟩
  · rw [hsettled.proxied c hc]
    refine List.map_congr_left fun level hlevel => ?_
    have hzero : (if a.proxy = c.name then amounts level else 0) = 0 := by
      rcases hlevels with hempty | hlevels
      · exact if_neg fun heq => name_ne_empty hvalid hc (heq.symm.trans hempty)
      · rw [hlevels level (List.mem_range.mp hlevel)]
        exact ite_self 0
    rw [inflow_due told hvalid ha, hzero, add_zero]
  · have hno : ¬(a.proxy = .empty ∧ (roll s).backs a.id w.id = true) := by
      rintro ⟨hempty, hbacks⟩
      rcases hballots with hne | hnone
      · exact hne hempty
      · obtain ⟨b, hb, haccount, -⟩ := Roll.backs_iff.mp hbacks
        exact hnone b hb haccount
    rw [hsettled.votes w hw, tally_due told hvalid ha, if_neg hno, add_zero]
  · rw [htold c hc level hlevel]
    simp only [Pi.add_apply]
    omega

end Accounts

section Changes

variable {debt : AccountName → ℕ → ℤ} {s t u : ChainState} {a b : AccountObject} {fc : FcLib}

/-- From `s` to `t`, the account `a` became `b`, and nothing else changed. -/
structure Amends (s t : ChainState) (a b : AccountObject) : Prop where
  mem : a ∈ s.accounts.rows
  name : b.name = a.name
  state : ∃ x, t = { s with accounts := x } ∧
    x.rows = Table.amend AccountObject.name b s.accounts.rows ∧ x.nextId = s.accounts.nextId

/-- A change that keeps the name of the account amends its row. -/
theorem modifyAccount_amends {p : AccountObject → Bool}
    {f : AccountObject → Except Exc AccountObject} {v : Unit}
    (hnames : (s.accounts.rows.map (·.name)).Nodup) (h : Returns (modifyAccount p f) s v t) (hf : ∀ a b, f a = .ok b → b.name = a.name) :
    ∃ a b, s.accounts.find p = some a ∧ p a = true ∧ f a = .ok b ∧ Amends s t a b := by
  obtain ⟨x, hx, ht⟩ := map_eq_ok h.update
  obtain ⟨a, b, hfind, hmem, hp, hab, hrows, hnext⟩ :=
    Table.modify_amend AccountObject.name hx hnames hf
  exact ⟨a, b, hfind, hp, hab, hmem, hf a b hab, x, ht, hrows, hnext⟩

/-- The table after the amendment is the old one with the new row in its place. -/
theorem Amends.rows (h : Amends s t a b) :
    t.accounts.rows = Table.amend AccountObject.name b s.accounts.rows := by
  obtain ⟨x, rfl, hrows, -⟩ := h.state
  exact hrows

/-- The new row stands in the table. -/
theorem Amends.mem_new (h : Amends s t a b) : b ∈ t.accounts.rows := by
  rw [h.rows]
  exact Table.mem_amend_self _ h.mem h.name.symm

/-- The witnesses stay. -/
theorem Amends.witnesses (h : Amends s t a b) : t.witnesses = s.witnesses := by
  obtain ⟨x, rfl, -⟩ := h.state
  rfl

/-- The witness votes stay. -/
theorem Amends.witnessVotes (h : Amends s t a b) : t.witnessVotes = s.witnessVotes := by
  obtain ⟨x, rfl, -⟩ := h.state
  rfl

/-- An account of the new state is the new one or an old one of another name. -/
theorem Amends.cases (h : Amends s t a b) {c : AccountObject} (hc : c ∈ t.accounts.rows) :
    c = b ∨ (c ∈ s.accounts.rows ∧ c.name ≠ a.name) := by
  rw [h.rows] at hc
  rcases Table.mem_amend hc with hc | ⟨hc, hne⟩
  · exact .inl hc
  · exact .inr ⟨hc, h.name ▸ hne⟩

/-- The roll changes by the entry of the amended account alone. -/
theorem Amends.roll_eq (h : Amends s t a b) :
    roll t = { roll s with entries := Table.amend Entry.name (entry b) (roll s).entries } := by
  obtain ⟨x, rfl, hrows, hnext⟩ := h.state
  have hentries : x.rows.map entry =
      Table.amend Entry.name (entry b) (s.accounts.rows.map entry) := by
    rw [hrows]
    unfold Table.amend
    rw [List.map_map, List.map_map]
    refine List.map_congr_left fun c _ => ?_
    by_cases hname : c.name = b.name
    · have hentry : (entry c).name = (entry b).name := hname
      simp only [Function.comp_apply, if_pos hname, if_pos hentry]
    · have hentry : (entry c).name ≠ (entry b).name := hname
      simp only [Function.comp_apply, if_neg hname, if_neg hentry]
  simp only [roll, hentries, hnext]

/-- The roll stays when the entry of the account does. -/
theorem Amends.roll_same (h : Amends s t a b) (hvalid : (roll s).Valid)
    (hentry : entry b = entry a) : roll t = roll s := by
  have hentries : Table.amend Entry.name (entry b) (roll s).entries = (roll s).entries := by
    have hmap : (Table.amend Entry.name (entry b) (roll s).entries).map id =
        (roll s).entries.map id := Table.amend_map_eq fun old hold hname => ?_
    · rwa [List.map_id, List.map_id] at hmap
    · have hsame : old = entry a := by
        refine Table.eq_of_key_eq Entry.name hvalid.names hold (mem_entries h.mem) ?_
        rw [hname, hentry]
      rw [hsame]
      exact hentry
  rw [h.roll_eq, hentries]

/-- The change of one summand of the levels of an account. -/
def first (delta : ℤ) (level : ℕ) : ℤ := if level = 0 then delta else 0

/-- Shares that an account gets are a debt on the lowest level. -/
theorem Amends.deposit {delta : ℤ} (h : Amends s t a b) (hvalid : (roll s).Valid)
    (hentry : entry b = entry a) (hproxied : b.proxiedVsfVotes = a.proxiedVsfVotes)
    (hshares : b.vestingShares = a.vestingShares + delta) (ho : Owes debt s) :
    Owes (debt + due a.name (first delta)) t := by
  obtain ⟨told, hsettled, htold⟩ := ho
  have hroll := h.roll_same hvalid hentry
  refine ⟨told, ⟨fun c hc => ?_, fun w hw => ?_⟩, fun c hc level hlevel => ?_⟩
  · rw [hroll]
    rcases h.cases hc with hc | ⟨hc, -⟩
    · rw [hc, h.name, hproxied]
      exact hsettled.proxied a h.mem
    · exact hsettled.proxied c hc
  · rw [h.witnesses] at hw
    rw [hroll]
    exact hsettled.votes w hw
  · rcases h.cases hc with hc | ⟨hc, hne⟩
    · have hold := htold a h.mem level hlevel
      rw [hc, h.name]
      simp only [Pi.add_apply, due_self]
      cases level with
      | zero =>
        simp only [passed, List.getD_cons_zero, first, if_true] at hold ⊢
        omega
      | succ level =>
        simp only [passed, List.getD_cons_succ, first, hproxied, Nat.succ_ne_zero, if_false] at hold ⊢
        omega
    · rw [htold c hc level hlevel]
      simp only [Pi.add_apply, due_of_ne hne, add_zero]

/-- What reaches an account `depth` steps above the one that changed. -/
def spread (depth : ℕ) (deltas : List ℤ) (level : ℕ) : ℤ :=
  if depth ≤ level then deltas.getD (level - depth) 0 else 0

/-- On level zero nothing arrives from a step below the account. -/
theorem spread_zero_level (depth : ℕ) (deltas : List ℤ) : spread (depth + 1) deltas 0 = 0 :=
  if_neg (by omega)

/-- A step further, the changes arrive one level higher. -/
theorem spread_succ (depth : ℕ) (deltas : List ℤ) (level : ℕ) :
    spread (depth + 1) deltas (level + 1) = spread depth deltas level := by
  unfold spread
  by_cases h : depth ≤ level
  · rw [if_pos (by omega), if_pos h]
    congr 1
    omega
  · rw [if_neg (by omega), if_neg h]

/-- A single change arrives on the lowest level. -/
theorem spread_single (delta : ℤ) : spread 0 [delta] = first delta := by
  funext level
  cases level with
  | zero => rfl
  | succ level => simp [spread, first]

/-- The proxied votes grow on each level by the change that arrives there. -/
theorem addFrom_spec (hexact : fc.SafeExact) {depth : ℕ} {votes deltas votes' : List ℤ}
    (h : addFrom fc depth votes deltas = .ok votes') :
    votes'.length = votes.length ∧ ∀ level < votes.length,
      votes'.getD level 0 = votes.getD level 0 + spread depth deltas level := by
  induction depth generalizing votes deltas votes' with
  | zero =>
    induction votes generalizing deltas votes' with
    | nil =>
      have hsame : votes' = [] := by simpa [addFrom] using h.symm
      rw [hsame]
      exact ⟨rfl, by simp⟩
    | cons vote votes ih =>
      cases deltas with
      | nil =>
        have hsame : votes' = vote :: votes := by simpa [addFrom] using h.symm
        rw [hsame]
        exact ⟨rfl, fun level _ => by simp [spread]⟩
      | cons delta deltas =>
        obtain ⟨sum, hsum, h⟩ := bind_eq_ok h
        obtain ⟨rest, hrest, h⟩ := bind_eq_ok h
        have hsum : sum = vote + delta := (hexact.checked hsum).1
        obtain ⟨hlength, hvalues⟩ := ih hrest
        rw [← Except.ok.inj h]
        refine ⟨by simp [hlength], fun level hlevel => ?_⟩
        cases level with
        | zero => simpa [spread] using hsum
        | succ level =>
          have hvalue := hvalues level (by simpa using hlevel)
          simpa [spread] using hvalue
  | succ depth ih =>
    cases votes with
    | nil =>
      have hsame : votes' = [] := by simpa [addFrom] using h.symm
      rw [hsame]
      exact ⟨rfl, by simp⟩
    | cons vote votes =>
      obtain ⟨rest, hrest, h⟩ := bind_eq_ok h
      obtain ⟨hlength, hvalues⟩ := ih hrest
      rw [← Except.ok.inj h]
      refine ⟨by simp [hlength], fun level hlevel => ?_⟩
      cases level with
      | zero => simp [spread_zero_level]
      | succ level =>
        have hvalue := hvalues level (by simpa using hlevel)
        rw [spread_succ]
        simpa using hvalue

/-- A list with the values of a function on its positions is their map. -/
theorem eq_map_range {n : ℕ} {f : ℕ → ℤ} {l : List ℤ} (hlength : l.length = n)
    (hvalues : ∀ level < n, l.getD level 0 = f level) : l = (List.range n).map f := by
  refine List.ext_getElem (by simp [hlength]) fun level hl hr => ?_
  have hvalue := hvalues level (by omega)
  rw [List.getD_eq_getElem _ _ hl] at hvalue
  simpa using hvalue

/-- The map of a function over positions has its value at each of them. -/
theorem map_range_getD {n level : ℕ} {f : ℕ → ℤ} (h : level < n) :
    ((List.range n).map f).getD level 0 = f level := by
  rw [List.getD_eq_getElem _ _ (by simpa using h)]
  simp

/-- The debt of an account becomes one of its proxy, a level higher, when the proxied
votes of the proxy are raised by it. -/
theorem Amends.raise {c : AccountObject} {pending next : ℕ → ℤ} (h : Amends s t a b)
    (hvalid : (roll s).Valid) (hentry : entry b = entry a)
    (hshares : b.vestingShares = a.vestingShares) (hc : c ∈ s.accounts.rows)
    (hproxy : c.proxy = a.name) (hlength : b.proxiedVsfVotes.length = a.proxiedVsfVotes.length)
    (hvalues : ∀ level < a.proxiedVsfVotes.length,
      b.proxiedVsfVotes.getD level 0 = a.proxiedVsfVotes.getD level 0 + pending level)
    (hzero : next 0 = 0) (hsucc : ∀ level, next (level + 1) = pending level)
    (ho : Owes (debt + due c.name pending) s) : Owes (debt + due a.name next) t := by
  obtain ⟨told, hsettled, htold⟩ := ho
  have hroll := h.roll_same hvalid hentry
  have hnames : b.name = a.name := h.name
  have hinflow := inflow_due told hvalid hc pending
  have htally := tally_due told hvalid hc pending
  have hdepth : a.proxiedVsfVotes.length = wlsMaxProxyRecursionDepth := by
    rw [hsettled.proxied a h.mem]
    simp
  have hnonempty : c.proxy ≠ .empty := fun hempty =>
    name_ne_empty hvalid h.mem (hproxy.symm.trans hempty)
  refine ⟨told + due c.name pending, ⟨fun d hd => ?_, fun w hw => ?_⟩, fun d hd level hlevel => ?_⟩
  · rw [hroll]
    rcases h.cases hd with hd | ⟨hd, hne⟩
    · rw [hd, hnames]
      refine eq_map_range (hlength.trans hdepth) fun level hlevel => ?_
      have hold : a.proxiedVsfVotes.getD level 0 = inflow told (roll s) a.name level := by
        rw [hsettled.proxied a h.mem]
        exact map_range_getD hlevel
      rw [hvalues level (by omega), hold, hinflow, if_pos hproxy]
    · rw [hsettled.proxied d hd]
      refine List.map_congr_left fun level _ => ?_
      have hneg : c.proxy ≠ d.name := fun heq => hne (heq.symm.trans hproxy)
      rw [hinflow, if_neg hneg, add_zero]
  · rw [h.witnesses] at hw
    have hneg : ¬(c.proxy = .empty ∧ (roll s).backs c.id w.id = true) :=
      fun hboth => hnonempty hboth.1
    rw [hroll, htally, if_neg hneg, add_zero]
    exact hsettled.votes w hw
  · rcases h.cases hd with hd | ⟨hd, hne⟩
    · have hold := htold a h.mem level hlevel
      have hraised : passed b level = passed a level + next level := by
        cases level with
        | zero =>
          rw [hzero, add_zero]
          exact hshares
        | succ level =>
          rw [hsucc]
          exact hvalues level (by omega)
      rw [hd, hraised, hnames]
      simp only [Pi.add_apply, due_self] at hold ⊢
      omega
    · rw [htold d hd level hlevel]
      simp only [Pi.add_apply, due_of_ne hne]
      omega

end Changes

section Votes

variable {debt : AccountName → ℕ → ℤ} {s t : ChainState} {fc : FcLib} {u : Unit}

/-- The votes of witnesses changed and nothing else that the election depends on. -/
structure Recounts (s t : ChainState) (change : ℕ → ℤ) : Prop where
  state : ∃ x, t = { s with witnesses := x } ∧ x.nextId = s.witnesses.nextId ∧
    x.rows.map (fun w => (w.id, w.votes)) =
      s.witnesses.rows.map fun w => (w.id, w.votes + change w.id)

/-- A recount of votes leaves the roll. -/
theorem Recounts.roll_eq {change : ℕ → ℤ} (h : Recounts s t change) : roll t = roll s := by
  obtain ⟨x, rfl, hnext, hrows⟩ := h.state
  have hids : x.rows.map (·.id) = s.witnesses.rows.map (·.id) := by
    have hfst := congrArg (List.map Prod.fst) hrows
    rwa [List.map_map, List.map_map] at hfst
  simp only [roll, hids, hnext]

/-- A recount of votes leaves the accounts. -/
theorem Recounts.accounts {change : ℕ → ℤ} (h : Recounts s t change) :
    t.accounts = s.accounts := by
  obtain ⟨x, rfl, -⟩ := h.state
  rfl

/-- A witness after the change. -/
theorem Recounts.votes {change : ℕ → ℤ} (h : Recounts s t change) {w : WitnessObject}
    (hw : w ∈ t.witnesses.rows) :
    ∃ old ∈ s.witnesses.rows, w.id = old.id ∧ w.votes = old.votes + change old.id := by
  obtain ⟨x, rfl, -, hrows⟩ := h.state
  have hmem : (w.id, w.votes) ∈ x.rows.map (fun w => (w.id, w.votes)) := List.mem_map_of_mem hw
  rw [hrows] at hmem
  obtain ⟨old, hold, heq⟩ := List.mem_map.mp hmem
  exact ⟨old, hold, (congrArg Prod.fst heq).symm, (congrArg Prod.snd heq).symm⟩

/-- No recount changes no votes. -/
theorem Recounts.refl (s : ChainState) : Recounts s s 0 := by
  refine ⟨s.witnesses, rfl, rfl, ?_⟩
  simp

/-- Two recounts change the votes by the sum. -/
theorem Recounts.trans {v : ChainState} {f g : ℕ → ℤ} (hst : Recounts s t f)
    (htv : Recounts t v g) : Recounts s v (f + g) := by
  obtain ⟨x, rfl, hnext, hrows⟩ := hst.state
  obtain ⟨y, rfl, hnext', hrows'⟩ := htv.state
  refine ⟨y, rfl, hnext'.trans hnext, hrows'.trans ?_⟩
  have hstep := congrArg (List.map fun p : ℕ × ℤ => (p.1, p.2 + g p.1)) hrows
  rw [List.map_map, List.map_map] at hstep
  refine hstep.trans (List.map_congr_left fun w _ => ?_)
  simp only [Function.comp_apply, Pi.add_apply, Prod.mk.injEq, true_and]
  omega

/-- The votes of the witness grow by the change, and its id stays. -/
theorem changeWitnessVote_votes (hexact : fc.SafeExact) {time : ℕ} {shares delta : ℤ}
    {w v : WitnessObject} (h : changeWitnessVote fc time shares delta w = .ok v) :
    v.id = w.id ∧ v.votes = w.votes + delta := by
  obtain ⟨votes, hvotes, h⟩ := bind_eq_ok h
  obtain ⟨_, -, h⟩ := bind_eq_ok h
  obtain ⟨lap, -, h⟩ := bind_eq_ok h
  rw [← Except.ok.inj h]
  exact ⟨rfl, (hexact.checked hvotes).1⟩

/-- `adjust_witness_vote` changes the votes of one witness. -/
theorem adjustWitnessVote_recounts (hexact : fc.SafeExact) (hids : (roll s).witnesses.Nodup)
    {witness : ℕ} {delta : ℤ} (h : Returns (adjustWitnessVote fc witness delta) s u t) :
    Recounts s t fun w => if w = witness then delta else 0 := by
  obtain ⟨x, hx, ht⟩ := map_eq_ok h.gets_bind.gets_bind.update
  obtain ⟨a, b, -, hmem, ha, hab, hrows, hnext⟩ := Table.modify_amend WitnessObject.id hx
    hids fun _ _ hw => (changeWitnessVote_votes hexact hw).1
  obtain ⟨hid, hvotes⟩ := changeWitnessVote_votes hexact hab
  have ha : a.id = witness := by simpa using ha
  refine ⟨x, ht, hnext, ?_⟩
  rw [hrows]
  unfold Table.amend
  rw [List.map_map]
  refine List.map_congr_left fun w hw => ?_
  by_cases hsame : w.id = b.id
  · have hwa : w = a := Table.eq_of_key_eq WitnessObject.id hids hw hmem
      (hsame.trans hid)
    have hwid : w.id = witness := by rw [hwa, ha]
    have hid : b.id = w.id := hsame.symm
    have hvotes : b.votes = w.votes + delta := by rw [hvotes, hwa]
    simp only [Function.comp_apply, hsame, if_true]
    rw [hvotes, if_pos (hid.trans hwid)]
  · have hne : w.id ≠ witness := fun heq => hsame (by rw [heq, hid, ha])
    simp only [Function.comp_apply, if_neg hsame, if_neg hne, add_zero]

/-- A loop over votes changes each witness once for every vote for it. -/
theorem adjustEach_recounts (hexact : fc.SafeExact) {delta : ℤ} {votes : List WitnessVoteObject}
    (hids : (roll s).witnesses.Nodup)
    (h : Returns (forEach (fun v => adjustWitnessVote fc v.witness delta) votes) s u t) :
    Recounts s t fun w => (votes.map (·.witness)).count w * delta := by
  induction votes generalizing s with
  | nil =>
    obtain ⟨-, rfl⟩ := h.pure
    have hzero : (fun w => (((([] : List WitnessVoteObject).map (·.witness)).count w : ℕ) : ℤ) *
        delta) = 0 := by
      funext w
      simp
    rw [hzero]
    exact Recounts.refl t
  | cons vote rest ih =>
    obtain ⟨_, v, hv, h⟩ := Returns.bind h
    have hfirst := adjustWitnessVote_recounts hexact hids hv
    have hrest := ih (hfirst.roll_eq ▸ hids) h
    have hboth := hfirst.trans hrest
    have hsum : (fun w => if w = vote.witness then delta else 0) +
        (fun w => (((rest.map (·.witness)).count w : ℕ) : ℤ) * delta) =
        fun w => ((((vote :: rest).map (·.witness)).count w : ℕ) : ℤ) * delta := by
      funext w
      rw [List.map_cons, List.count_cons]
      by_cases hw : w = vote.witness
      · simp [hw, Int.add_mul, Int.add_comm]
      · simp [hw, Ne.symm hw]
    rwa [hsum] at hboth

/-- An account has at most one vote for a witness. -/
theorem count_select (hvalid : (roll s).Valid) (account w : ℕ) :
    ((s.witnessVotes.select (fun v => v.account = account)
      WitnessVoteObject.byWitness).map (·.witness)).count w =
      if (roll s).backs account w = true then 1 else 0 := by
  have hperm := (List.perm_insertionSort (fun a b => WitnessVoteObject.byWitness a b)
    (s.witnessVotes.rows.filter fun v => v.account = account)).map (·.witness)
  have hsingle : ((s.witnessVotes.rows.filter fun v => v.account = account).map
      (·.witness)).Nodup := by
    refine List.Nodup.map_on (fun x hx y hy hxy => ?_) (hvalid.ballotIds.of_map.filter _)
    have hx := List.mem_filter.mp hx
    have hy := List.mem_filter.mp hy
    refine List.inj_on_of_nodup_map hvalid.pairs hx.1 hy.1 ?_
    have hxa : x.account = account := by simpa using hx.2
    have hya : y.account = account := by simpa using hy.2
    simp only [hxa, hya, hxy]
  unfold Table.select
  rw [hperm.count_eq, hsingle.count]
  have hiff : w ∈ (s.witnessVotes.rows.filter fun v => v.account = account).map (·.witness) ↔
      (roll s).backs account w = true := by
    rw [Roll.backs_iff]
    simp [roll, and_assoc]
  simp only [hiff]

/-- `adjust_witness_votes` changes the votes of the witnesses that an account voted for. -/
theorem adjustWitnessVotes_recounts (hexact : fc.SafeExact) (hvalid : (roll s).Valid) {account : ℕ}
    {delta : ℤ} (h : Returns (adjustWitnessVotes fc account delta) s u t) :
    Recounts s t fun w => if (roll s).backs account w = true then delta else 0 := by
  have hloop := adjustEach_recounts hexact hvalid.witnesses h.gets_bind
  have hcount : ∀ w, (((s.witnessVotes.select (fun v => v.account = account)
      WitnessVoteObject.byWitness).map (·.witness)).count w : ℤ) * delta =
      if (roll s).backs account w = true then delta else 0 := by
    intro w
    rw [count_select hvalid]
    split <;> simp
  simpa only [hcount] using hloop

/-- A debt of an account without a proxy is settled with the witnesses that it voted for. -/
theorem Recounts.settles {a : AccountObject} {pending : ℕ → ℤ} {delta : ℤ}
    (hvalid : (roll s).Valid)
    (h : Recounts s t fun w => if (roll s).backs a.id w = true then delta else 0)
    (ha : a ∈ s.accounts.rows) (hproxy : a.proxy = .empty) (hdelta : total pending = delta)
    (ho : Owes (debt + due a.name pending) s) : Owes debt t := by
  obtain ⟨told, hsettled, htold⟩ := ho
  have hinflow := inflow_due told hvalid ha pending
  have htally := tally_due told hvalid ha pending
  refine ⟨told + due a.name pending, ⟨fun d hd => ?_, fun w hw => ?_⟩, fun d hd level hlevel => ?_⟩
  · rw [h.accounts] at hd
    rw [h.roll_eq, hsettled.proxied d hd]
    refine List.map_congr_left fun level _ => ?_
    have hneg : a.proxy ≠ d.name := fun heq => name_ne_empty hvalid hd (heq.symm.trans hproxy)
    rw [hinflow, if_neg hneg, add_zero]
  · obtain ⟨old, hold, hid, hvotes⟩ := h.votes hw
    have hcond : (a.proxy = .empty ∧ (roll s).backs a.id old.id = true) ↔
        (roll s).backs a.id old.id = true := by
      constructor
      · exact fun hboth => hboth.2
      · exact fun hbacks => ⟨hproxy, hbacks⟩
    rw [h.roll_eq, hid, hvotes, htally, hdelta, ← hsettled.votes old hold]
    simp only [hcond]
  · rw [h.accounts] at hd
    rw [htold d hd level hlevel]
    simp only [Pi.add_apply]
    omega

end Votes

section Propagation

variable {debt : AccountName → ℕ → ℤ} {s t : ChainState} {fc : FcLib} {u : Unit}

/-- A loop of exact additions ends in the sum. -/
theorem foldlM_add (hexact : fc.SafeExact) {amounts : List ℤ} {start w : ℤ}
    (h : amounts.foldlM fc.add start = .ok w) : w = start + amounts.sum := by
  induction amounts generalizing start with
  | nil =>
    have hsame : start = w := Except.ok.inj h
    rw [← hsame]
    simp
  | cons amount rest ih =>
    rw [List.foldlM_cons] at h
    obtain ⟨sum, hsum, h⟩ := bind_eq_ok h
    have hsum : sum = start + amount := (hexact.checked hsum).1
    rw [ih h, hsum, List.sum_cons]
    omega

/-- The loop of `witness_vote_weight` computes the weight of the account. -/
theorem witnessVoteWeight_eq (hexact : fc.SafeExact) {a : AccountObject} {w : ℤ}
    (h : a.witnessVoteWeight fc = .ok w) : w = voteWeight a := foldlM_add hexact h

/-- What a step passes on over all levels is the sum of the changes that are still within the
depth. -/
theorem sum_spread (depth n : ℕ) (deltas : List ℤ) :
    ((List.range n).map (spread depth deltas)).sum = (deltas.take (n - depth)).sum := by
  induction n with
  | zero => simp
  | succ n ih =>
    rw [List.range_succ, List.map_append, List.sum_append, ih]
    by_cases hle : depth ≤ n
    · have hn : n + 1 - depth = n - depth + 1 := by omega
      rw [hn, List.take_add_one, List.sum_append]
      simp only [spread, if_pos hle, List.map_cons, List.map_nil, List.sum_cons, List.sum_nil,
        List.getD_eq_getElem?_getD]
      cases deltas[n - depth]? <;> simp
    · have hn : n + 1 - depth = n - depth := by omega
      rw [hn]
      simp [spread, hle]

/-- The weight that reaches an account without a proxy. -/
theorem total_spread {levels : ℕ} (hlevels : levels ≤ wlsMaxProxyRecursionDepth)
    (deltas : List ℤ) :
    total (spread (wlsMaxProxyRecursionDepth - levels) deltas) = (deltas.take (levels + 1)).sum := by
  unfold total
  rw [sum_spread]
  congr 2
  omega

/-- Adding proxied votes keeps the entry and the shares of the account. -/
theorem addProxied_entry {depth : ℕ} {deltas : List ℤ} {a b : AccountObject}
    (h : addProxied fc depth deltas a = .ok b) :
    entry b = entry a ∧ b.vestingShares = a.vestingShares ∧
      addFrom fc depth a.proxiedVsfVotes deltas = .ok b.proxiedVsfVotes := by
  obtain ⟨votes, hvotes, h⟩ := bind_eq_ok h
  rw [← Except.ok.inj h]
  exact ⟨rfl, rfl, hvotes⟩

/-- One step of the propagation: the debt of an account is passed on to its proxy. -/
theorem passOn {depth : ℕ} {deltas : List ℤ} {c : AccountObject} (hexact : fc.SafeExact)
    (hvalid : (roll s).Valid) (hc : c ∈ s.accounts.rows)
    (h : Returns (modifyAccount (named c.proxy) (addProxied fc depth deltas)) s u t)
    (ho : Owes (debt + due c.name (spread depth deltas)) s) :
    Owes (debt + due c.proxy (spread (depth + 1) deltas)) t ∧ roll t = roll s := by
  obtain ⟨a, b, -, ha, hab, hm⟩ := modifyAccount_amends (accounts_names hvalid) h fun _ _ hab =>
    congrArg Entry.name (addProxied_entry hab).1
  obtain ⟨hentry, hshares, hvotes⟩ := addProxied_entry hab
  obtain ⟨hlength, hvalues⟩ := addFrom_spec hexact hvotes
  have ha : a.name = c.proxy := by simpa [named] using ha
  rw [← ha]
  exact ⟨hm.raise hvalid hentry hshares hc ha.symm hlength hvalues (spread_zero_level _ _)
    (spread_succ _ _) ho, hm.roll_same hvalid hentry⟩

/-- The end of the propagation: an account without a proxy votes. -/
theorem adjustWitnessVotes_settles {pending : ℕ → ℤ} {a : AccountObject} (hexact : fc.SafeExact)
    (hvalid : (roll s).Valid) (ha : a ∈ s.accounts.rows) (hproxy : a.proxy = .empty)
    {delta : ℤ} (hdelta : total pending = delta)
    (h : Returns (adjustWitnessVotes fc a.id delta) s u t)
    (ho : Owes (debt + due a.name pending) s) : Owes debt t ∧ roll t = roll s := by
  have hrecounts := adjustWitnessVotes_recounts hexact hvalid h
  exact ⟨hrecounts.settles hvalid ha hproxy hdelta ho, hrecounts.roll_eq⟩

/-- At the greatest depth nothing but the votes depends on the debt that is left. -/
theorem Owes.top {deltas : List ℤ} {a : AccountObject} (hvalid : (roll s).Valid)
    (ha : a ∈ s.accounts.rows) (hproxy : a.proxy ≠ .empty)
    (ho : Owes (debt + due a.name (spread wlsMaxProxyRecursionDepth deltas)) s) : Owes debt s :=
  ho.forgive hvalid ha (.inr fun level hlevel => if_neg (by omega)) (.inl hproxy)

/-- A lookup by name goes on with the account of this name. -/
theorem getAccount_bind {α : Type} {name : AccountName} {k : AccountObject → Chain α} {r : α}
    (h : Returns (getAccount name >>= k) s r t) :
    ∃ a ∈ s.accounts.rows, a.name = name ∧ s.accounts.find (named name) = some a ∧
      Returns (k a) s r t := by
  obtain ⟨a, ha, h⟩ := lookup_bind h
  exact ⟨a, List.mem_of_find?_eq_some ha, by simpa [named] using List.find?_some ha, ha, h⟩

/-- `adjust_proxied_witness_votes` of one change settles the debt of that change. -/
theorem adjustProxiedLevels_settles (hexact : fc.SafeExact) {delta : ℤ} {levels : ℕ}
    {name : AccountName} (hlevels : levels ≤ wlsMaxProxyRecursionDepth) (hvalid : (roll s).Valid)
    (h : Returns (adjustProxiedLevels fc delta levels name) s u t)
    (ho : Owes (debt + due name (spread (wlsMaxProxyRecursionDepth - levels) [delta])) s) :
    Owes debt t ∧ roll t = roll s := by
  have htotal : ∀ levels, levels ≤ wlsMaxProxyRecursionDepth →
      total (spread (wlsMaxProxyRecursionDepth - levels) [delta]) = delta := by
    intro levels hlevels
    rw [total_spread hlevels]
    simp
  induction levels generalizing s name with
  | zero =>
    obtain ⟨a, ha, hname, -, h⟩ := getAccount_bind h
    rw [← hname] at ho
    rcases h.whenever with ⟨hproxy, h⟩ | ⟨hproxy, rfl⟩
    · exact adjustWitnessVotes_settles hexact hvalid ha hproxy (htotal 0 hlevels) h ho
    · exact ⟨ho.top hvalid ha hproxy, rfl⟩
  | succ levels ih =>
    obtain ⟨a, ha, hname, -, h⟩ := getAccount_bind h
    rw [← hname] at ho
    split at h
    next hproxy => exact adjustWitnessVotes_settles hexact hvalid ha hproxy (htotal _ hlevels) h ho
    next =>
      obtain ⟨_, v, hv, h⟩ := h.bind
      obtain ⟨hpassed, hroll⟩ := passOn hexact hvalid ha hv ho
      have hdepth : wlsMaxProxyRecursionDepth - (levels + 1) + 1 =
          wlsMaxProxyRecursionDepth - levels := by omega
      rw [hdepth] at hpassed
      obtain ⟨howes, hsame⟩ := ih (by omega) (hroll ▸ hvalid) h hpassed
      exact ⟨howes, hsame.trans hroll⟩

/-- The change of a single debt settles it along the proxies. -/
theorem adjustProxiedWitnessVotes_settles (hexact : fc.SafeExact) {delta : ℤ} {name : AccountName}
    (hvalid : (roll s).Valid) (h : Returns (adjustProxiedWitnessVotes fc name delta) s u t)
    (ho : Owes (debt + due name (first delta)) s) : Owes debt t ∧ roll t = roll s := by
  rw [← spread_single] at ho
  exact adjustProxiedLevels_settles hexact le_rfl hvalid h (by simpa using ho)

/-- The change by the sum of the levels is the change of the witness votes by it. -/
theorem adjustByTotal_delta (hexact : fc.SafeExact) {deltas : List ℤ} {levels account : ℕ}
    (h : Returns (adjustByTotal fc deltas levels account) s u t) :
    Returns (adjustWitnessVotes fc account (deltas.take (levels + 1)).sum) s u t := by
  obtain ⟨sum, hsum, h⟩ := h.lift_bind
  have hsum := foldlM_add hexact hsum
  rw [List.sum_reverse, zero_add] at hsum
  rwa [hsum] at h

/-- `adjust_proxied_witness_votes` of an array of changes settles the debt of these
changes. -/
theorem adjustProxiedArrayLevels_settles (hexact : fc.SafeExact) {deltas : List ℤ} {levels : ℕ}
    {name : AccountName} (hlevels : levels ≤ wlsMaxProxyRecursionDepth) (hvalid : (roll s).Valid)
    (h : Returns (adjustProxiedArrayLevels fc deltas levels name) s u t)
    (ho : Owes (debt + due name (spread (wlsMaxProxyRecursionDepth - levels) deltas)) s) :
    Owes debt t ∧ roll t = roll s := by
  induction levels generalizing s name with
  | zero =>
    obtain ⟨a, ha, hname, -, h⟩ := getAccount_bind h
    rw [← hname] at ho
    rcases h.whenever with ⟨hproxy, h⟩ | ⟨hproxy, rfl⟩
    · exact adjustWitnessVotes_settles hexact hvalid ha hproxy (total_spread hlevels _)
        (adjustByTotal_delta hexact h) ho
    · exact ⟨ho.top hvalid ha hproxy, rfl⟩
  | succ levels ih =>
    obtain ⟨a, ha, hname, -, h⟩ := getAccount_bind h
    rw [← hname] at ho
    split at h
    next hproxy =>
      exact adjustWitnessVotes_settles hexact hvalid ha hproxy (total_spread hlevels _)
        (adjustByTotal_delta hexact h) ho
    next =>
      obtain ⟨_, v, hv, h⟩ := h.bind
      obtain ⟨hpassed, hroll⟩ := passOn hexact hvalid ha hv ho
      have hdepth : wlsMaxProxyRecursionDepth - (levels + 1) + 1 =
          wlsMaxProxyRecursionDepth - levels := by omega
      rw [hdepth] at hpassed
      obtain ⟨howes, hsame⟩ := ih (by omega) (hroll ▸ hvalid) h hpassed
      exact ⟨howes, hsame.trans hroll⟩

/-- The account itself is told the changes level by level. -/
theorem spread_zero (deltas : List ℤ) (level : ℕ) : spread 0 deltas level = deltas.getD level 0 := by
  simp [spread]

/-- The changes of all levels settle the debt along the proxies. -/
theorem adjustProxiedWitnessVotesArray_settles (hexact : fc.SafeExact) {deltas : List ℤ}
    {name : AccountName} (hvalid : (roll s).Valid)
    (h : Returns (adjustProxiedWitnessVotesArray fc name deltas) s u t)
    (ho : Owes (debt + due name (deltas.getD · 0)) s) : Owes debt t ∧ roll t = roll s := by
  have hspread : spread 0 deltas = (deltas.getD · 0) := funext (spread_zero deltas)
  rw [← hspread] at ho
  exact adjustProxiedArrayLevels_settles hexact le_rfl hvalid h (by simpa using ho)

/-- The propagation does not touch an account that does not stand above the one that it
starts from. -/
theorem adjustProxiedArrayLevels_find {deltas : List ℤ} {levels : ℕ} {name x : AccountName}
    (hexact : fc.SafeExact) (hvalid : (roll s).Valid)
    (h : Returns (adjustProxiedArrayLevels fc deltas levels name) s u t)
    (hx : ∀ steps, climb (roll s).proxyOf (steps + 1) name ≠ some x) :
    t.accounts.find (named x) = s.accounts.find (named x) := by
  induction levels generalizing s name with
  | zero =>
    obtain ⟨a, -, -, -, h⟩ := getAccount_bind h
    rcases h.whenever with ⟨-, h⟩ | ⟨-, rfl⟩
    · rw [(adjustWitnessVotes_recounts hexact hvalid (adjustByTotal_delta hexact h)).accounts]
    · rfl
  | succ levels ih =>
    obtain ⟨a, ha, hname, -, h⟩ := getAccount_bind h
    split at h
    next =>
      rw [(adjustWitnessVotes_recounts hexact hvalid (adjustByTotal_delta hexact h)).accounts]
    next hproxy =>
      obtain ⟨_, v, hv, h⟩ := h.bind
      obtain ⟨c, d, -, hc, hcd, hm⟩ := modifyAccount_amends (accounts_names hvalid) hv fun _ _ hab =>
        congrArg Entry.name (addProxied_entry hab).1
      have hc : c.name = a.proxy := by simpa [named] using hc
      have hroll := hm.roll_same hvalid (addProxied_entry hcd).1
      have hlink : (roll s).proxyOf name = some a.proxy := by
        have hself := Roll.proxyOf_of_mem hvalid.names (mem_entries ha)
        have hname : (entry a).name = name := hname
        rw [hname] at hself
        rw [hself]
        exact if_neg hproxy
      have hne : x ≠ c.name := by
        intro heq
        refine hx 0 ?_
        change ((roll s).proxyOf name).bind some = some x
        rw [hlink, heq, hc]
        rfl
      have habove : ∀ steps, climb (roll v).proxyOf (steps + 1) a.proxy ≠ some x := by
        intro steps hclimb
        refine hx (steps + 1) ?_
        rw [hroll] at hclimb
        change ((roll s).proxyOf name).bind _ = some x
        rw [hlink]
        exact hclimb
      rw [ih (hroll ▸ hvalid) h habove]
      unfold Table.find
      rw [hm.rows]
      exact Table.find_amend_of_ne (by rw [hm.name]; exact hne)

end Propagation

section Recounting

variable {told : AccountName → ℕ → ℤ} {s t : ChainState}

/-- The amounts told stay right when votes change and the witnesses are recounted. -/
theorem Settled.recast {change : ℕ → ℤ} (h : Settled told s)
    (hacc : ∀ a ∈ t.accounts.rows, ∃ b ∈ s.accounts.rows, b.name = a.name ∧
      b.proxiedVsfVotes = a.proxiedVsfVotes)
    (hinflow : ∀ n level, inflow told (roll t) n level = inflow told (roll s) n level)
    (hwit : ∀ w ∈ t.witnesses.rows, ∃ v ∈ s.witnesses.rows, w.id = v.id ∧
      w.votes = v.votes + change v.id)
    (htally : ∀ w, tally told (roll t) w = tally told (roll s) w + change w) : Settled told t where
  proxied a ha := by
    obtain ⟨b, hb, hname, hproxied⟩ := hacc a ha
    rw [← hproxied, h.proxied b hb, hname]
    exact List.map_congr_left fun level _ => (hinflow _ level).symm
  votes w hw := by
    obtain ⟨v, hv, hid, hvotes⟩ := hwit w hw
    rw [hvotes, hid, htally, h.votes v hv]

/-- The amounts that arrive depend on the proxies only. -/
theorem inflow_amend {r r' : Roll} {e e' : Entry} (hvalid : r.Valid) (he : e ∈ r.entries)
    (hname : e'.name = e.name) (hproxy : e'.proxy = e.proxy)
    (hentries : r'.entries = Table.amend Entry.name e' r.entries) (n : AccountName) (level : ℕ) :
    inflow told r' n level = inflow told r n level := by
  unfold inflow
  rw [hentries]
  refine congrArg List.sum (Table.amend_map_eq fun old hold hsame => ?_)
  rw [Table.eq_of_key_eq Entry.name hvalid.names hold he (hsame.trans hname), hname, hproxy]

/-- The votes for a witness after one account changed its votes. -/
theorem tally_amend {r r' : Roll} {e e' : Entry} (hvalid : r.Valid) (he : e ∈ r.entries)
    (hid : e'.id = e.id) (hname : e'.name = e.name) (hproxy : e'.proxy = e.proxy)
    (hentries : r'.entries = Table.amend Entry.name e' r.entries)
    (hothers : ∀ account, account ≠ e.id → ∀ w, r'.backs account w = r.backs account w) (w : ℕ) :
    tally told r' w = tally told r w +
      ((if e.proxy = .empty ∧ r'.backs e.id w = true then total (told e.name) else 0) -
        (if e.proxy = .empty ∧ r.backs e.id w = true then total (told e.name) else 0)) := by
  have hrebuilt : tally told r' w = (r.entries.map fun old =>
      if old.proxy = .empty ∧ r'.backs old.id w = true then total (told old.name) else 0).sum := by
    unfold tally
    rw [hentries]
    refine congrArg List.sum (Table.amend_map_eq fun old hold hsame => ?_)
    rw [Table.eq_of_key_eq Entry.name hvalid.names hold he (hsame.trans hname), hid, hname,
      hproxy]
  rw [hrebuilt]
  refine Table.sum_map_replace Entry.name hvalid.names he fun old hold hne => ?_
  have hother : old.id ≠ e.id := fun hsame =>
    hne (congrArg Entry.name (Table.eq_of_key_eq Entry.id hvalid.ids hold he hsame))
  rw [hothers old.id hother w]

/-- An account passes on its whole weight. -/
theorem total_passed {a : AccountObject}
    (hlength : a.proxiedVsfVotes.length = wlsMaxProxyRecursionDepth) :
    total (passed a) = voteWeight a := by
  have hlist : (a.vestingShares :: a.proxiedVsfVotes) =
      (List.range (wlsMaxProxyRecursionDepth + 1)).map (passed a) :=
    eq_map_range (by simp [hlength]) fun _ _ => rfl
  unfold total voteWeight
  rw [← hlist, List.sum_cons]

/-- A settled account has one amount for each level of the recursion. -/
theorem Settled.length (h : Settled told s) {a : AccountObject} (ha : a ∈ s.accounts.rows) :
    a.proxiedVsfVotes.length = wlsMaxProxyRecursionDepth := by
  rw [h.proxied a ha]
  simp

end Recounting

end Whaleshares.Tally
