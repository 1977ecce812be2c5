import Mathlib
import Whaleshares.AuthorityCheck

/-!
# Which signatures a check uses

If the authorities of accounts nest no deeper than the check looks, its cache of approved
accounts changes nothing: `lookAccount` and `lookAuthority` say without a cache and without
marks whether a check approves and which keys it uses. With fewer keys a check approves less and
uses all of those keys that it used before.
-/

namespace Whaleshares.SignatureUse

open Config Fc Protocol Program SignState AuthorityDerivation AuthorityCheck

section Looks

variable (keys : List PublicKey)

/-- What a check finds: whether it approves, and the keys that it uses. -/
structure Look where
  approved : Bool
  keys : List PublicKey

/-- The keys of an authority in order, until the threshold is met. -/
def scanKeys (threshold : ℕ) : ℕ → List (PublicKey × ℕ) → (ℕ × Bool) × List PublicKey
  | total, [] => ((total, false), [])
  | total, (key, weight) :: rest =>
    if key ∈ keys then
      if threshold ≤ total + weight then ((total + weight, true), [key])
      else ((scanKeys threshold (total + weight) rest).1,
        key :: (scanKeys threshold (total + weight) rest).2)
    else scanKeys threshold total rest

/-- The accounts of an authority in order, until the threshold is met. -/
def scanAccounts (look : AccountName → Look) (threshold : ℕ) : ℕ → List (AccountName × ℕ) → Look
  | total, [] => ⟨threshold ≤ total, []⟩
  | total, (account, weight) :: rest =>
    if (look account).approved then
      if threshold ≤ total + weight then ⟨true, (look account).keys⟩
      else ⟨(scanAccounts look threshold (total + weight) rest).approved,
        (look account).keys ++ (scanAccounts look threshold (total + weight) rest).keys⟩
    else ⟨(scanAccounts look threshold total rest).approved,
      (look account).keys ++ (scanAccounts look threshold total rest).keys⟩

/-- A look at an authority, from what a look at accounts finds. -/
def lookAuthority (look : AccountName → Look) (auth : Authority) : Look :=
  match scanKeys keys auth.weightThreshold 0 auth.keyAuths with
  | ((_, true), used) => ⟨true, used⟩
  | ((total, false), used) =>
    ⟨(scanAccounts look auth.weightThreshold total auth.accountAuths).approved,
      used ++ (scanAccounts look auth.weightThreshold total auth.accountAuths).keys⟩

/-- A look at an account, with the authorities of accounts down to a depth. -/
def lookAccount (getter : AuthorityGetter) : ℕ → AccountName → Look
  | 0, account => ⟨account = tempName, []⟩
  | depth + 1, account =>
    if account = tempName then ⟨true, []⟩
    else
      match getter account with
      | .ok auth => lookAuthority keys (lookAccount getter depth) auth
      | .error _ => ⟨false, []⟩

end Looks

section Depth

variable {getter : AuthorityGetter} {keys : List PublicKey} {depth more : ℕ} {account : AccountName}
  {auth : Authority}

/-- The account and those that its authority names nest no deeper. -/
def Within (getter : AuthorityGetter) : ℕ → AccountName → Prop
  | 0, account => account = tempName
  | depth + 1, account => account = tempName ∨ ∃ auth, getter account = .ok auth ∧ Bounded auth ∧
      ∀ entry ∈ auth.accountAuths, Within getter depth entry.1

/-- The accounts of an authority nest no deeper. -/
def WithinAuthority (getter : AuthorityGetter) (depth : ℕ) (auth : Authority) : Prop :=
  Bounded auth ∧ ∀ entry ∈ auth.accountAuths, Within getter depth entry.1

/-- A scan of accounts depends on what is found for each of them. -/
theorem scanAccounts_congr {look look' : AccountName → Look} (threshold total : ℕ)
    {entries : List (AccountName × ℕ)} (h : ∀ entry ∈ entries, look entry.1 = look' entry.1) :
    scanAccounts look threshold total entries = scanAccounts look' threshold total entries := by
  induction entries generalizing total with
  | nil => rfl
  | cons entry rest ih =>
    have hentry : look entry.1 = look' entry.1 := h entry List.mem_cons_self
    have hrest := fun total => ih total fun e he => h e (List.mem_cons_of_mem _ he)
    unfold scanAccounts
    rw [hentry, hrest, hrest]

/-- An authority depends on what is found for its accounts. -/
theorem lookAuthority_congr {look look' : AccountName → Look}
    (h : ∀ entry ∈ auth.accountAuths, look entry.1 = look' entry.1) :
    lookAuthority keys look auth = lookAuthority keys look' auth := by
  unfold lookAuthority
  split
  · rfl
  · rw [scanAccounts_congr _ _ h]

/-- The account `temp` always approves, without a key. -/
theorem lookAccount_temp (depth : ℕ) : lookAccount keys getter depth tempName = ⟨true, []⟩ := by
  cases depth with
  | zero => simp [lookAccount]
  | succ depth => simp [lookAccount]

/-- Beyond the depth of an account, more depth finds nothing new. -/
theorem Within.look_succ (h : Within getter depth account) :
    lookAccount keys getter (depth + 1) account = lookAccount keys getter depth account := by
  induction depth generalizing account with
  | zero =>
    have htemp : account = tempName := h
    rw [htemp, lookAccount_temp, lookAccount_temp]
  | succ depth ih =>
    rcases h with htemp | ⟨auth, hauth, -, hentries⟩
    · rw [htemp, lookAccount_temp, lookAccount_temp]
    · rw [lookAccount, lookAccount]
      split
      · rfl
      · rw [hauth]
        exact lookAuthority_congr fun entry hentry => ih (hentries entry hentry)

/-- An account within a depth is within a greater one. -/
theorem Within.succ (h : Within getter depth account) : Within getter (depth + 1) account := by
  induction depth generalizing account with
  | zero => exact .inl h
  | succ depth ih =>
    rcases h with htemp | ⟨auth, hauth, hbound, hentries⟩
    · exact .inl htemp
    · exact .inr ⟨auth, hauth, hbound, fun entry hentry => ih (hentries entry hentry)⟩

/-- Within the depth a deeper check finds the same. -/
theorem Within.look_eq (h : Within getter depth account) (hle : depth ≤ more) :
    lookAccount keys getter more account = lookAccount keys getter depth account ∧
      Within getter more account := by
  induction hle with
  | refl => exact ⟨rfl, h⟩
  | step _ ih => exact ⟨ih.2.look_succ.trans ih.1, ih.2.succ⟩

/-- A look at an account is a look at its authority. -/
theorem look_of_authority (hauth : getter account = .ok auth) (htemp : account ≠ tempName)
    (hwithin : WithinAuthority getter depth auth) (hle : depth < more) :
    lookAccount keys getter more account =
      lookAuthority keys (lookAccount keys getter more) auth := by
  have haccount : Within getter (depth + 1) account := .inr ⟨auth, hauth, hwithin⟩
  rw [(haccount.look_eq hle).1, lookAccount, if_neg htemp, hauth]
  exact lookAuthority_congr fun entry hentry =>
    ((hwithin.2 entry hentry).look_eq (Nat.le_of_lt hle)).1.symm

end Depth

section Search

variable {getter : AuthorityGetter} {keys used later : List PublicKey} {look : AccountName → Look}
  {s t u : State} {k : PublicKey} {account : AccountName} {auth : Authority} {depth : ℕ}

/-- The key signed, and no check has used it. -/
def Unused (s : State) (k : PublicKey) : Prop := (k, false) ∈ s.providedSignatures

/-- The keys signed, and the approved accounts are those that a look approves, with their keys
marked. -/
structure Tracks (keys : List PublicKey) (look : AccountName → Look) (s : State) : Prop where
  provided : ∀ k, (∃ sig ∈ s.providedSignatures, sig.1 = k) ↔ k ∈ keys
  temp : tempName ∈ s.approvedBy
  cached : ∀ account ∈ s.approvedBy,
    (look account).approved = true ∧ ∀ k ∈ (look account).keys, ¬ Unused s k

/-- A check marks these keys. -/
structure Uses (keys : List PublicKey) (look : AccountName → Look) (s t : State)
    (used : List PublicKey) : Prop where
  tracks : Tracks keys look t
  unused : ∀ k, Unused t k ↔ Unused s k ∧ k ∉ used

/-- A check finds what a look finds. -/
def Finds (keys : List PublicKey) (look : AccountName → Look)
    (check : State → Except Exc (Bool × State)) (r : Look) : Prop :=
  ∀ s, Tracks keys look s → ∃ t, check s = .ok (r.approved, t) ∧ Uses keys look s t r.keys

/-- Two checks use the keys of both. -/
theorem Uses.trans (hst : Uses keys look s t used) (htu : Uses keys look t u later) :
    Uses keys look s u (used ++ later) := by
  refine ⟨htu.tracks, fun k => ?_⟩
  rw [htu.unused, hst.unused, List.mem_append, not_or, and_assoc]

/-- Keys that are marked already are used again without a change. -/
theorem Tracks.marked (hs : Tracks keys look s) (hused : ∀ k ∈ used, ¬ Unused s k) :
    Uses keys look s s used :=
  ⟨hs, fun k => ⟨fun hk => ⟨hk, fun hmem => hused k hmem hk⟩, And.left⟩⟩

/-- A check that uses no key changes nothing. -/
theorem Tracks.nothing (hs : Tracks keys look s) : Uses keys look s s [] :=
  hs.marked fun _ hk => absurd hk List.not_mem_nil

/-- The mark on a key. -/
def marking (k : PublicKey) (sig : PublicKey × Bool) : PublicKey × Bool :=
  if sig.1 = k then (k, true) else sig

/-- The state with a mark on a key. -/
def markKey (k : PublicKey) (s : State) : State :=
  { s with providedSignatures := s.providedSignatures.map (marking k) }

/-- A mark keeps the key. -/
theorem marking_fst (k : PublicKey) (sig : PublicKey × Bool) : (marking k sig).1 = sig.1 := by
  unfold marking
  split
  next hk => exact hk.symm
  next => rfl

/-- After a mark the other unused keys are unused. -/
theorem mem_marking {l : List (PublicKey × Bool)} {k' : PublicKey} :
    (k', false) ∈ l.map (marking k) ↔ (k', false) ∈ l ∧ k' ≠ k := by
  constructor
  · intro h
    obtain ⟨sig, hsig, heq⟩ := List.mem_map.mp h
    unfold marking at heq
    split at heq
    next => cases heq
    next hne =>
      rw [heq] at hsig hne
      exact ⟨hsig, hne⟩
  · rintro ⟨hmem, hne⟩
    exact List.mem_map.mpr ⟨_, hmem, if_neg hne⟩

/-- A signature of a key is found, and marked. -/
theorem signedBy_uses (hs : Tracks keys look s) (k : PublicKey) :
    ∃ t, signedBy [] k s = (decide (k ∈ keys), t) ∧ Uses keys look s t [k] := by
  have hmem : s.providedSignatures.any (·.1 = k) = true ↔ k ∈ keys := by
    rw [← hs.provided k, List.any_eq_true]
    simp only [decide_eq_true_eq]
  by_cases hk : k ∈ keys
  · refine ⟨markKey k s, ?_, ?_⟩
    · unfold signedBy
      rw [if_pos (hmem.mpr hk), decide_eq_true hk]
      rfl
    · have hunused : ∀ k', Unused (markKey k s) k' ↔ Unused s k' ∧ k' ∉ [k] := by
        intro k'
        rw [List.mem_singleton]
        exact mem_marking
      refine ⟨⟨fun k' => ?_, hs.temp, fun a ha => ?_⟩, hunused⟩
      · rw [← hs.provided k']
        constructor
        · rintro ⟨sig, hsig, rfl⟩
          obtain ⟨old, hold, rfl⟩ := List.mem_map.mp hsig
          exact ⟨old, hold, (marking_fst k old).symm⟩
        · rintro ⟨sig, hsig, rfl⟩
          exact ⟨marking k sig, List.mem_map_of_mem hsig, marking_fst k sig⟩
      · obtain ⟨happroved, hmarked⟩ := hs.cached a ha
        exact ⟨happroved, fun k' hk' hnot => hmarked k' hk' ((hunused k').mp hnot).1⟩
  · refine ⟨s, ?_, hs.marked fun k' hk' hnot => ?_⟩
    · unfold signedBy
      rw [if_neg fun hany => hk (hmem.mp hany), decide_eq_false hk]
      rfl
    · rw [List.mem_singleton.mp hk'] at hnot
      exact hk ((hs.provided k).mp ⟨_, hnot, rfl⟩)

/-- The loop over the keys of an authority. -/
theorem checkKeys_uses (threshold total : ℕ) {entries : List (PublicKey × ℕ)}
    (hs : Tracks keys look s) (hbound : total + weight entries < 2 ^ 32) :
    ∃ t, checkKeys [] threshold total entries s = ((scanKeys keys threshold total entries).1, t) ∧
      Uses keys look s t (scanKeys keys threshold total entries).2 := by
  induction entries generalizing total s with
  | nil => exact ⟨s, rfl, hs.nothing⟩
  | cons entry rest ih =>
    obtain ⟨key, w⟩ := entry
    rw [weight_cons] at hbound
    simp only at hbound
    have hmod : (total + w) % 2 ^ 32 = total + w := Nat.mod_eq_of_lt (by omega)
    obtain ⟨t, ht, huses⟩ := signedBy_uses hs key
    unfold checkKeys scanKeys
    rw [ht]
    by_cases hkey : key ∈ keys
    · simp only [hkey, decide_true, if_true, hmod]
      split
      · exact ⟨t, rfl, huses⟩
      · obtain ⟨u, hu, hlater⟩ := ih (total + w) huses.tracks (by omega)
        exact ⟨u, hu, huses.trans hlater⟩
    · have hnot : ¬ Unused s key := fun hunused =>
        hkey ((hs.provided key).mp ⟨_, hunused, rfl⟩)
      simp only [hkey, decide_false, if_false]
      obtain ⟨u, hu, hlater⟩ := ih total huses.tracks (by omega)
      refine ⟨u, hu, hlater.tracks, fun k => ?_⟩
      rw [hlater.unused, huses.unused, List.mem_singleton, and_assoc]
      refine and_congr_right fun hk => ⟨And.right, fun hmem => ⟨?_, hmem⟩⟩
      rintro rfl
      exact hnot hk

/-- One level down, the check finds what a look at the account finds. -/
def Below (getter : AuthorityGetter) (keys : List PublicKey) (look : AccountName → Look)
    (check : Option Check) (account : AccountName) : Prop :=
  account = tempName ∨ ∃ c auth, check = some c ∧ getter account = .ok auth ∧
    Finds keys look (c auth) (look account)

/-- The state with one more approved account. -/
def approve (account : AccountName) (s : State) : State :=
  { s with approvedBy := s.approvedBy ++ [account] }

/-- An approved account may be noted in the cache. -/
theorem Uses.approve (h : Uses keys look s t (look account).keys)
    (happroved : (look account).approved = true) :
    Uses keys look s (approve account t) (look account).keys := by
  refine ⟨⟨h.tracks.provided, List.mem_append_left _ h.tracks.temp, fun a ha => ?_⟩, h.unused⟩
  rcases List.mem_append.mp ha with ha | ha
  · exact h.tracks.cached a ha
  · rw [List.mem_singleton.mp ha]
    exact ⟨happroved, fun k hk hnot => ((h.unused k).mp hnot).2 hk⟩

/-- The loop over the accounts of an authority. -/
theorem checkAccounts_uses {check : Option Check}
    (threshold total : ℕ) {entries : List (AccountName × ℕ)} (hs : Tracks keys look s)
    (hbound : total + weight entries < 2 ^ 32)
    (hbelow : ∀ entry ∈ entries, Below getter keys look check entry.1) :
    ∃ t, checkAccounts getter check threshold total entries s =
        .ok ((scanAccounts look threshold total entries).approved, t) ∧
      Uses keys look s t (scanAccounts look threshold total entries).keys := by
  induction entries generalizing total s with
  | nil => exact ⟨s, rfl, hs.nothing⟩
  | cons entry rest ih =>
    obtain ⟨account, w⟩ := entry
    rw [weight_cons] at hbound
    simp only at hbound
    have hmod : (total + w) % 2 ^ 32 = total + w := Nat.mod_eq_of_lt (by omega)
    have hrest := fun e he => hbelow e (List.mem_cons_of_mem _ he)
    -- after the account approved, the loop ends or goes on with its weight
    have hadd : ∀ s', Uses keys look s s' (look account).keys → (look account).approved = true →
        ∃ t, (if threshold ≤ total + w then .ok (true, s')
            else checkAccounts getter check threshold (total + w) rest s') =
            .ok ((scanAccounts look threshold total ((account, w) :: rest)).approved, t) ∧
          Uses keys look s t (scanAccounts look threshold total ((account, w) :: rest)).keys := by
      intro s' huses happroved
      unfold scanAccounts
      simp only [happroved, if_true]
      split
      · exact ⟨s', rfl, huses⟩
      · obtain ⟨t, ht, hlater⟩ := ih (total + w) huses.tracks (by omega) hrest
        exact ⟨t, ht, huses.trans hlater⟩
    by_cases hcached : account ∈ s.approvedBy
    · obtain ⟨happroved, hmarked⟩ := hs.cached account hcached
      unfold checkAccounts
      rw [if_pos (List.contains_iff_mem.mpr hcached)]
      simp only [hmod]
      exact hadd s (hs.marked hmarked) happroved
    · have htemp : account ≠ tempName := fun heq => hcached (heq ▸ hs.temp)
      obtain ⟨c, auth, hcheck, hauth, hfinds⟩ :=
        (hbelow _ List.mem_cons_self).resolve_left htemp
      obtain ⟨s', hc, huses⟩ := hfinds s hs
      rw [hcheck] at ih hadd ⊢
      unfold checkAccounts
      rw [if_neg fun hmem => hcached (List.contains_iff_mem.mp hmem)]
      simp only [hauth, hc, bind, Except.bind, hmod]
      cases happroved : (look account).approved with
      | true => exact hadd (approve account s') (huses.approve happroved) happroved
      | false =>
        unfold scanAccounts
        simp only [happroved, Bool.false_eq_true, if_false]
        obtain ⟨t, ht, hlater⟩ := ih total huses.tracks (by omega) (hcheck ▸ hrest)
        exact ⟨t, ht, huses.trans hlater⟩

/-- A scan of keys adds at most the weight of all of them. -/
theorem scanKeys_total (keys : List PublicKey) (threshold total : ℕ)
    (entries : List (PublicKey × ℕ)) :
    (scanKeys keys threshold total entries).1.1 ≤ total + weight entries := by
  induction entries generalizing total with
  | nil => exact Nat.le_refl _
  | cons entry rest ih =>
    obtain ⟨key, w⟩ := entry
    have hmore := ih (total + w)
    have hless := ih total
    unfold scanKeys
    rw [weight_cons]
    simp only
    split
    · split
      · simp only
        omega
      · simp only
        omega
    · omega

/-- One level of `check_authority` finds what a look finds. -/
theorem searchWith_uses {below : Option Check} (hbound : Bounded auth)
    (hbelow : ∀ entry ∈ auth.accountAuths, Below getter keys look below entry.1) :
    Finds keys look (searchWith getter [] below auth) (lookAuthority keys look auth) := by
  intro s hs
  unfold Bounded at hbound
  have hkeys : 0 + weight auth.keyAuths < 2 ^ 32 := by omega
  obtain ⟨t, ht, huses⟩ := checkKeys_uses auth.weightThreshold 0 hs hkeys
  have htotal := scanKeys_total keys auth.weightThreshold 0 auth.keyAuths
  unfold searchWith lookAuthority
  rw [ht]
  generalize scanKeys keys auth.weightThreshold 0 auth.keyAuths = r at huses htotal
  obtain ⟨⟨total, met⟩, used⟩ := r
  cases met with
  | true => exact ⟨t, rfl, huses⟩
  | false =>
    simp only at htotal
    obtain ⟨u, hu, hlater⟩ := checkAccounts_uses auth.weightThreshold total huses.tracks
      (by omega) hbelow
    exact ⟨u, hu, huses.trans hlater⟩

/-- `check_authority` down to a depth that suffices finds what a look finds. -/
theorem checkAuthority_uses {more : ℕ} (hwithin : WithinAuthority getter depth auth)
    (hle : depth < more) :
    Finds keys (lookAccount keys getter more) (checkAuthority getter [] depth auth)
      (lookAuthority keys (lookAccount keys getter more) auth) := by
  induction depth generalizing auth with
  | zero =>
    rw [checkAuthority_zero]
    exact searchWith_uses hwithin.1 fun entry hentry => .inl (hwithin.2 entry hentry)
  | succ depth ih =>
    rw [checkAuthority_succ]
    refine searchWith_uses hwithin.1 fun entry hentry => ?_
    by_cases htemp : entry.1 = tempName
    · exact .inl htemp
    · obtain ⟨below, hauth, hbelow⟩ := (hwithin.2 entry hentry).resolve_left htemp
      refine .inr ⟨_, below, rfl, hauth, ?_⟩
      rw [look_of_authority hauth htemp hbelow (Nat.lt_of_succ_lt hle)]
      exact ih hbelow (Nat.lt_of_succ_lt hle)

end Search

section Tests

variable {getter : AuthorityGetter} {keys : List PublicKey} {look : AccountName → Look}
  {account : AccountName} {auth : Authority} {depth : ℕ}

/-- The looks in order, until one approves. -/
def lookAny : List Look → Look
  | [] => ⟨false, []⟩
  | r :: rest => if r.approved then r else ⟨(lookAny rest).approved, r.keys ++ (lookAny rest).keys⟩

/-- The check of an authority uses the keys that the lookup finds. -/
theorem checkAuthorityOf_uses (hwithin : WithinAuthority getter depth auth) :
    Finds keys (lookAccount keys getter (depth + 1)) (checkAuthorityOf getter [] depth (.ok auth))
      (lookAuthority keys (lookAccount keys getter (depth + 1)) auth) :=
  checkAuthority_uses hwithin (Nat.lt_succ_self depth)

/-- The check of an account uses the keys that the lookup finds. -/
theorem checkAccount_uses (hwithin : Within getter (depth + 1) account) :
    Finds keys (lookAccount keys getter (depth + 1)) (checkAccount getter [] depth account)
      (lookAccount keys getter (depth + 1) account) := by
  intro s hs
  unfold checkAccount
  by_cases hcached : account ∈ s.approvedBy
  · obtain ⟨happroved, hmarked⟩ := hs.cached account hcached
    rw [if_pos (List.contains_iff_mem.mpr hcached), happroved]
    exact ⟨s, rfl, hs.marked hmarked⟩
  · have htemp : account ≠ tempName := fun heq => hcached (heq ▸ hs.temp)
    obtain ⟨auth, hauth, hnested⟩ := hwithin.resolve_left htemp
    rw [if_neg fun hmem => hcached (List.contains_iff_mem.mp hmem), hauth,
      look_of_authority hauth htemp hnested (Nat.lt_succ_self depth)]
    exact checkAuthorityOf_uses hnested s hs

/-- The check of one authority out of several uses the keys that the lookup finds. -/
theorem anyOf_uses {tests : List (StateT State (Except Exc) Bool)} {rs : List Look}
    (h : List.Forall₂ (Finds keys look) tests rs) : Finds keys look (anyOf tests) (lookAny rs) := by
  induction h with
  | nil => exact fun s hs => ⟨s, rfl, hs.nothing⟩
  | @cons test r tests rs htest _ ih =>
    intro s hs
    obtain ⟨t, ht, huses⟩ := htest s hs
    unfold lookAny
    cases happroved : r.approved with
    | true =>
      rw [happroved] at ht
      refine ⟨t, ?_, ?_⟩
      · rw [if_pos rfl, happroved]
        exact Returns.intro_bind ht rfl
      · rw [if_pos rfl]
        exact huses
    | false =>
      rw [happroved] at ht
      obtain ⟨u, hu, hlater⟩ := ih t huses.tracks
      refine ⟨u, ?_, ?_⟩
      · rw [if_neg Bool.false_ne_true]
        exact Returns.intro_bind ht hu
      · rw [if_neg Bool.false_ne_true]
        exact huses.trans hlater

end Tests

section Fewer

variable {getter : AuthorityGetter} {keys fewer : List PublicKey} {look look' : AccountName → Look}
  {r r' : Look}

/-- A look with fewer keys approves less, and uses all of these keys that the other one uses. -/
structure Less (fewer : List PublicKey) (r' r : Look) : Prop where
  approved : r'.approved = true → r.approved = true
  keys : ∀ k ∈ r.keys, k ∈ fewer → k ∈ r'.keys

/-- With fewer keys a scan of keys approves less and uses all of them that it used before. -/
theorem scanKeys_less (threshold : ℕ) {total total' : ℕ} (entries : List (PublicKey × ℕ))
    (hfewer : fewer ⊆ keys) (htotal : total' ≤ total) :
    ((scanKeys fewer threshold total' entries).1.2 = true →
        (scanKeys keys threshold total entries).1.2 = true) ∧
      ((scanKeys keys threshold total entries).1.2 = false →
        (scanKeys fewer threshold total' entries).1.1 ≤ (scanKeys keys threshold total entries).1.1) ∧
      ∀ k ∈ (scanKeys keys threshold total entries).2, k ∈ fewer →
        k ∈ (scanKeys fewer threshold total' entries).2 := by
  induction entries generalizing total total' with
  | nil => exact ⟨id, fun _ => htotal, fun _ hk => absurd hk List.not_mem_nil⟩
  | cons entry rest ih =>
    obtain ⟨key, w⟩ := entry
    unfold scanKeys
    by_cases hkey : key ∈ fewer
    · rw [if_pos hkey, if_pos (hfewer hkey)]
      by_cases hmet' : threshold ≤ total' + w
      · rw [if_pos hmet', if_pos (by omega)]
        exact ⟨fun _ => rfl, nofun, fun k hk _ => hk⟩
      · rw [if_neg hmet']
        have hsum : total' + w ≤ total + w := by omega
        obtain ⟨happroved, hle, hkeys⟩ := ih hsum
        split
        · refine ⟨fun _ => rfl, nofun, fun k hk _ => ?_⟩
          rw [List.mem_singleton.mp hk]
          exact List.mem_cons_self
        · refine ⟨happroved, hle, fun k hk hmem => ?_⟩
          rcases List.mem_cons.mp hk with rfl | hk
          · exact List.mem_cons_self
          · exact List.mem_cons_of_mem _ (hkeys k hk hmem)
    · rw [if_neg hkey]
      split
      · split
        · refine ⟨fun _ => rfl, nofun, fun k hk hmem => ?_⟩
          rw [List.mem_singleton.mp hk] at hmem
          exact absurd hmem hkey
        · have hsum : total' ≤ total + w := by omega
          obtain ⟨happroved, hle, hkeys⟩ := ih hsum
          refine ⟨happroved, hle, fun k hk hmem => ?_⟩
          rcases List.mem_cons.mp hk with rfl | hk
          · exact absurd hmem hkey
          · exact hkeys k hk hmem
      · exact ih htotal

/-- Less at first and less then is less together. -/
theorem Less.append {first first' : Look} (hfirst : Less fewer first' first)
    (hrest : Less fewer r' r) :
    Less fewer ⟨r'.approved, first'.keys ++ r'.keys⟩ ⟨r.approved, first.keys ++ r.keys⟩ := by
  refine ⟨hrest.approved, fun k hk hmem => ?_⟩
  rcases List.mem_append.mp hk with hk | hk
  · exact List.mem_append_left _ (hfirst.keys k hk hmem)
  · exact List.mem_append_right _ (hrest.keys k hk hmem)

/-- What stops early uses no more. -/
theorem Less.stop {first first' : Look} (hfirst : Less fewer first' first) (b : Bool)
    (more : List PublicKey) : Less fewer ⟨b, first'.keys ++ more⟩ ⟨true, first.keys⟩ :=
  ⟨fun _ => rfl, fun k hk hmem => List.mem_append_left _ (hfirst.keys k hk hmem)⟩

/-- If less is found for each account, a scan of accounts approves less. -/
theorem scanAccounts_less {threshold total total' : ℕ} {entries : List (AccountName × ℕ)}
    (hlook : ∀ account, Less fewer (look' account) (look account)) (htotal : total' ≤ total) :
    Less fewer (scanAccounts look' threshold total' entries)
      (scanAccounts look threshold total entries) := by
  induction entries generalizing total total' with
  | nil =>
    refine ⟨fun h => ?_, fun _ hk => absurd hk List.not_mem_nil⟩
    have hmet : threshold ≤ total' := of_decide_eq_true h
    exact decide_eq_true (hmet.trans htotal)
  | cons entry rest ih =>
    obtain ⟨account, w⟩ := entry
    have hfirst := hlook account
    unfold scanAccounts
    by_cases happroved' : (look' account).approved = true
    · rw [if_pos happroved', if_pos (hfirst.approved happroved')]
      by_cases hmet' : threshold ≤ total' + w
      · rw [if_pos hmet', if_pos (by omega)]
        exact ⟨fun _ => rfl, hfirst.keys⟩
      · rw [if_neg hmet']
        split
        · exact hfirst.stop _ _
        · exact hfirst.append (ih (by omega))
    · rw [if_neg happroved']
      split
      · split
        · exact hfirst.stop _ _
        · exact hfirst.append (ih (by omega))
      · exact hfirst.append (ih htotal)

/-- With fewer keys an authority approves less. -/
theorem lookAuthority_less (hfewer : fewer ⊆ keys)
    (hlook : ∀ account, Less fewer (look' account) (look account)) (auth : Authority) :
    Less fewer (lookAuthority fewer look' auth) (lookAuthority keys look auth) := by
  have hkeys := scanKeys_less auth.weightThreshold auth.keyAuths hfewer (Nat.le_refl 0)
  unfold lookAuthority
  generalize scanKeys fewer auth.weightThreshold 0 auth.keyAuths = r' at hkeys
  generalize scanKeys keys auth.weightThreshold 0 auth.keyAuths = r at hkeys
  obtain ⟨⟨total', met'⟩, used'⟩ := r'
  obtain ⟨⟨total, met⟩, used⟩ := r
  obtain ⟨hmet, htotal, hused⟩ := hkeys
  have hfirst : Less fewer ⟨met', used'⟩ ⟨met, used⟩ := ⟨hmet, hused⟩
  cases met' with
  | true =>
    have hboth : met = true := hmet rfl
    rw [hboth]
    exact ⟨fun _ => rfl, hused⟩
  | false =>
    cases met with
    | true => exact hfirst.stop _ _
    | false => exact hfirst.append (scanAccounts_less hlook (htotal rfl))

/-- With fewer keys an account approves less. -/
theorem lookAccount_less (hfewer : fewer ⊆ keys) (getter : AuthorityGetter) (depth : ℕ)
    (account : AccountName) :
    Less fewer (lookAccount fewer getter depth account) (lookAccount keys getter depth account) := by
  induction depth generalizing account with
  | zero => exact ⟨id, fun _ hk => absurd hk List.not_mem_nil⟩
  | succ depth ih =>
    unfold lookAccount
    split
    · exact ⟨id, fun _ hk => absurd hk List.not_mem_nil⟩
    · split
      · exact lookAuthority_less hfewer ih _
      · exact ⟨id, fun _ hk => absurd hk List.not_mem_nil⟩

/-- If each authority approves less, one out of several does. -/
theorem lookAny_less {rs rs' : List Look} (h : List.Forall₂ (Less fewer) rs' rs) :
    Less fewer (lookAny rs') (lookAny rs) := by
  induction h with
  | nil => exact ⟨id, fun _ hk => absurd hk List.not_mem_nil⟩
  | @cons r' r rs' rs hfirst _ ih =>
    unfold lookAny
    by_cases happroved' : r'.approved = true
    · rw [if_pos happroved', if_pos (hfirst.approved happroved')]
      exact hfirst
    · rw [if_neg happroved']
      split
      next happroved =>
        refine ⟨fun _ => happroved, fun k hk hmem => ?_⟩
        exact List.mem_append_left _ (hfirst.keys k hk hmem)
      next => exact hfirst.append ih

end Fewer

end Whaleshares.SignatureUse
