import Whaleshares.AuthorityDerivation

/-!
# The authority check is sound and complete within its depth

The search of `check_authority` and the checks of `verify_authority`, against the
derivations of `AuthorityDerivation`. The cache of approved accounts holds only accounts
that can be derived, so what was approved before never turns a check the wrong way.
-/

namespace Whaleshares.AuthorityCheck

open Config Fc Assets Protocol Program SignState AuthorityDerivation

variable {getter : AuthorityGetter} {keys availableKeys : List PublicKey} {auth : Authority}
  {s t : State} {approved : Bool}

/-- A check of an authority, as `check_authority` calls itself. -/
abbrev Check := Authority → State → Except Exc (Bool × State)

section Soundness

/-- The keys that can sign are known, and every approved account can be derived. -/
structure Sound (getter : AuthorityGetter) (availableKeys keys : List PublicKey) (s : State) :
    Prop where
  canSign : ∀ k, CanSign availableKeys s k ↔ k ∈ keys
  approvedBy : ∀ account ∈ s.approvedBy, Approvable getter keys account

/-- The check approves only what can be derived. -/
def SoundCheck (getter : AuthorityGetter) (availableKeys keys : List PublicKey) (check : Check) :
    Prop :=
  ∀ auth s approved t, Bounded auth → Sound getter availableKeys keys s →
    check auth s = .ok (approved, t) →
    Sound getter availableKeys keys t ∧ (approved = true → Derivable getter keys auth)

/-- Noting an account whose authority is met keeps the search sound. -/
theorem Sound.approve {account : AccountName} (h : Sound getter availableKeys keys s)
    (hauth : getter account = .ok auth) (hmet : Derivable getter keys auth) :
    Sound getter availableKeys keys { s with approvedBy := s.approvedBy ++ [account] } := by
  refine ⟨h.canSign, fun a ha => ?_⟩
  rcases List.mem_append.mp ha with ha | ha
  · exact h.approvedBy a ha
  · obtain ⟨depth, hdepth⟩ := hmet
    rw [List.mem_singleton.mp ha]
    exact ⟨depth + 1, .nested hauth hdepth⟩

/-- Some of the accounts approve, with enough weight. -/
def Suffices (getter : AuthorityGetter) (keys : List PublicKey) (threshold total : ℕ)
    (entries : List (AccountName × ℕ)) : Prop :=
  ∃ accounts : List (AccountName × ℕ), accounts.Sublist entries ∧
    (∀ entry ∈ accounts, Approvable getter keys entry.1) ∧ threshold ≤ total + weight accounts

/-- What the other accounts suffice for they suffice for with a further one. -/
theorem Suffices.skip {threshold total : ℕ} {entry : AccountName × ℕ}
    {rest : List (AccountName × ℕ)} (h : Suffices getter keys threshold total rest) :
    Suffices getter keys threshold total (entry :: rest) := by
  obtain ⟨accounts, hsub, happroves, hweight⟩ := h
  exact ⟨accounts, hsub.cons _, happroves, hweight⟩

/-- An account that can be approved adds its weight. -/
theorem Suffices.add {threshold total : ℕ} {entry : AccountName × ℕ}
    {rest : List (AccountName × ℕ)} (hentry : Approvable getter keys entry.1)
    (h : Suffices getter keys threshold (total + entry.2) rest) :
    Suffices getter keys threshold total (entry :: rest) := by
  obtain ⟨accounts, hsub, happroves, hweight⟩ := h
  refine ⟨entry :: accounts, hsub.cons_cons _, fun e he => ?_, ?_⟩
  · rcases List.mem_cons.mp he with he | he
    · rw [he]
      exact hentry
    · exact happroves e he
  · rw [weight_cons]
    omega

/-- Once the threshold is reached nothing more is needed. -/
theorem Suffices.nothing {threshold total : ℕ} {entries : List (AccountName × ℕ)}
    (h : threshold ≤ total) : Suffices getter keys threshold total entries :=
  ⟨[], List.nil_sublist _, by simp, h⟩

/-- The scan of the accounts approves only what suffices. -/
theorem checkAccounts_sound {check : Option Check} {threshold total : ℕ}
    {entries : List (AccountName × ℕ)} (hgetter : ∀ a auth, getter a = .ok auth → Bounded auth)
    (hcheck : ∀ c ∈ check, SoundCheck getter availableKeys keys c)
    (hbound : total + weight entries < 2 ^ 32) (hs : Sound getter availableKeys keys s)
    (h : checkAccounts getter check threshold total entries s = .ok (approved, t)) :
    Sound getter availableKeys keys t ∧
      (approved = true → Suffices getter keys threshold total entries) := by
  induction entries generalizing total s with
  | nil =>
    have hpair : (decide (threshold ≤ total), s) = (approved, t) := Except.ok.inj h
    cases hpair
    exact ⟨hs, fun hmet => .nothing (of_decide_eq_true hmet)⟩
  | cons entry rest ih =>
    obtain ⟨account, w⟩ := entry
    rw [weight_cons] at hbound
    simp only at hbound
    have hmod : (total + w) % 2 ^ 32 = total + w := Nat.mod_eq_of_lt (by omega)
    -- after the account approved, the loop ends or goes on with its weight
    have hadd : ∀ s', Sound getter availableKeys keys s' → Approvable getter keys account →
        (if threshold ≤ total + w then .ok (true, s')
          else checkAccounts getter check threshold (total + w) rest s') = .ok (approved, t) →
        Sound getter availableKeys keys t ∧
          (approved = true → Suffices getter keys threshold total ((account, w) :: rest)) := by
      intro s' hs' happrove h
      split at h
      next hmet =>
        have hpair : (true, s') = (approved, t) := Except.ok.inj h
        cases hpair
        exact ⟨hs', fun _ => .add happrove (.nothing hmet)⟩
      next =>
        obtain ⟨ht, hsuffices⟩ := ih (by omega) hs' h
        exact ⟨ht, fun hmet => .add happrove (hsuffices hmet)⟩
    have hskip : ∀ s', Sound getter availableKeys keys s' →
        checkAccounts getter check threshold total rest s' = .ok (approved, t) →
        Sound getter availableKeys keys t ∧
          (approved = true → Suffices getter keys threshold total ((account, w) :: rest)) := by
      intro s' hs' h
      obtain ⟨ht, hsuffices⟩ := ih (by omega) hs' h
      exact ⟨ht, fun hmet => (hsuffices hmet).skip⟩
    unfold checkAccounts at h
    simp only [hmod] at h
    split at h
    next hcached => exact hadd s hs (hs.approvedBy account (by simpa using hcached)) h
    next =>
      cases check with
      | none => exact hskip s hs h
      | some c =>
        obtain ⟨auth, hauth, h⟩ := bind_eq_ok h
        obtain ⟨pair, hpair, h⟩ := bind_eq_ok h
        obtain ⟨hs', hmet⟩ := hcheck c rfl auth s pair.1 pair.2 (hgetter account auth hauth) hs hpair
        split at h
        next hpassed =>
          have hderivable := hmet hpassed
          obtain ⟨depth, hdepth⟩ := hderivable
          exact hadd _ (hs'.approve hauth ⟨depth, hdepth⟩) ⟨depth + 1, .nested hauth hdepth⟩ h
        next => exact hskip _ hs' h

end Soundness

section Search

variable {depth : ℕ}

/-- One level of `check_authority`, over the check of the level below. -/
def searchWith (getter : AuthorityGetter) (availableKeys : List PublicKey) (below : Option Check) :
    Check := fun auth s =>
  match checkKeys availableKeys auth.weightThreshold 0 auth.keyAuths s with
  | ((_, true), s) => .ok (true, s)
  | ((total, false), s) =>
    checkAccounts getter below auth.weightThreshold total auth.accountAuths s

/-- At depth zero the search asks for no account. -/
theorem checkAuthority_zero (getter : AuthorityGetter) (availableKeys : List PublicKey) :
    checkAuthority getter availableKeys 0 = searchWith getter availableKeys none := rfl

/-- One level deeper the search asks for accounts by the search before. -/
theorem checkAuthority_succ (getter : AuthorityGetter) (availableKeys : List PublicKey) (depth : ℕ) :
    checkAuthority getter availableKeys (depth + 1) =
      searchWith getter availableKeys (some (checkAuthority getter availableKeys depth)) := rfl

/-- A search is sound if the search below is. -/
theorem searchWith_sound {below : Option Check}
    (hgetter : ∀ a auth, getter a = .ok auth → Bounded auth)
    (hbelow : ∀ c ∈ below, SoundCheck getter availableKeys keys c) :
    SoundCheck getter availableKeys keys (searchWith getter availableKeys below) := by
  intro auth s approved t hauth hs h
  have hkeysBound : 0 + weight auth.keyAuths < 2 ^ 32 := by
    unfold Bounded at hauth
    omega
  have hkeys := checkKeys_weight availableKeys auth.weightThreshold 0 auth.keyAuths s hkeysBound
  unfold searchWith at h
  generalize checkKeys availableKeys auth.weightThreshold 0 auth.keyAuths s = result at h hkeys
  obtain ⟨⟨total, met⟩, s'⟩ := result
  obtain ⟨signed, hsub, hcan, hreached⟩ := hkeys.reached
  have hsigned : ∀ entry ∈ signed, entry.1 ∈ keys := fun entry hentry =>
    (hs.canSign entry.1).mp (hcan entry hentry)
  have hs' : Sound getter availableKeys keys s' := by
    refine ⟨fun k => (hkeys.canSign k).trans (hs.canSign k), fun a ha => hs.approvedBy a ?_⟩
    rw [← hkeys.approvedBy]
    exact ha
  simp only [Nat.zero_add] at hreached
  cases met with
  | true =>
    have hpair : (true, s') = (approved, t) := Except.ok.inj h
    cases hpair
    refine ⟨hs', fun _ => ?_⟩
    have hmet := hkeys.met rfl
    refine .of_approvable hsub hsigned (List.nil_sublist _) (by simp) ?_
    simp only [hreached] at hmet
    rw [weight_nil]
    omega
  | false =>
    have hbound : total + weight auth.accountAuths < 2 ^ 32 := by
      have hle := weight_le_of_sublist hsub
      unfold Bounded at hauth
      omega
    obtain ⟨ht, hsuffices⟩ := checkAccounts_sound hgetter hbelow hbound hs' h
    refine ⟨ht, fun happroved => ?_⟩
    obtain ⟨accounts, haccounts, happroves, hweight⟩ := hsuffices happroved
    refine .of_approvable hsub hsigned haccounts happroves ?_
    omega

/-- An approval of the search can be derived. -/
theorem checkAuthority_sound (hgetter : ∀ a auth, getter a = .ok auth → Bounded auth) :
    SoundCheck getter availableKeys keys (checkAuthority getter availableKeys depth) := by
  induction depth with
  | zero =>
    rw [checkAuthority_zero]
    exact searchWith_sound hgetter fun c hc => absurd hc (by simp)
  | succ depth ih =>
    rw [checkAuthority_succ]
    refine searchWith_sound hgetter fun c hc => ?_
    rw [← Option.some.inj hc]
    exact ih

end Search

section Completeness

/-- The keys that can sign are known, and `temp` is among the approved accounts. -/
structure Ready (availableKeys keys : List PublicKey) (s : State) : Prop where
  canSign : ∀ k, CanSign availableKeys s k ↔ k ∈ keys
  temp : tempName ∈ s.approvedBy

/-- The check returns, and approves what satisfies `P`. -/
def CompleteCheck (availableKeys keys : List PublicKey) (P : Authority → Prop) (check : Check) :
    Prop :=
  ∀ auth s, Bounded auth → Ready availableKeys keys s →
    ∃ approved t, check auth s = .ok (approved, t) ∧ Ready availableKeys keys t ∧
      (P auth → approved = true)

/-- The loop over the accounts approves, if it can rely on the level below. -/
theorem checkAccounts_complete {check : Option Check} {P : Authority → Prop} (threshold : ℕ) {total : ℕ}
    {entries : List (AccountName × ℕ)}
    (hgetter : ∀ a, ∃ auth, getter a = .ok auth ∧ Bounded auth)
    (hcheck : ∀ c ∈ check, CompleteCheck availableKeys keys P c)
    (hbound : total + weight entries < 2 ^ 32) (hs : Ready availableKeys keys s) :
    ∃ approved t, checkAccounts getter check threshold total entries s = .ok (approved, t) ∧
      Ready availableKeys keys t ∧
      ∀ accounts : List (AccountName × ℕ), accounts.Sublist entries →
        (∀ entry ∈ accounts, entry.1 = tempName ∨
          check.isSome = true ∧ ∃ auth, getter entry.1 = .ok auth ∧ P auth) →
        threshold ≤ total + weight accounts → approved = true := by
  induction entries generalizing total s with
  | nil =>
    refine ⟨_, s, rfl, hs, fun accounts hsub _ hweight => ?_⟩
    rw [List.eq_nil_of_sublist_nil hsub, weight_nil] at hweight
    exact decide_eq_true hweight
  | cons entry rest ih =>
    obtain ⟨account, w⟩ := entry
    rw [weight_cons] at hbound
    simp only at hbound
    have hmod : (total + w) % 2 ^ 32 = total + w := Nat.mod_eq_of_lt (by omega)
    -- an account that approves adds its weight, so that any choice of accounts is covered
    have hadd : ∀ s', Ready availableKeys keys s' →
        ∃ approved t, (if threshold ≤ total + w then .ok (true, s')
            else checkAccounts getter check threshold (total + w) rest s') = .ok (approved, t) ∧
          Ready availableKeys keys t ∧
          ∀ accounts : List (AccountName × ℕ), accounts.Sublist ((account, w) :: rest) →
            (∀ entry ∈ accounts, entry.1 = tempName ∨
              check.isSome = true ∧ ∃ auth, getter entry.1 = .ok auth ∧ P auth) →
            threshold ≤ total + weight accounts → approved = true := by
      intro s' hs'
      split
      next => exact ⟨true, s', rfl, hs', fun _ _ _ _ => rfl⟩
      next =>
        obtain ⟨approved, t, h, ht, hall⟩ := ih (show total + w + weight rest < 2 ^ 32 by omega) hs'
        refine ⟨approved, t, h, ht, fun accounts hsub happroves hweight => ?_⟩
        cases hsub with
        | cons _ hsub => exact hall accounts hsub happroves (by omega)
        | cons_cons _ hsub =>
          rw [weight_cons] at hweight
          exact hall _ hsub (fun e he => happroves e (List.mem_cons_of_mem _ he))
            (by simp only at hweight; omega)
    -- an account that does not approve is in no choice of accounts
    have hskip : ∀ s', Ready availableKeys keys s' →
        (¬ (account = tempName ∨
          check.isSome = true ∧ ∃ auth, getter account = .ok auth ∧ P auth)) →
        ∃ approved t, checkAccounts getter check threshold total rest s' = .ok (approved, t) ∧
          Ready availableKeys keys t ∧
          ∀ accounts : List (AccountName × ℕ), accounts.Sublist ((account, w) :: rest) →
            (∀ entry ∈ accounts, entry.1 = tempName ∨
              check.isSome = true ∧ ∃ auth, getter entry.1 = .ok auth ∧ P auth) →
            threshold ≤ total + weight accounts → approved = true := by
      intro s' hs' hnot
      obtain ⟨approved, t, h, ht, hall⟩ := ih (show total + weight rest < 2 ^ 32 by omega) hs'
      refine ⟨approved, t, h, ht, fun accounts hsub happroves hweight => ?_⟩
      cases hsub with
      | cons _ hsub => exact hall accounts hsub happroves hweight
      | cons_cons _ hsub => exact absurd (happroves _ List.mem_cons_self) hnot
    unfold checkAccounts
    simp only [hmod]
    split
    next => exact hadd s hs
    next hcached =>
      have htemp : account ≠ tempName := by
        intro heq
        rw [heq] at hcached
        exact hcached (by simpa using hs.temp)
      cases check with
      | none =>
        refine hskip s hs fun h => ?_
        rcases h with h | ⟨h, -⟩
        · exact htemp h
        · cases h
      | some c =>
        obtain ⟨auth, hauth, hbounded⟩ := hgetter account
        obtain ⟨passed, s', hpassed, hs', hP⟩ := hcheck c rfl auth s hbounded hs
        have happrove : Ready availableKeys keys
            { s' with approvedBy := s'.approvedBy ++ [account] } :=
          ⟨hs'.canSign, List.mem_append_left _ hs'.temp⟩
        simp only [hauth, hpassed, bind, Except.bind]
        cases passed with
        | true => exact hadd _ happrove
        | false =>
          refine hskip s' hs' fun h => ?_
          rcases h with h | ⟨-, auth', hauth', hP'⟩
          · exact htemp h
          · rw [hauth] at hauth'
            rw [← Except.ok.inj hauth'] at hP'
            cases hP hP'

/-- A search is complete for what the search below is complete for. -/
theorem searchWith_complete {below : Option Check} {P Q : Authority → Prop}
    (hgetter : ∀ a, ∃ auth, getter a = .ok auth ∧ Bounded auth)
    (hbelow : ∀ c ∈ below, CompleteCheck availableKeys keys P c)
    (hQ : ∀ auth, Q auth → ∃ (signed : List (PublicKey × ℕ)) (accounts : List (AccountName × ℕ)),
      signed.Sublist auth.keyAuths ∧ (∀ entry ∈ signed, entry.1 ∈ keys) ∧
      accounts.Sublist auth.accountAuths ∧
      (∀ entry ∈ accounts, entry.1 = tempName ∨
        below.isSome = true ∧ ∃ auth, getter entry.1 = .ok auth ∧ P auth) ∧
      auth.weightThreshold ≤ weight signed + weight accounts) :
    CompleteCheck availableKeys keys Q (searchWith getter availableKeys below) := by
  intro auth s hauth hs
  have hkeysBound : 0 + weight auth.keyAuths < 2 ^ 32 := by
    unfold Bounded at hauth
    omega
  have hkeys := checkKeys_weight availableKeys auth.weightThreshold 0 auth.keyAuths s hkeysBound
  unfold searchWith
  generalize checkKeys availableKeys auth.weightThreshold 0 auth.keyAuths s = result at hkeys
  obtain ⟨⟨total, met⟩, s'⟩ := result
  have hs' : Ready availableKeys keys s' := by
    refine ⟨fun k => (hkeys.canSign k).trans (hs.canSign k), ?_⟩
    rw [hkeys.approvedBy]
    exact hs.temp
  cases met with
  | true => exact ⟨true, s', rfl, hs', fun _ => rfl⟩
  | false =>
    obtain ⟨reached, hsub, -, hreached⟩ := hkeys.reached
    have hbound : total + weight auth.accountAuths < 2 ^ 32 := by
      have hle := weight_le_of_sublist hsub
      unfold Bounded at hauth
      simp only at hreached
      omega
    obtain ⟨approved, t, h, ht, hall⟩ := checkAccounts_complete
      auth.weightThreshold hgetter hbelow hbound hs'
    refine ⟨approved, t, h, ht, fun hq => ?_⟩
    obtain ⟨signed, accounts, hsigned, hkeysIn, haccounts, happroves, hweight⟩ := hQ auth hq
    refine hall accounts haccounts happroves ?_
    have hleast := hkeys.all rfl signed hsigned fun entry hentry =>
      (hs.canSign entry.1).mpr (hkeysIn entry hentry)
    simp only at hleast
    omega

/-- The search returns, and approves whatever can be derived within its depth. -/
theorem checkAuthority_complete (hgetter : ∀ a, ∃ auth, getter a = .ok auth ∧ Bounded auth)
    (depth : ℕ) :
    CompleteCheck availableKeys keys (Derives getter keys depth)
      (checkAuthority getter availableKeys depth) := by
  induction depth with
  | zero =>
    rw [checkAuthority_zero]
    refine searchWith_complete (P := fun _ => False) hgetter (fun c hc => absurd hc (by simp))
      fun auth h => ?_
    obtain ⟨signed, accounts, hsigned, hkeys, haccounts, happroves, hweight⟩ := h
    refine ⟨signed, accounts, hsigned, hkeys, haccounts, fun entry hentry => .inl ?_, hweight⟩
    have happrove := happroves entry hentry
    generalize entry.1 = name at happrove ⊢
    cases happrove with
    | temp => rfl
  | succ depth ih =>
    rw [checkAuthority_succ]
    refine searchWith_complete (P := Derives getter keys depth) hgetter (fun c hc => ?_)
      fun auth h => ?_
    · rw [← Option.some.inj hc]
      exact ih
    · obtain ⟨signed, accounts, hsigned, hkeys, haccounts, happroves, hweight⟩ := h
      refine ⟨signed, accounts, hsigned, hkeys, haccounts, fun entry hentry => ?_, hweight⟩
      have happrove := happroves entry hentry
      generalize entry.1 = name at happrove ⊢
      cases happrove with
      | temp => exact .inl rfl
      | nested hauth hmet => exact .inr ⟨rfl, _, hauth, hmet⟩

end Completeness

section Tests

variable {sigs : List PublicKey}

/-- The test keeps an invariant of the search and passes only where `Q` holds. -/
def Passes (P : State → Prop) (Q : Prop) (test : StateT State (Except Exc) Bool) : Prop :=
  ∀ s approved t, P s → Returns test s approved t → P t ∧ (approved = true → Q)

/-- A test that passes for a reason passes for a weaker one. -/
theorem Passes.imp {I : State → Prop} {P Q : Prop} {test : StateT State (Except Exc) Bool}
    (h : Passes I P test) (hPQ : P → Q) : Passes I Q test := by
  intro s approved t hs htest
  obtain ⟨ht, hP⟩ := h s approved t hs htest
  exact ⟨ht, fun happroved => hPQ (hP happroved)⟩

/-- One test out of several passes for a reason of each. -/
theorem anyOf_passes {P : State → Prop} {Q : Prop} {tests : List (StateT State (Except Exc) Bool)}
    (h : ∀ test ∈ tests, Passes P Q test) : Passes P Q (anyOf tests) := by
  induction tests with
  | nil =>
    intro s approved t hs htest
    obtain ⟨happroved, ht⟩ := Returns.pure htest
    rw [ht]
    exact ⟨hs, fun hpassed => absurd (happroved.symm.trans hpassed) (by simp)⟩
  | cons test rest ih =>
    intro s approved t hs htest
    obtain ⟨passed, u, hu, htest⟩ := Returns.bind htest
    obtain ⟨hsu, hQ⟩ := h test List.mem_cons_self s passed u hs hu
    cases passed with
    | true =>
      obtain ⟨-, ht⟩ := Returns.pure htest
      rw [ht]
      exact ⟨hsu, fun _ => hQ rfl⟩
    | false => exact ih (fun test' h' => h test' (List.mem_cons_of_mem _ h')) u approved t hsu htest

/-- A loop that asserts a test for every element. -/
theorem forEach_passes {α : Type} {P : State → Prop} {Q : α → Prop}
    {test : α → StateT State (Except Exc) Bool} {kind : ExcKind} {message : String} {l : List α}
    (hs : P s) (htest : ∀ x ∈ l, Passes P (Q x) (test x))
    (h : Returns (forEach (fun x => do
      let approved ← test x
      lift (wlsAssert approved kind message)) l) s () t) : P t ∧ ∀ x ∈ l, Q x := by
  induction l generalizing s with
  | nil =>
    obtain ⟨-, ht⟩ := Returns.pure h
    rw [ht]
    exact ⟨hs, by simp⟩
  | cons x rest ih =>
    obtain ⟨_, u, hu, h⟩ := Returns.bind h
    obtain ⟨approved, v, hv, hu⟩ := Returns.bind hu
    obtain ⟨hassert, huv⟩ := Returns.lift hu
    have happroved : approved = true := by
      cases approved with
      | true => rfl
      | false => cases hassert
    obtain ⟨hsv, hQ⟩ := htest x List.mem_cons_self s approved v hs hv
    rw [huv] at h
    obtain ⟨ht, hrest⟩ := ih hsv (fun y hy => htest y (List.mem_cons_of_mem _ hy)) h
    refine ⟨ht, fun y hy => ?_⟩
    rcases List.mem_cons.mp hy with hy | hy
    · rw [hy]
      exact hQ happroved
    · exact hrest y hy

/-- The test passes only where `Q` holds. -/
def SoundTest (getter : AuthorityGetter) (sigs : List PublicKey) (Q : Prop)
    (test : StateT State (Except Exc) Bool) : Prop :=
  ∀ s approved t, Sound getter [] sigs s → Returns test s approved t →
    Sound getter [] sigs t ∧ (approved = true → Q)

/-- The check of an authority is sound. -/
theorem checkAuthorityOf_sound {source : Except Exc Authority} {depth : ℕ}
    (hgetter : ∀ a auth, getter a = .ok auth → Bounded auth)
    (hsource : ∀ auth, source = .ok auth → Bounded auth) :
    SoundTest getter sigs (∃ auth, source = .ok auth ∧ Derivable getter sigs auth)
      (checkAuthorityOf getter [] depth source) := by
  intro s approved t hs h
  obtain ⟨auth, hauth, h⟩ := h.lift_bind
  obtain ⟨ht, hderivable⟩ :=
    checkAuthority_sound hgetter auth s approved t (hsource auth hauth) hs h
  exact ⟨ht, fun happroved => ⟨auth, hauth, hderivable happroved⟩⟩

/-- The check of an account is sound. -/
theorem checkAccount_sound {id : AccountName} {depth : ℕ}
    (hgetter : ∀ a auth, getter a = .ok auth → Bounded auth) :
    SoundTest getter sigs (Approvable getter sigs id) (checkAccount getter [] depth id) := by
  intro s approved t hs h
  unfold Returns checkAccount at h
  split at h
  next hcached =>
    have hpair : (true, s) = (approved, t) := Except.ok.inj h
    cases hpair
    exact ⟨hs, fun _ => hs.approvedBy id (by simpa using hcached)⟩
  next =>
    obtain ⟨ht, hmet⟩ := checkAuthorityOf_sound hgetter (hgetter id) s approved t hs h
    refine ⟨ht, fun happroved => ?_⟩
    obtain ⟨auth, hauth, depth, hdepth⟩ := hmet happroved
    exact ⟨depth + 1, .nested hauth hdepth⟩

/-- The search starts sound. -/
theorem init_sound (getter : AuthorityGetter) (sigs : List PublicKey) :
    Sound getter [] sigs (.init sigs) := by
  refine ⟨fun k => ?_, fun account haccount => ?_⟩
  · simp [CanSign, State.init]
  · have htemp : account = tempName := by simpa [State.init] using haccount
    rw [htemp]
    exact ⟨0, .temp 0⟩

end Tests

section Verify

variable {getActive getOwner getPosting : AuthorityGetter} {ops : List Operation} {op : Operation}
  {sigs : List PublicKey}

/-- The insertions keep every name. -/
theorem mem_foldl_insert {id : AccountName} (names start : List AccountName)
    (h : id ∈ start ∨ id ∈ names) :
    id ∈ names.foldl (fun names name => if names.contains name then names else names ++ [name])
      start := by
  induction names generalizing start with
  | nil =>
    rcases h with h | h
    · exact h
    · cases h
  | cons name rest ih =>
    rw [List.foldl_cons]
    by_cases hmem : start.contains name = true
    · rw [if_pos hmem]
      refine ih start ?_
      rcases h with h | h
      · exact .inl h
      · rcases List.mem_cons.mp h with h | h
        · rw [h]
          exact .inl (by simpa using hmem)
        · exact .inr h
    · rw [if_neg hmem]
      refine ih _ ?_
      rcases h with h | h
      · exact .inl (List.mem_append_left _ h)
      · rcases List.mem_cons.mp h with h | h
        · rw [h]
          exact .inl (by simp)
        · exact .inr h

/-- A name that an operation requires is among the required ones. -/
theorem mem_requiredOf {f : RequiredAuthorities → List AccountName} {id : AccountName}
    (hop : op ∈ ops) (hid : id ∈ f op.requiredAuthorities) : id ∈ sortNames (requiredOf f ops) := by
  have hmem : id ∈ requiredOf f ops :=
    mem_foldl_insert _ [] (.inr (List.mem_flatMap.mpr ⟨op, hop, hid⟩))
  exact (List.perm_insertionSort _ _).mem_iff.mpr hmem

/-- The account approves with its posting authority, or one of its stronger authorities is
met. -/
def PostingApproved (getActive getOwner getPosting : AuthorityGetter) (sigs : List PublicKey)
    (id : AccountName) : Prop :=
  Approvable getPosting sigs id ∨
    (∃ auth, getActive id = .ok auth ∧ Derivable getPosting sigs auth) ∨
    ∃ auth, getOwner id = .ok auth ∧ Derivable getPosting sigs auth

/-- The owner authority of the account is met. -/
def OwnerApproved (getActive getOwner : AuthorityGetter) (sigs : List PublicKey)
    (id : AccountName) : Prop :=
  ∃ auth, getOwner id = .ok auth ∧ Derivable getActive sigs auth

/-- The account approves with its active authority, or its owner authority is met. -/
def ActiveApproved (getActive getOwner : AuthorityGetter) (sigs : List PublicKey)
    (id : AccountName) : Prop :=
  Approvable getActive sigs id ∨ OwnerApproved getActive getOwner sigs id

/-- What an operation needs is approved. -/
structure Authorized (getActive getOwner getPosting : AuthorityGetter) (sigs : List PublicKey)
    (op : Operation) : Prop where
  posting : ∀ id ∈ op.requiredAuthorities.posting,
    PostingApproved getActive getOwner getPosting sigs id
  active : ∀ id ∈ op.requiredAuthorities.active, ActiveApproved getActive getOwner sigs id
  owner : ∀ id ∈ op.requiredAuthorities.owner, OwnerApproved getActive getOwner sigs id
  other : ∀ auth ∈ op.requiredAuthorities.other, Derivable getActive sigs auth

/-- The check of posting authorities is sound. -/
theorem verifyPosting_sound {required : List AccountName}
    (hactive : ∀ a auth, getActive a = .ok auth → Bounded auth)
    (howner : ∀ a auth, getOwner a = .ok auth → Bounded auth)
    (hposting : ∀ a auth, getPosting a = .ok auth → Bounded auth)
    (h : Returns (verifyPosting getActive getOwner getPosting required) (.init sigs) () t) :
    ∀ id ∈ required, PostingApproved getActive getOwner getPosting sigs id := by
  refine (forEach_passes (init_sound getPosting sigs) (fun id _ => ?_) h).2
  refine anyOf_passes fun test htest => ?_
  simp only [List.mem_cons, List.not_mem_nil, or_false] at htest
  rcases htest with rfl | rfl | rfl
  · exact Passes.imp (checkAccount_sound hposting) .inl
  · exact Passes.imp (checkAuthorityOf_sound hposting (hactive id)) fun h => .inr (.inl h)
  · exact Passes.imp (checkAuthorityOf_sound hposting (howner id)) fun h => .inr (.inr h)

/-- The check of active, owner and other authorities is sound. -/
theorem verifyActive_sound {other : List Authority} {active owner : List AccountName}
    (hactive : ∀ a auth, getActive a = .ok auth → Bounded auth)
    (howner : ∀ a auth, getOwner a = .ok auth → Bounded auth)
    (hother : ∀ auth ∈ other, Bounded auth)
    (h : Returns (verifyActive getActive getOwner other active owner) (.init sigs) () t) :
    (∀ auth ∈ other, Derivable getActive sigs auth) ∧
      (∀ id ∈ active, ActiveApproved getActive getOwner sigs id) ∧
      ∀ id ∈ owner, OwnerApproved getActive getOwner sigs id := by
  obtain ⟨_, s₁, h₁, h⟩ := Returns.bind h
  obtain ⟨_, s₂, h₂, h⟩ := Returns.bind h
  obtain ⟨hs₁, hothers⟩ := forEach_passes (init_sound getActive sigs) (fun auth hauth => by
    refine Passes.imp (checkAuthorityOf_sound hactive fun a ha => ?_) fun h => h
    rw [← Except.ok.inj ha]
    exact hother auth hauth) h₁
  obtain ⟨hs₂, hactives⟩ := forEach_passes hs₁ (fun id _ => by
    refine anyOf_passes (Q := ActiveApproved getActive getOwner sigs id) fun test htest => ?_
    simp only [List.mem_cons, List.not_mem_nil, or_false] at htest
    rcases htest with rfl | rfl
    · exact Passes.imp (checkAccount_sound hactive) .inl
    · exact Passes.imp (checkAuthorityOf_sound hactive (howner id)) .inr) h₂
  obtain ⟨-, howners⟩ := forEach_passes hs₂
    (fun id _ => checkAuthorityOf_sound hactive (howner id)) h
  refine ⟨fun auth hauth => ?_, hactives, howners⟩
  obtain ⟨auth', heq, hderivable⟩ := hothers auth hauth
  rw [Except.ok.inj heq]
  exact hderivable

/-- A check that returns has approvals for all that the operations need. -/
theorem verifyAuthority_sound (hactive : ∀ a auth, getActive a = .ok auth → Bounded auth)
    (howner : ∀ a auth, getOwner a = .ok auth → Bounded auth)
    (hposting : ∀ a auth, getPosting a = .ok auth → Bounded auth)
    (hother : ∀ op ∈ ops, ∀ auth ∈ op.requiredAuthorities.other, Bounded auth)
    (h : verifyAuthority getActive getOwner getPosting ops sigs = .ok ()) :
    ∀ op ∈ ops, Authorized getActive getOwner getPosting sigs op := by
  intro op hop
  have hotherMem : ∀ auth ∈ op.requiredAuthorities.other,
      auth ∈ ops.flatMap fun op => op.requiredAuthorities.other := fun auth hauth =>
    List.mem_flatMap.mpr ⟨op, hop, hauth⟩
  unfold verifyAuthority at h
  simp only at h
  split at h
  next =>
    obtain ⟨_, hactiveNil, h⟩ := bind_eq_ok h
    obtain ⟨_, hownerNil, h⟩ := bind_eq_ok h
    obtain ⟨_, hotherNil, h⟩ := bind_eq_ok h
    obtain ⟨pair, hpair, -⟩ := bind_eq_ok h
    have hpostings := verifyPosting_sound hactive howner hposting hpair
    have hactiveNil := of_decide_eq_true (fcAssert_eq_ok hactiveNil)
    have hownerNil := of_decide_eq_true (fcAssert_eq_ok hownerNil)
    have hotherNil := of_decide_eq_true (fcAssert_eq_ok hotherNil)
    refine ⟨fun id hid => hpostings id (mem_requiredOf hop hid), fun id hid => ?_, fun id hid => ?_,
      fun auth hauth => ?_⟩
    · have hmem := mem_requiredOf (f := (·.active)) hop hid
      rw [hactiveNil] at hmem
      cases hmem
    · have hmem := mem_requiredOf (f := (·.owner)) hop hid
      rw [hownerNil] at hmem
      cases hmem
    · have hmem := hotherMem auth hauth
      rw [hotherNil] at hmem
      cases hmem
  next hnone =>
    obtain ⟨pair, hpair, -⟩ := bind_eq_ok h
    obtain ⟨hothers, hactives, howners⟩ := verifyActive_sound hactive howner (fun auth hauth => by
      obtain ⟨op', hop', hauth'⟩ := List.mem_flatMap.mp hauth
      exact hother op' hop' auth hauth') hpair
    refine ⟨fun id hid => ?_, fun id hid => hactives id (mem_requiredOf hop hid),
      fun id hid => howners id (mem_requiredOf hop hid),
      fun auth hauth => hothers auth (hotherMem auth hauth)⟩
    have hmem := mem_requiredOf (f := (·.posting)) hop hid
    rw [not_not.mp hnone] at hmem
    cases hmem

/-- A check of a transaction that returns has a derivation, from the keys that signed and
from `temp`, for every account that an operation requires, at a level that the operation
allows. The search returns for every graph of authorities, also for a cyclic one, and
approves whatever can be derived within its depth, whatever was approved before. -/
theorem authority_check_sound_and_complete (getActive getOwner getPosting : AuthorityGetter)
    (ops : List Operation) (sigs : List PublicKey)
    (hactive : ∀ a auth, getActive a = .ok auth → Bounded auth)
    (howner : ∀ a auth, getOwner a = .ok auth → Bounded auth)
    (hposting : ∀ a auth, getPosting a = .ok auth → Bounded auth)
    (hother : ∀ op ∈ ops, ∀ auth ∈ op.requiredAuthorities.other, Bounded auth) :
    (verifyAuthority getActive getOwner getPosting ops sigs = .ok () →
      ∀ op ∈ ops, Authorized getActive getOwner getPosting sigs op) ∧
    ∀ (getter : AuthorityGetter) (availableKeys : List PublicKey) (maxRecursion : ℕ)
      (auth : Authority) (s : State), (∀ a, ∃ auth, getter a = .ok auth ∧ Bounded auth) →
      Bounded auth → tempName ∈ s.approvedBy →
      (∃ approved t, checkAuthority getter availableKeys maxRecursion auth s = .ok (approved, t)) ∧
      ∀ depth ≤ maxRecursion,
        Derives getter (s.providedSignatures.map Prod.fst ++ availableKeys) depth auth →
        ∃ t, checkAuthority getter availableKeys maxRecursion auth s = .ok (true, t) := by
  refine ⟨verifyAuthority_sound hactive howner hposting hother, ?_⟩
  intro getter availableKeys maxRecursion auth s hgetter hauth htemp
  have hready : Ready availableKeys (s.providedSignatures.map Prod.fst ++ availableKeys) s := by
    refine ⟨fun k => ?_, htemp⟩
    simp [CanSign]
  obtain ⟨approved, t, h, -, hcomplete⟩ :=
    checkAuthority_complete hgetter maxRecursion auth s hauth hready
  refine ⟨⟨approved, t, h⟩, fun depth hdepth hderives => ⟨t, ?_⟩⟩
  rw [h, hcomplete (hderives.mono hdepth)]

/-- A key together with `temp`, or with an account that has the same authority. -/
def jointAuthority : Authority := ⟨2, [(.ofBytes (bytesOf "bob"), 1), (tempName, 1)], [(⟨1⟩, 1)]⟩

/-- A graph in which every account has the joint authority, so that one account depends
on itself. -/
theorem authority_check_sound_and_complete_joint :
    (∀ op ∈ [Operation.transferToVesting ⟨.ofBytes (bytesOf "alice"), .empty, ⟨1, wlsSymbol⟩⟩],
      Authorized (fun _ => .ok jointAuthority) (fun _ => .ok jointAuthority)
        (fun _ => .ok jointAuthority) [⟨1⟩] op) ∧
    ∃ t, checkAuthority (fun _ => .ok jointAuthority) [] 2 jointAuthority (.init [⟨1⟩]) =
      .ok (true, t) := by
  have hbounded : Bounded jointAuthority := by
    unfold Bounded
    decide
  have hgetter : ∀ (a : AccountName) (auth : Authority),
      (Except.ok jointAuthority : Except Exc Authority) = .ok auth → Bounded auth := by
    intro a auth h
    rw [← Except.ok.inj h]
    exact hbounded
  have hresult := authority_check_sound_and_complete (fun _ => .ok jointAuthority)
    (fun _ => .ok jointAuthority) (fun _ => .ok jointAuthority)
    [Operation.transferToVesting ⟨.ofBytes (bytesOf "alice"), .empty, ⟨1, wlsSymbol⟩⟩] [⟨1⟩]
    hgetter hgetter hgetter (by simp [Operation.requiredAuthorities])
  refine ⟨hresult.1 rfl, (hresult.2 (fun _ => .ok jointAuthority) [] 2 jointAuthority (.init [⟨1⟩])
    (fun _ => ⟨_, rfl, hbounded⟩) hbounded (by decide)).2 0 (by decide) ?_⟩
  refine .enough [(⟨1⟩, 1)] [(tempName, 1)] (by decide) (by decide) (by decide) ?_ (by decide)
  intro entry hentry
  rw [List.mem_singleton.mp hentry]
  exact .temp 0

end Verify

end Whaleshares.AuthorityCheck
