import Mathlib
import Whaleshares.ChainRun
import Whaleshares.RequiredSignatures
import Whaleshares.SignatureUse

/-!
# Minimal signatures

Where authorities nest within the depth of the search, a transaction that is accepted with some
keys is accepted with fewer of them or misses an authority, and it misses an authority with
fewer keys than those with which it does. The removal of `minimize_required_signatures` then
ends with keys of which none can be missed. Where they nest deeper, the depth at which an
account is first looked at decides which keys are used, and a key that is not used any more ends
the removal with an exception.
-/

namespace Whaleshares.MinimalSignatures

open Config Fc Assets Protocol Objects Program SignState AuthorityDerivation SignatureUse
  GreedyRemoval RequiredSignatures ChainRun

section Requirements

variable {keys fewer : List PublicKey} {look : AccountName → Look} {r r' later later' : Look}
  {run more : StateT State (Except Exc) Unit} {test : StateT State (Except Exc) Bool}

/-- Both looks, one after the other. -/
def Look.both (r later : Look) : Look := ⟨r.approved && later.approved, r.keys ++ later.keys⟩

/-- All looks, one after another. -/
def lookAll (rs : List Look) : Look := rs.foldr Look.both ⟨true, []⟩

/-- The program ends if the look approves, and throws a missing authority if not. -/
def Meets (keys : List PublicKey) (look : AccountName → Look)
    (run : StateT State (Except Exc) Unit) (r : Look) : Prop :=
  ∀ s, Tracks keys look s →
    (r.approved = true → ∃ t, Returns run s () t ∧ Uses keys look s t r.keys) ∧
      (r.approved = false → ∃ e, run s = .error e ∧ isMissingAuth e = true)

/-- Two checks in turn need both to approve. -/
theorem Meets.bind (h : Meets keys look run r) (hmore : Meets keys look more later) :
    Meets keys look (do run; more) (Look.both r later) := by
  intro s hs
  obtain ⟨hok, herror⟩ := h s hs
  cases happroved : r.approved with
  | false =>
    obtain ⟨e, he, hmissing⟩ := herror happroved
    refine ⟨fun hboth => ?_, fun _ => ⟨e, ?_, hmissing⟩⟩
    · rw [Look.both, happroved] at hboth
      cases hboth
    · change (run s >>= fun x => more x.2) = .error e
      rw [he]
      rfl
  | true =>
    obtain ⟨t, ht, huses⟩ := hok happroved
    obtain ⟨hok', herror'⟩ := hmore t huses.tracks
    have hboth : (Look.both r later).approved = later.approved := by
      rw [Look.both, happroved, Bool.true_and]
    rw [hboth]
    refine ⟨fun hlater => ?_, fun hlater => ?_⟩
    · obtain ⟨u, hu, huses'⟩ := hok' hlater
      exact ⟨u, ht.intro_bind hu, huses.trans huses'⟩
    · obtain ⟨e, he, hmissing⟩ := herror' hlater
      refine ⟨e, ?_, hmissing⟩
      change (run s >>= fun x => more x.2) = .error e
      have hrun : run s = .ok ((), t) := ht
      rw [hrun]
      exact he

/-- A test and its assertion. -/
def require (test : StateT State (Except Exc) Bool) (kind : ExcKind) (message : String) :
    StateT State (Except Exc) Unit := do
  let approved ← test
  lift (wlsAssert approved kind message)

/-- A required test throws a missing authority exactly where the lookup does not approve. -/
theorem require_meets {kind : ExcKind} {message : String} (h : Finds keys look test r)
    (hkind : isMissingAuth ⟨kind, message⟩ = true) :
    Meets keys look (require test kind message) r := by
  intro s hs
  obtain ⟨t, ht, huses⟩ := h s hs
  constructor
  · intro happroved
    rw [happroved] at ht
    exact ⟨t, Returns.intro_bind ht rfl, huses⟩
  · intro happroved
    rw [happroved] at ht
    refine ⟨_, ?_, hkind⟩
    change (test s >>= fun x => lift (wlsAssert x.1 kind message) x.2) = _
    have htest : test s = .ok (false, t) := ht
    rw [htest]
    rfl

/-- A loop of checks needs all of them to approve. -/
theorem forEach_meets {α : Type} {f : α → StateT State (Except Exc) Unit} {g : α → Look}
    {xs : List α} (h : ∀ x ∈ xs, Meets keys look (f x) (g x)) :
    Meets keys look (forEach f xs) (lookAll (xs.map g)) := by
  induction xs with
  | nil => exact fun s hs => ⟨fun _ => ⟨s, rfl, hs.nothing⟩, nofun⟩
  | cons x rest ih =>
    exact (h x List.mem_cons_self).bind (ih fun y hy => h y (List.mem_cons_of_mem _ hy))

/-- Less at first and less then is less of both. -/
theorem both_less (h : Less fewer r' r) (hlater : Less fewer later' later) :
    Less fewer (Look.both r' later') (Look.both r later) := by
  refine ⟨fun hboth => ?_, (h.append hlater).keys⟩
  obtain ⟨hr, hl⟩ := (Bool.and_eq_true _ _).mp hboth
  exact (Bool.and_eq_true _ _).mpr ⟨h.approved hr, hlater.approved hl⟩

/-- If each of a list approves less, all of it does. -/
theorem lookAll_less {α : Type} {f g : α → Look} {xs : List α}
    (h : ∀ x ∈ xs, Less fewer (f x) (g x)) :
    Less fewer (lookAll (xs.map f)) (lookAll (xs.map g)) := by
  induction xs with
  | nil => exact ⟨id, fun _ hk => absurd hk List.not_mem_nil⟩
  | cons x rest ih =>
    exact both_less (h x List.mem_cons_self) (ih fun y hy => h y (List.mem_cons_of_mem _ hy))

end Requirements

section Verdicts

variable {keys : List PublicKey} {look : AccountName → Look} {r : Look}
  {run : StateT State (Except Exc) Unit}

/-- The end of `verify_authority`, after its checks. -/
def verifyWith (run : StateT State (Except Exc) Unit) (keys : List PublicKey) :
    Except Exc Unit := do
  let (_, s) ← run (.init keys)
  wlsAssert (!s.hasUnusedSignatures) .txIrrelevantSig "Unnecessary signature(s) detected"

/-- What `verify_authority` says, from what a look finds. -/
structure Verdict (outcome : Except Exc Unit) (keys : List PublicKey) (r : Look) : Prop where
  missing : r.approved = false → ∃ e, outcome = .error e ∧ isMissingAuth e = true
  accepted : r.approved = true → keys ⊆ r.keys → outcome = .ok ()
  irrelevant : r.approved = true → ¬ keys ⊆ r.keys →
    ∃ e, outcome = .error e ∧ e.kind = .txIrrelevantSig

/-- At the start every key is unused. -/
theorem unused_init (keys : List PublicKey) (k : PublicKey) :
    Unused (.init keys) k ↔ k ∈ keys := by
  simp [Unused, State.init]

/-- At the start the state tracks the keys. -/
theorem tracks_init (keys : List PublicKey) (getter : AuthorityGetter) (depth : ℕ) :
    Tracks keys (lookAccount keys getter depth) (.init keys) where
  provided k := by simp [State.init]
  temp := List.mem_cons_self
  cached account h := by
    rw [List.mem_singleton.mp h, lookAccount_temp]
    exact ⟨rfl, fun _ hk => absurd hk List.not_mem_nil⟩

/-- Some signature is unused exactly if some key is. -/
theorem hasUnusedSignatures_iff (s : State) :
    s.hasUnusedSignatures = true ↔ ∃ k, Unused s k := by
  unfold State.hasUnusedSignatures Unused
  rw [List.any_eq_true]
  constructor
  · rintro ⟨⟨k, used⟩, hsig, hunused⟩
    cases used with
    | false => exact ⟨k, hsig⟩
    | true => cases hunused
  · rintro ⟨k, hk⟩
    exact ⟨_, hk, rfl⟩

/-- The check of a transaction approves, misses an authority or finds an unused key. -/
theorem Meets.verdict (h : Meets keys look run r) (hs : Tracks keys look (.init keys)) :
    Verdict (verifyWith run keys) keys r := by
  obtain ⟨hok, herror⟩ := h _ hs
  have hend : r.approved = true → ∃ t : State, verifyWith run keys =
      wlsAssert (!t.hasUnusedSignatures) .txIrrelevantSig "Unnecessary signature(s) detected" ∧
      (t.hasUnusedSignatures = true ↔ ¬ keys ⊆ r.keys) := by
    intro happroved
    obtain ⟨t, ht, huses⟩ := hok happroved
    refine ⟨t, ?_, ?_⟩
    · have hrun : run (.init keys) = .ok ((), t) := ht
      unfold verifyWith
      rw [hrun]
      rfl
    · rw [hasUnusedSignatures_iff, List.subset_def]
      simp only [huses.unused, unused_init, not_forall, exists_prop]
  refine ⟨fun happroved => ?_, fun happroved hused => ?_, fun happroved hunused => ?_⟩
  · obtain ⟨e, he, hmissing⟩ := herror happroved
    refine ⟨e, ?_, hmissing⟩
    unfold verifyWith
    rw [he]
    rfl
  · obtain ⟨t, ht, hunused⟩ := hend happroved
    have hnone : t.hasUnusedSignatures = false :=
      Bool.eq_false_iff.mpr fun hany => hunused.mp hany hused
    rw [ht, hnone]
    rfl
  · obtain ⟨t, ht, hiff⟩ := hend happroved
    rw [ht, hiff.mpr hunused]
    exact ⟨_, rfl, rfl⟩

/-- Verdicts from looks that approve less with fewer keys are orderly. -/
theorem orderly_of_looks {verify : List PublicKey → Except Exc Unit} {r : List PublicKey → Look}
    (hless : ∀ l m : List PublicKey, m ⊆ l → Less m (r m) (r l))
    (hverdict : ∀ keys, Verdict (verify keys) keys (r keys)) : Orderly verify isMissingAuth where
  less l m hsub haccepted := by
    have hl := hverdict l
    have hm := hverdict m
    cases happroved : (r m).approved with
    | false => exact .inr (hm.missing happroved)
    | true =>
      have hmore := hless l m hsub.subset
      have hused : l ⊆ (r l).keys := by
        by_contra hunused
        obtain ⟨e, he, -⟩ := hl.irrelevant (hmore.approved happroved) hunused
        rw [haccepted] at he
        cases he
      exact .inl (hm.accepted happroved fun k hk => hmore.keys k (hused (hsub.subset hk)) hk)
  refused l m hsub hrefused haccepted := by
    have hl := hverdict l
    have hm := hverdict m
    obtain ⟨e, he, hmissing⟩ := hrefused
    have hrejected : (r l).approved = false := by
      refine Bool.eq_false_iff.mpr fun happroved => ?_
      by_cases hused : l ⊆ (r l).keys
      · rw [hl.accepted happroved hused] at he
        cases he
      · obtain ⟨e', he', hkind⟩ := hl.irrelevant happroved hused
        rw [he] at he'
        rw [Except.error.inj he', isMissingAuth, hkind] at hmissing
        cases hmissing
    cases happroved : (r m).approved with
    | false =>
      obtain ⟨e', he', -⟩ := hm.missing happroved
      rw [haccepted] at he'
      cases he'
    | true =>
      have hmore := (hless l m hsub.subset).approved happroved
      rw [hrejected] at hmore
      cases hmore

end Verdicts

section Operations

variable (getActive getOwner getPosting : AuthorityGetter) (ops : List Operation)

/-- A look at an authority from a getter that may throw. -/
def authorityLook (keys : List PublicKey) (look : AccountName → Look) :
    Except Exc Authority → Look
  | .ok auth => lookAuthority keys look auth
  | .error _ => ⟨false, []⟩

/-- A look at an account that has to post. -/
def postingLook (keys : List PublicKey) (id : AccountName) : Look :=
  let look := lookAccount keys getPosting (wlsMaxSigCheckDepth + 1)
  lookAny [look id, authorityLook keys look (getActive id), authorityLook keys look (getOwner id)]

/-- A look at an account that has to be active. -/
def activeLook (keys : List PublicKey) (id : AccountName) : Look :=
  let look := lookAccount keys getActive (wlsMaxSigCheckDepth + 1)
  lookAny [look id, authorityLook keys look (getOwner id)]

/-- A look at the owner of an account. -/
def ownerLook (keys : List PublicKey) (id : AccountName) : Look :=
  authorityLook keys (lookAccount keys getActive (wlsMaxSigCheckDepth + 1)) (getOwner id)

/-- A look at another authority. -/
def otherLook (keys : List PublicKey) (auth : Authority) : Look :=
  lookAuthority keys (lookAccount keys getActive (wlsMaxSigCheckDepth + 1)) auth

/-- A look at everything that a list of operations requires. -/
def opsLook (keys : List PublicKey) : Look :=
  if sortNames (requiredOf (·.posting) ops) ≠ [] then
    lookAll ((sortNames (requiredOf (·.posting) ops)).map
      (postingLook getActive getOwner getPosting keys))
  else
    Look.both (lookAll ((ops.flatMap fun op => op.requiredAuthorities.other).map
        (otherLook getActive keys)))
      (Look.both (lookAll ((sortNames (requiredOf (·.active) ops)).map
          (activeLook getActive getOwner keys)))
        (lookAll ((sortNames (requiredOf (·.owner) ops)).map (ownerLook getActive getOwner keys))))

/-- All accounts that the authorities of a list of operations name exist, and their authorities
nest no deeper than the search looks; weights fit into 32 bits. -/
structure NestsWithin : Prop where
  posting : ∀ id ∈ sortNames (requiredOf (·.posting) ops),
    Within getPosting (wlsMaxSigCheckDepth + 1) id ∧
      (∃ auth, getActive id = .ok auth ∧ WithinAuthority getPosting wlsMaxSigCheckDepth auth) ∧
      ∃ auth, getOwner id = .ok auth ∧ WithinAuthority getPosting wlsMaxSigCheckDepth auth
  other : ∀ auth ∈ ops.flatMap fun op => op.requiredAuthorities.other,
    WithinAuthority getActive wlsMaxSigCheckDepth auth
  active : ∀ id ∈ sortNames (requiredOf (·.active) ops),
    Within getActive (wlsMaxSigCheckDepth + 1) id ∧
      ∃ auth, getOwner id = .ok auth ∧ WithinAuthority getActive wlsMaxSigCheckDepth auth
  owner : ∀ id ∈ sortNames (requiredOf (·.owner) ops),
    ∃ auth, getOwner id = .ok auth ∧ WithinAuthority getActive wlsMaxSigCheckDepth auth

variable {getActive getOwner getPosting ops} {keys fewer : List PublicKey}

/-- With fewer keys the authority of an operation approves less. -/
theorem authorityLook_less (hfewer : fewer ⊆ keys) (getter : AuthorityGetter) (depth : ℕ)
    (auth : Except Exc Authority) :
    Less fewer (authorityLook fewer (lookAccount fewer getter depth) auth)
      (authorityLook keys (lookAccount keys getter depth) auth) := by
  cases auth with
  | ok auth => exact lookAuthority_less hfewer (lookAccount_less hfewer getter depth) auth
  | error e => exact ⟨id, fun _ hk => absurd hk List.not_mem_nil⟩

/-- With fewer keys, the operations are approved less, by all of those keys. -/
theorem opsLook_less (hfewer : fewer ⊆ keys) :
    Less fewer (opsLook getActive getOwner getPosting ops fewer)
      (opsLook getActive getOwner getPosting ops keys) := by
  have haccount := fun getter => lookAccount_less hfewer getter (wlsMaxSigCheckDepth + 1)
  have hauthority := fun getter => authorityLook_less hfewer getter (wlsMaxSigCheckDepth + 1)
  unfold opsLook
  split
  · exact lookAll_less fun id _ => lookAny_less (.cons (haccount _ id)
      (.cons (hauthority _ _) (.cons (hauthority _ _) .nil)))
  · refine both_less (lookAll_less fun auth _ => ?_) (both_less (lookAll_less fun id _ => ?_)
      (lookAll_less fun id _ => ?_))
    · exact lookAuthority_less hfewer (haccount _) auth
    · exact lookAny_less (.cons (haccount _ id) (.cons (hauthority _ _) .nil))
    · exact hauthority _ _

/-- The check of an authority within the depth finds what the lookup finds. -/
theorem checkAuthorityOf_finds {getter : AuthorityGetter} {depth : ℕ} {found : Except Exc Authority}
    (h : ∃ auth, found = .ok auth ∧ WithinAuthority getter depth auth) :
    Finds keys (lookAccount keys getter (depth + 1)) (checkAuthorityOf getter [] depth found)
      (authorityLook keys (lookAccount keys getter (depth + 1)) found) := by
  obtain ⟨auth, rfl, hwithin⟩ := h
  exact checkAuthorityOf_uses hwithin

/-- The check of posting authorities approves where their lookups do. -/
theorem verifyPosting_meets (h : NestsWithin getActive getOwner getPosting ops) :
    Meets keys (lookAccount keys getPosting (wlsMaxSigCheckDepth + 1))
      (verifyPosting getActive getOwner getPosting (sortNames (requiredOf (·.posting) ops)))
      (lookAll ((sortNames (requiredOf (·.posting) ops)).map
        (postingLook getActive getOwner getPosting keys))) := by
  refine forEach_meets fun id hid => require_meets (anyOf_uses ?_) rfl
  obtain ⟨hposting, hactive, howner⟩ := h.posting id hid
  exact .cons (checkAccount_uses hposting) (.cons (checkAuthorityOf_finds hactive)
    (.cons (checkAuthorityOf_finds howner) .nil))

/-- The check of the other authorities approves where their lookups do. -/
theorem verifyActive_meets (h : NestsWithin getActive getOwner getPosting ops) :
    Meets keys (lookAccount keys getActive (wlsMaxSigCheckDepth + 1))
      (verifyActive getActive getOwner (ops.flatMap fun op => op.requiredAuthorities.other)
        (sortNames (requiredOf (·.active) ops)) (sortNames (requiredOf (·.owner) ops)))
      (Look.both (lookAll ((ops.flatMap fun op => op.requiredAuthorities.other).map
          (otherLook getActive keys)))
        (Look.both (lookAll ((sortNames (requiredOf (·.active) ops)).map
            (activeLook getActive getOwner keys)))
          (lookAll ((sortNames (requiredOf (·.owner) ops)).map
            (ownerLook getActive getOwner keys))))) := by
  refine Meets.bind (forEach_meets fun auth hauth => require_meets ?_ rfl)
    (Meets.bind (forEach_meets fun id hid => require_meets (anyOf_uses ?_) rfl)
      (forEach_meets fun id hid => require_meets ?_ rfl))
  · exact checkAuthorityOf_uses (h.other auth hauth)
  · obtain ⟨hactive, howner⟩ := h.active id hid
    exact .cons (checkAccount_uses hactive) (.cons (checkAuthorityOf_finds howner) .nil)
  · exact checkAuthorityOf_finds (h.owner id hid)

/-- `verify_authority` says what a look finds, if it accepts any keys. -/
theorem verifyAuthority_verdict {accepted : List PublicKey}
    (h : NestsWithin getActive getOwner getPosting ops)
    (haccepted : verifyAuthority getActive getOwner getPosting ops accepted = .ok ())
    (keys : List PublicKey) :
    Verdict (verifyAuthority getActive getOwner getPosting ops keys) keys
      (opsLook getActive getOwner getPosting ops keys) := by
  unfold verifyAuthority at haccepted ⊢
  unfold opsLook
  by_cases hposting : sortNames (requiredOf (·.posting) ops) ≠ []
  · simp only [if_pos hposting] at haccepted ⊢
    obtain ⟨_, hactive, haccepted⟩ := bind_eq_ok haccepted
    obtain ⟨_, howner, haccepted⟩ := bind_eq_ok haccepted
    obtain ⟨_, hother, -⟩ := bind_eq_ok haccepted
    rw [hactive, howner, hother]
    exact (verifyPosting_meets h).verdict (tracks_init keys _ _)
  · simp only [if_neg hposting] at haccepted ⊢
    exact (verifyActive_meets h).verdict (tracks_init keys _ _)

end Operations

section Minimization

variable {getActive getOwner getPosting : AuthorityGetter} {env : Env} {trx : SignedTransaction}
  {availableKeys keys : List PublicKey}

/-- A set of keys has none twice. -/
theorem keySet_nodup (keys : List PublicKey) : (keySet keys).Nodup :=
  (List.perm_insertionSort _ _).nodup_iff.mpr keys.nodup_dedup

/-- No required signature is given twice. -/
theorem getRequiredSignatures_nodup
    (h : getRequiredSignatures getActive getOwner getPosting env trx availableKeys = .ok keys) :
    keys.Nodup := by
  obtain ⟨sigs, -, h⟩ := bind_eq_ok h
  split at h
  · obtain ⟨_, -, h⟩ := bind_eq_ok h
    obtain ⟨_, -, h⟩ := bind_eq_ok h
    obtain ⟨visited, -, h⟩ := bind_eq_ok h
    rw [← Except.ok.inj h]
    exact keySet_nodup _
  · obtain ⟨visited, -, h⟩ := bind_eq_ok h
    rw [← Except.ok.inj h]
    exact keySet_nodup _

/-- No key of the list can be missed. -/
def Needed (getActive getOwner getPosting : AuthorityGetter) (trx : SignedTransaction)
    (keys : List PublicKey) : Prop :=
  ∀ k ∈ keys, verifyAuthority getActive getOwner getPosting trx.operations (keys.erase k) ≠ .ok ()

/-- If the required keys are accepted, whatever `minimize_required_signatures` returns is accepted;
and where authorities nest within the depth of the search, it returns keys that are all needed. -/
theorem minimize_required_signatures (getActive getOwner getPosting : AuthorityGetter) (env : Env)
    (trx : SignedTransaction) (availableKeys keys : List PublicKey)
    (hkeys : getRequiredSignatures getActive getOwner getPosting env trx availableKeys = .ok keys)
    (haccepted : verifyAuthority getActive getOwner getPosting trx.operations keys = .ok ()) :
    (∀ result,
      minimizeRequiredSignatures getActive getOwner getPosting env trx availableKeys = .ok result →
      result ⊆ keys ∧ verifyAuthority getActive getOwner getPosting trx.operations result = .ok ()) ∧
    (NestsWithin getActive getOwner getPosting trx.operations → ∃ result,
      minimizeRequiredSignatures getActive getOwner getPosting env trx availableKeys = .ok result ∧
      Needed getActive getOwner getPosting trx result) := by
  have hminimize : minimizeRequiredSignatures getActive getOwner getPosting env trx availableKeys =
      removeEach (verifyAuthority getActive getOwner getPosting trx.operations) isMissingAuth
        keys keys := by
    unfold minimizeRequiredSignatures
    rw [hkeys]
    rfl
  rw [hminimize]
  constructor
  · intro result hresult
    obtain ⟨hsub, hverify⟩ := removeEach_accepted haccepted hresult
    exact ⟨hsub.subset, hverify⟩
  · intro hnests
    have horderly : Orderly (verifyAuthority getActive getOwner getPosting trx.operations)
        isMissingAuth :=
      orderly_of_looks (fun l m hsub => opsLook_less hsub)
        (verifyAuthority_verdict hnests haccepted)
    obtain ⟨result, hresult, hsub, hneeded⟩ :=
      horderly.removeEach_minimal keys (getRequiredSignatures_nodup hkeys) haccepted
    exact ⟨result, hresult, fun k hk => hneeded k (hsub.subset hk) hk⟩

/-- A transfer, without signatures. -/
def transferFrom (source : AccountName) : SignedTransaction where
  refBlockNum := 0
  refBlockPrefix := 0
  expiration := 0
  operations := [.transfer { source := source, target := nameOf "bob", amount := wls 1, memo := [] }]
  signatures := []

/-- An account that another one can replace. -/
def household : AuthorityGetter := fun name => .ok <|
  if name = nameOf "alice" then ⟨2, [(nameOf "bob", 2)], [(⟨1⟩, 1)]⟩ else ⟨1, [], [(⟨2⟩, 1)]⟩

/-- The authorities of the household nest within the depth. -/
theorem household_nests :
    NestsWithin household household household (transferFrom (nameOf "alice")).operations := by
  have hbob : Within household 2 (nameOf "bob") :=
    .inr ⟨⟨1, [], [(⟨2⟩, 1)]⟩, by decide, by unfold Bounded; decide,
      fun _ h => absurd h List.not_mem_nil⟩
  have hauth : household (nameOf "alice") = .ok ⟨2, [(nameOf "bob", 2)], [(⟨1⟩, 1)]⟩ := by decide
  have halice : WithinAuthority household 2 ⟨2, [(nameOf "bob", 2)], [(⟨1⟩, 1)]⟩ := by
    refine ⟨by unfold Bounded; decide, fun entry hentry => ?_⟩
    rw [List.mem_singleton.mp hentry]
    exact hbob
  have hposting : sortNames (requiredOf (·.posting) (transferFrom (nameOf "alice")).operations) =
      [] := by decide
  have hother : ((transferFrom (nameOf "alice")).operations.flatMap fun op =>
      op.requiredAuthorities.other) = [] := by decide
  have howner : sortNames (requiredOf (·.owner) (transferFrom (nameOf "alice")).operations) =
      [] := by decide
  have hactive : sortNames (requiredOf (·.active) (transferFrom (nameOf "alice")).operations) =
      [nameOf "alice"] := by decide
  refine ⟨fun id hid => ?_, fun auth hauth => ?_, fun id hid => ?_, fun id hid => ?_⟩
  · exact absurd (hposting ▸ hid) List.not_mem_nil
  · exact absurd (hother ▸ hauth) List.not_mem_nil
  · rw [hactive] at hid
    rw [List.mem_singleton.mp hid]
    exact ⟨.inr ⟨_, hauth, halice⟩, _, hauth, halice⟩
  · exact absurd (howner ▸ hid) List.not_mem_nil

/-- Of two keys, the one that does not suffice is removed. -/
theorem minimize_required_signatures_household :
    ∃ result, minimizeRequiredSignatures household household household sampleEnv
        (transferFrom (nameOf "alice")) [⟨1⟩, ⟨2⟩] = .ok result ∧ result ⊆ [⟨1⟩, ⟨2⟩] ∧
      Needed household household household (transferFrom (nameOf "alice")) result := by
  have hkeys : getRequiredSignatures household household household sampleEnv
      (transferFrom (nameOf "alice")) [⟨1⟩, ⟨2⟩] = .ok [⟨1⟩, ⟨2⟩] := by decide +kernel
  have haccepted : verifyAuthority household household household
      (transferFrom (nameOf "alice")).operations [⟨1⟩, ⟨2⟩] = .ok () := by decide +kernel
  obtain ⟨hsound, hminimal⟩ := minimize_required_signatures household household household sampleEnv
    (transferFrom (nameOf "alice")) [⟨1⟩, ⟨2⟩] [⟨1⟩, ⟨2⟩] hkeys haccepted
  obtain ⟨result, hresult, hneeded⟩ := hminimal household_nests
  exact ⟨result, hresult, (hsound result hresult).1, hneeded⟩

/-- An account with a member that is looked at below another member or directly, as the keys
decide; `aaron` is looked at in the second case only. -/
def nestedGroup : AuthorityGetter := fun name => .ok <|
  if name = nameOf "group" then
    ⟨3, [(nameOf "alice", 1), (nameOf "bob", 1), (nameOf "carol", 1)], []⟩
  else if name = nameOf "alice" then ⟨1, [], [(⟨3⟩, 1)]⟩
  else if name = nameOf "bob" then ⟨1, [(nameOf "carol", 1)], [(⟨1⟩, 1)]⟩
  else if name = nameOf "carol" then ⟨1, [(nameOf "aaron", 1), (nameOf "alice", 1)], []⟩
  else ⟨2, [], [(⟨2⟩, 1)]⟩

/-- Without the first key the second one is not used any more, and the removal ends with the
exception for that. -/
theorem minimize_throws_nestedGroup :
    ¬ ∀ (getActive getOwner getPosting : AuthorityGetter) (env : Env) (trx : SignedTransaction)
      (availableKeys keys : List PublicKey),
      getRequiredSignatures getActive getOwner getPosting env trx availableKeys = .ok keys →
      verifyAuthority getActive getOwner getPosting trx.operations keys = .ok () →
      ∃ result,
        minimizeRequiredSignatures getActive getOwner getPosting env trx availableKeys = .ok result ∧
        result ⊆ keys ∧
        verifyAuthority getActive getOwner getPosting trx.operations result = .ok () ∧
        Needed getActive getOwner getPosting trx result := by
  intro hall
  have hkeys : getRequiredSignatures nestedGroup nestedGroup nestedGroup sampleEnv
      (transferFrom (nameOf "group")) [⟨1⟩, ⟨2⟩, ⟨3⟩] = .ok [⟨1⟩, ⟨2⟩, ⟨3⟩] := by decide +kernel
  have haccepted : verifyAuthority nestedGroup nestedGroup nestedGroup
      (transferFrom (nameOf "group")).operations [⟨1⟩, ⟨2⟩, ⟨3⟩] = .ok () := by decide +kernel
  have hthrows : minimizeRequiredSignatures nestedGroup nestedGroup nestedGroup sampleEnv
      (transferFrom (nameOf "group")) [⟨1⟩, ⟨2⟩, ⟨3⟩] =
      .error ⟨.txIrrelevantSig, "Unnecessary signature(s) detected"⟩ := by decide +kernel
  obtain ⟨result, hresult, -⟩ := hall _ _ _ _ _ _ _ hkeys haccepted
  rw [hthrows] at hresult
  cases hresult

end Minimization

end Whaleshares.MinimalSignatures
