import Whaleshares.VoteEntries

/-!
# The reputation of authors

The plugin `follow` (`follow_plugin.cpp`) keeps a reputation for each author. It sees a vote
twice. Before it is applied the plugin takes what an earlier vote of the same voter on the
comment would give from the reputation of the author; after it the shares of the vote are
given to the author, where two rules allow it. Whether the earlier vote had been given is not
recorded.

What the plugin throws is caught, by itself or by the signal, and changes nothing.
-/

namespace Whaleshares.Reputation

open Config Fc Protocol Objects Program Database CommentEvaluators VoteEntries

section Plugin

variable (fc : FcLib)

/-- `reputation_object` -/
structure ReputationObject where
  id : ℕ
  account : AccountName
  reputation : ℤ
  deriving DecidableEq

/-- `find` in `by_account` of the reputations. -/
def findReputation (reps : Table ReputationObject) (account : AccountName) :
    Option ReputationObject :=
  reps.find fun r => r.account = account

/-- `rshares >> 6`, which rounds down: precision is noise. -/
def shifted (rshares : ℤ) : ℤ := rshares / 64

/-- The change of a reputation that there is. -/
def modifyReputation (account : AccountName) (f : ℤ → Except Exc ℤ)
    (reps : Table ReputationObject) : Except Exc (Table ReputationObject) :=
  reps.modify unknownKey (fun r => r.account = account) fun r =>
    (f r.reputation).map fun reputation => { r with reputation := reputation }

/-- What is taken for an earlier vote, if there is one and the author has a reputation. -/
def takeVote (o : VoteOperation) (earlier : Option CommentVoteObject)
    (reps : Table ReputationObject) : Except Exc (Table ReputationObject) :=
  match earlier, findReputation reps o.author with
  | some cv, some _ => modifyReputation o.author (fun r => fc.sub r (shifted cv.rshares)) reps
  | _, _ => .ok reps

/-- `pre_operation_visitor` for a vote -/
def preVote (s : ChainState) (o : VoteOperation) (reps : Table ReputationObject) :
    Except Exc (Table ReputationObject) := do
  let c ← orUnknown (s.comments.find (CommentObject.hasPermlink o.author o.permlink))
  if c.cashoutTime = timePointSecMaximum then pure reps
  else do
    let voter ← orUnknown (s.accounts.find (named o.voter))
    takeVote fc o (findVote s c.id voter.id) reps

/-- The two rules: a voter of negative reputation affects nobody, and for a downvote the voter
must have more reputation than the author, who has none where there is no object. -/
def counts (voterRep authorRep : Option ℤ) (rshares : ℤ) : Bool :=
  !(voterRep.any fun v => v < 0) &&
    !(rshares < 0 && !(voterRep.any fun v => authorRep.getD 0 < v))

/-- The reputation of an account, if it has one. -/
def reputation? (reps : Table ReputationObject) (account : AccountName) : Option ℤ :=
  (findReputation reps account).map (·.reputation)

/-- What is given for a vote. -/
def giveVote (o : VoteOperation) (rshares : ℤ) (reps : Table ReputationObject) :
    Except Exc (Table ReputationObject) :=
  if counts (reputation? reps o.voter) (reputation? reps o.author) rshares then
    match findReputation reps o.author with
    | none => reps.create couldNotInsert (fun a b => a.account = b.account) fun id =>
        .ok ⟨id, o.author, shifted rshares⟩
    | some _ => modifyReputation o.author (fun r => fc.add r (shifted rshares)) reps
  else .ok reps

/-- `post_operation_visitor` for a vote -/
def postVote (s : ChainState) (o : VoteOperation) (reps : Table ReputationObject) :
    Except Exc (Table ReputationObject) := do
  let comment ← orUnknown (s.comments.find (CommentObject.hasPermlink o.author o.permlink))
  if comment.cashoutTime = timePointSecMaximum then pure reps
  else do
    let voter ← orUnknown (s.accounts.find (named o.voter))
    let cv ← orUnknown (findVote s comment.id voter.id)
    giveVote fc o cv.rshares reps

/-- What is thrown changes nothing. -/
def caught {α : Type} (result : Except Exc α) (unchanged : α) : α :=
  match result with
  | .ok changed => changed
  | .error _ => unchanged

end Plugin

section Views

variable {fc : FcLib} {reps reps' : Table ReputationObject} {account : AccountName}

/-- No account has two reputations. -/
def RepsUnique (reps : Table ReputationObject) : Prop := (reps.rows.map ReputationObject.account).Nodup

/-- The value has 64 bits. -/
def Fits (z : ℤ) : Prop := -2 ^ 63 ≤ z ∧ z < 2 ^ 63

/-- What a change of a reputation does. -/
theorem modifyReputation_view (hreps : RepsUnique reps) {r : ReputationObject}
    (hfind : findReputation reps account = some r) {f : ℤ → Except Exc ℤ} {x : ℤ}
    (hf : f r.reputation = .ok x) :
    ∃ reps', modifyReputation account f reps = .ok reps' ∧ RepsUnique reps' ∧
      reputation? reps' = Function.update (reputation? reps) account (some x) := by
  have hrow : (f r.reputation).map (fun reputation => { r with reputation := reputation }) =
      .ok { r with reputation := x } := by
    rw [hf]
    rfl
  obtain ⟨reps', hreps'⟩ : ∃ reps', modifyReputation account f reps = .ok reps' :=
    Table.exists_modify unknownKey hfind hrow
  have hkept : ∀ a b : ReputationObject, (f a.reputation).map (fun reputation =>
      { a with reputation := reputation }) = .ok b → b.account = a.account := by
    intro a b hab
    obtain ⟨y, -, rfl⟩ := map_eq_ok hab
    rfl
  obtain ⟨a, b, ha, hmem, -, hab, hrows, -⟩ := Table.modify_amend ReputationObject.account hreps' hreps hkept
  obtain rfl : a = r := Option.some.inj (ha.symm.trans hfind)
  obtain rfl : b = { a with reputation := x } := Except.ok.inj (hab.symm.trans hrow)
  have hunique : RepsUnique reps' := by
    unfold RepsUnique
    rw [hrows, Table.amend_keys]
    exact hreps
  have haccount : a.account = account :=
    of_decide_eq_true (List.find?_some (p := fun r : ReputationObject => r.account = account) hfind)
  refine ⟨reps', hreps', hunique, funext fun other => ?_⟩
  unfold reputation? findReputation Table.find
  by_cases hother : other = account
  · subst hother
    have hnew : ({ a with reputation := x } : ReputationObject) ∈ reps'.rows := by
      rw [hrows]
      exact Table.mem_amend_self _ hmem rfl
    rw [Function.update_self, (Table.find_key ReputationObject.account hunique).mpr ⟨hnew, haccount⟩]
    rfl
  · have hne : other ≠ ({ a with reputation := x } : ReputationObject).account := by
      rw [haccount]
      exact hother
    rw [Function.update_of_ne hother, hrows, Table.find_amend_of_ne hne]

/-- What a first reputation does. -/
theorem createReputation_view (hreps : RepsUnique reps) (hnone : findReputation reps account = none)
    (x : ℤ) :
    ∃ reps', reps.create couldNotInsert (fun a b => a.account = b.account)
        (fun id => .ok ⟨id, account, x⟩) = .ok reps' ∧ RepsUnique reps' ∧
      reputation? reps' = Function.update (reputation? reps) account (some x) := by
  unfold findReputation Table.find at hnone
  have hfree : ∀ old ∈ reps.rows, old.account ≠ account := by
    intro old hold haccount
    exact List.find?_eq_none.mp hnone old hold (decide_eq_true haccount)
  refine ⟨_, Table.create_of rfl fun old hold => ?_, ?_, funext fun other => ?_⟩
  · exact decide_eq_false fun haccount => hfree old hold haccount.symm
  · unfold RepsUnique
    rw [List.map_append, List.map_singleton]
    refine List.Nodup.append hreps (List.nodup_singleton _) fun name hold hnew => ?_
    obtain ⟨old, hmem, rfl⟩ := List.mem_map.mp hold
    exact hfree old hmem (List.mem_singleton.mp hnew)
  · unfold reputation? findReputation Table.find
    rw [List.find?_append]
    by_cases hother : other = account
    · subst hother
      rw [Function.update_self, hnone]
      simp
    · rw [Function.update_of_ne hother]
      have hlast : [(⟨reps.nextId, account, x⟩ : ReputationObject)].find?
          (fun r => r.account = other) = none := by
        simp [Ne.symm hother]
      rw [hlast, Option.or_none]

/-- The reputations without what an earlier vote gives. -/
def taken (rep : AccountName → Option ℤ) (author : AccountName) (earlier : Option ℤ) :
    AccountName → Option ℤ :=
  Function.update rep author ((rep author).map fun r => r - shifted (earlier.getD 0))

/-- The reputations with what a vote gives. -/
def given (rep : AccountName → Option ℤ) (o : VoteOperation) (rshares : ℤ) :
    AccountName → Option ℤ :=
  if counts (rep o.voter) (rep o.author) rshares then
    Function.update rep o.author (some ((rep o.author).getD 0 + shifted rshares))
  else rep

variable {o : VoteOperation}

/-- What the search finds is what is shown. -/
theorem reputation_of_find {account : AccountName} {found : Option ReputationObject}
    (h : findReputation reps account = found) :
    reputation? reps account = found.map (·.reputation) := by
  unfold reputation?
  rw [h]

/-- What the plugin does before a vote. -/
theorem takeVote_view (htotal : fc.SafeTotal) (hreps : RepsUnique reps)
    (earlier : Option CommentVoteObject)
    (hfits : ∀ r, reputation? reps o.author = some r →
      Fits (r - shifted ((earlier.map (·.rshares)).getD 0))) :
    ∃ reps', takeVote fc o earlier reps = .ok reps' ∧ RepsUnique reps' ∧
      reputation? reps' = taken (reputation? reps) o.author (earlier.map (·.rshares)) := by
  unfold takeVote taken
  cases earlier with
  | none =>
    refine ⟨reps, rfl, hreps, ?_⟩
    have hzero : ∀ r : ℤ, r - shifted ((Option.map (·.rshares)
        (none : Option CommentVoteObject)).getD 0) = r := fun r => Int.sub_zero r
    simp only [hzero, Option.map_id', Function.update_eq_self]
  | some cv =>
    cases hfind : findReputation reps o.author with
    | none =>
      refine ⟨reps, rfl, hreps, ?_⟩
      have hnone : reputation? reps o.author = none := reputation_of_find hfind
      rw [hnone, Option.map_none, ← hnone, Function.update_eq_self]
    | some r =>
      have hsome : reputation? reps o.author = some r.reputation := reputation_of_find hfind
      have hfit := hfits r.reputation hsome
      have hsub : fc.sub r.reputation (shifted cv.rshares) = .ok (r.reputation - shifted cv.rshares) :=
        htotal.checked hfit.1 hfit.2
      obtain ⟨reps', hreps', hunique, hview⟩ := modifyReputation_view hreps hfind
        (f := fun x => fc.sub x (shifted cv.rshares)) hsub
      refine ⟨reps', hreps', hunique, ?_⟩
      rw [hview, hsome]
      rfl

/-- What the plugin does after a vote. -/
theorem giveVote_view (htotal : fc.SafeTotal) (hreps : RepsUnique reps) (rshares : ℤ)
    (hfits : counts (reputation? reps o.voter) (reputation? reps o.author) rshares = true →
      ∀ r, reputation? reps o.author = some r → Fits (r + shifted rshares)) :
    ∃ reps', giveVote fc o rshares reps = .ok reps' ∧ RepsUnique reps' ∧
      reputation? reps' = given (reputation? reps) o rshares := by
  unfold giveVote given
  by_cases hcounts : counts (reputation? reps o.voter) (reputation? reps o.author) rshares = true
  · rw [if_pos hcounts, if_pos hcounts]
    cases hfind : findReputation reps o.author with
    | none =>
      have hnone : reputation? reps o.author = none := reputation_of_find hfind
      obtain ⟨reps', hreps', hunique, hview⟩ := createReputation_view hreps hfind (shifted rshares)
      refine ⟨reps', hreps', hunique, ?_⟩
      rw [hview, hnone, Option.getD_none, Int.zero_add]
    | some r =>
      have hsome : reputation? reps o.author = some r.reputation := reputation_of_find hfind
      have hfit := hfits hcounts r.reputation hsome
      have hadd : fc.add r.reputation (shifted rshares) = .ok (r.reputation + shifted rshares) :=
        htotal.checked hfit.1 hfit.2
      obtain ⟨reps', hreps', hunique, hview⟩ := modifyReputation_view hreps hfind
        (f := fun x => fc.add x (shifted rshares)) hadd
      refine ⟨reps', hreps', hunique, ?_⟩
      rw [hview, hsome]
      rfl
  · rw [if_neg hcounts, if_neg hcounts]
    exact ⟨reps, rfl, hreps, rfl⟩

end Views

end Whaleshares.Reputation
