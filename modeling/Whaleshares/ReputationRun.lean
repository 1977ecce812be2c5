import Whaleshares.CommentPolls
import Whaleshares.Reputation

/-!
# Reputations and the votes behind them

A run starts with the first state and no reputations. The plugin sees the votes; what else
happens leaves the votes and the authors of their comments alone. A ghost variable remembers
of which votes the latest version was counted under the two rules, which the plugin does not.
-/

namespace Whaleshares.ReputationRun

open Config Fc Protocol Objects Program Database CommentEvaluators Genesis LabelledRun Timeline
  Footprint VoteEntries Reputation

section Steps

/-- The chain with the plugin. -/
structure Observed where
  chain : ChainState
  reputations : Table ReputationObject
  /-- Whether the latest version of the vote of a voter on a comment was counted. -/
  counted : ℕ × ℕ → Bool

/-- The reputations between the two calls of the plugin. -/
def betweenCalls (fc : FcLib) (s : Observed) (o : VoteOperation) : Table ReputationObject :=
  caught (preVote fc s.chain o s.reputations) s.reputations

/-- The vote of an operation, if its comment is not paid out. -/
def latestVote (s : ChainState) (o : VoteOperation) : Option CommentVoteObject := do
  let comment ← s.comments.find (CommentObject.hasPermlink o.author o.permlink)
  let voter ← s.accounts.find (named o.voter)
  if comment.cashoutTime = timePointSecMaximum then none else findVote s comment.id voter.id

/-- Whether the latest versions were counted, after a vote. -/
def record (t : ChainState) (o : VoteOperation) (reps : Table ReputationObject)
    (counted : ℕ × ℕ → Bool) : ℕ × ℕ → Bool :=
  match latestVote t o with
  | some cv => Function.update counted (voteKey cv)
      (counts (reputation? reps o.voter) (reputation? reps o.author) cv.rshares)
  | none => counted

/-- What the plugin makes of a vote that leads the chain to another state. -/
def observe (fc : FcLib) (o : VoteOperation) (s : Observed) (t : ChainState) : Observed :=
  ⟨t, caught (postVote fc t o (betweenCalls fc s o)) (betweenCalls fc s o),
    record t o (betweenCalls fc s o) s.counted⟩

/-- The author of a comment. -/
def authorOf (s : ChainState) (comment : ℕ) : Option AccountName :=
  (s.comments.find fun c => c.id = comment).map (·.author)

/-- The votes and the authors of their comments stay. -/
structure LeavesVotes (s t : ChainState) : Prop where
  entries : t.commentVotes.rows.map entry = s.commentVotes.rows.map entry
  nextId : t.commentVotes.nextId = s.commentVotes.nextId
  authors : ∀ v ∈ s.commentVotes.rows, authorOf t v.comment = authorOf s v.comment

/-- The steps of a run. -/
def Step (env : Env) (e : Event) (s t : Observed) : Prop :=
  Occurs env e s.chain t.chain ∧
    match e with
    | .operation (.vote o) => t = observe env.toFcLib o s t.chain
    | _ => LeavesVotes s.chain t.chain ∧ t.reputations = s.reputations ∧ t.counted = s.counted

/-- The first state. -/
def start (env : Env) (initSupply : ℕ) : Observed :=
  ⟨initGenesis env initSupply, .empty, fun _ => false⟩

/-- What a vote gives an author: its shifted shares, if its latest version was counted. -/
def contribution (s : Observed) (author : AccountName) (v : CommentVoteObject) : ℤ :=
  if s.counted (voteKey v) && authorOf s.chain v.comment = some author then shifted v.rshares else 0

/-- What all votes give an author. -/
def total (s : Observed) (author : AccountName) : ℤ :=
  (s.chain.commentVotes.rows.map (contribution s author)).sum

/-- The reputation of an account. -/
def reputationOf (reps : Table ReputationObject) (account : AccountName) : ℤ :=
  (reputation? reps account).getD 0

/-- The value has 64 bits. -/
def fits (z : ℤ) : Bool := -2 ^ 63 ≤ z && z < 2 ^ 63

/-- The vote that is changed, if one is, was counted, or it gives nothing, or the author has no
reputation; and the sums have 64 bits. -/
def settles (s : Observed) (o : VoteOperation) (key : ℕ × ℕ) (earlier : Option ℤ) (rshares : ℤ) :
    Bool :=
  let rep := reputation? s.reputations
  let less := taken rep o.author earlier
  (earlier.all fun old => s.counted key || shifted old = 0 || (rep o.author).isNone) &&
    ((rep o.author).all fun r => fits (r - shifted (earlier.getD 0))) &&
    (!counts (less o.voter) (less o.author) rshares ||
      (less o.author).all fun r => fits (r + shifted rshares))

/-- A vote on a comment that is not paid out takes back what the voter has given before. -/
def Settled (m : Moment Observed Event) : Prop :=
  ∀ o, m.event = .operation (.vote o) → ∀ comment voter power,
    m.before.chain.comments.find (CommentObject.hasPermlink o.author o.permlink) = some comment →
    m.before.chain.accounts.find (named o.voter) = some voter →
    comment.cashoutTime ≠ timePointSecMaximum →
    votePower o voter m.before.chain.dgp = .ok power →
      settles m.before o (comment.id, voter.id)
        ((findVote m.before.chain comment.id voter.id).map (·.rshares))
        (signedShares o.weight power.absRshares) = true

/-- A changed vote takes from each account what it had given: its shifted shares from the author
if it was counted, else nothing. -/
def Removes (fc : FcLib) (m : Moment Observed Event) : Prop :=
  ∀ o, m.event = .operation (.vote o) → ∀ comment voter vote,
    m.before.chain.comments.find (CommentObject.hasPermlink o.author o.permlink) = some comment →
    m.before.chain.accounts.find (named o.voter) = some voter →
    comment.cashoutTime ≠ timePointSecMaximum →
    findVote m.before.chain comment.id voter.id = some vote →
    ∀ a, reputationOf (betweenCalls fc m.before o) a =
      reputationOf m.before.reputations a - contribution m.before a vote

end Steps

section Invariant

/-- What a run keeps. -/
structure Kept (s : Observed) : Prop where
  commentIds : (s.chain.comments.rows.map (·.id)).Nodup
  votes : VotesUnique s.chain
  reps : RepsUnique s.reputations
  known : ∀ key, s.counted key = true → key ∈ s.chain.commentVotes.rows.map voteKey
  present : ∀ v ∈ s.chain.commentVotes.rows, s.counted (voteKey v) = true →
    ∃ a, authorOf s.chain v.comment = some a ∧ reputation? s.reputations a ≠ none
  sums : ∀ a, reputationOf s.reputations a = total s a

variable {env : Env} {fc : FcLib} {s t : Observed} {e : Event} {o : VoteOperation}

/-- What a vote gives an author, from what is looked at of it. -/
def contributionOf (s : Observed) (author : AccountName) (e : ℕ × (ℕ × ℕ) × ℤ) : ℤ :=
  if s.counted e.2.1 && authorOf s.chain e.2.1.1 = some author then shifted e.2.2 else 0

/-- What a vote contributes depends on its entry. -/
theorem contributionOf_entry (author : AccountName) (v : CommentVoteObject) :
    contribution s author v = contributionOf s author (entry v) := rfl

/-- At the start of the chain everything counted is kept. -/
theorem kept_start (env : Env) (initSupply : ℕ) : Kept (start env initSupply) where
  commentIds := List.nodup_nil
  votes := ⟨List.nodup_nil, fun _ h => absurd h List.not_mem_nil, List.nodup_nil⟩
  reps := List.nodup_nil
  known := nofun
  present := fun _ h => absurd h List.not_mem_nil
  sums := fun _ => rfl

/-- What leaves the votes alone keeps what the run keeps. -/
theorem Kept.leave (hs : Kept s) (hids : (t.chain.comments.rows.map (·.id)).Nodup)
    (h : LeavesVotes s.chain t.chain) (hreps : t.reputations = s.reputations)
    (hcounted : t.counted = s.counted) : Kept t := by
  have hids' : t.chain.commentVotes.rows.map (·.id) = s.chain.commentVotes.rows.map (·.id) :=
    map_eq_of_map_eq (fun e : ℕ × (ℕ × ℕ) × ℤ => e.1) (fun _ => rfl) h.entries
  have hkeys : t.chain.commentVotes.rows.map voteKey = s.chain.commentVotes.rows.map voteKey :=
    map_eq_of_map_eq (fun e : ℕ × (ℕ × ℕ) × ℤ => e.2.1) (fun _ => rfl) h.entries
  -- every vote was there before, under its key and with its shares
  have hold : ∀ v ∈ t.chain.commentVotes.rows, ∃ w ∈ s.chain.commentVotes.rows, entry w = entry v := by
    intro v hv
    have hmem : entry v ∈ s.chain.commentVotes.rows.map entry := h.entries ▸ List.mem_map_of_mem hv
    exact List.mem_map.mp hmem
  have hsame : ∀ {v w : CommentVoteObject}, entry w = entry v →
      w.id = v.id ∧ voteKey w = voteKey v ∧ w.rshares = v.rshares := by
    intro v w hentry
    exact ⟨congrArg (·.1) hentry, congrArg (·.2.1) hentry, congrArg (·.2.2) hentry⟩
  have hauthor : ∀ {v w : CommentVoteObject}, w ∈ s.chain.commentVotes.rows → voteKey w = voteKey v →
      authorOf t.chain v.comment = authorOf s.chain w.comment := by
    intro v w hw hkey
    have hcomment : w.comment = v.comment := congrArg Prod.fst hkey
    rw [← hcomment]
    exact h.authors w hw
  refine ⟨hids, ⟨hids' ▸ hs.votes.ids, ?_, hkeys ▸ hs.votes.keys⟩, hreps ▸ hs.reps, ?_, ?_, ?_⟩
  · intro v hv
    obtain ⟨w, hw, hentry⟩ := hold v hv
    rw [h.nextId, ← (hsame hentry).1]
    exact hs.votes.below w hw
  · intro key hkey
    rw [hcounted] at hkey
    rw [hkeys]
    exact hs.known key hkey
  · intro v hv hcount
    obtain ⟨w, hw, hentry⟩ := hold v hv
    rw [hcounted, ← (hsame hentry).2.1] at hcount
    rw [hreps, hauthor hw (hsame hentry).2.1]
    exact hs.present w hw hcount
  · intro a
    have hsum : total t a = total s a := by
      have hvalue : ∀ v ∈ t.chain.commentVotes.rows,
          contribution t a v = contributionOf s a (entry v) := by
        intro v hv
        obtain ⟨w, hw, hentry⟩ := hold v hv
        have hkey := (hsame hentry).2.1
        have hcomment : w.comment = v.comment := congrArg Prod.fst hkey
        rw [← contributionOf_entry]
        unfold contribution
        rw [hcounted, hauthor hw hkey, hcomment]
      have hvalues : t.chain.commentVotes.rows.map (fun v => contributionOf s a (entry v)) =
          s.chain.commentVotes.rows.map fun v => contributionOf s a (entry v) :=
        map_eq_of_map_eq (contributionOf s a) (fun _ => rfl) h.entries
      unfold total
      rw [List.map_congr_left hvalue, hvalues]
      rfl
    rw [hreps, hsum]
    exact hs.sums a

end Invariant

section Calls

variable {fc : FcLib} {s : Observed} {t : ChainState} {o : VoteOperation} {comment : CommentObject}
  {voter : AccountObject} {earlier : Option CommentVoteObject} {rshares : ℤ}
  {reps : Table ReputationObject}

/-- The call before a vote, from what the vote finds. -/
theorem preVote_eq (h : VoteEffect o s.chain t comment voter earlier rshares) :
    preVote fc s.chain o reps =
      if comment.cashoutTime = timePointSecMaximum then .ok reps else takeVote fc o earlier reps := by
  unfold preVote
  rw [h.foundComment, h.foundVoter, ← h.foundVote]
  rfl

/-- The call after a vote, from what the vote found. -/
theorem postVote_eq (hs : VotesUnique s.chain)
    (h : VoteEffect o s.chain t comment voter earlier rshares) :
    postVote fc t o reps =
      if comment.cashoutTime = timePointSecMaximum then .ok reps else giveVote fc o rshares reps := by
  obtain ⟨c, hc, hid, hcashout⟩ := h.places.findComment h.foundComment
  obtain ⟨a, ha, haid⟩ := h.places.findAccount h.foundVoter
  obtain ⟨v, hv, hshares⟩ := h.found hs
  rw [← hid, ← haid] at hv
  unfold postVote
  rw [hc, ha, ← hcashout, ← hshares]
  by_cases hpaid : c.cashoutTime = timePointSecMaximum
  · rw [if_pos hpaid]
    exact if_pos hpaid
  · rw [if_neg hpaid]
    refine (if_neg hpaid).trans ?_
    change (orUnknown (findVote t c.id a.id) >>= fun cv => giveVote fc o cv.rshares reps) = _
    rw [hv]
    rfl

/-- What is remembered after a vote. -/
theorem record_eq (hs : VotesUnique s.chain)
    (h : VoteEffect o s.chain t comment voter earlier rshares) (counted : ℕ × ℕ → Bool) :
    record t o reps counted = if comment.cashoutTime = timePointSecMaximum then counted
      else Function.update counted (comment.id, voter.id)
        (counts (reputation? reps o.voter) (reputation? reps o.author) rshares) := by
  obtain ⟨c, hc, hid, hcashout⟩ := h.places.findComment h.foundComment
  obtain ⟨a, ha, haid⟩ := h.places.findAccount h.foundVoter
  obtain ⟨v, hv, hshares⟩ := h.found hs
  have hkey := ((findVote_iff (h.unique hs)).mp hv).2
  rw [← hid, ← haid] at hv
  have hlatest : latestVote t o =
      if comment.cashoutTime = timePointSecMaximum then none else some v := by
    unfold latestVote
    rw [hc, ha, ← hcashout, ← hv]
    rfl
  unfold record
  rw [hlatest]
  by_cases hpaid : comment.cashoutTime = timePointSecMaximum
  · rw [if_pos hpaid, if_pos hpaid]
  · rw [if_neg hpaid, if_neg hpaid, ← hkey, ← hshares]

/-- The comments have the authors that they had. -/
theorem authorOf_places (h : SamePlaces s.chain t) (id : ℕ) : authorOf t id = authorOf s.chain id := by
  have hfound := Table.find_map_congr h.comments
    (p := fun c : CommentObject => decide (c.id = id)) fun a b hab => by
      have hid : a.id = b.id := congrArg (·.1) hab
      rw [hid]
  have hauthors := congrArg (Option.map (fun m : ℕ × (AccountName × Bytes) × TimePointSec => m.2.1.1))
    hfound
  rw [Option.map_map, Option.map_map] at hauthors
  exact hauthors

/-- The author of the comment that a vote names. -/
theorem authorOf_found (hids : (s.chain.comments.rows.map (·.id)).Nodup)
    (h : s.chain.comments.find (CommentObject.hasPermlink o.author o.permlink) = some comment) :
    authorOf s.chain comment.id = some o.author := by
  have hauthor : comment.author = o.author := by
    have hpermlink := List.find?_some (p := CommentObject.hasPermlink o.author o.permlink) h
    unfold CommentObject.hasPermlink at hpermlink
    rw [Bool.and_eq_true, decide_eq_true_eq] at hpermlink
    exact hpermlink.1
  have hmem : comment ∈ s.chain.comments.rows := List.mem_of_find?_eq_some h
  unfold authorOf Table.find
  rw [(Table.find_key (fun c : CommentObject => c.id) hids).mpr ⟨hmem, rfl⟩, Option.map_some, hauthor]

end Calls

section Votes

variable {fc : FcLib} {s t : Observed} {o : VoteOperation} {comment : CommentObject}
  {voter : AccountObject} {earlier : Option CommentVoteObject} {rshares : ℤ}

/-- What the latest version of a vote gives an account. -/
def latest (o : VoteOperation) (isCounted : Bool) (rshares : ℤ) (a : AccountName) : ℤ :=
  if isCounted && o.author = a then shifted rshares else 0

/-- Votes under other keys give what they gave. -/
theorem contribution_of_ne (hauthors : ∀ id, authorOf t.chain id = authorOf s.chain id)
    {key : ℕ × ℕ} {isCounted : Bool} (hcounted : t.counted = Function.update s.counted key isCounted)
    (a : AccountName) {v : CommentVoteObject} (hv : voteKey v ≠ key) :
    contribution t a v = contribution s a v := by
  unfold contribution
  rw [hcounted, Function.update_of_ne hv, hauthors]

/-- What the votes give after one of them was added or changed. -/
theorem total_vote (hs : Kept s)
    (h : VoteEffect o s.chain t.chain comment voter earlier rshares) {isCounted : Bool}
    (hcounted : t.counted = Function.update s.counted (comment.id, voter.id) isCounted)
    (a : AccountName) :
    total t a = total s a - (earlier.map (contribution s a)).getD 0 + latest o isCounted rshares a := by
  have hauthors := authorOf_places h.places
  have hauthor := authorOf_found hs.commentIds h.foundComment
  have hnew : ∀ v : CommentVoteObject, voteKey v = (comment.id, voter.id) → v.rshares = rshares →
      contribution t a v = latest o isCounted rshares a := by
    intro v hkey hshares
    have hcomment : v.comment = comment.id := congrArg Prod.fst hkey
    unfold contribution latest
    rw [hkey, hcounted, Function.update_self, hauthors, hcomment, hauthor, hshares]
    simp only [Option.some.injEq]
  unfold total
  cases earlier with
  | none =>
    have hadds := h.adds rfl
    obtain ⟨v, hrows, hv⟩ := hadds.rows
    have hothers : ∀ w ∈ s.chain.commentVotes.rows, contribution t a w = contribution s a w := by
      intro w hw
      refine contribution_of_ne hauthors hcounted a fun hkey => hadds.fresh ?_
      exact hkey ▸ List.mem_map_of_mem hw
    rw [hrows, List.map_append, List.map_singleton, List.sum_append, List.sum_singleton,
      List.map_congr_left hothers, hnew v (congrArg (·.2.1) hv) (congrArg (·.2.2) hv)]
    simp
  | some vote =>
    obtain ⟨before, after, v, hrows, hrows', hv⟩ := (h.changes vote rfl).rows
    have hkey : voteKey vote = (comment.id, voter.id) := ((findVote_iff hs.votes).mp h.foundVote).2
    have hvkey : voteKey v = (comment.id, voter.id) :=
      (congrArg (fun e : ℕ × (ℕ × ℕ) × ℤ => e.2.1) hv).trans hkey
    have hkeys := hs.votes.keys
    rw [hrows, List.map_append, List.map_cons, hkey] at hkeys
    have hapart := List.nodup_append'.mp hkeys
    have hbefore : ∀ w ∈ before, contribution t a w = contribution s a w := by
      intro w hw
      refine contribution_of_ne hauthors hcounted a fun hsame => ?_
      exact hapart.2.2 (hsame ▸ List.mem_map_of_mem hw) List.mem_cons_self
    have hafter : ∀ w ∈ after, contribution t a w = contribution s a w := by
      intro w hw
      refine contribution_of_ne hauthors hcounted a fun hsame => ?_
      exact (List.nodup_cons.mp hapart.2.1).1 (hsame ▸ List.mem_map_of_mem hw)
    rw [hrows, hrows', List.map_append, List.map_append, List.map_cons, List.map_cons,
      List.sum_append, List.sum_append, List.sum_cons, List.sum_cons,
      List.map_congr_left hbefore, List.map_congr_left hafter,
      hnew v hvkey (congrArg (·.2.2) hv), Option.map_some, Option.getD_some]
    omega

/-- A key without a vote was never counted. -/
theorem Kept.uncounted (hs : Kept s)
    (h : VoteEffect o s.chain t.chain comment voter none rshares) :
    s.counted (comment.id, voter.id) = false := by
  rw [Bool.eq_false_iff]
  intro hcount
  exact (h.adds rfl).fresh (hs.known _ hcount)

/-- What the call before the vote takes is what the earlier vote gives. -/
theorem taken_getD (hs : Kept s)
    (h : VoteEffect o s.chain t.chain comment voter earlier rshares)
    (hearlier : ∀ vote, earlier = some vote → s.counted (comment.id, voter.id) = true ∨
      shifted vote.rshares = 0 ∨ reputation? s.reputations o.author = none) (a : AccountName) :
    (taken (reputation? s.reputations) o.author (earlier.map (·.rshares)) a).getD 0 =
      reputationOf s.reputations a - (earlier.map (contribution s a)).getD 0 := by
  have hauthor := authorOf_found hs.commentIds h.foundComment
  unfold taken reputationOf
  by_cases ha : a = o.author
  · subst ha
    rw [Function.update_self]
    cases earlier with
    | none =>
      cases reputation? s.reputations o.author with
      | none => rfl
      | some r => rfl
    | some vote =>
      obtain ⟨hmem, hkey⟩ := (findVote_iff hs.votes).mp h.foundVote
      have hcomment : vote.comment = comment.id := congrArg Prod.fst hkey
      have hgives : contribution s o.author vote =
          if s.counted (comment.id, voter.id) = true then shifted vote.rshares else 0 := by
        unfold contribution
        rw [hkey, hcomment, hauthor, decide_eq_true rfl, Bool.and_true]
      rw [Option.map_some, Option.map_some, Option.getD_some, Option.getD_some, hgives]
      by_cases hcount : s.counted (comment.id, voter.id) = true
      · obtain ⟨name, hname, hrep⟩ := hs.present vote hmem (by rwa [hkey])
        rw [hcomment, hauthor] at hname
        obtain rfl := Option.some.inj hname
        obtain ⟨r, hr⟩ := Option.ne_none_iff_exists'.mp hrep
        rw [hr, if_pos hcount]
        rfl
      · rw [if_neg hcount]
        obtain hcount' | hzero | hnone := hearlier vote rfl
        · exact absurd hcount' hcount
        · rw [hzero]
          cases reputation? s.reputations o.author with
          | none => rfl
          | some r => rfl
        · rw [hnone]
          rfl
  · rw [Function.update_of_ne ha]
    cases earlier with
    | none => exact (Int.sub_zero _).symm
    | some vote =>
      have hkey := ((findVote_iff hs.votes).mp h.foundVote).2
      have hcomment : vote.comment = comment.id := congrArg Prod.fst hkey
      have hgives : contribution s a vote = 0 := by
        unfold contribution
        rw [hcomment, hauthor, decide_eq_false fun hsame => ha (Option.some.inj hsame).symm,
          Bool.and_false]
        rfl
      rw [Option.map_some, Option.getD_some, hgives, Int.sub_zero]

/-- What the call after the vote gives. -/
theorem given_getD (rep : AccountName → Option ℤ) (o : VoteOperation) (rshares : ℤ)
    (a : AccountName) : (given rep o rshares a).getD 0 =
      (rep a).getD 0 + latest o (counts (rep o.voter) (rep o.author) rshares) rshares a := by
  unfold given latest
  by_cases hcounts : counts (rep o.voter) (rep o.author) rshares = true
  · rw [if_pos hcounts, hcounts, Bool.true_and]
    by_cases ha : o.author = a
    · rw [ha, Function.update_self, if_pos (decide_eq_true rfl), Option.getD_some]
    · rw [Function.update_of_ne (Ne.symm ha), decide_eq_false ha]
      exact (Int.add_zero _).symm
  · rw [if_neg hcounts, Bool.eq_false_iff.mpr hcounts, Bool.false_and]
    exact (Int.add_zero _).symm

/-- A vote whose effect on the reputations is the one on what the votes give keeps what the run
keeps. -/
theorem Kept.after_vote (hs : Kept s)
    (h : VoteEffect o s.chain t.chain comment voter earlier rshares) {isCounted : Bool}
    (hcounted : t.counted = Function.update s.counted (comment.id, voter.id) isCounted)
    (hreps : RepsUnique t.reputations)
    (hstay : ∀ a, reputation? s.reputations a ≠ none → reputation? t.reputations a ≠ none)
    (hauthor : isCounted = true → reputation? t.reputations o.author ≠ none)
    (hsums : ∀ a, reputationOf t.reputations a = reputationOf s.reputations a -
      (earlier.map (contribution s a)).getD 0 + latest o isCounted rshares a) : Kept t := by
  have hauthors := authorOf_places h.places
  have hids : t.chain.comments.rows.map (·.id) = s.chain.comments.rows.map (·.id) :=
    map_eq_of_map_eq (fun m : ℕ × (AccountName × Bytes) × TimePointSec => m.1) (fun _ => rfl)
      h.places.comments
  obtain ⟨v, hv, hshares⟩ := h.found hs.votes
  obtain ⟨hmem, hkey⟩ := (findVote_iff (h.unique hs.votes)).mp hv
  -- what was there is still there, under its key
  have hold : ∀ w ∈ t.chain.commentVotes.rows, voteKey w ≠ (comment.id, voter.id) →
      w ∈ s.chain.commentVotes.rows := by
    intro w hw hne
    cases earlier with
    | none =>
      obtain ⟨x, hrows, hx⟩ := (h.adds rfl).rows
      rw [hrows] at hw
      obtain hw | hw := List.mem_append.mp hw
      · exact hw
      · rw [List.mem_singleton.mp hw] at hne
        exact absurd (congrArg (·.2.1) hx) hne
    | some vote =>
      obtain ⟨before, after, x, hrows, hrows', hx⟩ := (h.changes vote rfl).rows
      have hxkey : voteKey x = (comment.id, voter.id) :=
        (congrArg (fun e : ℕ × (ℕ × ℕ) × ℤ => e.2.1) hx).trans
          ((findVote_iff hs.votes).mp h.foundVote).2
      rw [hrows'] at hw
      rw [hrows]
      obtain hw | hw := List.mem_append.mp hw
      · exact List.mem_append_left _ hw
      · obtain rfl | hw := List.mem_cons.mp hw
        · exact absurd hxkey hne
        · exact List.mem_append_right _ (List.mem_cons_of_mem _ hw)
  have hkeys : ∀ k ∈ s.chain.commentVotes.rows.map voteKey,
      k ∈ t.chain.commentVotes.rows.map voteKey := by
    intro k hk
    cases earlier with
    | none =>
      obtain ⟨x, hrows, -⟩ := (h.adds rfl).rows
      rw [hrows, List.map_append]
      exact List.mem_append_left _ hk
    | some vote =>
      obtain ⟨before, after, x, hrows, hrows', hx⟩ := (h.changes vote rfl).rows
      have hxkey : voteKey x = voteKey vote := congrArg (fun e : ℕ × (ℕ × ℕ) × ℤ => e.2.1) hx
      rw [hrows, List.map_append, List.map_cons] at hk
      rwa [hrows', List.map_append, List.map_cons, hxkey]
  refine ⟨hids ▸ hs.commentIds, h.unique hs.votes, hreps, ?_, ?_, ?_⟩
  · intro k hk
    by_cases hsame : k = (comment.id, voter.id)
    · rw [hsame, ← hkey]
      exact List.mem_map_of_mem hmem
    · rw [hcounted, Function.update_of_ne hsame] at hk
      exact hkeys k (hs.known k hk)
  · intro w hw hcount
    rw [hauthors]
    by_cases hsame : voteKey w = (comment.id, voter.id)
    · rw [hsame, hcounted, Function.update_self] at hcount
      have hcomment : w.comment = comment.id := congrArg Prod.fst hsame
      rw [hcomment, authorOf_found hs.commentIds h.foundComment]
      exact ⟨o.author, rfl, hauthor hcount⟩
    · rw [hcounted, Function.update_of_ne hsame] at hcount
      obtain ⟨a, ha, hrep⟩ := hs.present w (hold w hw hsame) hcount
      exact ⟨a, ha, hstay a hrep⟩
  · intro a
    rw [hsums, hs.sums, total_vote hs h hcounted]

/-- A vote on a comment that is paid out changes neither reputations nor what votes give. -/
theorem Kept.vote_paid (hs : Kept s) (h : VoteEffect o s.chain t.chain comment voter earlier rshares)
    (hpaid : comment.cashoutTime = timePointSecMaximum) (ht : t = observe fc o s t.chain) :
    Kept t := by
  have hbetween : betweenCalls fc s o = s.reputations := by
    unfold betweenCalls
    rw [preVote_eq h, if_pos hpaid]
    rfl
  have hreps : t.reputations = s.reputations := by
    rw [ht]
    unfold observe
    rw [hbetween, postVote_eq hs.votes h, if_pos hpaid]
    rfl
  have hcounted : t.counted = Function.update s.counted (comment.id, voter.id)
      (s.counted (comment.id, voter.id)) := by
    rw [Function.update_eq_self, ht]
    unfold observe
    rw [record_eq hs.votes h, if_pos hpaid]
  have hauthor := authorOf_found hs.commentIds h.foundComment
  have hshares := h.paid hpaid
  refine hs.after_vote h hcounted (hreps ▸ hs.reps) (fun a ha => hreps ▸ ha) ?_ ?_
  · intro hcount
    obtain ⟨v, hv, hkey⟩ := List.mem_map.mp (hs.known _ hcount)
    obtain ⟨a, ha, hrep⟩ := hs.present v hv (by rwa [hkey])
    have hcomment : v.comment = comment.id := congrArg Prod.fst hkey
    rw [hcomment, hauthor] at ha
    obtain rfl := Option.some.inj ha
    rwa [hreps]
  · intro a
    rw [hreps]
    cases earlier with
    | none =>
      have hzero : latest o false rshares a = 0 := rfl
      rw [hs.uncounted h, hzero, Option.map_none, Option.getD_none]
      omega
    | some vote =>
      have hkey := ((findVote_iff hs.votes).mp h.foundVote).2
      have hcomment : vote.comment = comment.id := congrArg Prod.fst hkey
      have hgives : contribution s a vote =
          latest o (s.counted (comment.id, voter.id)) rshares a := by
        unfold contribution latest
        rw [hkey, hcomment, hauthor, hshares]
        simp only [Option.some.injEq, Option.map_some, Option.getD_some]
      rw [Option.map_some, Option.getD_some, hgives]
      omega

/-- The test of the range finds what fits. -/
theorem fits_iff {z : ℤ} : fits z = true ↔ Fits z := by
  unfold fits Fits
  rw [Bool.and_eq_true, decide_eq_true_eq, decide_eq_true_eq]

/-- What it means that a vote settles with the earlier one. -/
theorem settles_iff {key : ℕ × ℕ} :
    settles s o key (earlier.map (·.rshares)) rshares = true ↔
      (∀ vote, earlier = some vote → s.counted key = true ∨ shifted vote.rshares = 0 ∨
        reputation? s.reputations o.author = none) ∧
      (∀ r, reputation? s.reputations o.author = some r →
        Fits (r - shifted ((earlier.map (·.rshares)).getD 0))) ∧
      (counts (taken (reputation? s.reputations) o.author (earlier.map (·.rshares)) o.voter)
          (taken (reputation? s.reputations) o.author (earlier.map (·.rshares)) o.author)
          rshares = true →
        ∀ r, taken (reputation? s.reputations) o.author (earlier.map (·.rshares)) o.author = some r →
          Fits (r + shifted rshares)) := by
  unfold settles
  simp only [Bool.and_eq_true, Bool.or_eq_true, Option.all_eq_true, fits_iff, decide_eq_true_eq,
    Option.isNone_iff_eq_none, Bool.not_eq_true', Option.map_eq_some_iff, and_assoc, or_assoc]
  refine and_congr ?_ (and_congr Iff.rfl ?_)
  · constructor
    · intro h vote hvote
      exact h vote.rshares ⟨vote, hvote, rfl⟩
    · rintro h _ ⟨vote, hvote, rfl⟩
      exact h vote hvote
  · rw [← Bool.not_eq_true, ← imp_iff_not_or]

/-- A vote on a comment that is not paid out. -/
theorem Kept.vote_unpaid (htotal : fc.SafeTotal) (hs : Kept s)
    (h : VoteEffect o s.chain t.chain comment voter earlier rshares)
    (hunpaid : comment.cashoutTime ≠ timePointSecMaximum)
    (hsettles : settles s o (comment.id, voter.id) (earlier.map (·.rshares)) rshares = true)
    (ht : t = observe fc o s t.chain) : Kept t ∧
      ∀ a, reputationOf (betweenCalls fc s o) a =
        reputationOf s.reputations a - (earlier.map (contribution s a)).getD 0 := by
  obtain ⟨hearlier, htakes, hgives⟩ := settles_iff.mp hsettles
  obtain ⟨between, hbetween, hunique, hview⟩ := takeVote_view htotal hs.reps earlier htakes
  have hcalls : betweenCalls fc s o = between := by
    unfold betweenCalls
    rw [preVote_eq h, if_neg hunpaid, hbetween]
    rfl
  rw [← hview] at hgives
  obtain ⟨after, hafter, hunique', hview'⟩ := giveVote_view htotal hunique rshares hgives
  have hreps : t.reputations = after := by
    rw [ht]
    unfold observe
    rw [hcalls, postVote_eq hs.votes h, if_neg hunpaid, hafter]
    rfl
  have hcounted : t.counted = Function.update s.counted (comment.id, voter.id)
      (counts (reputation? between o.voter) (reputation? between o.author) rshares) := by
    rw [ht]
    unfold observe
    rw [hcalls, record_eq hs.votes h, if_neg hunpaid]
  have hremoved : ∀ a, reputationOf between a =
      reputationOf s.reputations a - (earlier.map (contribution s a)).getD 0 := by
    intro a
    unfold reputationOf
    rw [hview]
    exact taken_getD hs h hearlier a
  have hgiven : ∀ a, (given (reputation? between) o rshares) a = none → reputation? between a = none := by
    intro a hnone
    unfold given at hnone
    split at hnone
    · by_cases ha : a = o.author
      · rw [ha, Function.update_self] at hnone
        cases hnone
      · rwa [Function.update_of_ne ha] at hnone
    · exact hnone
  refine ⟨hs.after_vote h hcounted (hreps ▸ hunique') ?_ ?_ ?_, ?_⟩
  · intro a ha hnone
    rw [hreps, hview'] at hnone
    have hbefore := hgiven a hnone
    rw [hview] at hbefore
    unfold taken at hbefore
    by_cases hauthor : a = o.author
    · rw [hauthor, Function.update_self, Option.map_eq_none_iff] at hbefore
      exact ha (hauthor ▸ hbefore)
    · rw [Function.update_of_ne hauthor] at hbefore
      exact ha hbefore
  · intro hcount
    rw [hreps, hview']
    unfold given
    rw [if_pos hcount, Function.update_self]
    exact Option.some_ne_none _
  · intro a
    rw [← hremoved, hreps]
    unfold reputationOf
    rw [hview']
    exact given_getD (reputation? between) o rshares a
  · intro a
    rw [hcalls]
    exact hremoved a

end Votes

section Runs

open CommentPolls

variable {env : Env} {s : Observed} {m : Moment Observed Event} {run : List (Moment Observed Event)}

/-- What a vote of a run does. -/
theorem Step.effect {o : VoteOperation} {s t : Observed} (hm : Step env (.operation (.vote o)) s t)
    (hs : VotesUnique s.chain) : t = observe env.toFcLib o s t.chain ∧
      ∃ comment voter earlier rshares,
        VoteEffect o s.chain t.chain comment voter earlier rshares := by
  obtain ⟨hoccurs, ht⟩ := hm
  refine ⟨ht, ?_⟩
  cases hoccurs with
  | operation ctx henv _ hvalid hnull h => exact applyVote_effect hs h

/-- A step keeps what the run keeps, and a changed vote takes what it had given. -/
theorem Kept.step (hs : Kept m.before) (htotal : env.SafeTotal)
    (hm : Step env m.event m.before m.after)
    (hids : (m.after.chain.comments.rows.map (·.id)).Nodup) (hsettled : Settled m) :
    Kept m.after ∧ Removes env.toFcLib m := by
  by_cases hvote : ∃ o, m.event = .operation (.vote o)
  · obtain ⟨o, ho⟩ := hvote
    rw [ho] at hm
    obtain ⟨ht, comment, voter, earlier, rshares, heffect⟩ := Step.effect hm hs.votes
    by_cases hpaid : comment.cashoutTime = timePointSecMaximum
    · refine ⟨hs.vote_paid heffect hpaid ht, ?_⟩
      intro o' ho' c _ _ hc _ hunpaid
      obtain rfl : o' = o := by
        have hsame := ho'.symm.trans ho
        simpa using hsame
      rw [heffect.foundComment] at hc
      obtain rfl := Option.some.inj hc
      exact absurd hpaid hunpaid
    · obtain ⟨power, hpower, hshares⟩ := heffect.unpaid hpaid
      have hsettles := hsettled o ho comment voter power heffect.foundComment heffect.foundVoter hpaid
        hpower
      rw [heffect.foundVote, ← hshares] at hsettles
      obtain ⟨hkept, hremoved⟩ := hs.vote_unpaid htotal heffect hpaid hsettles ht
      refine ⟨hkept, ?_⟩
      intro o' ho' c v vote hc hv _ hvote a
      obtain rfl : o' = o := by
        have hsame := ho'.symm.trans ho
        simpa using hsame
      rw [heffect.foundComment] at hc
      rw [heffect.foundVoter] at hv
      obtain rfl := Option.some.inj hc
      obtain rfl := Option.some.inj hv
      rw [hremoved a, ← heffect.foundVote, hvote]
      rfl
  · have hleft : LeavesVotes m.before.chain m.after.chain ∧
        m.after.reputations = m.before.reputations ∧ m.after.counted = m.before.counted := by
      obtain ⟨-, hrest⟩ := hm
      revert hrest hvote
      generalize m.event = e
      intro hvote hrest
      split at hrest
      next o => exact absurd ⟨o, rfl⟩ hvote
      next => exact hrest
    refine ⟨hs.leave hids hleft.1 hleft.2.1 hleft.2.2, fun o ho => absurd ⟨o, ho⟩ hvote⟩

/-- The ids of the comments stay apart in the chain below a run. -/
theorem book_after (hexact : env.SafeExact) (hm : Step env m.event m.before m.after)
    (hbook : Book (fun _ _ => True) m.before.chain) (htime : m.before.chain.dgp.time ≠ 0) :
    Book (fun _ _ => True) m.after.chain ∧ m.after.chain.dgp.time ≠ 0 ∧
      (m.after.chain.comments.rows.map (·.id)).Nodup := by
  have hstep := step_book (m := ⟨m.before.chain, m.event, m.after.chain⟩) hexact
    (fun _ _ _ _ _ => trivial) (fun _ _ _ _ _ _ => trivial) (fun _ _ _ _ _ _ _ _ _ _ _ => trivial)
    hm.1 htime hbook
  have hlater : m.before.chain.dgp.time ≤ m.after.chain.dgp.time := hm.1.later
  have hids := hstep.pollIds
  unfold polls at hids
  rw [List.map_map] at hids
  exact ⟨hstep, fun hzero => htime (Nat.le_zero.mp (hzero ▸ hlater)), hids⟩

/-- In every run whose votes settle with the earlier ones, the reputation of each account is what
the counted votes give, and a changed vote takes exactly what it had given. -/
theorem reputations_follow_votes (hexact : env.SafeExact) (htotal : env.SafeTotal) {initSupply : ℕ}
    (h : Path (Step env) (start env initSupply) run s) (hsettled : ∀ m ∈ run, Settled m) :
    (∀ a, reputationOf s.reputations a = total s a) ∧ ∀ m ∈ run, Removes env.toFcLib m := by
  have hkept : ∀ {run' : List (Moment Observed Event)} {t : Observed},
      Path (Step env) (start env initSupply) run' t → (∀ m ∈ run', Settled m) →
        Kept t ∧ Book (fun _ _ => True) t.chain ∧ t.chain.dgp.time ≠ 0 := by
    intro run' t hpath hsettled'
    refine hpath.invariant (P := fun t => Kept t ∧ Book (fun _ _ => True) t.chain ∧
      t.chain.dgp.time ≠ 0) ⟨kept_start env initSupply, book_initGenesis env initSupply, ?_⟩ ?_
    · change wlsGenesisTime ≠ 0
      decide
    · rintro m hm hstep ⟨hs, hbook, htime⟩
      obtain ⟨hbook', htime', hids⟩ := book_after hexact hstep hbook htime
      exact ⟨(hs.step htotal hstep hids (hsettled' m hm)).1, hbook', htime'⟩
  refine ⟨(hkept h hsettled).1.sums, fun m hm => ?_⟩
  obtain ⟨earlier, later, rfl, hearlier, hstep, -⟩ := h.moment hm
  obtain ⟨hs, hbook, htime⟩ := hkept hearlier fun m' hm' =>
    hsettled m' (List.mem_append_left _ hm')
  obtain ⟨-, -, hids⟩ := book_after hexact hstep hbook htime
  exact (hs.step htotal hstep hids (hsettled m hm)).2

end Runs

section Sample

open Assets ApplyBlock ChainRun CommentParents VotingPower CommentPolls

variable {s t : Observed} {o : VoteOperation}

/-- The votes and the authors of their comments are compared. -/
def leavesVotes (s t : ChainState) : Bool :=
  t.commentVotes.rows.map entry = s.commentVotes.rows.map entry &&
    t.commentVotes.nextId = s.commentVotes.nextId &&
    s.commentVotes.rows.all fun v => authorOf t v.comment = authorOf s v.comment

/-- The test of the votes finds that they are left. -/
theorem leavesVotes_iff {s t : ChainState} : leavesVotes s t = true ↔ LeavesVotes s t := by
  unfold leavesVotes
  simp only [Bool.and_eq_true, decide_eq_true_eq, List.all_eq_true]
  exact ⟨fun ⟨⟨h, h'⟩, h''⟩ => ⟨h, h', h''⟩, fun ⟨h, h', h''⟩ => ⟨⟨h, h'⟩, h''⟩⟩

/-- The condition on a vote is computed. -/
def settledVote (s : Observed) (o : VoteOperation) : Bool :=
  (s.chain.comments.find (CommentObject.hasPermlink o.author o.permlink)).all fun comment =>
    (s.chain.accounts.find (named o.voter)).all fun voter =>
      (votePower o voter s.chain.dgp).toOption.all fun power =>
        settles s o (comment.id, voter.id)
          ((findVote s.chain comment.id voter.id).map (·.rshares))
          (signedShares o.weight power.absRshares)

/-- The test of a vote finds it settled. -/
theorem settled_of (h : settledVote s o = true) : Settled ⟨s, .operation (.vote o), t⟩ := by
  intro o' ho comment voter power hcomment hvoter _ hpower
  obtain rfl : o' = o := by simpa using ho.symm
  have hcomment : s.chain.comments.find (CommentObject.hasPermlink o'.author o'.permlink) =
      some comment := hcomment
  have hvoter : s.chain.accounts.find (named o'.voter) = some voter := hvoter
  have hpower : votePower o' voter s.chain.dgp = .ok power := hpower
  unfold settledVote at h
  rw [hcomment, Option.all_some, hvoter, Option.all_some, hpower] at h
  exact h

/-- An event that is no vote is no condition. -/
theorem settled_of_ne {e : Event} (he : ∀ o, e ≠ .operation (.vote o)) : Settled ⟨s, e, t⟩ :=
  fun o ho => absurd ho (he o)

/-- A vote is a step of the small chain. -/
theorem step_vote (h : Returns (applyOperation pollContext (.vote o)) s.chain () t.chain)
    (hvalid : (Operation.vote o).validate sampleEnv.toFcLib = .ok ()) (hnull : NotForNull (.vote o))
    (ht : t = observe sampleEnv.toFcLib o s t.chain) :
    Step sampleEnv (.operation (.vote o)) s t :=
  ⟨.operation pollContext rfl _ hvalid hnull h, ht⟩

/-- The post is voted on by a miner. -/
def minerVote (i : ℕ) (weight : ℤ) : VoteOperation :=
  ⟨initMinerName i, initMinerName 0, bytesOf "post", weight⟩

/-- A chain on which nobody has voted. -/
def unseen (s : ChainState) : Observed := ⟨s, .empty, fun _ => false⟩

/-- The chain does something else. -/
def later (s : Observed) (t : ChainState) : Observed := { s with chain := t }

/-- The plugin of the small instance sees a vote. -/
def seen (o : VoteOperation) (s : Observed) (t : ChainState) : Observed :=
  observe sampleEnv.toFcLib o s t

/-- Whether an operation is a vote. -/
def isVote : Operation → Bool
  | .vote _ => true
  | _ => false

/-- Another operation than a vote is a step of the small chain. -/
theorem step_first {op : Operation} (hop : isVote op = false) {s t : ChainState}
    (h : Returns (applyOperation pollContext op) s () t)
    (hvalid : op.validate sampleEnv.toFcLib = .ok ()) (hnull : NotForNull op)
    (hleaves : leavesVotes s t = true) :
    Step sampleEnv (.operation op) (unseen s) (unseen t) := by
  refine ⟨.operation pollContext rfl op hvalid hnull h, ?_⟩
  cases op with
  | vote o => cases hop
  | _ => exact ⟨leavesVotes_iff.mp hleaves, rfl, rfl⟩

/-- New global properties are a step of the small chain. -/
theorem step_later {s : Observed} {t : ChainState} {b : SignedBlock}
    (h : Returns (updateGlobalDynamicData pollContext b) s.chain () t)
    (hlater : s.chain.dgp.time ≤ t.dgp.time) (hleaves : leavesVotes s.chain t = true) :
    Step sampleEnv .upkeep s (later s t) :=
  ⟨.upkeep (.dynamicData pollContext b) hlater h, leavesVotes_iff.mp hleaves, rfl, rfl⟩

/-- The first miner votes for its post and then against it. -/
theorem reputations_follow_votes_self : ∃ run s,
    Path (Step sampleEnv) (start sampleEnv 1000000) run s ∧
      run.map (·.event) = [.operation powerUpThousand, .operation (.comment firstPost),
        .operation (.vote (minerVote 0 10000)), .upkeep,
        .operation (.vote (minerVote 0 (-5000)))] ∧
      (∀ a, reputationOf s.reputations a = total s a) ∧ ∀ m ∈ run, Removes sampleEnv.toFcLib m := by
  have hends : endsIn (applyOperation pollContext powerUpThousand) (initGenesis sampleEnv 1000000)
      (fun _ s₁ => leavesVotes (initGenesis sampleEnv 1000000) s₁ &&
        endsIn (applyOperation pollContext (.comment firstPost)) s₁ fun _ s₂ =>
        leavesVotes s₁ s₂ && settledVote (unseen s₂) (minerVote 0 10000) &&
        endsIn (applyOperation pollContext (.vote (minerVote 0 10000))) s₂ fun _ s₃ =>
        endsIn (updateGlobalDynamicData pollContext votedBlock) s₃ fun _ s₄ =>
        decide (s₃.dgp.time ≤ s₄.dgp.time) && leavesVotes s₃ s₄ &&
        settledVote (later (seen (minerVote 0 10000) (unseen s₂) s₃) s₄) (minerVote 0 (-5000)) &&
        endsIn (applyOperation pollContext (.vote (minerVote 0 (-5000)))) s₄ fun _ _ => true) =
      true := by
    decide +kernel
  obtain ⟨_, s₁, h₁, hends⟩ := returns_of_endsIn hends
  rw [Bool.and_eq_true] at hends
  obtain ⟨hleaves₁, hends⟩ := hends
  obtain ⟨_, s₂, h₂, hends⟩ := returns_of_endsIn hends
  simp only [Bool.and_eq_true] at hends
  obtain ⟨⟨hleaves₂, hsettled₃⟩, hends⟩ := hends
  obtain ⟨_, s₃, h₃, hends⟩ := returns_of_endsIn hends
  obtain ⟨_, s₄, h₄, hends⟩ := returns_of_endsIn hends
  simp only [Bool.and_eq_true] at hends
  obtain ⟨⟨⟨hlater, hleaves₄⟩, hsettled₅⟩, hends⟩ := hends
  obtain ⟨_, s₅, h₅, -⟩ := returns_of_endsIn hends
  have hpath : Path (Step sampleEnv) (start sampleEnv 1000000)
      [⟨start sampleEnv 1000000, .operation powerUpThousand, unseen s₁⟩,
        ⟨unseen s₁, .operation (.comment firstPost), unseen s₂⟩,
        ⟨unseen s₂, .operation (.vote (minerVote 0 10000)), seen (minerVote 0 10000) (unseen s₂) s₃⟩,
        ⟨seen (minerVote 0 10000) (unseen s₂) s₃, .upkeep,
          later (seen (minerVote 0 10000) (unseen s₂) s₃) s₄⟩,
        ⟨later (seen (minerVote 0 10000) (unseen s₂) s₃) s₄, .operation (.vote (minerVote 0 (-5000))),
          seen (minerVote 0 (-5000)) (later (seen (minerVote 0 10000) (unseen s₂) s₃) s₄) s₅⟩]
      (seen (minerVote 0 (-5000)) (later (seen (minerVote 0 10000) (unseen s₂) s₃) s₄) s₅) :=
    ⟨rfl, step_first rfl h₁ (by decide) ⟨by decide, by decide⟩ hleaves₁,
      rfl, step_first rfl h₂ (by decide +kernel) ⟨by decide, by decide⟩ hleaves₂,
      rfl, step_vote h₃ (by decide +kernel) ⟨by decide, by decide⟩ rfl,
      rfl, step_later h₄ (of_decide_eq_true hlater) hleaves₄,
      rfl, step_vote h₅ (by decide +kernel) ⟨by decide, by decide⟩ rfl, rfl⟩
  have hfollow := reputations_follow_votes sampleEnv_safeExact sampleEnv_safeTotal hpath (by
    intro m hm
    simp only [List.mem_cons, List.not_mem_nil, or_false] at hm
    rcases hm with rfl | rfl | rfl | rfl | rfl
    · exact settled_of_ne nofun
    · exact settled_of_ne nofun
    · exact settled_of hsettled₃
    · exact settled_of_ne nofun
    · exact settled_of hsettled₅)
  exact ⟨_, _, hpath, rfl, hfollow⟩

/-- An account gets a stake. -/
def fundSecondMiner : Operation :=
  .transferToVesting ⟨Evaluators.whaleshareAccount, initMinerName 1, wls 1000⟩

/-- The second miner votes against the post, which is not counted, the first one for it, and the
second one changes its vote: the author gains what the downvote had never taken. -/
theorem uncounted_vote_removed : ∃ run s,
    Path (Step sampleEnv) (start sampleEnv 1000000) run s ∧
      run.map (·.event) = [.operation powerUpThousand, .operation fundSecondMiner,
        .operation (.comment firstPost), .operation (.vote (minerVote 1 (-10000))),
        .operation (.vote (minerVote 0 10000)), .upkeep, .operation (.vote (minerVote 1 10000))] ∧
      reputationOf s.reputations (initMinerName 0) = 183 ∧ total s (initMinerName 0) = 156 := by
  have hends : endsIn (applyOperation pollContext powerUpThousand) (initGenesis sampleEnv 1000000)
      (fun _ s₁ => leavesVotes (initGenesis sampleEnv 1000000) s₁ &&
        endsIn (applyOperation pollContext fundSecondMiner) s₁ fun _ s₂ =>
        leavesVotes s₁ s₂ &&
        endsIn (applyOperation pollContext (.comment firstPost)) s₂ fun _ s₃ =>
        leavesVotes s₂ s₃ &&
        endsIn (applyOperation pollContext (.vote (minerVote 1 (-10000)))) s₃ fun _ s₄ =>
        endsIn (applyOperation pollContext (.vote (minerVote 0 10000))) s₄ fun _ s₅ =>
        endsIn (updateGlobalDynamicData pollContext votedBlock) s₅ fun _ s₆ =>
        decide (s₅.dgp.time ≤ s₆.dgp.time) && leavesVotes s₅ s₆ &&
        endsIn (applyOperation pollContext (.vote (minerVote 1 10000))) s₆ fun _ s₇ =>
        let o₅ := seen (minerVote 0 10000) (seen (minerVote 1 (-10000)) (unseen s₃) s₄) s₅
        let o₇ := seen (minerVote 1 10000) (later o₅ s₆) s₇
        decide (reputationOf o₇.reputations (initMinerName 0) = 183) &&
          decide (total o₇ (initMinerName 0) = 156)) = true := by
    decide +kernel
  obtain ⟨_, s₁, h₁, hends⟩ := returns_of_endsIn hends
  rw [Bool.and_eq_true] at hends
  obtain ⟨hleaves₁, hends⟩ := hends
  obtain ⟨_, s₂, h₂, hends⟩ := returns_of_endsIn hends
  rw [Bool.and_eq_true] at hends
  obtain ⟨hleaves₂, hends⟩ := hends
  obtain ⟨_, s₃, h₃, hends⟩ := returns_of_endsIn hends
  rw [Bool.and_eq_true] at hends
  obtain ⟨hleaves₃, hends⟩ := hends
  obtain ⟨_, s₄, h₄, hends⟩ := returns_of_endsIn hends
  obtain ⟨_, s₅, h₅, hends⟩ := returns_of_endsIn hends
  obtain ⟨_, s₆, h₆, hends⟩ := returns_of_endsIn hends
  simp only [Bool.and_eq_true] at hends
  obtain ⟨⟨hlater, hleaves₆⟩, hends⟩ := hends
  obtain ⟨_, s₇, h₇, hends⟩ := returns_of_endsIn hends
  simp only [Bool.and_eq_true, decide_eq_true_eq] at hends
  have hpath : ∀ o₄ o₅ o₆ o₇, o₄ = seen (minerVote 1 (-10000)) (unseen s₃) s₄ →
      o₅ = seen (minerVote 0 10000) o₄ s₅ → o₆ = later o₅ s₆ → o₇ = seen (minerVote 1 10000) o₆ s₇ →
      Path (Step sampleEnv) (start sampleEnv 1000000)
        [⟨start sampleEnv 1000000, .operation powerUpThousand, unseen s₁⟩,
          ⟨unseen s₁, .operation fundSecondMiner, unseen s₂⟩,
          ⟨unseen s₂, .operation (.comment firstPost), unseen s₃⟩,
          ⟨unseen s₃, .operation (.vote (minerVote 1 (-10000))), o₄⟩,
          ⟨o₄, .operation (.vote (minerVote 0 10000)), o₅⟩, ⟨o₅, .upkeep, o₆⟩,
          ⟨o₆, .operation (.vote (minerVote 1 10000)), o₇⟩] o₇ := by
    rintro _ _ _ _ rfl rfl rfl rfl
    exact ⟨rfl, step_first rfl h₁ (by decide) ⟨by decide, by decide⟩ hleaves₁,
      rfl, step_first rfl h₂ (by decide) ⟨by decide, by decide⟩ hleaves₂,
      rfl, step_first rfl h₃ (by decide +kernel) ⟨by decide, by decide⟩ hleaves₃,
      rfl, step_vote h₄ (by decide +kernel) ⟨by decide, by decide⟩ rfl,
      rfl, step_vote h₅ (by decide +kernel) ⟨by decide, by decide⟩ rfl,
      rfl, step_later h₆ (of_decide_eq_true hlater) hleaves₆,
      rfl, step_vote h₇ (by decide +kernel) ⟨by decide, by decide⟩ rfl, rfl⟩
  exact ⟨_, _, hpath _ _ _ _ rfl rfl rfl rfl, rfl, hends⟩

end Sample

end Whaleshares.ReputationRun
