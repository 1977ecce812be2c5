import Whaleshares.CommentEvaluators
import Whaleshares.Footprint

/-!
# What a vote does to the votes

Of a vote on a comment only the comment, the voter and the shares are looked at. A vote adds
one at the end or changes the shares of one in its place; which comments and accounts there
are stays as it was.
-/

namespace Whaleshares.VoteEntries

open Config Fc Protocol Objects Program Database CommentEvaluators Footprint

section Marks

/-- What a vote leaves alone of a comment. -/
def mark (c : CommentObject) : ℕ × (AccountName × Bytes) × TimePointSec :=
  (c.id, (c.author, c.permlink), c.cashoutTime)

/-- The comment and the voter of a vote. -/
def voteKey (v : CommentVoteObject) : ℕ × ℕ := (v.comment, v.voter)

/-- What is looked at of a vote. -/
def entry (v : CommentVoteObject) : ℕ × (ℕ × ℕ) × ℤ := (v.id, voteKey v, v.rshares)

/-- The same comments and accounts. -/
structure SamePlaces (s t : ChainState) : Prop where
  comments : t.comments.rows.map mark = s.comments.rows.map mark
  accounts : t.accounts.rows.map (fun a => (a.id, a.name)) = s.accounts.rows.map fun a => (a.id, a.name)

/-- The same comments, accounts and votes. -/
structure SameVotes (s t : ChainState) : Prop extends SamePlaces s t where
  votes : t.commentVotes = s.commentVotes

instance : IsPreorder ChainState SameVotes where
  refl _ := ⟨⟨rfl, rfl⟩, rfl⟩
  trans _ _ _ h h' := ⟨⟨h'.comments.trans h.comments, h'.accounts.trans h.accounts⟩,
    h'.votes.trans h.votes⟩

/-- The same places twice are the same places. -/
theorem SamePlaces.trans {s t u : ChainState} (h : SamePlaces s t) (h' : SamePlaces t u) :
    SamePlaces s u :=
  ⟨h'.comments.trans h.comments, h'.accounts.trans h.accounts⟩

/-- A change of a comment that keeps its mark keeps the votes. -/
theorem modifyComment_sameVotes {id : ℕ} {f : CommentObject → Except Exc CommentObject}
    (hf : ∀ a b, f a = .ok b → mark b = mark a) : Keeps SameVotes (modifyComment id f) :=
  replace_keeps fun _ _ hx => ⟨⟨Table.modify_map_eq hx hf, rfl⟩, rfl⟩

/-- Noting the vote at the voter keeps the votes. -/
theorem voted_sameVotes {p : AccountObject → Bool} (now : TimePointSec) (power : VotePower) :
    Keeps SameVotes (modifyAccount p fun a => .ok (voted now power a)) := by
  refine replace_keeps fun s x hx => ⟨⟨rfl, Table.modify_map_eq hx fun a b hab => ?_⟩, rfl⟩
  rw [← Except.ok.inj hab]
  rfl

end Marks

section Effects

variable {fc : FcLib} {s t : ChainState} {o : VoteOperation} {comment : CommentObject}
  {voter : AccountObject}

/-- The vote of a voter on a comment. -/
def findVote (s : ChainState) (comment voter : ℕ) : Option CommentVoteObject :=
  s.commentVotes.find fun v => v.comment = comment && v.voter = voter

/-- A vote is added. -/
structure Adds (s t : ChainState) (key : ℕ × ℕ) (rshares : ℤ) : Prop where
  places : SamePlaces s t
  fresh : key ∉ s.commentVotes.rows.map voteKey
  rows : ∃ v, t.commentVotes.rows = s.commentVotes.rows ++ [v] ∧
    entry v = (s.commentVotes.nextId, key, rshares)
  nextId : t.commentVotes.nextId = s.commentVotes.nextId + 1

/-- The shares of a vote are changed. -/
structure Changes (s t : ChainState) (vote : CommentVoteObject) (rshares : ℤ) : Prop where
  places : SamePlaces s t
  rows : ∃ before after v, s.commentVotes.rows = before ++ vote :: after ∧
    t.commentVotes.rows = before ++ v :: after ∧ entry v = (vote.id, voteKey vote, rshares)
  nextId : t.commentVotes.nextId = s.commentVotes.nextId

/-- The ids of the votes and the pairs of comments and voters differ. -/
structure VotesUnique (s : ChainState) : Prop where
  ids : (s.commentVotes.rows.map (·.id)).Nodup
  below : ∀ v ∈ s.commentVotes.rows, v.id < s.commentVotes.nextId
  keys : (s.commentVotes.rows.map voteKey).Nodup

/-- A new vote adds its entry at the end. -/
theorem createCommentVote_adds {f : ℕ → CommentVoteObject} {key : ℕ × ℕ} {rshares : ℤ} {r : Unit}
    (h : Returns (createCommentVote fun id => .ok (f id)) s r t)
    (hf : ∀ id, entry (f id) = (id, key, rshares)) : Adds s t key rshares := by
  obtain ⟨x, hx, rfl⟩ := map_eq_ok h.update
  obtain ⟨v, hv, hfree, hrows, hnext⟩ := Table.create_rows hx
  obtain rfl := Except.ok.inj hv
  have hkey : voteKey (f s.commentVotes.nextId) = key := congrArg (·.2.1) (hf _)
  refine ⟨⟨rfl, rfl⟩, fun hmem => ?_, ⟨_, hrows, hf _⟩, hnext⟩
  obtain ⟨old, hold, hsame⟩ := List.mem_map.mp hmem
  have hclash := hfree old hold
  have hpair := hkey.trans hsame.symm
  unfold voteKey at hpair
  rw [Prod.mk.injEq] at hpair
  simp [hpair.1, hpair.2] at hclash

/-- A changed vote changes its shares in its place. -/
theorem modifyCommentVote_changes {f : CommentVoteObject → CommentVoteObject}
    {vote : CommentVoteObject} {rshares : ℤ} {r : Unit} (hs : VotesUnique s)
    (hvote : vote ∈ s.commentVotes.rows)
    (h : Returns (modifyCommentVote vote.id fun cv => .ok (f cv)) s r t)
    (hf : entry (f vote) = (vote.id, voteKey vote, rshares)) : Changes s t vote rshares := by
  obtain ⟨x, hx, rfl⟩ := map_eq_ok h.update
  have hfind : s.commentVotes.find (fun v => v.id = vote.id) = some vote := by
    unfold Table.find
    exact (Table.find_key (·.id) hs.ids).mpr ⟨hvote, rfl⟩
  obtain ⟨before, v, after, hrows, hrows', hv⟩ := Table.modify_found hx hfind
  obtain rfl := Except.ok.inj hv
  exact ⟨⟨rfl, rfl⟩, ⟨before, after, _, hrows, hrows', hf⟩, (Table.modify_eq_ok hx).2⟩

/-- An added vote among steps that keep the votes is added by all of them. -/
theorem Adds.of_same {u v : ChainState} {key : ℕ × ℕ} {rshares : ℤ} (hsame : SameVotes s u)
    (h : Adds u v key rshares) (hsame' : SameVotes v t) : Adds s t key rshares where
  places := (hsame.toSamePlaces.trans h.places).trans hsame'.toSamePlaces
  fresh := hsame.votes ▸ h.fresh
  rows := by
    rw [hsame'.votes, ← hsame.votes]
    exact h.rows
  nextId := by
    rw [hsame'.votes, ← hsame.votes]
    exact h.nextId

/-- A changed vote after steps that keep the votes is changed by all of them. -/
theorem Changes.of_same {u v : ChainState} {vote : CommentVoteObject} {rshares : ℤ}
    (hsame : SameVotes s u) (h : Changes u v vote rshares) : Changes s v vote rshares where
  places := hsame.toSamePlaces.trans h.places
  rows := by
    rw [← hsame.votes]
    exact h.rows
  nextId := by
    rw [← hsame.votes]
    exact h.nextId

/-- Adding a vote keeps the mark of the comment. -/
theorem addVote_mark {rshares absRshares : ℤ} {c c' : CommentObject}
    (h : addVote fc rshares absRshares c = .ok c') : mark c' = mark c := by
  obtain ⟨_, -, h⟩ := bind_eq_ok h
  obtain ⟨_, -, h⟩ := bind_eq_ok h
  dsimp only at h
  split at h
  all_goals
    obtain ⟨_, -, h⟩ := bind_eq_ok h
    rw [← Except.ok.inj h]
    rfl

/-- Adding shares to the parents keeps their marks. -/
theorem addChildrenShares_mark {absRshares : ℤ} {c c' : CommentObject}
    (h : addChildrenShares fc absRshares c = .ok c') : mark c' = mark c := by
  obtain ⟨_, -, h⟩ := bind_eq_ok h
  rw [← Except.ok.inj h]
  rfl

/-- Changing a vote keeps the mark of the comment. -/
theorem changeCommentVote_mark {old rshares absRshares : ℤ} {c c' : CommentObject}
    (h : changeCommentVote fc old rshares absRshares c = .ok c') : mark c' = mark c := by
  obtain ⟨_, -, h⟩ := bind_eq_ok h
  obtain ⟨_, -, h⟩ := bind_eq_ok h
  obtain ⟨_, -, h⟩ := bind_eq_ok h
  rw [← Except.ok.inj h]
  rfl

/-- A new vote is added with its shares. -/
theorem castVote_adds {power : VotePower}
    (h : Returns (castVote fc o comment voter power) s () t) :
    Adds s t (comment.id, voter.id) (signedShares o.weight power.absRshares) := by
  obtain ⟨_, -, h⟩ := h.gets_bind.lift_bind
  obtain ⟨_, s₁, h₁, h⟩ := h.bind
  obtain ⟨_, s₂, h₂, h⟩ := h.bind
  obtain ⟨root, -, h⟩ := lookup_bind h
  obtain ⟨_, -, h⟩ := h.lift_bind
  obtain ⟨_, s₃, h₃, h⟩ := h.bind
  obtain ⟨_, s₄, h₄, h⟩ := h.bind
  obtain ⟨counted, -, h⟩ := lookup_bind h
  obtain ⟨weights, s₅, h₅, h⟩ := h.bind
  obtain ⟨_, s₆, h₆, h₇⟩ := h.bind
  have hbefore : SameVotes s s₅ := by
    have hlockout := (Keeps.whenever (Keeps.lift _)).rel (R := SameVotes) _ _ _ h₁
    have hvoter := (voted_sameVotes _ _).rel _ _ _ h₂
    have hcomment := (modifyComment_sameVotes fun _ _ => addVote_mark).rel _ _ _ h₃
    have hroot := (modifyComment_sameVotes fun _ _ => addChildrenShares_mark).rel _ _ _ h₄
    have hweights := (curationWeight_keeps (R := SameVotes) _ _ _ _).rel _ _ _ h₅
    exact Trans.trans hlockout (Trans.trans hvoter (Trans.trans hcomment (Trans.trans hroot hweights)))
  have hafter : SameVotes s₆ t := by
    refine (Keeps.whenever (modifyComment_sameVotes fun a b hab => ?_)).rel _ _ _ h₇
    rw [← Except.ok.inj hab]
    rfl
  exact (createCommentVote_adds h₆ fun _ => rfl).of_same hbefore hafter

/-- A changed vote stays in its place. -/
theorem changeVote_changes {power : VotePower} {vote : CommentVoteObject} (hs : VotesUnique s)
    (hvote : vote ∈ s.commentVotes.rows)
    (h : Returns (changeVote fc o comment vote power) s () t) :
    Changes s t vote (signedShares o.weight power.absRshares) := by
  obtain ⟨_, -, h⟩ := h.gets_bind.lift_bind
  obtain ⟨_, -, h⟩ := h.lift_bind
  obtain ⟨_, s₁, h₁, h⟩ := h.bind
  obtain ⟨_, s₂, h₂, h⟩ := h.bind
  obtain ⟨root, -, h⟩ := lookup_bind h
  obtain ⟨_, s₃, h₃, h⟩ := h.bind
  obtain ⟨_, s₄, h₄, h⟩ := h.bind
  obtain ⟨_, s₅, h₅, h₆⟩ := h.bind
  have hbefore : SameVotes s s₅ := by
    have hlockout := (Keeps.whenever (Keeps.lift _)).rel (R := SameVotes) _ _ _ h₁
    have hvoter := (voted_sameVotes _ _).rel _ _ _ h₂
    have hcomment := (modifyComment_sameVotes fun _ _ => changeCommentVote_mark).rel _ _ _ h₃
    have hroot := (modifyComment_sameVotes fun _ _ => addChildrenShares_mark).rel _ _ _ h₄
    have hweight : SameVotes s₄ s₅ := by
      refine (modifyComment_sameVotes fun a b hab => ?_).rel _ _ _ h₅
      rw [← Except.ok.inj hab]
      rfl
    exact Trans.trans hlockout (Trans.trans hvoter (Trans.trans hcomment (Trans.trans hroot hweight)))
  have hunique : VotesUnique s₅ := by
    refine ⟨?_, ?_, ?_⟩
    · rw [hbefore.votes]
      exact hs.ids
    · rw [hbefore.votes]
      exact hs.below
    · rw [hbefore.votes]
      exact hs.keys
  have hvote : vote ∈ s₅.commentVotes.rows := by rwa [hbefore.votes]
  exact (modifyCommentVote_changes hunique hvote h₆ rfl).of_same hbefore

/-- What a vote finds and does: with no earlier vote of the voter on the comment one is added,
else the earlier one is changed; on a comment that is paid out the shares stay as they are. -/
structure VoteEffect (o : VoteOperation) (s t : ChainState) (comment : CommentObject)
    (voter : AccountObject) (earlier : Option CommentVoteObject) (rshares : ℤ) : Prop where
  foundComment : s.comments.find (CommentObject.hasPermlink o.author o.permlink) = some comment
  foundVoter : s.accounts.find (named o.voter) = some voter
  foundVote : findVote s comment.id voter.id = earlier
  adds : earlier = none → Adds s t (comment.id, voter.id) rshares
  changes : ∀ vote, earlier = some vote → Changes s t vote rshares
  paid : comment.cashoutTime = timePointSecMaximum → rshares = (earlier.map (·.rshares)).getD 0
  unpaid : comment.cashoutTime ≠ timePointSecMaximum → ∃ power,
    votePower o voter s.dgp = .ok power ∧ rshares = signedShares o.weight power.absRshares

/-- What an operation that votes does. -/
theorem applyVote_effect (hs : VotesUnique s) (h : Returns (applyVote fc o) s () t) :
    ∃ comment voter earlier rshares, VoteEffect o s t comment voter earlier rshares := by
  obtain ⟨comment, hcomment, h⟩ := lookup_bind h
  obtain ⟨voter, hvoter, h⟩ := lookup_bind h
  obtain ⟨_, -, h⟩ := h.lift_bind
  have h := h.gets_bind
  change Returns (if comment.cashoutTime = timePointSecMaximum
    then recordVote o comment voter (findVote s comment.id voter.id)
    else countVote fc o comment voter (findVote s comment.id voter.id)) s () t at h
  cases hfind : findVote s comment.id voter.id with
  | none =>
    rw [hfind] at h
    by_cases hpaid : comment.cashoutTime = timePointSecMaximum
    · rw [if_pos hpaid] at h
      have hadds : Adds s t (comment.id, voter.id) 0 :=
        createCommentVote_adds h.gets_bind fun _ => rfl
      exact ⟨comment, voter, none, 0, hcomment, hvoter, hfind, fun _ => hadds, nofun,
        fun _ => rfl, fun hunpaid => absurd hpaid hunpaid⟩
    · rw [if_neg hpaid] at h
      obtain ⟨power, hpower, h⟩ := h.gets_bind.lift_bind
      exact ⟨comment, voter, none, _, hcomment, hvoter, hfind, fun _ => castVote_adds h, nofun,
        fun h => absurd h hpaid, fun _ => ⟨power, hpower, rfl⟩⟩
  | some vote =>
    rw [hfind] at h
    have hmem : vote ∈ s.commentVotes.rows := List.mem_of_find?_eq_some hfind
    by_cases hpaid : comment.cashoutTime = timePointSecMaximum
    · rw [if_pos hpaid] at h
      have hchanges : Changes s t vote vote.rshares :=
        modifyCommentVote_changes hs hmem h.gets_bind rfl
      refine ⟨comment, voter, some vote, _, hcomment, hvoter, hfind, nofun, ?_, fun _ => rfl,
        fun hunpaid => absurd hpaid hunpaid⟩
      rintro _ ⟨⟩
      exact hchanges
    · rw [if_neg hpaid] at h
      obtain ⟨power, hpower, h⟩ := h.gets_bind.lift_bind
      obtain ⟨_, -, h⟩ := h.lift_bind
      refine ⟨comment, voter, some vote, _, hcomment, hvoter, hfind, nofun, ?_,
        fun h => absurd h hpaid, fun _ => ⟨power, hpower, rfl⟩⟩
      rintro _ ⟨⟩
      exact changeVote_changes hs hmem h

/-- A vote keeps ids and pairs apart. -/
theorem Adds.unique {key : ℕ × ℕ} {rshares : ℤ} (h : Adds s t key rshares) (hs : VotesUnique s) :
    VotesUnique t := by
  obtain ⟨v, hrows, hv⟩ := h.rows
  have hid : v.id = s.commentVotes.nextId := congrArg (·.1) hv
  have hkey : voteKey v = key := congrArg (·.2.1) hv
  refine ⟨?_, ?_, ?_⟩
  · rw [hrows, List.map_append, List.map_singleton]
    refine List.Nodup.append hs.ids (List.nodup_singleton _) fun id hold hnew => ?_
    obtain ⟨old, hmem, rfl⟩ := List.mem_map.mp hold
    have hbelow := hs.below old hmem
    have hsame := List.mem_singleton.mp hnew
    omega
  · intro w hw
    rw [h.nextId]
    rw [hrows] at hw
    obtain hw | hw := List.mem_append.mp hw
    · exact Nat.lt_succ_of_lt (hs.below w hw)
    · rw [List.mem_singleton.mp hw, hid]
      exact Nat.lt_succ_self _
  · rw [hrows, List.map_append, List.map_singleton, hkey]
    refine List.Nodup.append hs.keys (List.nodup_singleton _) fun k hold hnew => ?_
    rw [List.mem_singleton.mp hnew] at hold
    exact h.fresh hold

/-- A changed vote keeps the votes unique. -/
theorem Changes.unique {vote : CommentVoteObject} {rshares : ℤ} (h : Changes s t vote rshares)
    (hs : VotesUnique s) : VotesUnique t := by
  obtain ⟨before, after, v, hrows, hrows', hv⟩ := h.rows
  have hid : v.id = vote.id := congrArg (·.1) hv
  have hkey : voteKey v = voteKey vote := congrArg (·.2.1) hv
  have hids : t.commentVotes.rows.map (·.id) = s.commentVotes.rows.map (·.id) := by
    rw [hrows, hrows', List.map_append, List.map_append, List.map_cons, List.map_cons, hid]
  refine ⟨hids ▸ hs.ids, ?_, ?_⟩
  · intro w hw
    have hmem : w.id ∈ s.commentVotes.rows.map (·.id) := hids ▸ List.mem_map_of_mem hw
    obtain ⟨old, hold, hsame⟩ := List.mem_map.mp hmem
    rw [h.nextId, ← hsame]
    exact hs.below old hold
  · have hkeys : t.commentVotes.rows.map voteKey = s.commentVotes.rows.map voteKey := by
      rw [hrows, hrows', List.map_append, List.map_append, List.map_cons, List.map_cons, hkey]
    exact hkeys ▸ hs.keys

/-- The effect of a vote keeps the votes unique. -/
theorem VoteEffect.unique {earlier : Option CommentVoteObject} {rshares : ℤ}
    (h : VoteEffect o s t comment voter earlier rshares) (hs : VotesUnique s) : VotesUnique t := by
  cases earlier with
  | none => exact (h.adds rfl).unique hs
  | some vote => exact (h.changes vote rfl).unique hs

/-- The effect of a vote keeps the places. -/
theorem VoteEffect.places {earlier : Option CommentVoteObject} {rshares : ℤ}
    (h : VoteEffect o s t comment voter earlier rshares) : SamePlaces s t := by
  cases earlier with
  | none => exact (h.adds rfl).places
  | some vote => exact (h.changes vote rfl).places

/-- The comment is found again, as open or closed as before. -/
theorem SamePlaces.findComment {author : AccountName} {permlink : Bytes} (h : SamePlaces s t)
    (hfind : s.comments.find (CommentObject.hasPermlink author permlink) = some comment) :
    ∃ c, t.comments.find (CommentObject.hasPermlink author permlink) = some c ∧
      c.id = comment.id ∧ c.cashoutTime = comment.cashoutTime := by
  have hsame : ∀ a b : CommentObject, mark a = mark b →
      CommentObject.hasPermlink author permlink a = CommentObject.hasPermlink author permlink b := by
    intro a b hab
    have hpair := congrArg (·.2.1) hab
    simp only [mark, Prod.mk.injEq] at hpair
    unfold CommentObject.hasPermlink
    rw [hpair.1, hpair.2]
  have hfound := Table.find_map_congr h.comments hsame
  unfold Table.find at hfind ⊢
  rw [hfind, Option.map_some, Option.map_eq_some_iff] at hfound
  obtain ⟨c, hc, hmark⟩ := hfound
  exact ⟨c, hc, congrArg (·.1) hmark, congrArg (·.2.2) hmark⟩

/-- The account is found again. -/
theorem SamePlaces.findAccount {name : AccountName} (h : SamePlaces s t)
    (hfind : s.accounts.find (named name) = some voter) :
    ∃ a, t.accounts.find (named name) = some a ∧ a.id = voter.id := by
  have hsame : ∀ a b : AccountObject, (a.id, a.name) = (b.id, b.name) →
      named name a = named name b := by
    intro a b hab
    unfold named
    rw [(Prod.mk.inj hab).2]
  have hfound := Table.find_map_congr h.accounts hsame
  unfold Table.find at hfind ⊢
  rw [hfind, Option.map_some, Option.map_eq_some_iff] at hfound
  obtain ⟨a, ha, hmark⟩ := hfound
  exact ⟨a, ha, (Prod.mk.inj hmark).1⟩

/-- A vote is found by its comment and its voter. -/
theorem findVote_iff (hs : VotesUnique s) {c a : ℕ} {v : CommentVoteObject} :
    findVote s c a = some v ↔ v ∈ s.commentVotes.rows ∧ voteKey v = (c, a) := by
  have hpred : (fun v : CommentVoteObject => decide (v.comment = c) && decide (v.voter = a)) =
      fun v => decide (voteKey v = (c, a)) := by
    funext v
    unfold voteKey
    simp only [Prod.mk.injEq, Bool.decide_and]
  unfold findVote Table.find
  rw [hpred]
  exact Table.find_key voteKey hs.keys

/-- After a vote there is one with its shares. -/
theorem VoteEffect.found {earlier : Option CommentVoteObject} {rshares : ℤ}
    (h : VoteEffect o s t comment voter earlier rshares) (hs : VotesUnique s) :
    ∃ v, findVote t comment.id voter.id = some v ∧ v.rshares = rshares := by
  have ht := h.unique hs
  cases earlier with
  | none =>
    obtain ⟨v, hrows, hv⟩ := (h.adds rfl).rows
    refine ⟨v, (findVote_iff ht).mpr ⟨?_, congrArg (·.2.1) hv⟩, congrArg (·.2.2) hv⟩
    rw [hrows]
    exact List.mem_append_right _ (List.mem_singleton_self v)
  | some vote =>
    obtain ⟨before, after, v, -, hrows, hv⟩ := (h.changes vote rfl).rows
    have hkey : voteKey v = voteKey vote := congrArg (·.2.1) hv
    refine ⟨v, (findVote_iff ht).mpr ⟨?_, ?_⟩, congrArg (·.2.2) hv⟩
    · rw [hrows]
      exact List.mem_append_right _ List.mem_cons_self
    · rw [hkey]
      exact ((findVote_iff hs).mp h.foundVote).2

end Effects

end Whaleshares.VoteEntries
