import Whaleshares.ApproxSqrt
import Whaleshares.SignedTally
import Whaleshares.VotingPower

/-!
# What the votes on a comment add up to

A comment keeps running totals of its votes: the sum of their shares, how many are positive and
how many negative, the positive shares that were ever added, and the weights of curation. The
totals follow every new and every changed vote until the comment is paid out. Only the
positive shares do not: a vote that is changed leaves them as they are, so they can fall behind
the votes once a vote is changed to more positive shares.
-/

namespace Whaleshares.CommentPolls

open Config Fc Assets Protocol Objects Program Database Rewards CommentEvaluators ApplyBlock
  Genesis
  Footprint Sidelines LabelledRun Timeline SlotClock VestingLedger SignedTally
  ApproxSqrt

section Tallies

/-- What counts of a vote on a comment. -/
structure Ballot where
  id : ℕ
  voter : ℕ
  comment : ℕ
  weight : ℕ
  rshares : ℤ

/-- The ballot of a vote. -/
def ballot (v : CommentVoteObject) : Ballot := ⟨v.id, v.voter, v.comment, v.weight, v.rshares⟩

/-- The polls of the comments. -/
def polls (s : ChainState) : List Poll := s.comments.rows.map poll

/-- The ballots. -/
def ballots (s : ChainState) : List Ballot := s.commentVotes.rows.map ballot

/-- The ballots on a comment. -/
def ballotsOn (ballots : List Ballot) (comment : ℕ) : List Ballot :=
  ballots.filter fun b => b.comment = comment

/-- The comment has not been paid out: it has a time of payout or was never paid. -/
def Unpaid (p : Poll) : Prop := p.cashoutTime ≠ timePointSecMaximum ∨ p.lastPayout = 0

/-- The totals are those of the ballots. -/
structure Tallied (p : Poll) (ballots : List Ballot) : Prop where
  net : p.netRshares = (ballots.map (·.rshares)).sum
  votes : p.netVotes = .ofInt (score (ballots.map (·.rshares)))
  weights : Backed approxSqrt p.voteRshares.toNat p.totalVoteWeight (ballots.map (·.weight))
  stake : 0 ≤ p.voteRshares
  word : p.voteRshares < 2 ^ 63

/-- The positive shares of the ballots are among those that were added. -/
def Covered (p : Poll) (ballots : List Ballot) : Prop :=
  support (ballots.map (·.rshares)) ≤ p.voteRshares

/-- What a new vote does to the poll of its comment. -/
structure Cast (p : Poll) (b : Ballot) (p' : Poll) : Prop where
  cashoutTime : p'.cashoutTime = p.cashoutTime
  lastPayout : p'.lastPayout = p.lastPayout
  net : p'.netRshares = p.netRshares + b.rshares
  votes : p'.netVotes = p.netVotes + .ofInt b.rshares.sign
  stake : p'.voteRshares = p.voteRshares + max b.rshares 0
  word : 0 < b.rshares → p'.voteRshares < 2 ^ 63
  weight : (b.weight = 0 ∧ p'.totalVoteWeight = p.totalVoteWeight) ∨
    ∃ growth, growth = (approxSqrt (uint128 p'.voteRshares) +
      (2 ^ 64 - approxSqrt (uint128 p.voteRshares))) % 2 ^ 64 ∧
      b.weight ≤ growth ∧ p'.totalVoteWeight = (p.totalVoteWeight + growth) % 2 ^ 64

/-- What a changed vote does to the poll of its comment. -/
structure Change (p : Poll) (old new : Ballot) (p' : Poll) : Prop where
  cashoutTime : p'.cashoutTime = p.cashoutTime
  lastPayout : p'.lastPayout = p.lastPayout
  net : p'.netRshares = p.netRshares - old.rshares + new.rshares
  votes : p'.netVotes = p.netVotes + .ofInt (new.rshares.sign - old.rshares.sign)
  stake : p'.voteRshares = p.voteRshares
  total : p'.totalVoteWeight = (p.totalVoteWeight + (2 ^ 64 - old.weight)) % 2 ^ 64
  weight : new.weight = 0

variable {p p' : Poll} {b old new : Ballot} {bs before after : List Ballot}

/-- A number of a 64-bit type that is not negative is itself in 128 bits. -/
theorem uint128_of_nonneg {v : ℤ} (h : 0 ≤ v) (hword : v < 2 ^ 63) : uint128 v = v.toNat := by
  unfold uint128 uint128Bound
  rw [Int.emod_eq_of_lt h (hword.trans (by norm_num))]

/-- The root of what 63 bits hold. -/
theorem approxSqrt_stake_mono {v w : ℤ} (hle : v ≤ w) (hw : w < 2 ^ 63) :
    approxSqrt v.toNat ≤ approxSqrt w.toNat := by
  refine approxSqrt_mono (Int.toNat_le_toNat hle) ?_
  have hword : w.toNat < 2 ^ 63 := by omega
  exact hword.trans (by norm_num)

/-- The root of a stake fits into 64 bits. -/
theorem approxSqrt_stake_lt {v : ℤ} (hv : v < 2 ^ 63) : approxSqrt v.toNat < 2 ^ 64 := by
  have hroot := approxSqrt_le_rootOfPower (x := v.toNat) (n := 63) (by omega) (by decide)
  exact hroot.trans_lt (by norm_num [rootOfPower])

/-- A new vote keeps the totals those of the ballots. -/
theorem Tallied.cast (h : Tallied p bs) (hcast : Cast p b p') : Tallied p' (bs ++ [b]) := by
  have hstake := h.stake
  have hle : p.voteRshares ≤ p'.voteRshares := by
    rw [hcast.stake]
    omega
  have hword : p'.voteRshares < 2 ^ 63 := by
    by_cases hpos : 0 < b.rshares
    · exact hcast.word hpos
    · rw [hcast.stake, max_eq_right (by omega), Int.add_zero]
      exact h.word
  have hmono := approxSqrt_stake_mono hle hword
  refine ⟨?_, ?_, ?_, hstake.trans hle, hword⟩
  · rw [hcast.net, h.net, List.map_append, List.sum_append, List.map_singleton, List.sum_singleton]
  · rw [hcast.votes, h.votes, List.map_append, List.map_singleton, score_concat, Int32.ofInt_add]
  · rw [List.map_append, List.map_singleton]
    rcases hcast.weight with ⟨hzero, htotal⟩ | ⟨growth, hgrowth, hweight, htotal⟩
    · rw [hzero, htotal]
      exact h.weights.sit hmono
    · have hbounded := h.weights.bounded
      rw [uint128_of_nonneg hstake h.word,
        uint128_of_nonneg (hstake.trans hle) hword] at hgrowth
      have hfits := approxSqrt_stake_lt hword
      have hexact : growth = approxSqrt p'.voteRshares.toNat - approxSqrt p.voteRshares.toNat := by
        omega
      rw [hexact] at hweight
      have hsum : p'.totalVoteWeight = p.totalVoteWeight +
          (approxSqrt p'.voteRshares.toNat - approxSqrt p.voteRshares.toNat) := by
        omega
      rw [hsum]
      exact h.weights.join hmono hweight

/-- A new vote keeps the positive shares covered. -/
theorem Covered.cast (h : Covered p bs) (hcast : Cast p b p') : Covered p' (bs ++ [b]) := by
  unfold Covered at *
  rw [List.map_append, List.map_singleton, support_concat, hcast.stake]
  omega

/-- A changed vote keeps the totals those of the ballots. -/
theorem Tallied.change (h : Tallied p (before ++ old :: after)) (hchange : Change p old new p') :
    Tallied p' (before ++ new :: after) := by
  have hweights := h.weights
  have hnet := h.net
  have hvotes := h.votes
  simp only [List.map_append, List.map_cons] at hweights hnet hvotes
  have hle : old.weight ≤ p.totalVoteWeight :=
    hweights.le_total (List.mem_append_right _ List.mem_cons_self)
  refine ⟨?_, ?_, ?_, ?_, ?_⟩
  · rw [hchange.net, hnet]
    simp only [List.map_append, List.map_cons]
    rw [sum_replace old.rshares new.rshares]
    omega
  · rw [hchange.votes, hvotes]
    simp only [List.map_append, List.map_cons]
    rw [← Int32.ofInt_add, ← score_replace]
  · have hbounded := hweights.bounded
    have hfits := approxSqrt_stake_lt h.word
    have htotal : p'.totalVoteWeight = p.totalVoteWeight - old.weight := by
      rw [hchange.total]
      omega
    rw [htotal, hchange.stake]
    simp only [List.map_append, List.map_cons, hchange.weight]
    exact hweights.leave
  · rw [hchange.stake]
    exact h.stake
  · rw [hchange.stake]
    exact h.word

/-- A vote that is not changed to more positive shares keeps them covered. -/
theorem Covered.change (h : Covered p (before ++ old :: after)) (hchange : Change p old new p')
    (hle : new.rshares ≤ max old.rshares 0) : Covered p' (before ++ new :: after) := by
  unfold Covered at *
  rw [hchange.stake]
  simp only [List.map_append, List.map_cons] at h ⊢
  have hbound : max new.rshares 0 ≤ max old.rshares 0 := by omega
  have hsupport := support_replace (before.map (·.rshares)) (after.map (·.rshares)) hbound
  omega

end Tallies

section Books

variable {env : Env} {fc : FcLib} {Q : Poll → List Ballot → Prop} {s t : ChainState}

/-- What holds of the polls and the ballots of a state, with a property of the poll of each
comment that is not paid out and the ballots on it. -/
structure Book (Q : Poll → List Ballot → Prop) (s : ChainState) : Prop where
  pollIds : ((polls s).map (·.id)).Nodup
  pollsBelow : ∀ p ∈ polls s, p.id < s.comments.nextId
  ballotIds : ((ballots s).map (·.id)).Nodup
  ballotsBelow : ∀ b ∈ ballots s, b.id < s.commentVotes.nextId
  /-- Every ballot is on a comment that is there or was. -/
  known : ∀ b ∈ ballots s, b.comment < s.comments.nextId
  curves : ∀ rf ∈ s.rewardFunds.rows, rf.curationRewardCurve = .squareRoot
  holds : ∀ p ∈ polls s, Unpaid p → Q p (ballotsOn (ballots s) p.id)

/-- The property holds of a comment without votes. -/
def AllowsNew (Q : Poll → List Ballot → Prop) : Prop :=
  ∀ p : Poll, p.netRshares = 0 → p.voteRshares = 0 → p.totalVoteWeight = 0 → p.netVotes = 0 →
    Q p []

/-- The book depends on the polls, the ballots and the terms of the funds alone. -/
theorem Book.of_same (h : Book Q s) (hpolls : polls t = polls s)
    (hnext : t.comments.nextId = s.comments.nextId) (hballots : ballots t = ballots s)
    (hvotes : t.commentVotes.nextId = s.commentVotes.nextId)
    (hfunds : t.rewardFunds.rows.map terms = s.rewardFunds.rows.map terms) : Book Q t := by
  refine ⟨hpolls ▸ h.pollIds, ?_, hballots ▸ h.ballotIds, ?_, ?_, ?_, ?_⟩
  · rw [hpolls, hnext]
    exact h.pollsBelow
  · rw [hballots, hvotes]
    exact h.ballotsBelow
  · rw [hballots, hnext]
    exact h.known
  · intro rf hrf
    have hmem : terms rf ∈ s.rewardFunds.rows.map terms := hfunds ▸ List.mem_map_of_mem hrf
    obtain ⟨old, hold, hterms⟩ := List.mem_map.mp hmem
    have hcurve : old.curationRewardCurve = rf.curationRewardCurve :=
      congrArg (fun x => x.2.1.2.1) hterms
    rw [← hcurve]
    exact h.curves old hold
  · rw [hpolls, hballots]
    exact h.holds

/-- What the footprint leaves alone keeps the book. -/
theorem book_sideFrame (Q : Poll → List Ballot → Prop) : SideFrame (Preserves (Book Q)) where
  accounts _ _ _ _ h := h.of_same rfl rfl rfl rfl rfl
  comments _ _ hx hnext h :=
    h.of_same (map_eq_of_map_eq Prod.snd (fun _ => rfl) hx) hnext rfl rfl rfl
  accountAuthorities _ _ h := h.of_same rfl rfl rfl rfl rfl
  witnesses _ _ h := h.of_same rfl rfl rfl rfl rfl
  witnessVotes _ _ h := h.of_same rfl rfl rfl rfl rfl
  rewardFunds _ _ hx h := h.of_same rfl rfl rfl rfl hx
  transactions _ _ h := h.of_same rfl rfl rfl rfl rfl
  dgp _ _ h := h.of_same rfl rfl rfl rfl rfl
  wso _ _ h := h.of_same rfl rfl rfl rfl rfl
  hardforks _ _ h := h.of_same rfl rfl rfl rfl rfl
  blockSummaries _ _ h := h.of_same rfl rfl rfl rfl rfl

/-- The steps of the withdrawals keep the book. -/
theorem book_powerDown : AllowsPowerDown (Preserves (Book Q)) :=
  fun _ _ _ _ h => h.of_same rfl rfl rfl rfl rfl

/-- The steps of the routes keep the book. -/
theorem book_routes : AllowsRoutes (Preserves (Book Q)) where
  accounts _ _ _ _ h := h.of_same rfl rfl rfl rfl rfl
  routes _ _ h := h.of_same rfl rfl rfl rfl rfl

/-- The steps of account operations keep the book. -/
theorem book_account : AllowsAccount (Preserves (Book Q)) :=
  fun _ _ _ _ _ _ _ h => h.of_same rfl rfl rfl rfl rfl

end Books

section Discussions

variable {env : Env} {Q : Poll → List Ballot → Prop} {s t : ChainState}

/-- A change of a comment that keeps its poll. -/
theorem modifyComment_book {id : ℕ} {f : CommentObject → Except Exc CommentObject}
    (hf : ∀ a b, f a = .ok b → poll b = poll a) : Keeps (Preserves (Book Q)) (modifyComment id f) :=
  replace_keeps fun _ _ hx h =>
    h.of_same (Table.modify_map_eq hx hf) (Table.modify_eq_ok hx).2 rfl rfl rfl

/-- The climb over the parents keeps the book. -/
theorem updateAncestors_book (f : ℕ → ℕ) (now : TimePointSec) (steps : ℕ)
    (parent : CommentObject) :
    Keeps (Preserves (Book Q)) (updateAncestors f now steps parent) := by
  induction steps generalizing parent with
  | zero => exact .lift _
  | succ steps ih =>
    refine .bind (modifyComment_book fun a b h => ?_) fun _ =>
      .whenever (.bind (lookup_keeps _ _) fun next => ih next)
    rw [← Except.ok.inj h]
    rfl

/-- A comment starts with an empty poll. -/
theorem createComment_book (hnew : AllowsNew Q) {f : ℕ → Except Exc CommentObject}
    (hf : ∀ id c, f id = .ok c →
      c.id = id ∧ c.netRshares = 0 ∧ c.voteRshares = 0 ∧ c.totalVoteWeight = 0 ∧ c.netVotes = 0) :
    Keeps (Preserves (Book Q)) (createComment f) := by
  refine replace_keeps fun s x hx hs => ?_
  obtain ⟨c, hc, -, hrows, hnext⟩ := Table.create_rows hx
  obtain ⟨hid, hnet, hvotes, hweight, hnumber⟩ := hf _ _ hc
  have hpolls : polls { s with comments := x } = polls s ++ [poll c] := by
    change x.rows.map poll = _
    rw [hrows, List.map_append]
    rfl
  refine ⟨?_, ?_, hs.ballotIds, hs.ballotsBelow, ?_, hs.curves, ?_⟩
  · rw [hpolls, List.map_append]
    refine List.Nodup.append hs.pollIds (List.nodup_singleton _) ?_
    intro id hold hlast
    obtain ⟨p, hp, rfl⟩ := List.mem_map.mp hold
    have hbelow := hs.pollsBelow p hp
    have hsame : p.id = c.id := List.mem_singleton.mp hlast
    omega
  · rw [hpolls]
    intro p hp
    change p.id < x.nextId
    rcases List.mem_append.mp hp with hp | hp
    · have hbelow := hs.pollsBelow p hp
      omega
    · obtain rfl := List.mem_singleton.mp hp
      change c.id < x.nextId
      omega
  · intro b hb
    change b.comment < x.nextId
    have hknown := hs.known b hb
    omega
  · rw [hpolls]
    intro p hp hunpaid
    rcases List.mem_append.mp hp with hp | hp
    · exact hs.holds p hp hunpaid
    · obtain rfl := List.mem_singleton.mp hp
      have hnone : ballotsOn (ballots s) (poll c).id = [] := by
        refine List.filter_eq_nil_iff.mpr fun b hb => ?_
        have hknown := hs.known b hb
        have hne : b.comment ≠ (poll c).id := by
          change b.comment ≠ c.id
          omega
        simpa using hne
      change Q (poll c) (ballotsOn (ballots s) (poll c).id)
      rw [hnone]
      exact hnew (poll c) hnet hvotes hweight hnumber

/-- `comment` keeps the book, if the property holds of a comment without votes. -/
theorem applyComment_book (hnew : AllowsNew Q) (o : CommentOperation) :
    Keeps (Preserves (Book Q)) (applyComment env o) := by
  refine .bind (.lift _) fun _ => .bind (.gets _) fun found => .bind (lookup_keeps _ _) fun auth =>
    .bind (findParent_keeps o) fun parent => .bind (.lift _) fun _ => .bind (.gets _) fun now => ?_
  cases found with
  | some comment =>
    refine modifyComment_book fun a b h => ?_
    obtain ⟨_, -, h⟩ := bind_eq_ok h
    obtain ⟨_, -, h⟩ := bind_eq_ok h
    rw [← Except.ok.inj h]
    rfl
  | none =>
    refine .bind (checkNewComment_keeps o parent auth now) fun _ =>
      .bind (setAccount_aside (book_sideFrame Q) fun _ => by rfl) fun _ =>
      .bind (createComment_book hnew fun id c h => ?_) fun _ =>
      .bind (.gets _) fun comments => .forEach (fun parent => ?_) _
    · obtain ⟨_, -, h⟩ := bind_eq_ok h
      obtain ⟨_, -, h⟩ := bind_eq_ok h
      rw [← Except.ok.inj h]
      exact ⟨rfl, rfl, rfl, rfl, rfl⟩
    · exact updateAncestors_book _ now comments parent

/-- The votes on a comment are removed, and the property is left for the others. -/
theorem removeCommentVotes_book (hs : Book Q s) {id : ℕ} {u : Unit}
    (h : Returns (removeCommentVotes fun v => v.comment = id) s u t) :
    Book (fun p bs => p.id ≠ id → Q p bs) t := by
  have ht := Except.ok.inj h.update
  have hballots : ballots t = (ballots s).filter fun b => !decide (b.comment = id) := by
    unfold ballots
    rw [List.filter_map, ← ht]
    rfl
  have hsub : (ballots t).Sublist (ballots s) := hballots ▸ List.filter_sublist
  have hpolls : polls t = polls s := by rw [← ht]; rfl
  have hcomments : t.comments = s.comments := by rw [← ht]
  have hnext : t.commentVotes.nextId = s.commentVotes.nextId := by rw [← ht]; rfl
  have hfunds : t.rewardFunds = s.rewardFunds := by rw [← ht]
  refine ⟨hpolls ▸ hs.pollIds, ?_, (hsub.map _).nodup hs.ballotIds, ?_, ?_, hfunds ▸ hs.curves, ?_⟩
  · rw [hpolls, hcomments]
    exact hs.pollsBelow
  · rw [hnext]
    exact fun b hb => hs.ballotsBelow b (hsub.subset hb)
  · rw [hcomments]
    exact fun b hb => hs.known b (hsub.subset hb)
  · rw [hpolls]
    intro p hp hunpaid hne
    have hsame : ballotsOn (ballots t) p.id = ballotsOn (ballots s) p.id := by
      unfold ballotsOn
      rw [hballots, List.filter_filter]
      refine List.filter_congr fun b _ => ?_
      by_cases hb : b.comment = p.id
      · simp [hb, hne]
      · simp [hb]
    rw [hsame]
    exact hs.holds p hp hunpaid

/-- Removing a comment with its votes keeps the book of the others. -/
theorem removeComment_book {id : ℕ} (hs : Book (fun p bs => p.id ≠ id → Q p bs) s) {u : Unit}
    (h : Returns (removeComment id) s u t) : Book Q t := by
  have ht := Except.ok.inj h.update
  have hpolls : polls t = (polls s).filter fun p => !decide (p.id = id) := by
    unfold polls
    rw [List.filter_map, ← ht]
    rfl
  have hsub : (polls t).Sublist (polls s) := hpolls ▸ List.filter_sublist
  have hnext : t.comments.nextId = s.comments.nextId := by rw [← ht]; rfl
  have hvotes : t.commentVotes = s.commentVotes := by rw [← ht]
  have hballots : ballots t = ballots s := by rw [← ht]; rfl
  have hfunds : t.rewardFunds = s.rewardFunds := by rw [← ht]
  refine ⟨(hsub.map _).nodup hs.pollIds, ?_, hballots ▸ hs.ballotIds, ?_, ?_, hfunds ▸ hs.curves,
    ?_⟩
  · rw [hnext]
    exact fun p hp => hs.pollsBelow p (hsub.subset hp)
  · rw [hballots, hvotes]
    exact hs.ballotsBelow
  · rw [hballots, hnext]
    exact hs.known
  · rw [hballots]
    intro p hp hunpaid
    rw [hpolls] at hp
    obtain ⟨hold, hne⟩ := List.mem_filter.mp hp
    exact hs.holds p hold hunpaid (by simpa using hne)

/-- `delete_comment` keeps the book. -/
theorem applyDeleteComment_book (o : DeleteCommentOperation) :
    Keeps (Preserves (Book Q)) (applyDeleteComment o) := by
  constructor
  intro s u t h hs
  obtain ⟨comment, -, h⟩ := lookup_bind h
  obtain ⟨_, -, h⟩ := h.lift_bind
  obtain ⟨_, -, h⟩ := h.lift_bind
  obtain ⟨_, -, h⟩ := h.lift_bind
  obtain ⟨_, v, hv, h⟩ := h.bind
  obtain ⟨_, w, hw, h⟩ := h.bind
  have hancestors : Keeps (Preserves (Book fun p bs => p.id ≠ comment.id → Q p bs))
      (whenever (comment.parentAuthor ≠ .empty) (discountAncestors comment)) :=
    .whenever (.bind (lookup_keeps _ _) fun parent => .bind (.gets _) fun now =>
      .bind (.gets _) fun comments => updateAncestors_book _ now comments parent)
  exact removeComment_book (hancestors.rel _ _ _ hw (removeCommentVotes_book hs hv)) h

end Discussions

section Payouts

variable {fc : FcLib} {Q : Poll → List Ballot → Prop} {s t : ChainState}

/-- The rows of a table of comments, one of which is changed. -/
theorem modifyComment_polls {id : ℕ} {f : CommentObject → Except Exc CommentObject} {u : Unit}
    (h : Returns (modifyComment id f) s u t) (hids : ((polls s).map (·.id)).Nodup)
    (hf : ∀ a b, f a = .ok b → b.id = a.id) :
    ∃ a b, a ∈ s.comments.rows ∧ a.id = id ∧ f a = .ok b ∧
      polls t = Table.amend Poll.id (poll b) (polls s) ∧
      ∃ x : Table CommentObject, x.nextId = s.comments.nextId ∧ t = { s with comments := x } := by
  obtain ⟨x, hx, rfl⟩ := map_eq_ok h.update
  have hkeys : (s.comments.rows.map (·.id)).Nodup := by
    unfold polls at hids
    rwa [List.map_map] at hids
  obtain ⟨a, b, -, ha, hid, hab, hrows, hnext⟩ := Table.modify_amend (·.id) hx hkeys hf
  refine ⟨a, b, ha, by simpa using hid, hab, ?_, x, hnext, rfl⟩
  change x.rows.map poll = _
  unfold polls
  rw [hrows]
  unfold Table.amend
  rw [List.map_map, List.map_map]
  refine List.map_congr_left fun c _ => ?_
  by_cases hc : c.id = b.id
  · simp [hc, poll]
  · simp [hc, poll]

/-- One poll changes, and the ballots on its comment. -/
theorem Book.amend (hs : Book Q s) {p : Poll} (hp : ∃ old ∈ polls s, old.id = p.id)
    (hpolls : polls t = Table.amend Poll.id p (polls s))
    (hnext : t.comments.nextId = s.comments.nextId)
    (hids : ((ballots t).map (·.id)).Nodup)
    (hbelow : ∀ b ∈ ballots t, b.id < t.commentVotes.nextId)
    (hknown : ∀ b ∈ ballots t, b.comment < s.comments.nextId)
    (hfunds : t.rewardFunds = s.rewardFunds)
    (hother : ∀ id, id ≠ p.id → ballotsOn (ballots t) id = ballotsOn (ballots s) id)
    (hself : Unpaid p → Q p (ballotsOn (ballots t) p.id)) : Book Q t := by
  refine ⟨?_, ?_, hids, hbelow, ?_, hfunds ▸ hs.curves, ?_⟩
  · rw [hpolls, Table.amend_keys]
    exact hs.pollIds
  · rw [hpolls, hnext]
    intro q hq
    rcases Table.mem_amend hq with rfl | ⟨hold, -⟩
    · obtain ⟨old, hold, hid⟩ := hp
      rw [← hid]
      exact hs.pollsBelow old hold
    · exact hs.pollsBelow q hold
  · rw [hnext]
    exact hknown
  · rw [hpolls]
    intro q hq hunpaid
    rcases Table.mem_amend hq with rfl | ⟨hold, hne⟩
    · exact hself hunpaid
    · rw [hother q.id hne]
      exact hs.holds q hold hunpaid

/-- A comment that is paid out is not unpaid any more. -/
theorem paidOut_book {id : ℕ} {now : TimePointSec} (hnow : now ≠ 0) :
    Keeps (Preserves (Book Q)) (modifyComment id fun c => .ok (paidOut now c)) := by
  constructor
  intro s u t h hs
  obtain ⟨a, b, ha, hid, hab, hpolls, x, hnext, rfl⟩ := modifyComment_polls h hs.pollIds
    fun _ _ hab => by rw [← Except.ok.inj hab]; rfl
  refine hs.amend ⟨poll a, List.mem_map_of_mem ha, ?_⟩ hpolls hnext hs.ballotIds hs.ballotsBelow
    hs.known rfl (fun _ _ => rfl) fun hunpaid => ?_
  · rw [← Except.ok.inj hab]
    rfl
  · rw [← Except.ok.inj hab] at hunpaid
    rcases hunpaid with hopen | hnever
    · exact absurd rfl hopen
    · exact absurd hnever hnow

/-- The payout of a comment. -/
theorem cashoutCommentHelper_book {fund : RewardFundContext} {comment : CommentObject} {claimed : ℤ}
    (h : Returns (cashoutCommentHelper fc fund comment) s claimed t) (htime : s.dgp.time ≠ 0)
    (hs : Book Q s) : Book Q t := by
  obtain ⟨_, u, hu, h⟩ := h.bind
  have hclock : u.dgp.time = s.dgp.time := sameClock_time
    ((rewardComment_keeps _ sameClock_moneyFrame.toRewardFrame _ _).rel _ _ _ hu)
  have hu : Book Q u := (rewardComment_aside fc (book_sideFrame Q) _ _).rel _ _ _ hu hs
  obtain ⟨_, v, hv, h⟩ := h.gets_bind.bind
  have hv : Book Q v := (paidOut_book (by rwa [hclock])).rel _ _ _ hv hu
  refine Keeps.rel (R := Preserves (Book Q)) (.bind (lookup_keeps _ _) fun _ =>
    .bind (.whenever (.bind (.gets _) fun _ => .forEach (fun vote => ?_) _)) fun _ => .pure _)
    _ _ _ h hv
  refine replace_keeps fun s x hx hs => hs.of_same rfl rfl ?_ (Table.modify_eq_ok hx).2 rfl
  refine Table.modify_map_eq hx fun a b hab => ?_
  rw [← Except.ok.inj hab]
  rfl

/-- The loop of the payouts keeps the book. -/
theorem payDueComments_book {rounds : ℕ} {funds funds' : List RewardFundContext}
    (h : Returns (payDueComments fc rounds funds) s funds' t) (htime : s.dgp.time ≠ 0)
    (hs : Book Q s) : Book Q t := by
  induction rounds generalizing funds s with
  | zero =>
    obtain ⟨current, u, hu, h⟩ := h.bind
    have hsame : s = u := (dueComment_keeps (R := Eq)).rel _ _ _ hu
    rw [hsame] at hs
    cases current with
    | none =>
      rw [h.pure.2]
      exact hs
    | some comment => cases h
  | succ rounds ih =>
    obtain ⟨current, u, hu, h⟩ := h.bind
    have hsame : s = u := (dueComment_keeps (R := Eq)).rel _ _ _ hu
    rw [hsame] at hs htime
    cases current with
    | none =>
      rw [h.pure.2]
      exact hs
    | some comment =>
      obtain ⟨rf, -, h⟩ := lookup_bind h
      obtain ⟨fund, -, h⟩ := h.lift_bind
      obtain ⟨claimed, v, hv, h⟩ := h.bind
      obtain ⟨awarded, -, h⟩ := h.lift_bind
      have hclock : v.dgp.time = u.dgp.time := sameClock_time
        ((cashoutCommentHelper_keeps _ sameClock_moneyFrame.toRewardFrame _ _).rel _ _ _ hv)
      exact ih h (by rwa [hclock]) (cashoutCommentHelper_book hv htime hs)

/-- The payouts of a block keep the book. -/
theorem processCommentCashout_book (h : Returns (processCommentCashout fc) s () t)
    (htime : s.dgp.time ≠ 0) (hs : Book Q s) : Book Q t := by
  obtain ⟨_, u, hu, h⟩ := h.gets_bind.gets_bind.bind
  have hclock : u.dgp.time = s.dgp.time := sameClock_time
    ((decayFunds_keeps sameClock_moneyFrame.toRewardFrame _ _).rel _ _ _ hu)
  have hu : Book Q u := (decayFunds_aside (book_sideFrame Q) _ _).rel _ _ _ hu hs
  obtain ⟨_, v, hv, h⟩ := h.gets_bind.bind
  have hsame : u = v := (addClaims_keeps (R := Eq) _ _).rel _ _ _ hv
  rw [← hsame] at h
  obtain ⟨_, w, hw, h⟩ := h.bind
  have hw : Book Q w := payDueComments_book hw (by rwa [hclock]) hu
  exact (writeFunds_aside fc (book_sideFrame Q) _ _).rel _ _ _ h hw

end Payouts

section Votes

variable {fc : FcLib} {Q : Poll → List Ballot → Prop} {s t : ChainState} {p p' : Poll}
  {b old new : Ballot}

/-- A state with one ballot more, and one changed poll. -/
structure CastsBallot (s t : ChainState) (p : Poll) (b : Ballot) : Prop where
  polls : polls t = Table.amend Poll.id p (polls s)
  nextId : t.comments.nextId = s.comments.nextId
  ballots : ballots t = ballots s ++ [b]
  ballotId : b.id = s.commentVotes.nextId
  votesNextId : t.commentVotes.nextId = s.commentVotes.nextId + 1
  comment : b.comment = p.id
  funds : t.rewardFunds = s.rewardFunds

/-- A state with another ballot for an old one, and one changed poll. -/
structure ChangesBallot (s t : ChainState) (p : Poll) (old new : Ballot) : Prop where
  polls : polls t = Table.amend Poll.id p (polls s)
  nextId : t.comments.nextId = s.comments.nextId
  ballots : ∃ before after, ballots s = before ++ old :: after ∧ ballots t = before ++ new :: after
  ballotId : new.id = old.id
  votesNextId : t.commentVotes.nextId = s.commentVotes.nextId
  oldComment : old.comment = p.id
  newComment : new.comment = p.id
  funds : t.rewardFunds = s.rewardFunds

/-- Whether a comment is unpaid depends on its two times. -/
theorem Unpaid.of_same (hcashout : p'.cashoutTime = p.cashoutTime)
    (hpayout : p'.lastPayout = p.lastPayout) (h : Unpaid p') : Unpaid p := by
  unfold Unpaid at *
  rwa [hcashout, hpayout] at h

/-- A new ballot keeps the book, if it keeps the property of its poll. -/
theorem Book.cast (hs : Book Q s) (hp : p ∈ polls s) (hid : p'.id = p.id)
    (h : CastsBallot s t p' b) (hcast : Cast p b p')
    (hQ : ∀ bs, Q p bs → Q p' (bs ++ [b])) : Book Q t := by
  have hfresh : b.id ∉ (ballots s).map (·.id) := by
    intro hmem
    obtain ⟨other, hother, hsame⟩ := List.mem_map.mp hmem
    have hbelow := hs.ballotsBelow other hother
    have hbid := h.ballotId
    omega
  have hcomment : b.comment < s.comments.nextId := by
    rw [h.comment, hid]
    exact hs.pollsBelow p hp
  refine hs.amend ⟨p, hp, hid.symm⟩ h.polls h.nextId ?_ ?_ ?_ h.funds ?_ ?_
  · rw [h.ballots, List.map_append]
    refine List.Nodup.append hs.ballotIds (List.nodup_singleton _) fun id hold hlast => ?_
    rw [List.mem_singleton.mp hlast] at hold
    exact hfresh hold
  · rw [h.ballots, h.votesNextId]
    intro c hc
    rcases List.mem_append.mp hc with hc | hc
    · have hbelow := hs.ballotsBelow c hc
      omega
    · rw [List.mem_singleton.mp hc, h.ballotId]
      exact Nat.lt_succ_self _
  · rw [h.ballots]
    intro c hc
    rcases List.mem_append.mp hc with hc | hc
    · exact hs.known c hc
    · rw [List.mem_singleton.mp hc]
      exact hcomment
  · intro id hne
    unfold ballotsOn
    rw [h.ballots, List.filter_append, List.filter_cons_of_neg (by simpa [h.comment] using hne.symm),
      List.filter_nil, List.append_nil]
  · intro hunpaid
    have hon : ballotsOn (ballots t) p'.id = ballotsOn (ballots s) p.id ++ [b] := by
      unfold ballotsOn
      rw [h.ballots, List.filter_append, List.filter_cons_of_pos (by simpa using h.comment),
        List.filter_nil, hid]
    rw [hon]
    exact hQ _ (hs.holds p hp (hunpaid.of_same hcast.cashoutTime hcast.lastPayout))

/-- A changed ballot keeps the book, if it keeps the property of its poll. -/
theorem Book.change (hs : Book Q s) (hp : p ∈ polls s) (hid : p'.id = p.id)
    (h : ChangesBallot s t p' old new) (hchange : Change p old new p')
    (hQ : ∀ before after, Q p (before ++ old :: after) → Q p' (before ++ new :: after)) :
    Book Q t := by
  obtain ⟨before, after, hballots, hballots'⟩ := h.ballots
  have hids : (ballots t).map (·.id) = (ballots s).map (·.id) := by
    rw [hballots, hballots', List.map_append, List.map_append, List.map_cons, List.map_cons,
      h.ballotId]
  have hold : old ∈ ballots s := by
    rw [hballots]
    exact List.mem_append_right _ List.mem_cons_self
  have hmem : ∀ c ∈ ballots t, c = new ∨ c ∈ ballots s := by
    intro c hc
    rw [hballots'] at hc
    rw [hballots]
    simp only [List.mem_append, List.mem_cons] at hc ⊢
    tauto
  refine hs.amend ⟨p, hp, hid.symm⟩ h.polls h.nextId ?_ ?_ ?_ h.funds ?_ ?_
  · rw [hids]
    exact hs.ballotIds
  · rw [h.votesNextId]
    intro c hc
    rcases hmem c hc with rfl | hc
    · rw [h.ballotId]
      exact hs.ballotsBelow old hold
    · exact hs.ballotsBelow c hc
  · intro c hc
    rcases hmem c hc with rfl | hc
    · rw [h.newComment, ← h.oldComment]
      exact hs.known old hold
    · exact hs.known c hc
  · intro id hne
    unfold ballotsOn
    rw [hballots, hballots', List.filter_append, List.filter_append,
      List.filter_cons_of_neg (by simpa [h.newComment] using hne.symm),
      List.filter_cons_of_neg (by simpa [h.oldComment] using hne.symm)]
  · intro hunpaid
    have hholds := hs.holds p hp (hunpaid.of_same hchange.cashoutTime hchange.lastPayout)
    unfold ballotsOn at hholds ⊢
    rw [hballots, List.filter_append, ← hid,
      List.filter_cons_of_pos (by simpa using h.oldComment)] at hholds
    rw [hballots', List.filter_append, List.filter_cons_of_pos (by simpa using h.newComment)]
    exact hQ _ _ hholds

/-- The change of the number of votes is that of the sign of the shares. -/
theorem netVotesChange_eq (old new : ℤ) : netVotesChange old new = new.sign - old.sign := by
  unfold netVotesChange
  rcases Int.lt_trichotomy old 0 with ho | rfl | ho
  · rcases Int.lt_trichotomy new 0 with hn | rfl | hn
    · rw [Int.sign_eq_neg_one_of_neg ho, Int.sign_eq_neg_one_of_neg hn]
      simp [hn.le.not_gt, hn.ne, ho.le.not_gt, ho.ne]
    · rw [Int.sign_eq_neg_one_of_neg ho]
      simp [ho]
    · rw [Int.sign_eq_neg_one_of_neg ho, Int.sign_eq_one_of_pos hn]
      simp [hn, ho]
  · rcases Int.lt_trichotomy new 0 with hn | rfl | hn
    · rw [Int.sign_eq_neg_one_of_neg hn]
      simp [hn, hn.le.not_gt, hn.ne]
    · rfl
    · rw [Int.sign_eq_one_of_pos hn]
      simp [hn]
  · rcases Int.lt_trichotomy new 0 with hn | rfl | hn
    · rw [Int.sign_eq_one_of_pos ho, Int.sign_eq_neg_one_of_neg hn]
      simp [hn, ho, hn.le.not_gt, hn.ne, ho.le.not_gt, ho.ne']
    · rw [Int.sign_eq_one_of_pos ho]
      simp [ho, ho.le.not_gt]
    · rw [Int.sign_eq_one_of_pos ho, Int.sign_eq_one_of_pos hn]
      simp [hn.le.not_gt, hn.ne', ho.le.not_gt, ho.ne']

/-- What a new vote adds to the totals of its comment. -/
theorem addVote_poll (hexact : fc.SafeExact) {r absRshares : ℤ} (hr : r ≠ 0)
    {c c' : CommentObject} (h : addVote fc r absRshares c = .ok c') :
    poll c' = { poll c with
        netRshares := c.netRshares + r
        voteRshares := c.voteRshares + max r 0
        netVotes := c.netVotes + .ofInt r.sign } ∧
      (0 < r → c'.voteRshares < 2 ^ 63) := by
  obtain ⟨net, hnet, h⟩ := bind_eq_ok h
  obtain ⟨_, -, h⟩ := bind_eq_ok h
  obtain ⟨hnet, -⟩ := hexact.checked hnet
  dsimp only at h
  by_cases hpos : 0 < r
  · rw [if_pos hpos] at h
    obtain ⟨vote, hvote, h⟩ := bind_eq_ok h
    obtain ⟨hvote, -, hword⟩ := hexact.checked hvote
    rw [← Except.ok.inj h]
    refine ⟨?_, fun _ => hword⟩
    have hone : Int32.ofInt 1 = 1 := by decide
    simp only [poll, if_pos hpos, hnet, hvote, max_eq_left hpos.le, Int.sign_eq_one_of_pos hpos,
      hone]
  · have hneg : r < 0 := by omega
    rw [if_neg hpos] at h
    rw [← Except.ok.inj h]
    refine ⟨?_, fun hp => absurd hp hpos⟩
    have hone : Int32.ofInt (-1) = -1 := by decide
    simp only [poll, if_neg hpos, hnet, max_eq_right hneg.le, Int.add_zero,
      Int.sign_eq_neg_one_of_neg hneg, hone, Int32.sub_eq_add_neg]

/-- What a changed vote does to the totals of its comment. -/
theorem changeCommentVote_poll (hexact : fc.SafeExact) {old r absRshares : ℤ}
    {c c' : CommentObject} (h : changeCommentVote fc old r absRshares c = .ok c') :
    poll c' = { poll c with
      netRshares := c.netRshares - old + r
      netVotes := c.netVotes + .ofInt (r.sign - old.sign) } := by
  obtain ⟨less, hless, h⟩ := bind_eq_ok h
  obtain ⟨net, hnet, h⟩ := bind_eq_ok h
  obtain ⟨_, -, h⟩ := bind_eq_ok h
  obtain ⟨hless, -⟩ := hexact.checked hless
  obtain ⟨hnet, -⟩ := hexact.checked hnet
  rw [← Except.ok.inj h]
  simp only [poll, hnet, hless, netVotesChange_eq]

/-- The weight of a new vote is what time leaves of the growth of the curve. -/
theorem voteWeight_growth {rf : RewardFundObject} (hcurve : rf.curationRewardCurve = .squareRoot)
    {c : CommentObject} {old : ℤ} {now : TimePointSec} {w : ℕ × ℕ}
    (h : voteWeight rf c old now = .ok w) : w = (0, 0) ∨
      w.1 = (approxSqrt (uint128 c.voteRshares) + (2 ^ 64 - approxSqrt (uint128 old))) % 2 ^ 64 ∧
        w.2 ≤ w.1 := by
  unfold voteWeight at h
  split at h
  · rw [hcurve] at h
    obtain ⟨_, ho, h⟩ := bind_eq_ok h
    obtain ⟨oldWeight, holdWeight, h⟩ := bind_eq_ok h
    obtain ⟨_, hn, h⟩ := bind_eq_ok h
    obtain ⟨newWeight, hnewWeight, h⟩ := bind_eq_ok h
    obtain ⟨quotient, hquotient, h⟩ := bind_eq_ok h
    obtain ⟨weight, hweight, h⟩ := bind_eq_ok h
    have hold : oldWeight = approxSqrt (uint128 old) :=
      (toUint64_eq_ok holdWeight).1.trans (Except.ok.inj ho).symm
    have hnew : newWeight = approxSqrt (uint128 c.voteRshares) :=
      (toUint64_eq_ok hnewWeight).1.trans (Except.ok.inj hn).symm
    have hquotient := (uint128Div_eq_ok hquotient).2
    rw [← Except.ok.inj h, ← hold, ← hnew]
    refine .inr ⟨rfl, ?_⟩
    rw [(toUint64_eq_ok hweight).1, hquotient]
    refine Nat.div_le_of_le_mul ?_
    rw [Nat.mul_comm wlsReverseAuctionWindowSeconds]
    refine (Nat.mod_le _ _).trans (Nat.mul_le_mul_left _ ?_)
    exact min_le_right _ _
  · exact .inl (Except.ok.inj h).symm

/-- A vote weighs nothing, or at most what the curve grows by. -/
theorem curationWeight_growth {c : CommentObject} {old r : ℤ} {now : TimePointSec} {w : ℕ × ℕ}
    (h : Returns (curationWeight c old r now) s w t)
    (hcurves : ∀ rf ∈ s.rewardFunds.rows, rf.curationRewardCurve = .squareRoot) : t = s ∧ (w = (0, 0) ∨
      w.1 = (approxSqrt (uint128 c.voteRshares) + (2 ^ 64 - approxSqrt (uint128 old))) % 2 ^ 64 ∧
        w.2 ≤ w.1) := by
  unfold curationWeight at h
  split at h
  · obtain ⟨rf, hrf, h⟩ := lookup_bind h
    obtain ⟨hweight, rfl⟩ := h.lift
    exact ⟨rfl, voteWeight_growth (hcurves rf (List.mem_of_find?_eq_some hrf)) hweight⟩
  · obtain ⟨rfl, rfl⟩ := h.pure
    exact ⟨rfl, .inl rfl⟩

/-- A comment whose poll is known is changed. -/
theorem modifyComment_poll {id : ℕ} {f : CommentObject → Except Exc CommentObject} {u : Unit}
    (h : Returns (modifyComment id f) s u t) (hids : ((polls s).map (·.id)).Nodup)
    (hp : p ∈ polls s) (hid : p.id = id) (hf : ∀ a b, f a = .ok b → b.id = a.id) :
    ∃ a c, poll a = p ∧ f a = .ok c ∧ polls t = Table.amend Poll.id (poll c) (polls s) ∧
      (poll c).id = p.id ∧
      ∃ x : Table CommentObject, x.nextId = s.comments.nextId ∧ t = { s with comments := x } := by
  obtain ⟨a, c, ha, haid, hac, hpolls, x, hnext, ht⟩ := modifyComment_polls h hids hf
  have hsame : poll a = p := Table.eq_of_key_eq Poll.id hids (List.mem_map_of_mem ha) hp
    (haid.trans hid.symm)
  refine ⟨a, c, hsame, hac, hpolls, ?_, x, hnext, ht⟩
  rw [← hsame]
  exact hf a c hac

/-- What a new vote does. -/
theorem castVote_casts (hexact : fc.SafeExact) (hs : Book Q s) {o : VoteOperation}
    {comment : CommentObject} (hcomment : comment ∈ s.comments.rows) {voter : AccountObject}
    {power : VotePower} (h : Returns (castVote fc o comment voter power) s () t) :
    ∃ p' b, p'.id = comment.id ∧ CastsBallot s t p' b ∧ Cast (poll comment) b p' ∧
      b.rshares = signedShares o.weight power.absRshares := by
  have hp : poll comment ∈ polls s := List.mem_map_of_mem hcomment
  obtain ⟨_, hweight, h⟩ := h.gets_bind.lift_bind
  have hweight : o.weight ≠ 0 := by simpa using fcAssert_eq_ok hweight
  obtain ⟨_, v, hv, h⟩ := h.bind
  have hsame : v = s := by
    rcases hv.whenever with ⟨-, hv⟩ | ⟨-, hv⟩
    · exact hv.lift.2
    · exact hv
  rw [hsame] at h
  obtain ⟨_, u, hu, h⟩ := h.bind
  obtain ⟨accounts, -, rfl⟩ := map_eq_ok hu.update
  obtain ⟨root, -, h⟩ := lookup_bind h
  obtain ⟨_, habs, h⟩ := h.lift_bind
  have habs : 0 < power.absRshares := by simpa using fcAssert_eq_ok habs
  have hr : signedShares o.weight power.absRshares ≠ 0 := by
    unfold signedShares
    split <;> omega
  obtain ⟨_, v₁, hv₁, h⟩ := h.bind
  obtain ⟨a, c, ha, hac, hpolls₁, hid₁, x₁, hnext₁, rfl⟩ :=
    modifyComment_poll hv₁ hs.pollIds hp rfl fun a b hab => by
      have hpoll := congrArg Poll.id (addVote_poll hexact hr hab).1
      exact hpoll
  obtain ⟨_, v₂, hv₂, h⟩ := h.bind
  obtain ⟨x₂, hx₂, rfl⟩ := map_eq_ok hv₂.update
  have hpolls₂ : x₂.rows.map poll = Table.amend Poll.id (poll c) (polls s) := by
    rw [Table.modify_map_eq hx₂ fun _ _ hab =>
      (Prod.mk.inj (addChildrenShares_aside fc hab)).2]
    exact hpolls₁
  have hids₂ : ((x₂.rows.map poll).map (·.id)).Nodup := by
    rw [hpolls₂, Table.amend_keys]
    exact hs.pollIds
  have hmem₂ : poll c ∈ x₂.rows.map poll := by
    rw [hpolls₂]
    exact Table.mem_amend_self _ hp hid₁.symm
  obtain ⟨counted, hcounted, h⟩ := lookup_bind h
  have hcounted : poll counted = poll c := by
    refine Table.eq_of_key_eq Poll.id hids₂
      (List.mem_map_of_mem (List.mem_of_find?_eq_some hcounted)) hmem₂ ?_
    have hid : counted.id = comment.id := by simpa using List.find?_some hcounted
    exact hid.trans hid₁.symm
  obtain ⟨w, v₃, hw, h⟩ := h.bind
  obtain ⟨rfl, hgrowth⟩ := curationWeight_growth hw hs.curves
  obtain ⟨_, v₄, hv₄, h⟩ := h.bind
  obtain ⟨x₄, hx₄, rfl⟩ := map_eq_ok hv₄.update
  obtain ⟨vote, hvote, -, hrows₄, hnext₄⟩ := Table.create_rows hx₄
  have hballots₄ : x₄.rows.map ballot = ballots s ++ [ballot vote] := by
    rw [hrows₄, List.map_append]
    rfl
  have hnext₂ : x₂.nextId = s.comments.nextId := (Table.modify_eq_ok hx₂).2.trans hnext₁
  have hvote := (Except.ok.inj hvote).symm
  obtain ⟨hpoll, hword⟩ := addVote_poll hexact hr hac
  rw [ha] at hpoll
  have hshares : vote.rshares = signedShares o.weight power.absRshares := by
    rw [hvote]
  have hcast : ∀ total, (vote.weight = 0 ∧ total = comment.totalVoteWeight) ∨
      (∃ growth, growth = (approxSqrt (uint128 (poll c).voteRshares) +
          (2 ^ 64 - approxSqrt (uint128 comment.voteRshares))) % 2 ^ 64 ∧
        vote.weight ≤ growth ∧ total = (comment.totalVoteWeight + growth) % 2 ^ 64) →
      Cast (poll comment) (ballot vote) { poll c with totalVoteWeight := total } := by
    intro total htotal
    have hcashout := congrArg Poll.cashoutTime hpoll
    have hpayout := congrArg Poll.lastPayout hpoll
    refine ⟨hcashout, hpayout, ?_, ?_, ?_, ?_, htotal⟩
    · change (poll c).netRshares = comment.netRshares + vote.rshares
      have hnet : a.netRshares = comment.netRshares := congrArg Poll.netRshares ha
      rw [hpoll, hshares, hnet]
    · change (poll c).netVotes = comment.netVotes + .ofInt vote.rshares.sign
      have hvotes : a.netVotes = comment.netVotes := congrArg Poll.netVotes ha
      rw [hpoll, hshares, hvotes]
    · change (poll c).voteRshares = comment.voteRshares + max vote.rshares 0
      have hstake : a.voteRshares = comment.voteRshares := congrArg Poll.voteRshares ha
      rw [hpoll, hshares, hstake]
    · intro hpos
      change 0 < vote.rshares at hpos
      rw [hshares] at hpos
      exact hword hpos
  have hcomment₄ : vote.comment = comment.id := by
    rw [hvote]
  have hweights : vote.weight = w.2 := by
    rw [hvote]
  have hcounted : uint128 counted.voteRshares = uint128 (poll c).voteRshares := by
    rw [← hcounted]
    rfl
  rw [hcounted] at hgrowth
  rcases h.whenever with ⟨hne, h⟩ | ⟨heq, rfl⟩
  · have hgrowth := hgrowth.resolve_left fun hzero => hne (by rw [hzero])
    obtain ⟨a', c', ha', hac', hpolls', hid', x', hnext', rfl⟩ := modifyComment_poll
      h hids₂ hmem₂ hid₁ fun _ _ hab => by rw [← Except.ok.inj hab]
    have htotal : a'.totalVoteWeight = comment.totalVoteWeight := by
      have hsame := congrArg Poll.totalVoteWeight (ha'.trans hpoll)
      exact hsame
    have hpoll' : poll c' = { poll c with
        totalVoteWeight := (comment.totalVoteWeight + w.1) % 2 ^ 64 } := by
      rw [← Except.ok.inj hac', ← ha', ← htotal]
      rfl
    refine ⟨poll c', ballot vote, hid'.trans hid₁, ⟨?_, hnext'.trans hnext₂, hballots₄, ?_, hnext₄, ?_, rfl⟩,
      ?_, hshares⟩
    · rw [hpolls']
      change Table.amend Poll.id (poll c') (x₂.rows.map poll) = _
      rw [hpolls₂]
      exact Table.amend_amend hid'.symm
    · change vote.id = _
      rw [hvote]
    · exact hcomment₄.trans (hid'.trans hid₁).symm
    · rw [hpoll']
      exact hcast _ (.inr ⟨w.1, hgrowth.1, hweights ▸ hgrowth.2, rfl⟩)
  · have hzero : w.1 = 0 := not_not.mp heq
    have hnone : vote.weight = 0 := by
      rw [hweights]
      rcases hgrowth with hboth | ⟨-, hle⟩
      · rw [hboth]
      · omega
    have htotal : (poll c).totalVoteWeight = comment.totalVoteWeight :=
      congrArg Poll.totalVoteWeight hpoll
    refine ⟨poll c, ballot vote, hid₁, ⟨hpolls₂, hnext₂, hballots₄, ?_, hnext₄, ?_, rfl⟩, ?_, hshares⟩
    · change vote.id = _
      rw [hvote]
    · exact hcomment₄.trans hid₁.symm
    · exact hcast (poll c).totalVoteWeight (.inl ⟨hnone, htotal⟩)

/-- What a changed vote does. -/
theorem changeVote_changes (hexact : fc.SafeExact) (hs : Book Q s) {o : VoteOperation}
    {comment : CommentObject} (hcomment : comment ∈ s.comments.rows) {vote : CommentVoteObject}
    (hvote : vote ∈ s.commentVotes.rows) (hon : vote.comment = comment.id) {power : VotePower}
    (h : Returns (changeVote fc o comment vote power) s () t) :
    ∃ p' b, p'.id = comment.id ∧ ChangesBallot s t p' (ballot vote) b ∧
      Change (poll comment) (ballot vote) b p' ∧
      b.rshares = signedShares o.weight power.absRshares := by
  have hp : poll comment ∈ polls s := List.mem_map_of_mem hcomment
  obtain ⟨_, -, h⟩ := h.gets_bind.lift_bind
  obtain ⟨_, -, h⟩ := h.lift_bind
  obtain ⟨_, v, hv, h⟩ := h.bind
  have hsame : v = s := by
    rcases hv.whenever with ⟨-, hv⟩ | ⟨-, hv⟩
    · exact hv.lift.2
    · exact hv
  rw [hsame] at h
  obtain ⟨_, u, hu, h⟩ := h.bind
  obtain ⟨accounts, -, rfl⟩ := map_eq_ok hu.update
  obtain ⟨root, -, h⟩ := lookup_bind h
  obtain ⟨_, v₁, hv₁, h⟩ := h.bind
  obtain ⟨a, c, ha, hac, hpolls₁, hid₁, x₁, hnext₁, rfl⟩ :=
    modifyComment_poll hv₁ hs.pollIds hp rfl fun a b hab => by
      have hpoll := congrArg Poll.id (changeCommentVote_poll hexact hab)
      exact hpoll
  obtain ⟨_, v₂, hv₂, h⟩ := h.bind
  obtain ⟨x₂, hx₂, rfl⟩ := map_eq_ok hv₂.update
  have hpolls₂ : x₂.rows.map poll = Table.amend Poll.id (poll c) (polls s) := by
    rw [Table.modify_map_eq hx₂ fun _ _ hab =>
      (Prod.mk.inj (addChildrenShares_aside fc hab)).2]
    exact hpolls₁
  have hids₂ : ((x₂.rows.map poll).map (·.id)).Nodup := by
    rw [hpolls₂, Table.amend_keys]
    exact hs.pollIds
  have hmem₂ : poll c ∈ x₂.rows.map poll := by
    rw [hpolls₂]
    exact Table.mem_amend_self _ hp hid₁.symm
  have hnext₂ : x₂.nextId = s.comments.nextId := (Table.modify_eq_ok hx₂).2.trans hnext₁
  obtain ⟨_, v₃, hv₃, h⟩ := h.bind
  obtain ⟨a', c', ha', hac', hpolls', hid', x', hnext', rfl⟩ := modifyComment_poll
    hv₃ hids₂ hmem₂ hid₁ fun _ _ hab => by rw [← Except.ok.inj hab]
  obtain ⟨x₄, hx₄, rfl⟩ := map_eq_ok h.update
  have hkeys : (s.commentVotes.rows.map (·.id)).Nodup := by
    have hids := hs.ballotIds
    unfold ballots at hids
    rwa [List.map_map] at hids
  have hfind : s.commentVotes.find (fun v => v.id = vote.id) = some vote :=
    (Table.find_key CommentVoteObject.id hkeys).mpr ⟨hvote, rfl⟩
  obtain ⟨before, cv, after, hrows, hrows', hcv⟩ := Table.modify_found hx₄ hfind
  have hcv := (Except.ok.inj hcv).symm
  have hpoll := changeCommentVote_poll hexact hac
  have htotal : a'.totalVoteWeight = comment.totalVoteWeight := by
    have hsame := congrArg Poll.totalVoteWeight (ha'.trans (hpoll.trans (by rw [ha])))
    exact hsame
  have hpoll' : poll c' = { poll c with
      totalVoteWeight := (comment.totalVoteWeight + (2 ^ 64 - vote.weight)) % 2 ^ 64 } := by
    rw [← Except.ok.inj hac', ← ha', ← htotal]
    rfl
  refine ⟨poll c', ballot cv, hid'.trans hid₁, ⟨?_, hnext'.trans hnext₂,
    ⟨before.map ballot, after.map ballot, ?_, ?_⟩, ?_, (Table.modify_eq_ok hx₄).2, ?_, ?_, rfl⟩,
    ?_, ?_⟩
  · change x'.rows.map poll = _
    rw [show x'.rows.map poll = Table.amend Poll.id (poll c') (x₂.rows.map poll) from hpolls',
      hpolls₂]
    exact Table.amend_amend hid'.symm
  · unfold ballots
    rw [hrows, List.map_append, List.map_cons]
  · change x₄.rows.map ballot = _
    rw [hrows', List.map_append, List.map_cons]
  · rw [hcv]
    rfl
  · exact hon.trans (hid'.trans hid₁).symm
  · rw [hcv]
    exact hon.trans (hid'.trans hid₁).symm
  · have hnet : a.netRshares = comment.netRshares := congrArg Poll.netRshares ha
    have hvotes : a.netVotes = comment.netVotes := congrArg Poll.netVotes ha
    rw [ha, hnet, hvotes] at hpoll
    rw [hpoll', hpoll, hcv]
    exact ⟨rfl, rfl, rfl, rfl, rfl, rfl, rfl⟩
  · rw [hcv]
    rfl

/-- The vote changes an earlier vote on a comment that is not paid out to more positive shares. -/
def Raises (o : VoteOperation) (s : ChainState) : Prop :=
  ∃ comment voter vote power,
    s.comments.find (CommentObject.hasPermlink o.author o.permlink) = some comment ∧
    comment.cashoutTime ≠ timePointSecMaximum ∧
    s.accounts.find (named o.voter) = some voter ∧
    s.commentVotes.find (fun v => v.comment = comment.id && v.voter = voter.id) = some vote ∧
    votePower o voter s.dgp = .ok power ∧
    max vote.rshares 0 < signedShares o.weight power.absRshares

/-- A vote on a comment that is paid out is only recorded. -/
theorem recordVote_book (hs : Book Q s) {o : VoteOperation} {comment : CommentObject}
    (hcomment : comment ∈ s.comments.rows) {voter : AccountObject}
    {found : Option CommentVoteObject}
    (hcast : ∀ p b p' bs, Q p bs → Cast p b p' → Q p' (bs ++ [b]))
    (h : Returns (recordVote o comment voter found) s () t) : Book Q t := by
  have hp : poll comment ∈ polls s := List.mem_map_of_mem hcomment
  have h := h.gets_bind
  cases found with
  | none =>
    obtain ⟨x, hx, rfl⟩ := map_eq_ok h.update
    obtain ⟨vote, hvote, -, hrows, hnext⟩ := Table.create_rows hx
    have hvote := (Except.ok.inj hvote).symm
    have hsame : Cast (poll comment) (ballot vote) (poll comment) := by
      rw [hvote]
      exact ⟨rfl, rfl, (Int.add_zero _).symm, (Int32.add_zero _).symm, (Int.add_zero _).symm,
        fun hpos => absurd hpos (lt_irrefl 0), .inl ⟨rfl, rfl⟩⟩
    refine hs.cast hp rfl ⟨(Table.amend_self hs.pollIds hp).symm, rfl, ?_, ?_, hnext, ?_, rfl⟩ hsame
      fun bs hbs => hcast _ _ _ bs hbs hsame
    · change x.rows.map ballot = _
      rw [hrows, List.map_append]
      rfl
    · rw [hvote]
      rfl
    · rw [hvote]
      rfl
  | some vote =>
    obtain ⟨x, hx, rfl⟩ := map_eq_ok h.update
    refine hs.of_same rfl rfl ?_ (Table.modify_eq_ok hx).2 rfl
    refine Table.modify_map_eq hx fun a b hab => ?_
    rw [← Except.ok.inj hab]
    rfl

/-- `vote` keeps the book, if new and changed ballots keep its property. -/
theorem applyVote_book (hexact : fc.SafeExact) {o : VoteOperation} (hs : Book Q s)
    (hcast : ∀ p b p' bs, Q p bs → Cast p b p' → Q p' (bs ++ [b]))
    (hchange : ∀ p old new p' before after, Q p (before ++ old :: after) → Change p old new p' →
      (¬ Raises o s → new.rshares ≤ max old.rshares 0) → Q p' (before ++ new :: after))
    (h : Returns (applyVote fc o) s () t) : Book Q t := by
  obtain ⟨comment, hcomment, h⟩ := lookup_bind h
  obtain ⟨voter, hvoter, h⟩ := lookup_bind h
  obtain ⟨_, -, h⟩ := h.lift_bind
  have h := h.gets_bind
  have hmem : comment ∈ s.comments.rows := List.mem_of_find?_eq_some hcomment
  have hp : poll comment ∈ polls s := List.mem_map_of_mem hmem
  split at h
  next => exact recordVote_book hs hmem hcast h
  next hopen =>
    obtain ⟨power, hpower, h⟩ := h.gets_bind.lift_bind
    split at h
    next hnone =>
      obtain ⟨p', b, hid, hcasts, hcasted, -⟩ := castVote_casts hexact hs hmem h
      exact hs.cast hp hid hcasts hcasted fun bs hbs => hcast _ _ _ bs hbs hcasted
    next vote hvote =>
      obtain ⟨_, -, h⟩ := h.lift_bind
      have hon : vote.comment = comment.id ∧ vote.voter = voter.id := by
        simpa using List.find?_some hvote
      obtain ⟨p', b, hid, hchanges, hchanged, hshares⟩ := changeVote_changes hexact hs hmem
        (List.mem_of_find?_eq_some hvote) hon.1 h
      refine hs.change hp hid hchanges hchanged fun before after hq =>
        hchange _ _ _ _ before after hq hchanged fun hnot => ?_
      rw [hshares]
      by_contra hraises
      exact hnot ⟨comment, voter, vote, power, hcomment, hopen, hvoter, hvote, hpower,
        not_le.mp hraises⟩

end Votes

section Runs

variable {env : Env} {Q : Poll → List Ballot → Prop} {s t : ChainState} {steps : List Step}

/-- A step of the chain keeps the book, if new and changed ballots keep its property. -/
theorem step_book (hexact : env.SafeExact) (hnew : AllowsNew Q)
    (hcast : ∀ p b p' bs, Q p bs → Cast p b p' → Q p' (bs ++ [b])) {m : Step}
    (hchange : ∀ o, m.event = .operation (.vote o) → ∀ p old new p' before after,
      Q p (before ++ old :: after) → Change p old new p' →
      (¬ Raises o m.before → new.rshares ≤ max old.rshares 0) → Q p' (before ++ new :: after))
    (hm : Occurs env m.event m.before m.after) (htime : m.before.dgp.time ≠ 0)
    (hs : Book Q m.before) : Book Q m.after := by
  obtain ⟨s, event, t⟩ := m
  have hside := book_sideFrame Q
  cases hm with
  | operation ctx henv op hvalid hnull h =>
    cases op with
    | vote o =>
      rw [← henv] at hexact
      exact applyVote_book hexact hs hcast (hchange o rfl) h
    | comment o => exact (applyComment_book hnew o).rel _ _ _ h hs
    | deleteComment o => exact (applyDeleteComment_book o).rel _ _ _ h hs
    | withdrawVesting o => exact (applyWithdrawVesting_aside _ book_powerDown o).rel _ _ _ h hs
    | setWithdrawVestingRoute o =>
      exact (applySetWithdrawVestingRoute_aside book_routes o).rel _ _ _ h hs
    | accountCreate o => exact (applyAccountCreate_aside ctx hside book_account o).rel _ _ _ h hs
    | _ =>
      refine (applyOperation_aside ctx hside ?_).rel _ _ _ h hs
      trivial
  | withdrawal hsource hdue h =>
    exact (processVestingWithdrawal_aside _ hside book_powerDown _).rel _ _ _ h hs
  | cashout h => exact processCommentCashout_book h htime hs
  | burning h => exact (clearNullAccountBalance_aside _ hside).rel _ _ _ h hs
  | upkeep hm hlater h => exact (hm.aside hside).rel _ _ _ h hs

/-- The book of the genesis state is empty. -/
theorem book_initGenesis (env : Env) (initSupply : ℕ) : Book Q (initGenesis env initSupply) := by
  have hnone : ∀ p : Poll, p ∉ polls (initGenesis env initSupply) := fun _ => List.not_mem_nil
  have hempty : ∀ b : Ballot, b ∉ ballots (initGenesis env initSupply) := fun _ => List.not_mem_nil
  refine ⟨List.nodup_nil, fun p hp => absurd hp (hnone p), List.nodup_nil,
    fun b hb => absurd hb (hempty b), fun b hb => absurd hb (hempty b), fun rf hrf => ?_,
    fun p hp => absurd hp (hnone p)⟩
  rw [List.mem_singleton.mp hrf]
  rfl

/-- In every run from the genesis, a property of polls and ballots that votes keep holds of all
comments that are not paid out. -/
theorem history_book (hexact : env.SafeExact) {initSupply : ℕ}
    (h : History env (initGenesis env initSupply) steps t) (hnew : AllowsNew Q)
    (hcast : ∀ p b p' bs, Q p bs → Cast p b p' → Q p' (bs ++ [b]))
    (hchange : ∀ m ∈ steps, ∀ o, m.event = .operation (.vote o) → ∀ p old new p' before after,
      Q p (before ++ old :: after) → Change p old new p' →
      (¬ Raises o m.before → new.rshares ≤ max old.rshares 0) → Q p' (before ++ new :: after)) :
    Book Q t := by
  have hall : t.dgp.time ≠ 0 ∧ Book Q t := by
    refine Path.invariant (P := fun s => s.dgp.time ≠ 0 ∧ Book Q s) h
      ⟨?_, book_initGenesis env initSupply⟩ fun m hm hstep hs => ?_
    · change wlsGenesisTime ≠ 0
      decide
    · have hlater : m.before.dgp.time ≤ m.after.dgp.time := hstep.later
      have hpos : 0 < m.before.dgp.time := Nat.pos_of_ne_zero hs.1
      exact ⟨(Nat.lt_of_lt_of_le hpos hlater).ne', step_book hexact hnew hcast (hchange m hm) hstep hs.1 hs.2⟩
  exact hall.2

/-- A comment without votes has the totals of no ballots. -/
theorem allowsNew_tallied : AllowsNew Tallied := by
  intro p hnet hvotes hweight hnumber
  refine ⟨hnet, hnumber, ?_, hvotes.ge, ?_⟩
  · rw [hweight]
    exact .empty
  · rw [hvotes]
    norm_num

/-- In every run from the genesis the totals of a comment that is not paid out are those of its
votes. -/
theorem history_tallied (hexact : env.SafeExact) {initSupply : ℕ}
    (h : History env (initGenesis env initSupply) steps t) : Book Tallied t :=
  history_book hexact h allowsNew_tallied (fun _ _ _ _ hq hcast => hq.cast hcast)
    fun _ _ _ _ _ _ _ _ _ _ hq hchange _ => hq.change hchange

/-- The positive shares are covered as long as no vote raises an earlier one. -/
theorem history_covered (hexact : env.SafeExact) {initSupply : ℕ}
    (h : History env (initGenesis env initSupply) steps t)
    (hraises : ∀ m ∈ steps, ∀ o, m.event = .operation (.vote o) → ¬ Raises o m.before) :
    Book Covered t := by
  refine history_book hexact h (fun p _ hvotes _ _ => ?_) (fun _ _ _ _ hq hcast => hq.cast hcast)
    fun m hm o ho _ _ _ _ _ _ hq hchange hle => hq.change hchange (hle (hraises m hm o ho))
  exact hvotes.ge

/-- The votes on a comment. -/
def votesOn (s : ChainState) (c : CommentObject) : List CommentVoteObject :=
  s.commentVotes.rows.filter fun v => v.comment = c.id

/-- The comment has not been paid out: it has a time of payout or was never paid. -/
def NotPaidOut (c : CommentObject) : Prop :=
  c.cashoutTime ≠ timePointSecMaximum ∨ c.lastPayout = 0

/-- The totals of a comment besides the positive shares are those of its votes. -/
structure TotalsFollow (s : ChainState) (c : CommentObject) : Prop where
  /-- `net_rshares` is the sum of the shares. -/
  net : c.netRshares = ((votesOn s c).map (·.rshares)).sum
  /-- `net_votes` is the number of positive votes minus that of negative ones, in its 32 bits. -/
  word : c.netVotes = .ofInt (((votesOn s c).countP fun v => 0 < v.rshares) -
    ((votesOn s c).countP fun v => v.rshares < 0))
  /-- Fewer than `2 ^ 31` votes fit into the 32 bits. -/
  number : (votesOn s c).length < 2 ^ 31 →
    c.netVotes.toInt = ((votesOn s c).countP fun v => 0 < v.rshares) -
      ((votesOn s c).countP fun v => v.rshares < 0)
  /-- The weights fit into `total_vote_weight`. -/
  weights : ((votesOn s c).map (·.weight)).sum ≤ c.totalVoteWeight
  /-- `total_vote_weight` is at most the root of `vote_rshares`. -/
  total : c.totalVoteWeight ≤ approxSqrt (uint128 c.voteRshares)

/-- `vote_rshares` is at least the sum of the positive shares. -/
def PositivesCovered (s : ChainState) (c : CommentObject) : Prop :=
  (((votesOn s c).filter fun v => 0 < v.rshares).map (·.rshares)).sum ≤ c.voteRshares

/-- No subtraction of weights underflows in a vote: the weight of a changed vote is part of the
total, and the curve has grown when a new vote takes its weight from it. -/
def WeightsFit (fc : FcLib) (o : VoteOperation) (s : ChainState) : Prop :=
  ∀ comment voter, s.comments.find (CommentObject.hasPermlink o.author o.permlink) = some comment →
    s.accounts.find (named o.voter) = some voter → comment.cashoutTime ≠ timePointSecMaximum →
    (∀ vote, s.commentVotes.find (fun v => v.comment = comment.id && v.voter = voter.id) =
      some vote → vote.weight ≤ comment.totalVoteWeight) ∧
    ∀ power rf counted old new, votePower o voter s.dgp = .ok power →
      s.rewardFunds.find (fun rf => rf.name = postRewardFundName) = some rf →
      0 < signedShares o.weight power.absRshares →
      addVote fc (signedShares o.weight power.absRshares) power.absRshares comment = .ok counted →
      evaluateRewardCurve (uint128 comment.voteRshares) rf.curationRewardCurve
        rf.contentConstant = .ok old →
      evaluateRewardCurve (uint128 counted.voteRshares) rf.curationRewardCurve
        rf.contentConstant = .ok new → old ≤ new

/-- The ballots on a comment are those of its votes. -/
theorem ballotsOn_eq (s : ChainState) (c : CommentObject) :
    ballotsOn (ballots s) c.id = (votesOn s c).map ballot := by
  unfold ballotsOn ballots votesOn
  rw [List.filter_map]
  rfl

/-- In a book of totals, those of an unpaid comment are the totals of its votes. -/
theorem Book.totalsFollow (hs : Book Tallied s) {c : CommentObject} (hc : c ∈ s.comments.rows)
    (hunpaid : NotPaidOut c) : TotalsFollow s c := by
  have h := hs.holds (poll c) (List.mem_map_of_mem hc) hunpaid
  have hon : ballotsOn (ballots s) (poll c).id = (votesOn s c).map ballot := ballotsOn_eq s c
  rw [hon] at h
  have hnet := h.net
  have hvotes := h.votes
  have hcovers := h.weights.covers
  have hbounded := h.weights.bounded
  unfold score at hvotes
  rw [List.map_map] at hnet hvotes hcovers
  rw [List.countP_map, List.countP_map] at hvotes
  have hword : c.netVotes = .ofInt (((votesOn s c).countP fun v => 0 < v.rshares) -
      ((votesOn s c).countP fun v => v.rshares < 0)) := hvotes
  refine ⟨hnet, hword, fun hfew => ?_, hcovers, ?_⟩
  · have hpositive := List.countP_le_length (p := fun v : CommentVoteObject => 0 < v.rshares)
      (l := votesOn s c)
    have hnegative := List.countP_le_length (p := fun v : CommentVoteObject => v.rshares < 0)
      (l := votesOn s c)
    rw [hword]
    exact Int32.toInt_ofInt_of_le (by omega) (by omega)
  have hstake : uint128 c.voteRshares = c.voteRshares.toNat := uint128_of_nonneg h.stake h.word
  rw [hstake]
  exact hbounded

/-- In a book of totals, no subtraction of weights underflows. -/
theorem Book.weightsFit {fc : FcLib} (hexact : fc.SafeExact) (hs : Book Tallied s)
    (o : VoteOperation) : WeightsFit fc o s := by
  intro comment voter hcomment hvoter hopen
  have hmem : comment ∈ s.comments.rows := List.mem_of_find?_eq_some hcomment
  have h := hs.holds (poll comment) (List.mem_map_of_mem hmem) (.inl hopen)
  constructor
  · intro vote hvote
    have hon : vote.comment = comment.id ∧ vote.voter = voter.id := by
      simpa using List.find?_some hvote
    have hballot : ballot vote ∈ ballotsOn (ballots s) comment.id :=
      List.mem_filter.mpr ⟨List.mem_map_of_mem (List.mem_of_find?_eq_some hvote),
        decide_eq_true hon.1⟩
    exact h.weights.le_total (List.mem_map_of_mem (f := Ballot.weight) hballot)
  · intro power rf counted old new hpower hrf hpos hcounted hold hnew
    rw [hs.curves rf (List.mem_of_find?_eq_some hrf)] at hold hnew
    obtain ⟨hpoll, hword⟩ := addVote_poll hexact hpos.ne' hcounted
    have hstake : counted.voteRshares =
        comment.voteRshares + max (signedShares o.weight power.absRshares) 0 :=
      congrArg Poll.voteRshares hpoll
    have hle : comment.voteRshares ≤ counted.voteRshares := by omega
    have hnonneg : 0 ≤ comment.voteRshares := h.stake
    have hmono := approxSqrt_stake_mono hle (hword hpos)
    rw [← Except.ok.inj hold, ← Except.ok.inj hnew, uint128_of_nonneg hnonneg h.word,
      uint128_of_nonneg (hnonneg.trans hle) (hword hpos)]
    exact hmono

/-- In a book of covered shares, those of an unpaid comment are covered. -/
theorem Book.positivesCovered (hs : Book Covered s) {c : CommentObject} (hc : c ∈ s.comments.rows)
    (hunpaid : NotPaidOut c) : PositivesCovered s c := by
  have h := hs.holds (poll c) (List.mem_map_of_mem hc) hunpaid
  have hon : ballotsOn (ballots s) (poll c).id = (votesOn s c).map ballot := ballotsOn_eq s c
  rw [hon] at h
  unfold Covered support at h
  rw [List.map_map, List.map_map] at h
  refine le_trans (le_of_eq ?_) h
  induction votesOn s c with
  | nil => rfl
  | cons v rest ih =>
    by_cases hpos : 0 < v.rshares
    · rw [List.filter_cons_of_pos (by simpa using hpos), List.map_cons, List.sum_cons,
        List.map_cons, List.sum_cons, ih]
      simp [ballot, hpos.le]
    · rw [List.filter_cons_of_neg (by simpa using hpos), List.map_cons, List.sum_cons, ih]
      simp [ballot, not_lt.mp hpos]

/-- In every run from the genesis and at every comment that is not paid out the totals follow the
votes, and no subtraction of weights underflows; the positive shares are covered where no vote
of the run is changed to more positive shares. -/
theorem vote_totals (hexact : env.SafeExact) {initSupply : ℕ}
    (h : History env (initGenesis env initSupply) steps t) :
    (∀ c ∈ t.comments.rows, NotPaidOut c → TotalsFollow t c) ∧
      (∀ m ∈ steps, ∀ o, m.event = .operation (.vote o) → WeightsFit env.toFcLib o m.before) ∧
      ((∀ m ∈ steps, ∀ o, m.event = .operation (.vote o) → ¬ Raises o m.before) →
        ∀ c ∈ t.comments.rows, NotPaidOut c → PositivesCovered t c) := by
  refine ⟨fun c hc hunpaid => (history_tallied hexact h).totalsFollow hc hunpaid, ?_, ?_⟩
  · intro m hm o _
    obtain ⟨earlier, later, -, hearlier, -, -⟩ := h.moment hm
    exact (history_tallied hexact hearlier).weightsFit hexact o
  · intro hraises c hc hunpaid
    exact (history_covered hexact h hraises).positivesCovered hc hunpaid

end Runs

section Sample

open ChainRun CommentParents VotingPower

/-- A downvote raises nothing. -/
theorem not_raises_of_neg {s : ChainState} {o : VoteOperation} (hneg : o.weight < 0) :
    ¬ Raises o s := by
  rintro ⟨comment, voter, vote, power, -, -, -, -, hpower, hraises⟩
  obtain ⟨_, -, h⟩ := bind_eq_ok hpower
  obtain ⟨_, -, h⟩ := bind_eq_ok h
  obtain ⟨_, -, h⟩ := bind_eq_ok h
  obtain ⟨_, -, h⟩ := bind_eq_ok h
  obtain ⟨shares, -, h⟩ := bind_eq_ok h
  obtain ⟨_, hdust, h⟩ := bind_eq_ok h
  have hdust : (wlsVoteDustThreshold : ℤ) < shares := by
    have hor := fcAssert_eq_ok hdust
    simp only [Bool.or_eq_true, decide_eq_true_eq] at hor
    exact hor.resolve_right hneg.ne
  have hnonneg : (0 : ℤ) ≤ wlsVoteDustThreshold := by decide
  rw [← Except.ok.inj h] at hraises
  unfold signedShares at hraises
  rw [if_pos hneg] at hraises
  dsimp only at hraises
  omega

/-- A vote without an earlier one raises nothing. -/
theorem not_raises_of_nil {s : ChainState} {o : VoteOperation}
    (hnone : s.commentVotes.rows.isEmpty = true) : ¬ Raises o s := by
  rintro ⟨comment, voter, vote, power, -, -, -, hvote, -, -⟩
  have hmem := List.mem_of_find?_eq_some hvote
  rw [List.isEmpty_iff.mp hnone] at hmem
  exact List.not_mem_nil hmem

/-- The calls of the small instance. -/
def pollContext : Context := (sampleCall votedBlock).context sampleEnv

/-- The first miner powers up. -/
def powerUpThousand : Operation := .transferToVesting ⟨initMinerName 0, .empty, wls 1000⟩

/-- The first miner votes on its post and changes its vote to a downvote. -/
theorem vote_totals_downvote : ∃ steps t c,
    History sampleEnv (initGenesis sampleEnv 1000000) steps t ∧
      operations steps = [powerUpThousand, .comment firstPost, .vote (firstPostVote 10000),
        .vote (firstPostVote (-5000))] ∧
      t.comments.rows = [c] ∧ NotPaidOut c ∧ c.netRshares = -833 ∧ TotalsFollow t c ∧
      PositivesCovered t c := by
  have hends : endsIn (applyOperation pollContext powerUpThousand) (initGenesis sampleEnv 1000000)
      (fun _ s₁ =>
        endsIn (applyOperation pollContext (.comment firstPost)) s₁ fun _ s₂ =>
        s₂.commentVotes.rows.isEmpty &&
        endsIn (applyOperation pollContext (.vote (firstPostVote 10000))) s₂ fun _ s₃ =>
        endsIn (updateGlobalDynamicData pollContext votedBlock) s₃ fun _ s₄ =>
        decide (s₃.dgp.time ≤ s₄.dgp.time) &&
        endsIn (applyOperation pollContext (.vote (firstPostVote (-5000)))) s₄ fun _ s₅ =>
        decide (s₅.comments.rows.map (fun c => (c.netRshares, c.lastPayout)) = [(-833, 0)])) =
      true := by
    decide +kernel
  obtain ⟨_, s₁, h₁, hends⟩ := returns_of_endsIn hends
  obtain ⟨_, s₂, h₂, hends⟩ := returns_of_endsIn hends
  rw [Bool.and_eq_true] at hends
  obtain ⟨hempty, hends⟩ := hends
  obtain ⟨_, s₃, h₃, hends⟩ := returns_of_endsIn hends
  obtain ⟨_, s₄, h₄, hends⟩ := returns_of_endsIn hends
  rw [Bool.and_eq_true] at hends
  obtain ⟨hlater, hends⟩ := hends
  obtain ⟨_, s₅, h₅, hends⟩ := returns_of_endsIn hends
  obtain ⟨c, hrows, hc⟩ := List.map_eq_singleton_iff.mp (of_decide_eq_true hends)
  have hunpaid : NotPaidOut c := .inr (Prod.mk.inj hc).2
  have hmem : c ∈ s₅.comments.rows := by
    rw [hrows]
    exact List.mem_singleton_self c
  have hoccurs : ∀ op s t, Returns (applyOperation pollContext op) s () t →
      op.validate sampleEnv.toFcLib = .ok () → NotForNull op →
      Occurs sampleEnv (.operation op) s t :=
    fun op s t h hvalid hnull => .operation pollContext rfl op hvalid hnull h
  have hsteps : History sampleEnv (initGenesis sampleEnv 1000000)
      [⟨initGenesis sampleEnv 1000000, .operation powerUpThousand, s₁⟩,
        ⟨s₁, .operation (.comment firstPost), s₂⟩,
        ⟨s₂, .operation (.vote (firstPostVote 10000)), s₃⟩, ⟨s₃, .upkeep, s₄⟩,
        ⟨s₄, .operation (.vote (firstPostVote (-5000))), s₅⟩] s₅ :=
    ⟨rfl, hoccurs _ _ _ h₁ (by decide) ⟨by decide, by decide⟩,
      rfl, hoccurs _ _ _ h₂ (by decide +kernel) ⟨by decide, by decide⟩,
      rfl, hoccurs _ _ _ h₃ (by decide +kernel) ⟨by decide, by decide⟩,
      rfl, .upkeep (.dynamicData pollContext votedBlock) (of_decide_eq_true hlater) h₄,
      rfl, hoccurs _ _ _ h₅ (by decide +kernel) ⟨by decide, by decide⟩, rfl⟩
  have htotals := vote_totals sampleEnv_safeExact hsteps
  refine ⟨_, s₅, c, hsteps, rfl, hrows, hunpaid, (Prod.mk.inj hc).1, htotals.1 c hmem hunpaid,
    htotals.2.2 ?_ c hmem hunpaid⟩
  intro m hm o ho
  simp only [List.mem_cons, List.not_mem_nil, or_false] at hm
  rcases hm with rfl | rfl | rfl | rfl | rfl
  · cases ho
  · cases ho
  · exact not_raises_of_nil hempty
  · cases ho
  · cases ho
    exact not_raises_of_neg (by decide)

/-- The block in which the first miner votes with half of its power. -/
def halfVoteBlock : SignedBlock :=
  sampleBlock (poweredBlock.id sampleEnv) (wlsGenesisTime + 2 * wlsBlockInterval) (initMinerName 0)
    [referring 1 1 [.comment firstPost, .vote (firstPostVote 5000)]]

/-- The block in which it changes its vote to all of it. -/
def fullVoteBlock : SignedBlock :=
  sampleBlock (halfVoteBlock.id sampleEnv) (wlsGenesisTime + 3 * wlsBlockInterval) (initMinerName 0)
    [referring 2 2 [.vote (firstPostVote 10000)]]

/-- After a vote that is changed to more shares, the positive shares are not covered. -/
theorem positives_uncovered : ∃ s c,
    Reaches sampleEnv 1000000
      [sampleCall poweredBlock, sampleCall halfVoteBlock, sampleCall fullVoteBlock] s ∧
    c ∈ s.comments.rows ∧ NotPaidOut c ∧ ¬ PositivesCovered s c := by
  have hends : endsIn (runBlocks sampleEnv
      [sampleCall poweredBlock, sampleCall halfVoteBlock, sampleCall fullVoteBlock])
      (initGenesis sampleEnv 1000000) (fun _ s =>
        decide (s.comments.rows.map (fun c => (c.id, c.lastPayout, c.voteRshares)) =
          [(0, 0, 2500)]) &&
        decide (s.commentVotes.rows.map (fun v => (v.comment, v.rshares)) = [(0, 5000)])) = true := by
    decide +kernel
  obtain ⟨_, s, hs, hend⟩ := returns_of_endsIn hends
  rw [Bool.and_eq_true] at hend
  obtain ⟨c, hcomments, hc⟩ := List.map_eq_singleton_iff.mp (of_decide_eq_true hend.1)
  obtain ⟨v, hvotes, hv⟩ := List.map_eq_singleton_iff.mp (of_decide_eq_true hend.2)
  simp only [Prod.mk.injEq] at hc hv
  refine ⟨s, c, hs, ?_, .inr hc.2.1, fun hcovered => ?_⟩
  · rw [hcomments]
    exact List.mem_singleton_self c
  · unfold PositivesCovered votesOn at hcovered
    rw [hvotes, List.filter_cons_of_pos (by simp [hc, hv]), List.filter_nil,
      List.filter_cons_of_pos (by simp [hv]), List.filter_nil, List.map_singleton,
      List.sum_singleton, hv.2, hc.2.2] at hcovered
    exact absurd hcovered (by decide)

end Sample

end Whaleshares.CommentPolls
