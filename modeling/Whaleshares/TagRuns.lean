import Whaleshares.CommentPlaces
import Whaleshares.TagUpdates

/-!
# The statistics of the tags after a run

A run starts with the first state and empty tables. The plugin looks at comments, votes,
deletions and the virtual operations of payouts. The statistics of the tags show the live tags
for as long as no tag goes: the plugin does not take a tag out of the statistics when an edit or
a deletion removes it, and a payout removes tags in a loop that goes on from the removed one.
-/

namespace Whaleshares.TagRuns

open Fc Protocol Objects Program CommentEvaluators Genesis LabelledRun Timeline Sidelines KeyTotals
  Tags TagStats TagUpdates CommentPlaces

section Steps

/-- The chain with the plugin. -/
structure Observed where
  chain : ChainState
  plugin : Plugin

/-- What happens in a run. -/
inductive Event where
  /-- A step of the chain besides the payouts. -/
  | step (e : Timeline.Event)
  /-- The payouts of a block, with the virtual operations that the plugin is told of and the chain
  at that moment. Nothing is assumed of these. -/
  | payouts (told : List (ChainState × PayoutOperation))

/-- What the plugin does after a step of the chain. -/
def afterStep (lib : TextLib) (e : Timeline.Event) (t : ChainState) (p : Plugin) : Option Plugin :=
  match e with
  | .operation (.comment o) => onOperation (onComment lib t o) p
  | .operation (.vote o) => onOperation (onVote lib t o) p
  | .operation (.deleteComment o) => onOperation (onDeleteComment t o) p
  | _ => some p

/-- What the plugin does during the payouts. -/
def afterPayouts (fc : FcLib) (lib : TextLib) : List (ChainState × PayoutOperation) → Plugin →
    Option Plugin
  | [], p => some p
  | (s, op) :: rest, p => (onOperation (onPayout fc lib s op) p).bind (afterPayouts fc lib rest)

/-- The steps of a run; what fails is undone and is none. Where what the plugin does is not
defined, any tables can follow. -/
def Step (env : Env) (lib : TextLib) : Event → Observed → Observed → Prop
  | .step e, s, t => e ≠ .cashout ∧ Occurs env e s.chain t.chain ∧
    ∀ p, afterStep lib e t.chain s.plugin = some p → t.plugin = p
  | .payouts told, s, t => Occurs env .cashout s.chain t.chain ∧
    ∀ p, afterPayouts env.toFcLib lib told s.plugin = some p → t.plugin = p

/-- The first state. -/
def start (env : Env) (initSupply : ℕ) : Observed := ⟨initGenesis env initSupply, .empty⟩

/-- The live objects of a tag. -/
def liveTags (p : Plugin) (tag : TagName) : List TagObject :=
  p.tags.rows.filter fun t => t.tag = tag

/-- The comment is a root post. -/
def isRootPost (s : ChainState) (comment : ℕ) : Bool :=
  s.comments.rows.any fun c => c.id = comment && c.parentAuthor.size = 0

/-- The comment is a reply. -/
def isReply (s : ChainState) (comment : ℕ) : Bool :=
  s.comments.rows.any fun c => c.id = comment && c.parentAuthor.size ≠ 0

/-- The net votes of the live objects of a tag. -/
def netVotes (p : Plugin) (tag : TagName) : ℤ :=
  ((liveTags p tag).map fun t => t.netVotes.toInt).sum

/-- The statistics of every tag show its live objects, and no counter has been decremented at
zero. -/
structure Right (s : Observed) : Prop where
  topPosts : ∀ st ∈ s.plugin.stats.rows,
    st.topPosts.toNat = (liveTags s.plugin st.tag).countP fun t => isRootPost s.chain t.comment
  comments : ∀ st ∈ s.plugin.stats.rows,
    st.comments.toNat = (liveTags s.plugin st.tag).countP fun t => isReply s.chain t.comment
  /-- The sum in 32 bits, and the sum itself where it fits. -/
  netVotes : ∀ st ∈ s.plugin.stats.rows, st.netVotes = .ofInt (netVotes s.plugin st.tag) ∧
    (-2 ^ 31 ≤ netVotes s.plugin st.tag → netVotes s.plugin st.tag < 2 ^ 31 →
      st.netVotes.toInt = netVotes s.plugin st.tag)
  noUnderflow : s.plugin.underflow = false

/-- The comment has a live tag. -/
def Tagged (p : Plugin) (comment : ℕ) : Prop := ∃ t ∈ p.tags.rows, t.comment = comment

/-- What the plugin does after a step of the chain is defined, and no tag goes: an edit names the
tags that the comment has, no new tag has a zero byte that cuts it off, no reply is to the comment
whose id is zero, no comment with tags is deleted or updated after its payout, and there are fewer
tags than a counter can count. -/
def Meets (lib : TextLib) (m : Moment Observed Event) : Prop :=
  match m.event with
  | .step (.operation (.comment o)) => ∀ c,
    m.after.chain.comments.find (CommentObject.hasPermlink o.author o.permlink) = some c →
      KeepsTags lib m.before.plugin c ∧
      (c.parentAuthor.size ≠ 0 → ∀ parent, above m.after.chain c = some parent → parent.id ≠ 0) ∧
      RefreshableAbove m.after.chain (fun id => id = c.id ∨ Tagged m.before.plugin id)
        m.after.chain.comments.rows.length c ∧
      m.before.plugin.tags.rows.length + 6 < 2 ^ 32
  | .step (.operation (.vote o)) => ∀ c,
    m.after.chain.comments.find (CommentObject.hasPermlink o.author o.permlink) = some c →
      Refreshable m.after.chain (Tagged m.before.plugin) (ladder m.after.chain) c
  | .step (.operation (.deleteComment o)) => ∀ c,
    m.before.chain.comments.find (CommentObject.hasPermlink o.author o.permlink) = some c →
      ¬ Tagged m.before.plugin c.id
  | .payouts told => ∀ call ∈ told, ∀ c, payoutComment call.1 call.2 = some c →
      Refreshable call.1 (Tagged m.before.plugin) (ladder call.1) c
  | _ => True

end Steps

section Runs

variable {env : Env} {lib : TextLib} {fc : FcLib} {s t : Observed} {chain chain' : ChainState}
  {m : Moment Observed Event} {run : List (Moment Observed Event)} {p : Plugin}
  {B : ℕ → ℕ → Prop} {T : ℕ → Prop}

/-- The comment is there, and the parent is zero if it is a root post. -/
def At (s : ChainState) (comment parent : ℕ) : Prop :=
  ∃ a, (comment, a) ∈ heads s ∧ (parent = 0 ↔ a.size = 0)

/-- What a run keeps. -/
structure Kept (s : Observed) : Prop where
  numbered : Numbered s.chain
  good : Good (At s.chain) s.plugin

/-- Comments that stay keep the tags at their places. -/
theorem good_lasting (h : Good (At chain) p) (hlasting : Lasting chain chain') :
    Good (At chain') p := by
  refine h.mono fun t _ hat => ?_
  obtain ⟨a, hmem, hparent⟩ := hat
  exact ⟨a, hlasting.stay _ hmem, hparent⟩

/-- The tags are at the comments that have tags. -/
theorem good_tagged (h : Good (At chain) p) :
    Good (fun comment parent => At chain comment parent ∧ Tagged p comment) p :=
  ⟨h.sound, fun t ht => ⟨h.tags t ht, t, ht, rfl⟩⟩

/-- Every step but those that write or delete a comment keeps the places of the comments. -/
theorem occurs_sameHeads {e : Timeline.Event} (h : Occurs env e chain chain')
    (hcomment : ∀ o, e ≠ .operation (.comment o))
    (hdelete : ∀ o, e ≠ .operation (.deleteComment o)) :
    SameHeads chain chain' := by
  have hside := sameHeads_sideFrame
  cases h with
  | operation ctx henv op hvalid hnull h =>
    cases op with
    | comment o => exact absurd rfl (hcomment o)
    | deleteComment o => exact absurd rfl (hdelete o)
    | vote o =>
      exact (applyVote_aside _ hside sameHeads_power sameHeads_polls
        sameHeads_commentVotes o).rel _ _ _ h
    | withdrawVesting o => exact (applyWithdrawVesting_aside _ sameHeads_powerDown o).rel _ _ _ h
    | setWithdrawVestingRoute o =>
      exact (applySetWithdrawVestingRoute_aside sameHeads_routes o).rel _ _ _ h
    | accountCreate o => exact (applyAccountCreate_aside ctx hside sameHeads_account o).rel _ _ _ h
    | _ =>
      refine (applyOperation_aside ctx hside ?_).rel _ _ _ h
      trivial
  | withdrawal hsource hdue h =>
    exact (processVestingWithdrawal_aside _ hside sameHeads_powerDown _).rel _ _ _ h
  | cashout h =>
    exact (processCommentCashout_aside _ hside sameHeads_polls sameHeads_commentVotes).rel _ _ _ h
  | burning h => exact (clearNullAccountBalance_aside _ hside).rel _ _ _ h
  | upkeep hm hlater h => exact (hm.aside hside).rel _ _ _ h

/-- The plugin after a comment was written. -/
theorem onComment_good {o : CommentOperation} (h : Good (At chain) p)
    (hmeets : ∀ c, chain.comments.find (CommentObject.hasPermlink o.author o.permlink) = some c →
      KeepsTags lib p c ∧
      (c.parentAuthor.size ≠ 0 → ∀ parent, above chain c = some parent → parent.id ≠ 0) ∧
      RefreshableAbove chain (fun id => id = c.id ∨ Tagged p id) chain.comments.rows.length c ∧
      p.tags.rows.length + 6 < 2 ^ 32) :
    ∃ q, onOperation (Tags.onComment lib chain o) p = some q ∧ Good (At chain) q := by
  refine Ends.onOperation (.found_bind h fun c hc => ?_)
  obtain ⟨hkeeps, hparent, hup, hroom⟩ := hmeets c hc
  have hmem : (c.id, c.parentAuthor) ∈ heads chain :=
    List.mem_map_of_mem (f := fun c : CommentObject => (c.id, c.parentAuthor))
      (List.mem_of_find?_eq_some hc)
  have hgood : Good (fun comment parent => At chain comment parent ∧
      (comment = c.id ∨ Tagged p comment)) p :=
    (good_tagged h).mono fun t _ ht => ⟨ht.1, .inr ht.2⟩
  -- a new tag of the comment is at its place
  have hplace : ∀ parent, parentId chain c = some parent →
      At chain c.id parent ∧ (c.id = c.id ∨ Tagged p c.id) := by
    intro parent hid
    refine ⟨⟨c.parentAuthor, hmem, ?_⟩, .inl rfl⟩
    unfold parentId at hid
    by_cases hroot : c.parentAuthor.size = 0
    · rw [if_pos hroot] at hid
      exact ⟨fun _ => hroot, fun _ => (Option.some.inj hid).symm⟩
    · rw [if_neg hroot] at hid
      obtain ⟨above, habove, rfl⟩ := Option.map_eq_some_iff.mp hid
      have hne := hparent hroot above habove
      exact ⟨fun hzero => absurd hzero hne, fun hsize => absurd hsize hroot⟩
  have hends : Ends (updateTags lib chain (ladder chain) c true) p _ :=
    hgood.updateParsed (fun _ _ hB => hB.2) hkeeps hplace hroom hup
  obtain ⟨q, hq, hP⟩ := hends
  exact ⟨q, hq, hP.mono fun _ _ hB => hB.1⟩

/-- The plugin after a vote. -/
theorem onVote_good {o : VoteOperation} (h : Good (At chain) p)
    (hmeets : ∀ c, chain.comments.find (CommentObject.hasPermlink o.author o.permlink) = some c →
      Refreshable chain (Tagged p) (ladder chain) c) :
    ∃ q, onOperation (Tags.onVote lib chain o) p = some q ∧ Good (At chain) q := by
  refine Ends.onOperation (.found_bind h fun c hc => ?_)
  have hends : Ends (updateTags lib chain (ladder chain) c false) p _ :=
    (good_tagged h).updateTags (fun _ _ hB => hB.2) (hmeets c hc)
  obtain ⟨q, hq, hP⟩ := hends
  exact ⟨q, hq, hP.mono fun _ _ hB => hB.1⟩

/-- The plugin after a comment was deleted that had no tags. -/
theorem onDeleteComment_good {o : DeleteCommentOperation} (h : Good (At chain') p) :
    ∃ q, onOperation (Tags.onDeleteComment chain' o) p = some q ∧ Good (At chain') q := by
  refine Ends.onOperation (.found_bind h fun auth _ => ?_)
  have hsame : (p.tags.remove fun t => t.author = auth.id &&
      (chain'.comments.find fun c => c.id = t.comment).isNone) = p.tags := by
    unfold Table.remove
    have hrows : (p.tags.rows.filter fun t => !(decide (t.author = auth.id) &&
        (chain'.comments.find fun c => c.id = t.comment).isNone)) = p.tags.rows := by
      refine List.filter_eq_self.mpr fun t ht => ?_
      obtain ⟨a, hmem, -⟩ := h.tags t ht
      obtain ⟨c, hc, hpair⟩ := List.mem_map.mp hmem
      have hid : c.id = t.comment := congrArg Prod.fst hpair
      have hfound : (chain'.comments.find fun c => c.id = t.comment).isNone = false := by
        rw [Option.isNone_eq_false_iff]
        exact List.find?_isSome.mpr ⟨c, hc, decide_eq_true hid⟩
      rw [hfound, Bool.and_false]
      rfl
    rw [hrows]
  refine .of_ok (q := p) ?_ h
  unfold Process.change
  dsimp only
  rw [hsame]

/-- The plugin during the payouts. -/
theorem afterPayouts_good {told : List (ChainState × PayoutOperation)}
    (hB : ∀ comment parent, B comment parent → T comment) (h : Good B p)
    (hmeets : ∀ call ∈ told, ∀ c, payoutComment call.1 call.2 = some c →
      Refreshable call.1 T (ladder call.1) c) :
    ∃ q, TagRuns.afterPayouts fc lib told p = some q ∧ Good B q := by
  induction told generalizing p with
  | nil => exact ⟨p, rfl, h⟩
  | cons call rest ih =>
    have hcall : Ends (onPayout fc lib call.1 call.2) p (Good B) :=
      h.onPayout hB (hmeets call List.mem_cons_self)
    obtain ⟨q, hq, hgood⟩ := hcall.onOperation
    obtain ⟨r, hr, hP⟩ := ih hgood fun call' hcall' => hmeets call' (List.mem_cons_of_mem _ hcall')
    refine ⟨r, ?_, hP⟩
    unfold TagRuns.afterPayouts
    rw [hq]
    exact hr

/-- A step that meets the condition keeps what the run keeps. -/
theorem Kept.step (hs : Kept m.before) (hm : Step env lib m.event m.before m.after)
    (hmeets : Meets lib m) : Kept m.after := by
  obtain ⟨s, event, t⟩ := m
  cases event with
  | payouts told =>
    obtain ⟨hoccurs, hplugin⟩ := hm
    have hsame := occurs_sameHeads hoccurs nofun nofun
    have hgood := good_lasting hs.good hsame.lasting
    have hafter : ∃ q, afterPayouts env.toFcLib lib told s.plugin = some q ∧ Good _ q :=
      afterPayouts_good (fun _ _ hB => hB.2) (good_tagged hgood) hmeets
    obtain ⟨q, hq, hP⟩ := hafter
    rw [← hplugin q hq] at hP
    exact ⟨hsame.lasting.numbered hs.numbered, hP.mono fun _ _ hB => hB.1⟩
  | step e =>
    obtain ⟨-, hoccurs, hplugin⟩ := hm
    by_cases hcomment : ∃ o, e = .operation (.comment o)
    · obtain ⟨o, rfl⟩ := hcomment
      have hlasting : Lasting s.chain t.chain := by
        cases hoccurs with
        | operation ctx henv op hvalid hnull h => exact (applyComment_lasting ctx.env o).rel _ _ _ h
      obtain ⟨q, hq, hP⟩ := onComment_good (good_lasting hs.good hlasting) hmeets
      exact ⟨hlasting.numbered hs.numbered, hplugin q hq ▸ hP⟩
    · by_cases hdelete : ∃ o, e = .operation (.deleteComment o)
      · obtain ⟨o, rfl⟩ := hdelete
        cases hoccurs with
        | operation ctx henv op hvalid hnull h =>
          obtain ⟨c, hc, hstay, hnumbered⟩ := applyDeleteComment_heads h
          have hgood : Good (At t.chain) s.plugin := by
            refine hs.good.mono fun tag htag hat => ?_
            obtain ⟨a, hmem, hparent⟩ := hat
            exact ⟨a, hstay _ hmem fun hid => hmeets c hc ⟨tag, htag, hid⟩, hparent⟩
          obtain ⟨q, hq, hP⟩ := onDeleteComment_good (o := o) hgood
          exact ⟨hnumbered hs.numbered, hplugin q hq ▸ hP⟩
      · have hsame := occurs_sameHeads hoccurs (fun o h => hcomment ⟨o, h⟩)
          fun o h => hdelete ⟨o, h⟩
        have hgood := good_lasting hs.good hsame.lasting
        refine ⟨hsame.lasting.numbered hs.numbered, ?_⟩
        by_cases hvote : ∃ o, e = .operation (.vote o)
        · obtain ⟨o, rfl⟩ := hvote
          obtain ⟨q, hq, hP⟩ := onVote_good hgood hmeets
          exact hplugin q hq ▸ hP
        · have hsilent : afterStep lib e t.chain s.plugin = some s.plugin := by
            unfold afterStep
            split
            next o => exact absurd ⟨o, rfl⟩ hcomment
            next o => exact absurd ⟨o, rfl⟩ hvote
            next o => exact absurd ⟨o, rfl⟩ hdelete
            next => rfl
          rw [hplugin _ hsilent]
          exact hgood

/-- The live objects of a tag that belong to root posts or replies. -/
theorem countP_live {p : Plugin} {tag : TagName} {f g : TagObject → Bool}
    (h : ∀ t ∈ p.tags.rows, f t = g t) :
    (p.tags.rows.countP fun t => decide (t.tag = tag) && f t) = (liveTags p tag).countP g := by
  unfold liveTags
  rw [List.countP_filter]
  refine List.countP_congr fun t ht => ?_
  rw [h t ht, Bool.and_comm]

/-- What the run keeps makes the statistics right. -/
theorem Kept.right (hs : Kept s) : Right s := by
  have hsound := hs.good.sound
  have hroot : ∀ t ∈ s.plugin.tags.rows, decide (t.parent = 0) = isRootPost s.chain t.comment := by
    intro t ht
    obtain ⟨a, hmem, hparent⟩ := hs.good.tags t ht
    rw [decide_eq_decide.mpr hparent]
    exact (any_place hs.numbered hmem fun a => decide (a.size = 0)).symm
  have hreply : ∀ t ∈ s.plugin.tags.rows, decide (t.parent ≠ 0) = isReply s.chain t.comment := by
    intro t ht
    obtain ⟨a, hmem, hparent⟩ := hs.good.tags t ht
    rw [decide_eq_decide.mpr (not_congr hparent)]
    exact (any_place hs.numbered hmem fun a => decide (a.size ≠ 0)).symm
  refine ⟨fun st hst => ?_, fun st hst => ?_, fun st hst => ?_, hsound.noUnderflow⟩
  · have hshows := (hsound.shows st hst).topPosts
    rw [total_eq_countP (p := fun t => decide (t.parent = 0)) fun a => by simp [rootWeight],
      countP_live hroot] at hshows
    exact Int.ofNat.inj hshows
  · have hshows := (hsound.shows st hst).comments
    rw [total_eq_countP (p := fun t => decide (t.parent ≠ 0)) fun a => by simp [replyWeight],
      countP_live hreply] at hshows
    exact Int.ofNat.inj hshows
  · have hshows := (hsound.shows st hst).netVotes
    rw [total_eq_sum] at hshows
    have hsum : st.netVotes = .ofInt (netVotes s.plugin st.tag) := hshows
    refine ⟨hsum, fun hlow hhigh => ?_⟩
    rw [hsum]
    exact Int32.toInt_ofInt_of_le hlow hhigh

/-- There are no comments and no tags at the start. -/
theorem kept_start (env : Env) (initSupply : ℕ) : Kept (start env initSupply) where
  numbered := ⟨List.nodup_nil, fun _ h => absurd h List.not_mem_nil⟩
  good := ⟨sound_empty, fun _ h => absurd h List.not_mem_nil⟩

/-- In every run in which no tag goes and what the plugin does is defined, the statistics of every
tag show its live objects in every state, and no counter is decremented at zero. -/
theorem tag_stats_right {initSupply : ℕ} (h : Path (Step env lib) (start env initSupply) run s)
    (hmeets : ∀ m ∈ run, Meets lib m) : Right s ∧ ∀ m ∈ run, Right m.before := by
  have hkept : ∀ {run' : List (Moment Observed Event)} {t : Observed},
      Path (Step env lib) (start env initSupply) run' t → (∀ m ∈ run', Meets lib m) → Kept t := by
    intro run' t hpath hmeets'
    exact hpath.invariant (kept_start env initSupply) fun m hm hstep hs =>
      hs.step hstep (hmeets' m hm)
  refine ⟨(hkept h hmeets).right, fun m hm => ?_⟩
  obtain ⟨earlier, later, rfl, hearlier, -, -⟩ := h.moment hm
  exact (hkept hearlier fun m' hm' => hmeets m' (List.mem_append_left _ hm')).right

end Runs

section Sample

open ChainRun CommentParents VotingPower CommentPolls

variable {lib : TextLib} {s : Observed} {chain : ChainState} {p : Plugin} {c : CommentObject}

/-- The state after an operation. -/
def told (lib : TextLib) (op : Operation) (s : Observed) (t : ChainState) : Observed :=
  ⟨t, (afterStep lib (.operation op) t s.plugin).getD s.plugin⟩

/-- An operation is a step of the small chain. -/
theorem step_told {op : Operation} {t : ChainState}
    (h : Returns (applyOperation pollContext op) s.chain () t)
    (hvalid : op.validate sampleEnv.toFcLib = .ok ()) (hnull : NotForNull op) :
    Step sampleEnv lib (.step (.operation op)) s (told lib op s t) := by
  refine ⟨nofun, .operation pollContext rfl op hvalid hnull h, fun p hp => ?_⟩
  have hafter : afterStep lib (.operation op) t s.plugin = some p := hp
  change (afterStep lib (.operation op) t s.plugin).getD s.plugin = p
  rw [hafter]
  rfl

/-- No comment from here upwards is paid out, and the way up has an end. -/
def unpaidUpwards (chain : ChainState) : ℕ → CommentObject → Bool
  | 0, _ => false
  | steps + 1, c => c.cashoutTime ≠ timePointSecMaximum &&
    (c.parentAuthor.size = 0 || (above chain c).all (unpaidUpwards chain steps))

/-- Where nothing is paid out, all can be refreshed. -/
theorem refreshable_of {steps : ℕ} (h : unpaidUpwards chain steps c = true) (T : ℕ → Prop) :
    Refreshable chain T steps c := by
  induction steps generalizing c with
  | zero => cases h
  | succ steps ih =>
    unfold unpaidUpwards at h
    rw [Bool.and_eq_true, decide_eq_true_eq] at h
    refine ⟨fun hpaid => absurd hpaid h.1, fun hreply parent hparent => ?_⟩
    have hor := h.2
    rw [Bool.or_eq_true, decide_eq_true_eq] at hor
    have hall := hor.resolve_left hreply
    rw [hparent] at hall
    exact ih hall

/-- Whether the metadata keep the tags of a comment and can be read back. -/
def keepsTags (lib : TextLib) (p : Plugin) (c : CommentObject) : Bool :=
  (p.tags.rows.all fun t =>
    t.comment ≠ c.id || (filterTags lib c).any fun tag => tag = tagText t.tag) &&
    (filterTags lib c).all fun tag => tagName (tagText (tagName tag)) = tagName tag

/-- Metadata that pass the test keep the tags. -/
theorem keepsTags_of (h : keepsTags lib p c = true) : KeepsTags lib p c := by
  unfold keepsTags at h
  rw [Bool.and_eq_true, List.all_eq_true, List.all_eq_true] at h
  refine ⟨fun t ht hcomment => ?_, fun tag htag => of_decide_eq_true (h.2 tag htag)⟩
  have hor := h.1 t ht
  rw [Bool.or_eq_true, decide_eq_true_eq] at hor
  obtain ⟨tag, htag, hsame⟩ := List.any_eq_true.mp (hor.resolve_left fun hne => hne hcomment)
  rw [← of_decide_eq_true hsame]
  exact htag

/-- The test that a step with a comment operation meets the condition. -/
def meetsComment (lib : TextLib) (o : CommentOperation) (t : ChainState) (p : Plugin) : Bool :=
  (t.comments.find (CommentObject.hasPermlink o.author o.permlink)).all fun c =>
    keepsTags lib p c && unpaidUpwards t (ladder t) c &&
      (c.parentAuthor.size = 0 || (above t c).all fun parent => parent.id ≠ 0) &&
      p.tags.rows.length < 100

/-- The test that a step with a vote meets the condition. -/
def meetsVote (o : VoteOperation) (t : ChainState) : Bool :=
  (t.comments.find (CommentObject.hasPermlink o.author o.permlink)).all (unpaidUpwards t (ladder t))

/-- A comment operation that passes the test meets the condition. -/
theorem meets_comment {o : CommentOperation} {t : ChainState}
    (h : meetsComment lib o t s.plugin = true) :
    Meets lib ⟨s, .step (.operation (.comment o)), told lib (.comment o) s t⟩ := by
  intro c hc
  unfold meetsComment at h
  have hfound : t.comments.find (CommentObject.hasPermlink o.author o.permlink) = some c := hc
  rw [hfound, Option.all_some] at h
  simp only [Bool.and_eq_true, decide_eq_true_eq] at h
  obtain ⟨⟨⟨hkeeps, hunpaid⟩, hparent⟩, hfew⟩ := h
  refine ⟨keepsTags_of hkeeps, fun hreply parent hparent' => ?_, ?_, ?_⟩
  · rw [Bool.or_eq_true, decide_eq_true_eq] at hparent
    have hall := hparent.resolve_left hreply
    have habove : above t c = some parent := hparent'
    rw [habove] at hall
    exact of_decide_eq_true hall
  · exact (refreshable_of hunpaid _).2
  · change s.plugin.tags.rows.length + 6 < 2 ^ 32
    omega

/-- A vote that passes the test meets the condition. -/
theorem meets_vote {o : VoteOperation} {t : ChainState} (h : meetsVote o t = true) :
    Meets lib ⟨s, .step (.operation (.vote o)), told lib (.vote o) s t⟩ := by
  intro c hc
  unfold meetsVote at h
  have hfound : t.comments.find (CommentObject.hasPermlink o.author o.permlink) = some c := hc
  rw [hfound, Option.all_some] at h
  exact refreshable_of h _

/-- Metadata with one tag. -/
def catsMetadata : Bytes := bytesOf "\x7b\"tags\":[\"cats\"]\x7d"

/-- Metadata with two tags. -/
def dogsMetadata : Bytes := bytesOf "\x7b\"tags\":[\"dogs\",\"cats\"]\x7d"

/-- The metadata of the small instance are parsed. -/
def sampleTexts : TextLib where
  metadataTags json :=
    if json = catsMetadata then some [bytesOf "cats"]
    else if json = dogsMetadata then some [bytesOf "dogs", bytesOf "cats"]
    else none
  toLower text := text

/-- The second miner posts with a tag. -/
def catsPost : CommentOperation :=
  { firstPost with author := initMinerName 1, jsonMetadata := catsMetadata }

/-- It adds another tag. -/
def dogsPost : CommentOperation := { catsPost with jsonMetadata := dogsMetadata }

/-- The third miner replies to it. -/
def catsReply : CommentOperation where
  parentAuthor := initMinerName 1
  parentPermlink := bytesOf "post"
  author := initMinerName 2
  permlink := bytesOf "reply"
  title := []
  body := bytesOf "body"
  jsonMetadata := []

/-- What the statistics of a tag show. -/
def shown (p : Plugin) : List (Bytes × UInt32 × UInt32 × Int32) :=
  p.stats.rows.map fun st => (tagText st.tag, st.topPosts, st.comments, st.netVotes)

/-- Two posts, a vote on the first of them, a reply to the second and an edit of it that adds a
tag. -/
theorem tag_stats_right_cats : ∃ run s,
    Path (Step sampleEnv sampleTexts) (start sampleEnv 1000000) run s ∧
      run.map (·.event) = [.step (.operation powerUpThousand),
        .step (.operation (.comment firstPost)), .step (.operation (.vote (firstPostVote 10000))),
        .step (.operation (.comment catsPost)), .step (.operation (.comment catsReply)),
        .step (.operation (.comment dogsPost))] ∧
      shown s.plugin = [([], 2, 1, 1), (bytesOf "cats", 1, 0, 0), (bytesOf "dogs", 1, 0, 0)] ∧
      Right s ∧ ∀ m ∈ run, Right m.before := by
  have hends : endsIn (applyOperation pollContext powerUpThousand) (initGenesis sampleEnv 1000000)
      (fun _ t₁ =>
        let s₁ := told sampleTexts powerUpThousand (start sampleEnv 1000000) t₁
        endsIn (applyOperation pollContext (.comment firstPost)) t₁ fun _ t₂ =>
        let s₂ := told sampleTexts (.comment firstPost) s₁ t₂
        endsIn (applyOperation pollContext (.vote (firstPostVote 10000))) t₂ fun _ t₃ =>
        let s₃ := told sampleTexts (.vote (firstPostVote 10000)) s₂ t₃
        endsIn (applyOperation pollContext (.comment catsPost)) t₃ fun _ t₄ =>
        let s₄ := told sampleTexts (.comment catsPost) s₃ t₄
        endsIn (applyOperation pollContext (.comment catsReply)) t₄ fun _ t₅ =>
        let s₅ := told sampleTexts (.comment catsReply) s₄ t₅
        endsIn (applyOperation pollContext (.comment dogsPost)) t₅ fun _ t₆ =>
        meetsComment sampleTexts firstPost t₂ s₁.plugin && meetsVote (firstPostVote 10000) t₃ &&
          meetsComment sampleTexts catsPost t₄ s₃.plugin &&
          meetsComment sampleTexts catsReply t₅ s₄.plugin &&
          meetsComment sampleTexts dogsPost t₆ s₅.plugin &&
          decide (shown (told sampleTexts (.comment dogsPost) s₅ t₆).plugin =
            [([], 2, 1, 1), (bytesOf "cats", 1, 0, 0), (bytesOf "dogs", 1, 0, 0)])) = true := by
    decide +kernel
  obtain ⟨_, t₁, h₁, hends⟩ := returns_of_endsIn hends
  obtain ⟨_, t₂, h₂, hends⟩ := returns_of_endsIn hends
  obtain ⟨_, t₃, h₃, hends⟩ := returns_of_endsIn hends
  obtain ⟨_, t₄, h₄, hends⟩ := returns_of_endsIn hends
  obtain ⟨_, t₅, h₅, hends⟩ := returns_of_endsIn hends
  obtain ⟨_, t₆, h₆, hends⟩ := returns_of_endsIn hends
  simp only [Bool.and_eq_true, decide_eq_true_eq] at hends
  obtain ⟨⟨⟨⟨⟨hm₂, hm₃⟩, hm₄⟩, hm₅⟩, hm₆⟩, hshown⟩ := hends
  have hpath : ∀ s₁ s₂ s₃ s₄ s₅ s₆ : Observed,
      s₁ = told sampleTexts powerUpThousand (start sampleEnv 1000000) t₁ →
      s₂ = told sampleTexts (.comment firstPost) s₁ t₂ →
      s₃ = told sampleTexts (.vote (firstPostVote 10000)) s₂ t₃ →
      s₄ = told sampleTexts (.comment catsPost) s₃ t₄ →
      s₅ = told sampleTexts (.comment catsReply) s₄ t₅ →
      s₆ = told sampleTexts (.comment dogsPost) s₅ t₆ →
      Path (Step sampleEnv sampleTexts) (start sampleEnv 1000000)
        [⟨start sampleEnv 1000000, .step (.operation powerUpThousand), s₁⟩,
          ⟨s₁, .step (.operation (.comment firstPost)), s₂⟩,
          ⟨s₂, .step (.operation (.vote (firstPostVote 10000))), s₃⟩,
          ⟨s₃, .step (.operation (.comment catsPost)), s₄⟩,
          ⟨s₄, .step (.operation (.comment catsReply)), s₅⟩,
          ⟨s₅, .step (.operation (.comment dogsPost)), s₆⟩] s₆ := by
    rintro _ _ _ _ _ _ rfl rfl rfl rfl rfl rfl
    exact ⟨rfl, step_told h₁ (by decide) ⟨by decide, by decide⟩,
      rfl, step_told h₂ (by decide +kernel) ⟨by decide, by decide⟩,
      rfl, step_told h₃ (by decide +kernel) ⟨by decide, by decide⟩,
      rfl, step_told h₄ (by decide +kernel) ⟨by decide, by decide⟩,
      rfl, step_told h₅ (by decide +kernel) ⟨by decide, by decide⟩,
      rfl, step_told h₆ (by decide +kernel) ⟨by decide, by decide⟩, rfl⟩
  have hpath := hpath _ _ _ _ _ _ rfl rfl rfl rfl rfl rfl
  refine ⟨_, _, hpath, rfl, hshown, tag_stats_right hpath fun m hm => ?_⟩
  simp only [List.mem_cons, List.not_mem_nil, or_false] at hm
  rcases hm with rfl | rfl | rfl | rfl | rfl | rfl
  · trivial
  · exact meets_comment hm₂
  · exact meets_vote hm₃
  · exact meets_comment hm₄
  · exact meets_comment hm₅
  · exact meets_comment hm₆

/-- A post that is deleted takes its tag along, but stays in the statistics of the tag. -/
theorem deleted_post_counted : ∃ run s,
    Path (Step sampleEnv sampleTexts) (start sampleEnv 1000000) run s ∧
      run.map (·.event) = [.step (.operation (.comment firstPost)),
        .step (.operation (.deleteComment ⟨initMinerName 0, bytesOf "post"⟩))] ∧
      s.plugin.tags.rows = [] ∧ shown s.plugin = [([], 1, 0, 0)] ∧ ¬ Right s := by
  have hends : endsIn (applyOperation pollContext (.comment firstPost))
      (initGenesis sampleEnv 1000000) (fun _ t₁ =>
        let s₁ := told sampleTexts (.comment firstPost) (start sampleEnv 1000000) t₁
        endsIn (applyOperation pollContext (.deleteComment ⟨initMinerName 0, bytesOf "post"⟩)) t₁
          fun _ t₂ =>
        let s₂ := told sampleTexts (.deleteComment ⟨initMinerName 0, bytesOf "post"⟩) s₁ t₂
        decide (s₂.plugin.tags.rows = []) &&
          decide (shown s₂.plugin = [([], 1, 0, 0)])) = true := by
    decide +kernel
  obtain ⟨_, t₁, h₁, hends⟩ := returns_of_endsIn hends
  obtain ⟨_, t₂, h₂, hends⟩ := returns_of_endsIn hends
  simp only [Bool.and_eq_true, decide_eq_true_eq] at hends
  obtain ⟨htags, hshown⟩ := hends
  have hpath : ∀ s₁ s₂ : Observed,
      s₁ = told sampleTexts (.comment firstPost) (start sampleEnv 1000000) t₁ →
      s₂ = told sampleTexts (.deleteComment ⟨initMinerName 0, bytesOf "post"⟩) s₁ t₂ →
      Path (Step sampleEnv sampleTexts) (start sampleEnv 1000000)
        [⟨start sampleEnv 1000000, .step (.operation (.comment firstPost)), s₁⟩,
          ⟨s₁, .step (.operation (.deleteComment ⟨initMinerName 0, bytesOf "post"⟩)), s₂⟩] s₂ := by
    rintro _ _ rfl rfl
    exact ⟨rfl, step_told h₁ (by decide +kernel) ⟨by decide, by decide⟩,
      rfl, step_told h₂ (by decide +kernel) ⟨by decide, by decide⟩, rfl⟩
  have hpath := hpath _ _ rfl rfl
  refine ⟨_, _, hpath, rfl, htags, hshown, fun hright => ?_⟩
  obtain ⟨st, hrows, hst⟩ := List.map_eq_singleton_iff.mp hshown
  simp only [Prod.mk.injEq] at hst
  have htop := hright.topPosts st (hrows ▸ List.mem_singleton_self st)
  unfold liveTags at htop
  rw [htags, hst.2.1, List.filter_nil, List.countP_nil] at htop
  exact absurd htop (by decide)

end Sample

end Whaleshares.TagRuns
