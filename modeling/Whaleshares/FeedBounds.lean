import Whaleshares.Feeds
import Whaleshares.CommentParents
import Whaleshares.FollowCounts
import Whaleshares.Timeline

/-!
# How long feeds and blogs get

A run starts with the first state and empty tables. Posts, deletions and the rest happen in
the chain; follows and reblogs come as custom operations, which change nothing there. Feeds and
blogs keep to their bound as long as reblogs find room, as these never drop entries of a blog,
and as long as the numbers of the entries do not wrap.
-/

namespace Whaleshares.FeedBounds

open Config Fc Protocol Objects Program Database CommentEvaluators Genesis LabelledRun Timeline
  Footprint NumberedEntries Feeds
open Follows hiding count

section Steps

/-- The chain with the plugin. -/
structure Observed where
  chain : ChainState
  plugin : Plugin

/-- What happens in a run. -/
inductive Event where
  /-- A step of the chain. -/
  | chain (e : Timeline.Event)
  /-- A follow operation. -/
  | follow (o : FollowOperation)
  /-- A reblog operation. -/
  | reblog (o : ReblogOperation)

/-- What the plugin does with a step of the chain. -/
def afterStep (cfg : Settings) (e : Timeline.Event) (s t : ChainState) (p : Plugin) : Plugin :=
  match e with
  | .operation (.comment o) => postComment cfg t o p
  | .operation (.deleteComment o) => preDelete s o p
  | _ => p

/-- The steps of a run; what fails is undone and is none. -/
def Step (env : Env) (cfg : Settings) : Event → Observed → Observed → Prop
  | .chain e, s, t =>
    Occurs env e s.chain t.chain ∧ t.plugin = afterStep cfg e s.chain t.chain s.plugin
  | .follow o, s, t => t.chain = s.chain ∧
    ∃ f, FollowCounts.evaluate o s.plugin.following = .ok f ∧
      t.plugin = { s.plugin with following := f }
  | .reblog o, s, t => t.chain = s.chain ∧ o.validate = .ok () ∧
    applyReblog cfg s.chain o s.plugin = .ok t.plugin

/-- The first state. -/
def start (env : Env) (initSupply : ℕ) : Observed := ⟨initGenesis env initSupply, .empty⟩

/-- The feed of an account. -/
def feedOf (p : Plugin) (a : AccountName) : List FeedObject := p.feeds.rows.filter fun f => f.account = a

/-- The blog of an account. -/
def blogOf (p : Plugin) (a : AccountName) : List BlogObject := p.blogs.rows.filter fun b => b.account = a

/-- The entries of the feed and of the blog of each account have different numbers and comments,
and they are at most one more than `max_feed_size`. -/
structure WithinBounds (cfg : Settings) (p : Plugin) : Prop where
  feedIds : ∀ a, ((feedOf p a).map (·.accountFeedId)).Nodup
  feedComments : ∀ a, ((feedOf p a).map (·.comment)).Nodup
  feedSize : ∀ a, (feedOf p a).length ≤ cfg.maxFeedSize.toNat + 1
  blogIds : ∀ a, ((blogOf p a).map (·.blogFeedId)).Nodup
  blogComments : ∀ a, ((blogOf p a).map (·.comment)).Nodup
  blogSize : ∀ a, (blogOf p a).length ≤ cfg.maxFeedSize.toNat + 1

/-- A follower gets an entry only where there is room. -/
def RoomInFeed (cfg : Settings) (c : ℕ) (feeds : Table FeedObject) (follower : AccountName) : Prop :=
  feeds.find (isEntry feedNumbering FeedObject.comment c follower) = none →
    Spacious feedNumbering cfg.maxFeedSize feeds follower

/-- An author gets an entry only where there is room. -/
def RoomInBlog (cfg : Settings) (c : ℕ) (blogs : Table BlogObject) (author : AccountName) : Prop :=
  blogs.find (isEntry blogNumbering BlogObject.comment c author) = none →
    Spacious blogNumbering cfg.maxFeedSize blogs author

/-- A new post finds room in the feeds and in the blog that it goes to, and a reblogged one in
the feeds; and the blog of an account that reblogs has no more entries than `max_feed_size`. -/
def Room (cfg : Settings) (m : Moment Observed Event) : Prop :=
  match m.event with
  | .chain (.operation (.comment o)) => ∀ c,
    m.after.chain.comments.find (CommentObject.hasPermlink o.author o.permlink) = some c →
    o.parentAuthor.size = 0 → c.created = m.after.chain.dgp.time →
      (cfg.startFeeds ≤ m.after.chain.dgp.time →
        ∀ a ∈ followersOf m.before.plugin.following o.author,
          RoomInFeed cfg c.id m.before.plugin.feeds a) ∧
      RoomInBlog cfg c.id m.before.plugin.blogs o.author
  | .reblog o => ∀ c,
    m.before.chain.comments.find (CommentObject.hasPermlink o.author o.permlink) = some c →
      (cfg.startFeeds ≤ m.before.chain.dgp.time →
        ∀ a ∈ followersOf m.before.plugin.following o.account,
          RoomInFeed cfg c.id m.before.plugin.feeds a) ∧
      (blogOf m.before.plugin o.account).length ≤ cfg.maxFeedSize.toNat
  | _ => True

end Steps

section Followers

variable {s : Follows.State} {following : AccountName}

/-- Every follower is listed once. -/
theorem followersOf_nodup (h : (s.follows.rows.map pair).Nodup) (following : AccountName) :
    (followersOf s following).Nodup := by
  unfold followersOf
  have hfilter : ((s.follows.rows.filter fun f => f.following = following).map pair).Nodup :=
    h.sublist (List.filter_sublist.map _)
  have hsorted : ((s.follows.select (fun f => f.following = following)
      fun a b => a.follower.packed ≤ b.follower.packed).map pair).Nodup := by
    unfold Table.select
    exact ((List.perm_insertionSort _ _).map pair).nodup_iff.mpr hfilter
  have hfollows := hsorted.sublist (List.filter_sublist (p := FollowObject.follows).map pair)
  refine List.Nodup.of_map (fun follower => (follower, following)) ?_
  rw [List.map_map]
  refine (List.map_congr_left fun f hf => ?_) ▸ hfollows
  have hmem := (List.mem_filter.mp hf).1
  unfold Table.select at hmem
  rw [List.mem_insertionSort] at hmem
  have hfollowing : f.following = following := of_decide_eq_true (List.mem_filter.mp hmem).2
  unfold pair
  rw [hfollowing]
  rfl

end Followers

section Loops

variable {cfg : Settings} {now : TimePointSec} {c : ℕ} {account follower : AccountName}
  {feeds feeds' : Table FeedObject}

/-- The bound of feeds. -/
abbrev FeedsBounded (cfg : Settings) (feeds : Table FeedObject) : Prop :=
  Bounded feedNumbering FeedObject.comment cfg.maxFeedSize feeds

/-- The bound of blogs. -/
abbrev BlogsBounded (cfg : Settings) (blogs : Table BlogObject) : Prop :=
  Bounded blogNumbering BlogObject.comment cfg.maxFeedSize blogs

/-- Whether there is room is seen from the entries of the account. -/
theorem RoomInFeed.of_same {other : AccountName} (hne : follower ≠ other)
    (h : SameOthers feedNumbering other feeds feeds') (hroom : RoomInFeed cfg c feeds follower) :
    RoomInFeed cfg c feeds' follower := by
  have hfilter := h (owned feedNumbering follower) fun e he howner =>
    hne ((of_decide_eq_true he).symm.trans howner)
  have hmem : ∀ e : FeedObject, e.account = follower → (e ∈ feeds'.rows ↔ e ∈ feeds.rows) := by
    intro e he
    have hiff : e ∈ feeds'.rows.filter (owned feedNumbering follower) ↔
        e ∈ feeds.rows.filter (owned feedNumbering follower) := by rw [hfilter]
    have howned : owned feedNumbering follower e = true := decide_eq_true he
    rw [List.mem_filter, List.mem_filter] at hiff
    exact ⟨fun h => (hiff.mp ⟨h, howned⟩).1, fun h => (hiff.mpr ⟨h, howned⟩).1⟩
  intro hnone hlast hfree
  have hnone' : feeds.find (isEntry feedNumbering FeedObject.comment c follower) = none := by
    refine List.find?_eq_none.mpr fun e he hentry => ?_
    unfold isEntry at hentry
    have howner : e.account = follower := of_decide_eq_true (Bool.and_eq_true_iff.mp hentry).2
    exact List.find?_eq_none.mp hnone e ((hmem e howner).mpr he) hentry
  obtain ⟨last, hlast, howner, hnumber⟩ := hlast
  have hcount : count feedNumbering feeds' follower = count feedNumbering feeds follower := by
    unfold count
    rw [List.countP_eq_length_filter, List.countP_eq_length_filter, hfilter]
  rw [hcount]
  exact hroom hnone' ⟨last, (hmem last howner).mp hlast, howner, hnumber⟩
    fun e he heOwner => hfree e ((hmem e heOwner).mpr he) heOwner

/-- A post in the feed of a follower. -/
theorem postFeed_bounded (h : FeedsBounded cfg feeds) (hroom : RoomInFeed cfg c feeds follower)
    (hpost : postFeed cfg c follower feeds = .ok feeds') :
    FeedsBounded cfg feeds' ∧ SameOthers feedNumbering follower feeds feeds' :=
  postEntry_bounded hpost h (fun _ _ => rfl) (fun _ _ => rfl) hroom

/-- A post in the blog of its author. -/
theorem postBlog_bounded {blogs blogs' : Table BlogObject} (h : BlogsBounded cfg blogs)
    (hroom : RoomInBlog cfg c blogs account) (hpost : postBlog cfg c account blogs = .ok blogs') :
    BlogsBounded cfg blogs' :=
  (postEntry_bounded hpost h (fun _ _ => rfl) (fun _ _ => rfl) hroom).1

/-- The loop over the followers keeps the bound, wherever it ends. -/
theorem postFeeds_bounded (accounts : List AccountName) (hnodup : accounts.Nodup)
    (h : FeedsBounded cfg feeds) (hroom : ∀ a ∈ accounts, RoomInFeed cfg c feeds a) :
    FeedsBounded cfg (postFeeds cfg c accounts feeds).1 := by
  induction accounts generalizing feeds with
  | nil => exact h
  | cons a rest ih =>
    rw [List.nodup_cons] at hnodup
    unfold postFeeds
    cases hpost : postFeed cfg c a feeds with
    | error e => exact h
    | ok next =>
      obtain ⟨hnext, hothers⟩ := postFeed_bounded h (hroom a List.mem_cons_self) hpost
      refine ih hnodup.2 hnext fun b hb => ?_
      have hne : b ≠ a := fun hba => hnodup.1 (hba ▸ hb)
      exact (hroom b (List.mem_cons_of_mem _ hb)).of_same hne hothers

/-- A reblogged post in the feed of a follower. -/
theorem reblogFeed_bounded (h : FeedsBounded cfg feeds) (hroom : RoomInFeed cfg c feeds follower)
    (hreblog : reblogFeed cfg now c account feeds follower = .ok feeds') :
    FeedsBounded cfg feeds' ∧ SameOthers feedNumbering follower feeds feeds' := by
  unfold reblogFeed at hreblog
  obtain ⟨changed, hchanged, rfl⟩ := map_eq_ok hreblog
  cases hfind : feeds.find (isEntry feedNumbering FeedObject.comment c follower) with
  | none =>
    rw [hfind] at hchanged
    exact ⟨h.create_trimmed (fun _ => rfl) (fun _ => rfl) hchanged (hroom hfind),
      (SameOthers.create (fun _ => rfl) hchanged).trimmed⟩
  | some e =>
    rw [hfind] at hchanged
    have hkept : ∀ a b : FeedObject, (Except.ok { a with
        rebloggedBy := a.rebloggedBy ++ [account], reblogs := a.reblogs + 1 } : Except Exc FeedObject) =
          .ok b → (b.account, b.accountFeedId, b.comment) = (a.account, a.accountFeedId, a.comment) := by
      intro a b hab
      rw [← Except.ok.inj hab]
    have hkeys := Table.modify_map_eq hchanged hkept
    have hbounded : FeedsBounded cfg changed := by
      have hnumbers : changed.rows.map (fun f => (f.account, f.accountFeedId)) =
          feeds.rows.map fun f => (f.account, f.accountFeedId) :=
        map_eq_of_map_eq (fun k : AccountName × UInt32 × ℕ => (k.1, k.2.1)) (fun _ => rfl) hkeys
      have hcomments : changed.rows.map (fun f => (f.account, f.comment)) =
          feeds.rows.map fun f => (f.account, f.comment) :=
        map_eq_of_map_eq (fun k : AccountName × UInt32 × ℕ => (k.1, k.2.2)) (fun _ => rfl) hkeys
      refine ⟨?_, ?_, fun owner => ?_⟩
      · have hdistinct : (feeds.rows.map fun f => (f.account, f.accountFeedId)).Nodup := h.numbers
        rwa [← hnumbers] at hdistinct
      · have hdistinct : (feeds.rows.map fun f => (f.account, f.comment)).Nodup := h.comments
        rwa [← hcomments] at hdistinct
      · have howners : changed.rows.map (·.account) = feeds.rows.map (·.account) :=
          map_eq_of_map_eq (fun k : AccountName × UInt32 × ℕ => k.1) (fun _ => rfl) hkeys
        have hcounts : ∀ t : Table FeedObject, count feedNumbering t owner =
            (t.rows.map (·.account)).countP fun a => a = owner := by
          intro t
          unfold count
          rw [List.countP_map]
          rfl
        rw [hcounts, howners, ← hcounts]
        exact h.size owner
    refine ⟨hbounded.of_sublist (trim_sublist _ _ _ _ _), SameOthers.trimmed fun p hp => ?_⟩
    obtain ⟨before, row, row', after, hrows, hrows', -, hrow, hnew⟩ := Table.modify_rows hchanged
    have howner : row.account = follower := by
      unfold isEntry at hrow
      exact of_decide_eq_true (Bool.and_eq_true_iff.mp hrow).2
    have hrow' : row'.account = follower := by
      rw [← Except.ok.inj hnew]
      exact howner
    have hnot : ¬ p row = true := fun hpr => hp row hpr howner
    have hnot' : ¬ p row' = true := fun hpr => hp row' hpr hrow'
    rw [hrows, hrows', List.filter_append, List.filter_append, List.filter_cons_of_neg hnot,
      List.filter_cons_of_neg hnot']

/-- The loop over the followers of an account that reblogs. -/
theorem reblogLoop_bounded (accounts : List AccountName) (hnodup : accounts.Nodup)
    (h : FeedsBounded cfg feeds) (hroom : ∀ a ∈ accounts, RoomInFeed cfg c feeds a)
    (hloop : accounts.foldlM (reblogFeed cfg now c account) feeds = .ok feeds') :
    FeedsBounded cfg feeds' := by
  induction accounts generalizing feeds with
  | nil =>
    obtain rfl := Except.ok.inj hloop
    exact h
  | cons a rest ih =>
    rw [List.nodup_cons] at hnodup
    rw [List.foldlM_cons] at hloop
    obtain ⟨next, hreblog, hloop⟩ := bind_eq_ok hloop
    obtain ⟨hnext, hothers⟩ := reblogFeed_bounded h (hroom a List.mem_cons_self) hreblog
    refine ih hnodup.2 hnext (fun b hb => ?_) hloop
    have hne : b ≠ a := fun hba => hnodup.1 (hba ▸ hb)
    exact (hroom b (List.mem_cons_of_mem _ hb)).of_same hne hothers

end Loops

section Kept

variable {cfg : Settings} {p q : Plugin} {now : TimePointSec} {c : ℕ} {author : AccountName}

/-- What a run keeps. -/
structure Sound (cfg : Settings) (p : Plugin) : Prop where
  pairs : (p.following.follows.rows.map pair).Nodup
  feeds : FeedsBounded cfg p.feeds
  blogs : BlogsBounded cfg p.blogs

/-- Empty feeds are sound. -/
theorem sound_empty (cfg : Settings) : Sound cfg .empty := ⟨List.nodup_nil, bounded_empty, bounded_empty⟩

/-- Sound feeds are within their bounds. -/
theorem Sound.withinBounds (h : Sound cfg p) : WithinBounds cfg p where
  feedIds := fun a => (h.feeds.of_owner a).1
  feedComments := fun a => (h.feeds.of_owner a).2.1
  feedSize := fun a => (h.feeds.of_owner a).2.2
  blogIds := fun a => (h.blogs.of_owner a).1
  blogComments := fun a => (h.blogs.of_owner a).2.1
  blogSize := fun a => (h.blogs.of_owner a).2.2

/-- A new post. -/
theorem Sound.newPost (h : Sound cfg p)
    (hfeeds : cfg.startFeeds ≤ now → ∀ a ∈ followersOf p.following author, RoomInFeed cfg c p.feeds a)
    (hblog : RoomInBlog cfg c p.blogs author) : Sound cfg (Feeds.newPost cfg now c author p) := by
  have hloop : FeedsBounded cfg (if cfg.startFeeds ≤ now
      then postFeeds cfg c (followersOf p.following author) p.feeds else (p.feeds, true)).1 := by
    by_cases hstart : cfg.startFeeds ≤ now
    · rw [if_pos hstart]
      exact postFeeds_bounded _ (followersOf_nodup h.pairs author) h.feeds (hfeeds hstart)
    · rw [if_neg hstart]
      exact h.feeds
  unfold Feeds.newPost
  dsimp only
  revert hloop
  generalize (if cfg.startFeeds ≤ now
    then postFeeds cfg c (followersOf p.following author) p.feeds else (p.feeds, true)) = result
  intro hloop
  obtain ⟨feeds, _ | _⟩ := result
  · exact ⟨h.pairs, hloop, h.blogs⟩
  · dsimp only
    cases hpost : postBlog cfg c author p.blogs with
    | error e => exact ⟨h.pairs, hloop, h.blogs⟩
    | ok blogs =>
      exact ⟨h.pairs, hloop, postBlog_bounded h.blogs hblog hpost⟩

/-- The deletion of a comment. -/
theorem Sound.preDelete (h : Sound cfg p) (s : ChainState) (o : DeleteCommentOperation) :
    Sound cfg (Feeds.preDelete s o p) := by
  unfold Feeds.preDelete
  split
  · exact h
  · split
    · exact h
    · exact ⟨h.pairs, h.feeds.of_sublist List.filter_sublist, h.blogs.of_sublist List.filter_sublist⟩

/-- A reblogged post. -/
theorem Sound.applyReblog (h : Sound cfg p) {s : ChainState} {o : ReblogOperation}
    (hroom : ∀ c, s.comments.find (CommentObject.hasPermlink o.author o.permlink) = some c →
      (cfg.startFeeds ≤ s.dgp.time → ∀ a ∈ followersOf p.following o.account,
        RoomInFeed cfg c.id p.feeds a) ∧ (blogOf p o.account).length ≤ cfg.maxFeedSize.toNat)
    (happly : Feeds.applyReblog cfg s o p = .ok q) : Sound cfg q := by
  unfold Feeds.applyReblog at happly
  obtain ⟨comment, hcomment, happly⟩ := bind_eq_ok happly
  obtain ⟨_, -, happly⟩ := bind_eq_ok happly
  obtain ⟨_, -, happly⟩ := bind_eq_ok happly
  obtain ⟨blogs, hblogs, happly⟩ := bind_eq_ok happly
  obtain ⟨stats, -, happly⟩ := bind_eq_ok happly
  obtain ⟨feeds, hfeeds, happly⟩ := bind_eq_ok happly
  obtain rfl := Except.ok.inj happly
  have hfound : s.comments.find (CommentObject.hasPermlink o.author o.permlink) = some comment := by
    cases hfind : s.comments.find (CommentObject.hasPermlink o.author o.permlink) with
    | none =>
      rw [hfind] at hcomment
      cases hcomment
    | some found =>
      rw [hfind] at hcomment
      rw [Except.ok.inj hcomment]
  obtain ⟨hroomFeeds, hfew⟩ := hroom comment hfound
  refine ⟨h.pairs, ?_, ?_⟩
  · unfold reblogFeeds at hfeeds
    by_cases hstart : cfg.startFeeds ≤ s.dgp.time
    · rw [if_pos hstart] at hfeeds
      exact reblogLoop_bounded _ (followersOf_nodup h.pairs o.account) h.feeds (hroomFeeds hstart) hfeeds
    · rw [if_neg hstart] at hfeeds
      rw [← Except.ok.inj hfeeds]
      exact h.feeds
  · have hcount : count blogNumbering p.blogs o.account ≤ cfg.maxFeedSize.toNat := by
      unfold count
      rw [List.countP_eq_length_filter]
      exact hfew
    refine h.blogs.create ?_ hblogs hcount
    intro id
    rfl

/-- A follow operation leaves feeds and blogs alone. -/
theorem Sound.follow (h : Sound cfg p) {o : FollowOperation} {f : Follows.State}
    (hevaluate : FollowCounts.evaluate o p.following = .ok f) :
    Sound cfg { p with following := f } := by
  obtain ⟨-, -, hfollows, -⟩ := FollowCounts.evaluate_eq_ok hevaluate
  exact ⟨(setFollow_spec hfollows h.pairs).1, h.feeds, h.blogs⟩

end Kept

section Runs

variable {env : Env} {cfg : Settings} {s : Observed} {m : Moment Observed Event}
  {run : List (Moment Observed Event)}

/-- A post as the plugin sees it. -/
theorem Sound.postComment {p : Plugin} (h : Sound cfg p) {t : ChainState} {o : CommentOperation}
    (hroom : ∀ c, t.comments.find (CommentObject.hasPermlink o.author o.permlink) = some c →
      o.parentAuthor.size = 0 → c.created = t.dgp.time →
        (cfg.startFeeds ≤ t.dgp.time → ∀ a ∈ followersOf p.following o.author,
          RoomInFeed cfg c.id p.feeds a) ∧ RoomInBlog cfg c.id p.blogs o.author) :
    Sound cfg (Feeds.postComment cfg t o p) := by
  unfold Feeds.postComment
  split
  · exact h
  · next hroot =>
    split
    · exact h
    · next c hfind =>
      split
      · exact h
      · next hnew =>
        obtain ⟨hfeeds, hblog⟩ := hroom c hfind (Nat.eq_zero_of_not_pos hroot) (not_not.mp hnew)
        exact h.newPost hfeeds hblog

/-- A step that finds room keeps the bounds. -/
theorem Sound.step (hs : Sound cfg m.before.plugin) (hm : Step env cfg m.event m.before m.after)
    (hroom : Room cfg m) : Sound cfg m.after.plugin := by
  obtain ⟨s, event, t⟩ := m
  cases event with
  | follow o =>
    obtain ⟨-, f, hevaluate, hafter⟩ := hm
    rw [hafter]
    exact hs.follow hevaluate
  | reblog o =>
    obtain ⟨-, -, happly⟩ := hm
    exact hs.applyReblog hroom happly
  | chain e =>
    obtain ⟨-, hafter⟩ := hm
    rw [hafter]
    unfold afterStep
    split
    · exact hs.postComment hroom
    · exact hs.preDelete _ _
    · exact hs

/-- In every run whose posts and reblogs find room, feeds and blogs keep to their bounds. -/
theorem feeds_within_bounds {initSupply : ℕ} (h : Path (Step env cfg) (start env initSupply) run s)
    (hroom : ∀ m ∈ run, Room cfg m) :
    WithinBounds cfg s.plugin ∧ ∀ m ∈ run, WithinBounds cfg m.before.plugin := by
  have hsound : ∀ {run' : List (Moment Observed Event)} {t : Observed},
      Path (Step env cfg) (start env initSupply) run' t → (∀ m ∈ run', Room cfg m) →
        Sound cfg t.plugin := by
    intro run' t hpath hroom'
    exact hpath.invariant (P := fun t => Sound cfg t.plugin) (sound_empty cfg)
      fun m hm hstep hs => hs.step hstep (hroom' m hm)
  refine ⟨(hsound h hroom).withinBounds, fun m hm => ?_⟩
  obtain ⟨earlier, later, rfl, hearlier, -, -⟩ := h.moment hm
  exact (hsound hearlier fun m' hm' => hroom m' (List.mem_append_left _ hm')).withinBounds

end Runs

section Sample

open ChainRun CommentParents

variable {cfg : Settings} {s t : Observed}

/-- No number of a feed or a blog is the last one. -/
def farFromWrap (p : Plugin) : Bool :=
  p.feeds.rows.all (fun f => f.accountFeedId ≠ UInt32.ofNat (2 ^ 32 - 1)) &&
    p.blogs.rows.all fun b => b.blogFeedId ≠ UInt32.ofNat (2 ^ 32 - 1)

/-- Far from the wrap there is room in the feed. -/
theorem roomInFeed_of (h : farFromWrap s.plugin = true) (c : ℕ) (a : AccountName) :
    RoomInFeed cfg c s.plugin.feeds a := by
  intro _ hlast
  obtain ⟨f, hf, -, hnumber⟩ := hlast
  have hne := List.all_eq_true.mp (Bool.and_eq_true_iff.mp h).1 f hf
  exact absurd hnumber (of_decide_eq_true hne)

/-- Far from the wrap there is room in the blog. -/
theorem roomInBlog_of (h : farFromWrap s.plugin = true) (c : ℕ) (a : AccountName) :
    RoomInBlog cfg c s.plugin.blogs a := by
  intro _ hlast
  obtain ⟨b, hb, -, hnumber⟩ := hlast
  have hne := List.all_eq_true.mp (Bool.and_eq_true_iff.mp h).2 b hb
  exact absurd hnumber (of_decide_eq_true hne)

/-- The smallest feeds, from the start on. -/
def sampleSettings : Settings := ⟨1, 0⟩

/-- The calls of the small instance. -/
def feedContext : Context := ⟨sampleEnv, {}, false, 10000⟩

/-- A miner posts. -/
def minerPost (i : ℕ) : CommentOperation := { firstPost with author := initMinerName i }

/-- A miner reblogs the post of another. -/
def minerReblog (i j : ℕ) : ReblogOperation := ⟨initMinerName i, initMinerName j, bytesOf "post"⟩

/-- A miner follows another. -/
def minerFollow (i j : ℕ) : FollowOperation := ⟨initMinerName i, initMinerName j, [bytesOf "blog"]⟩

/-- A result is there and satisfies a condition. -/
def yields {α : Type} (result : Except Exc α) (p : α → Bool) : Bool :=
  match result with
  | .ok a => p a
  | .error _ => false

/-- A result that passes a test is there. -/
theorem of_yields {α : Type} {result : Except Exc α} {p : α → Bool} (h : yields result p = true) :
    ∃ a, result = .ok a ∧ p a = true := by
  unfold yields at h
  split at h
  · next a => exact ⟨a, rfl, h⟩
  · cases h

/-- The state after a post. -/
def posted (i : ℕ) (s : Observed) (t : ChainState) : Observed :=
  ⟨t, postComment sampleSettings t (minerPost i) s.plugin⟩

/-- A post is a step of the small chain. -/
theorem step_post {i : ℕ} {t : ChainState}
    (h : Returns (applyOperation feedContext (.comment (minerPost i))) s.chain () t)
    (hvalid : (Operation.comment (minerPost i)).validate sampleEnv.toFcLib = .ok ())
    (hnull : NotForNull (.comment (minerPost i))) :
    Step sampleEnv sampleSettings (.chain (.operation (.comment (minerPost i)))) s (posted i s t) :=
  ⟨.operation feedContext rfl _ hvalid hnull h, rfl⟩

/-- A miner that follows three others gets the posts of all of them, so that the first one leaves
the feed, and reblogs it. -/
theorem feeds_within_bounds_trimmed : ∃ run s,
    Path (Step sampleEnv sampleSettings) (start sampleEnv 1000000) run s ∧
      run.map (·.event) = [.follow (minerFollow 3 0), .follow (minerFollow 3 1),
        .follow (minerFollow 3 2), .chain (.operation (.comment (minerPost 0))),
        .chain (.operation (.comment (minerPost 1))),
        .chain (.operation (.comment (minerPost 2))), .reblog (minerReblog 3 0)] ∧
      (feedOf s.plugin (initMinerName 3)).map (·.comment) = [1, 2] ∧
      WithinBounds sampleSettings s.plugin ∧ ∀ m ∈ run, WithinBounds sampleSettings m.before.plugin := by
  have hends : yields (FollowCounts.evaluate (minerFollow 3 0) .empty) (fun f₁ =>
      yields (FollowCounts.evaluate (minerFollow 3 1) f₁) fun f₂ =>
      yields (FollowCounts.evaluate (minerFollow 3 2) f₂) fun f₃ =>
      endsIn (applyOperation feedContext (.comment (minerPost 0))) (initGenesis sampleEnv 1000000)
        fun _ s₁ =>
      endsIn (applyOperation feedContext (.comment (minerPost 1))) s₁ fun _ s₂ =>
      endsIn (applyOperation feedContext (.comment (minerPost 2))) s₂ fun _ s₃ =>
        let o₀ : Observed := ⟨initGenesis sampleEnv 1000000, { Plugin.empty with following := f₃ }⟩
        let o₁ := posted 0 o₀ s₁
        let o₂ := posted 1 o₁ s₂
        let o₃ := posted 2 o₂ s₃
        farFromWrap o₁.plugin && farFromWrap o₂.plugin && farFromWrap o₃.plugin &&
          decide ((blogOf o₃.plugin (initMinerName 3)).length ≤ 1) &&
          yields (applyReblog sampleSettings s₃ (minerReblog 3 0) o₃.plugin) fun q =>
            decide ((feedOf q (initMinerName 3)).map (·.comment) = [1, 2])) = true := by
    decide +kernel
  obtain ⟨f₁, hf₁, hends⟩ := of_yields hends
  obtain ⟨f₂, hf₂, hends⟩ := of_yields hends
  obtain ⟨f₃, hf₃, hends⟩ := of_yields hends
  obtain ⟨_, s₁, h₁, hends⟩ := returns_of_endsIn hends
  obtain ⟨_, s₂, h₂, hends⟩ := returns_of_endsIn hends
  obtain ⟨_, s₃, h₃, hends⟩ := returns_of_endsIn hends
  simp only [Bool.and_eq_true, decide_eq_true_eq] at hends
  obtain ⟨⟨⟨⟨hfar₁, hfar₂⟩, hfar₃⟩, hfew⟩, hends⟩ := hends
  obtain ⟨q, hq, hfeed⟩ := of_yields hends
  have hpath : ∀ o₀ o₁ o₂ o₃ : Observed,
      o₀ = ⟨initGenesis sampleEnv 1000000, { Plugin.empty with following := f₃ }⟩ →
      o₁ = posted 0 o₀ s₁ → o₂ = posted 1 o₁ s₂ → o₃ = posted 2 o₂ s₃ →
      Path (Step sampleEnv sampleSettings) (start sampleEnv 1000000)
        [⟨start sampleEnv 1000000, .follow (minerFollow 3 0),
            ⟨initGenesis sampleEnv 1000000, { Plugin.empty with following := f₁ }⟩⟩,
          ⟨⟨initGenesis sampleEnv 1000000, { Plugin.empty with following := f₁ }⟩,
            .follow (minerFollow 3 1),
            ⟨initGenesis sampleEnv 1000000, { Plugin.empty with following := f₂ }⟩⟩,
          ⟨⟨initGenesis sampleEnv 1000000, { Plugin.empty with following := f₂ }⟩,
            .follow (minerFollow 3 2), o₀⟩,
          ⟨o₀, .chain (.operation (.comment (minerPost 0))), o₁⟩,
          ⟨o₁, .chain (.operation (.comment (minerPost 1))), o₂⟩,
          ⟨o₂, .chain (.operation (.comment (minerPost 2))), o₃⟩,
          ⟨o₃, .reblog (minerReblog 3 0), ⟨s₃, q⟩⟩] ⟨s₃, q⟩ := by
    rintro _ _ _ _ rfl rfl rfl rfl
    exact ⟨rfl, ⟨rfl, f₁, hf₁, rfl⟩, rfl, ⟨rfl, f₂, hf₂, rfl⟩, rfl, ⟨rfl, f₃, hf₃, rfl⟩,
      rfl, step_post h₁ (by decide +kernel) ⟨by decide, by decide⟩,
      rfl, step_post h₂ (by decide +kernel) ⟨by decide, by decide⟩,
      rfl, step_post h₃ (by decide +kernel) ⟨by decide, by decide⟩,
      rfl, ⟨rfl, by decide, hq⟩, rfl⟩
  have hbounds := feeds_within_bounds (hpath _ _ _ _ rfl rfl rfl rfl) (by
    intro m hm
    simp only [List.mem_cons, List.not_mem_nil, or_false] at hm
    rcases hm with rfl | rfl | rfl | rfl | rfl | rfl | rfl
    · trivial
    · trivial
    · trivial
    · intro c _ _ _
      exact ⟨fun _ a _ => roomInFeed_of rfl c.id a, roomInBlog_of rfl c.id _⟩
    · intro c _ _ _
      exact ⟨fun _ a _ => roomInFeed_of hfar₁ c.id a, roomInBlog_of hfar₁ c.id _⟩
    · intro c _ _ _
      exact ⟨fun _ a _ => roomInFeed_of hfar₂ c.id a, roomInBlog_of hfar₂ c.id _⟩
    · intro c _
      exact ⟨fun _ a _ => roomInFeed_of hfar₃ c.id a, hfew⟩)
  exact ⟨_, _, hpath _ _ _ _ rfl rfl rfl rfl, rfl, of_decide_eq_true hfeed, hbounds⟩

/-- Nothing of a blog goes when its owner reblogs. -/
theorem blog_exceeds_bound : ∃ run s,
    Path (Step sampleEnv sampleSettings) (start sampleEnv 1000000) run s ∧
      run.map (·.event) = [.chain (.operation (.comment (minerPost 0))),
        .chain (.operation (.comment (minerPost 1))), .chain (.operation (.comment (minerPost 2))),
        .reblog (minerReblog 3 0), .reblog (minerReblog 3 1), .reblog (minerReblog 3 2)] ∧
      (blogOf s.plugin (initMinerName 3)).length = 3 ∧ ¬ WithinBounds sampleSettings s.plugin := by
  have hends : endsIn (applyOperation feedContext (.comment (minerPost 0)))
      (initGenesis sampleEnv 1000000) (fun _ s₁ =>
        endsIn (applyOperation feedContext (.comment (minerPost 1))) s₁ fun _ s₂ =>
        endsIn (applyOperation feedContext (.comment (minerPost 2))) s₂ fun _ s₃ =>
        let o₃ := posted 2 (posted 1 (posted 0 (start sampleEnv 1000000) s₁) s₂) s₃
        yields (applyReblog sampleSettings s₃ (minerReblog 3 0) o₃.plugin) fun p₄ =>
        yields (applyReblog sampleSettings s₃ (minerReblog 3 1) p₄) fun p₅ =>
        yields (applyReblog sampleSettings s₃ (minerReblog 3 2) p₅) fun p₆ =>
        decide ((blogOf p₆ (initMinerName 3)).length = 3)) = true := by
    decide +kernel
  obtain ⟨_, s₁, h₁, hends⟩ := returns_of_endsIn hends
  obtain ⟨_, s₂, h₂, hends⟩ := returns_of_endsIn hends
  obtain ⟨_, s₃, h₃, hends⟩ := returns_of_endsIn hends
  obtain ⟨p₄, h₄, hends⟩ := of_yields hends
  obtain ⟨p₅, h₅, hends⟩ := of_yields hends
  obtain ⟨p₆, h₆, hends⟩ := of_yields hends
  have hlength : (blogOf p₆ (initMinerName 3)).length = 3 := of_decide_eq_true hends
  have hpath : ∀ o₁ o₂ o₃ : Observed, o₁ = posted 0 (start sampleEnv 1000000) s₁ →
      o₂ = posted 1 o₁ s₂ → o₃ = posted 2 o₂ s₃ →
      Path (Step sampleEnv sampleSettings) (start sampleEnv 1000000)
        [⟨start sampleEnv 1000000, .chain (.operation (.comment (minerPost 0))), o₁⟩,
          ⟨o₁, .chain (.operation (.comment (minerPost 1))), o₂⟩,
          ⟨o₂, .chain (.operation (.comment (minerPost 2))), o₃⟩,
          ⟨o₃, .reblog (minerReblog 3 0), ⟨s₃, p₄⟩⟩, ⟨⟨s₃, p₄⟩, .reblog (minerReblog 3 1), ⟨s₃, p₅⟩⟩,
          ⟨⟨s₃, p₅⟩, .reblog (minerReblog 3 2), ⟨s₃, p₆⟩⟩] ⟨s₃, p₆⟩ := by
    rintro _ _ _ rfl rfl rfl
    exact ⟨rfl, step_post h₁ (by decide +kernel) ⟨by decide, by decide⟩,
      rfl, step_post h₂ (by decide +kernel) ⟨by decide, by decide⟩,
      rfl, step_post h₃ (by decide +kernel) ⟨by decide, by decide⟩,
      rfl, ⟨rfl, by decide, h₄⟩, rfl, ⟨rfl, by decide, h₅⟩, rfl, ⟨rfl, by decide, h₆⟩, rfl⟩
  refine ⟨_, _, hpath _ _ _ rfl rfl rfl, rfl, hlength, fun hbounds => ?_⟩
  have hsize := hbounds.blogSize (initMinerName 3)
  have hlimit : sampleSettings.maxFeedSize.toNat = 1 := rfl
  rw [hlimit] at hsize
  have hlong : (blogOf p₆ (initMinerName 3)).length ≤ 2 := hsize
  omega

end Sample

end Whaleshares.FeedBounds
