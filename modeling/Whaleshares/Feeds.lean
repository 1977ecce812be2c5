import Whaleshares.CommentEvaluators
import Whaleshares.Follows
import Whaleshares.NumberedEntries

/-!
# Feeds and blogs

The plugin `follow` (`follow_plugin.cpp`, `follow_evaluators.cpp`) puts every new root post
into the feeds of the accounts that follow its author and into the blog of the author, and a
reblogged post into the blog of the account that reblogs it and into the feeds of its
followers. The entries of an account are numbered; after an insertion the oldest ones go, but
not those of the blog of an account that reblogs.

What a post makes the plugin throw is caught by the signal and leaves what was done before it.
-/

namespace Whaleshares.Feeds

open Fc Protocol Objects Program Database CommentEvaluators NumberedEntries
open Follows hiding count

section Objects

/-- `feed_object` -/
structure FeedObject where
  id : ℕ
  account : AccountName
  rebloggedBy : List AccountName
  firstRebloggedBy : AccountName
  firstRebloggedOn : TimePointSec
  comment : ℕ
  reblogs : UInt32
  accountFeedId : UInt32
  deriving DecidableEq

/-- `blog_object` -/
structure BlogObject where
  id : ℕ
  account : AccountName
  comment : ℕ
  rebloggedOn : TimePointSec
  blogFeedId : UInt32
  deriving DecidableEq

/-- `blog_author_stats_object` -/
structure BlogAuthorStatsObject where
  id : ℕ
  blogger : AccountName
  guest : AccountName
  count : UInt32
  deriving DecidableEq

/-- The options of the plugin. -/
structure Settings where
  /-- `max_feed_size` -/
  maxFeedSize : UInt32
  /-- `start_feeds` -/
  startFeeds : TimePointSec

/-- The tables of the plugin. -/
structure Plugin where
  /-- `follow_index` and `follow_count_index` -/
  following : Follows.State
  /-- `feed_index` -/
  feeds : Table FeedObject
  /-- `blog_index` -/
  blogs : Table BlogObject
  /-- `blog_author_stats_index` -/
  stats : Table BlogAuthorStatsObject

/-- The tables before any operation. -/
def Plugin.empty : Plugin := ⟨.empty, .empty, .empty, .empty⟩

/-- `reblog_operation` -/
structure ReblogOperation where
  account : AccountName
  author : AccountName
  permlink : Bytes

/-- `validate` -/
def ReblogOperation.validate (o : ReblogOperation) : Except Exc Unit :=
  fcAssert (o.account ≠ o.author) "You cannot reblog your own content"

end Objects

section Entries

variable {α : Type} (N : Numbering α AccountName) (comment : α → ℕ)

/-- The key of an entry in `by_comment`. -/
def isEntry (c : ℕ) (owner : AccountName) (e : α) : Bool := comment e = c && N.owner e = owner

/-- `create` of an entry; owners and numbers, and comments and owners, are unique. -/
def createEntry (f : ℕ → α) (entries : Table α) : Except Exc (Table α) :=
  entries.create couldNotInsert
    (fun a b => (N.owner a = N.owner b && N.number a = N.number b) ||
      (comment a = comment b && N.owner a = N.owner b))
    fun id => .ok (f id)

/-- The loop that removes the oldest entries of an owner. -/
def trimmed (limit next : UInt32) (owner : AccountName) (entries : Table α) : Table α :=
  trim N limit next owner entries.rows.length entries

/-- What a post does with the entries of an owner: an entry with the next number, if there is
none for the comment, and the oldest go. -/
def postEntry (limit : UInt32) (owner : AccountName) (c : ℕ) (make : ℕ → UInt32 → α)
    (entries : Table α) : Except Exc (Table α) :=
  match entries.find (isEntry N comment c owner) with
  | none =>
    (createEntry N comment (fun id => make id (nextNumber N entries owner)) entries).map
      (trimmed N limit (nextNumber N entries owner) owner)
  | some _ => .ok entries

end Entries

section Plugin

/-- The numbers of the entries of feeds. -/
def feedNumbering : Numbering FeedObject AccountName := ⟨(·.account), (·.accountFeedId)⟩

/-- The numbers of the entries of blogs. -/
def blogNumbering : Numbering BlogObject AccountName := ⟨(·.account), (·.blogFeedId)⟩

/-- The accounts that follow an account, in the order of `by_following_follower`. -/
def followersOf (s : Follows.State) (following : AccountName) : List AccountName :=
  ((s.follows.select (fun f => f.following = following)
    fun a b => a.follower.packed ≤ b.follower.packed).filter FollowObject.follows).map (·.follower)

/-- A new post in the feed of a follower. The source does not set `reblogs`. -/
def postFeed (cfg : Settings) (c : ℕ) (follower : AccountName) (feeds : Table FeedObject) :
    Except Exc (Table FeedObject) :=
  postEntry feedNumbering FeedObject.comment cfg.maxFeedSize follower c
    (fun id next => ⟨id, follower, [], .empty, 0, c, 0, next⟩) feeds

/-- A new post in the blog of its author. -/
def postBlog (cfg : Settings) (c : ℕ) (author : AccountName) (blogs : Table BlogObject) :
    Except Exc (Table BlogObject) :=
  postEntry blogNumbering BlogObject.comment cfg.maxFeedSize author c
    (fun id next => ⟨id, author, c, 0, next⟩) blogs

/-- The loop over the followers of an author; what is thrown ends it and leaves what was
done. The flag says whether the loop came to its end. -/
def postFeeds (cfg : Settings) (c : ℕ) :
    List AccountName → Table FeedObject → Table FeedObject × Bool
  | [], feeds => (feeds, true)
  | follower :: rest, feeds =>
    match postFeed cfg c follower feeds with
    | .ok feeds => postFeeds cfg c rest feeds
    | .error _ => (feeds, false)

/-- The feeds and the blog for a new root post. -/
def newPost (cfg : Settings) (now : TimePointSec) (c : ℕ) (author : AccountName) (p : Plugin) :
    Plugin :=
  let result := if cfg.startFeeds ≤ now
    then postFeeds cfg c (followersOf p.following author) p.feeds
    else (p.feeds, true)
  match result with
  | (feeds, false) => { p with feeds := feeds }
  | (feeds, true) =>
    match postBlog cfg c author p.blogs with
    | .ok blogs => { p with feeds := feeds, blogs := blogs }
    | .error _ => { p with feeds := feeds }

/-- `post_operation_visitor` for a comment, with the chain after the comment -/
def postComment (cfg : Settings) (t : ChainState) (o : CommentOperation) (p : Plugin) : Plugin :=
  if 0 < o.parentAuthor.size then p
  else
    match t.comments.find (CommentObject.hasPermlink o.author o.permlink) with
    | none => p
    | some c => if c.created ≠ t.dgp.time then p else newPost cfg t.dgp.time c.id o.author p

/-- `pre_operation_visitor` for the deletion of a comment, with the chain before it -/
def preDelete (s : ChainState) (o : DeleteCommentOperation) (p : Plugin) : Plugin :=
  match s.comments.find (CommentObject.hasPermlink o.author o.permlink) with
  | none => p
  | some c =>
    if 0 < c.parentAuthor.size then p
    else { p with
      feeds := p.feeds.remove fun f => f.comment = c.id
      blogs := p.blogs.remove fun b => b.comment = c.id }

/-- A reblogged post in the feed of a follower. -/
def reblogFeed (cfg : Settings) (now : TimePointSec) (c : ℕ) (account : AccountName)
    (feeds : Table FeedObject) (follower : AccountName) : Except Exc (Table FeedObject) :=
  let next := nextNumber feedNumbering feeds follower
  let changed := match feeds.find (isEntry feedNumbering FeedObject.comment c follower) with
    | none => createEntry feedNumbering FeedObject.comment
        (fun id => ⟨id, follower, [account], account, now, c, 1, next⟩) feeds
    | some _ => feeds.modify unknownKey (isEntry feedNumbering FeedObject.comment c follower) fun f =>
        .ok { f with rebloggedBy := f.rebloggedBy ++ [account], reblogs := f.reblogs + 1 }
  changed.map (trimmed feedNumbering cfg.maxFeedSize next follower)

/-- How often a blogger reblogged a guest. -/
def countGuest (blogger guest : AccountName) (stats : Table BlogAuthorStatsObject) :
    Except Exc (Table BlogAuthorStatsObject) :=
  match stats.first (fun s => s.blogger = blogger && s.guest = guest)
      fun a b => b.count ≤ a.count with
  | some row => stats.modify unknownKey (fun s => s.id = row.id) fun s =>
      .ok { s with count := s.count + 1 }
  | none => stats.create couldNotInsert
      (fun a b => a.blogger = b.blogger && a.guest = b.guest && a.count = b.count)
      fun id => .ok ⟨id, blogger, guest, 1⟩

/-- The feeds of the followers of an account that reblogs. -/
def reblogFeeds (cfg : Settings) (now : TimePointSec) (c : ℕ) (account : AccountName) (p : Plugin) :
    Except Exc (Table FeedObject) :=
  if cfg.startFeeds ≤ now then
    (followersOf p.following account).foldlM (reblogFeed cfg now c account) p.feeds
  else .ok p.feeds

/-- `reblog_evaluator::do_apply` -/
def applyReblog (cfg : Settings) (s : ChainState) (o : ReblogOperation) (p : Plugin) :
    Except Exc Plugin := do
  let c ← orUnknown (s.comments.find (CommentObject.hasPermlink o.author o.permlink))
  fcAssert (c.parentAuthor.size = 0) "Only top level posts can be reblogged"
  fcAssert (p.blogs.find (isEntry blogNumbering BlogObject.comment c.id o.account)).isNone
    "Account has already reblogged this post"
  let blogs ← createEntry blogNumbering BlogObject.comment
    (fun id => ⟨id, o.account, c.id, s.dgp.time, nextNumber blogNumbering p.blogs o.account⟩) p.blogs
  let stats ← countGuest o.account c.author p.stats
  let feeds ← reblogFeeds cfg s.dgp.time c.id o.account p
  pure { p with blogs := blogs, stats := stats, feeds := feeds }

end Plugin

section Bounds

variable {α : Type} {N : Numbering α AccountName} {comment : α → ℕ} {limit : UInt32}
  {entries entries' : Table α} {owner : AccountName} {c : ℕ} {x : α}

/-- The entries of each owner have different numbers and comments, and they are at most one more
than the limit. -/
structure Bounded (N : Numbering α AccountName) (comment : α → ℕ) (limit : UInt32)
    (entries : Table α) : Prop where
  numbers : Distinct N entries
  comments : (entries.rows.map fun e => (N.owner e, comment e)).Nodup
  size : ∀ owner, count N entries owner ≤ limit.toNat + 1

/-- Empty feeds are bounded. -/
theorem bounded_empty : Bounded N comment limit .empty where
  numbers := List.nodup_nil
  comments := List.nodup_nil
  size := fun _ => Nat.zero_le _

/-- The entries of one owner. -/
theorem Bounded.of_owner (h : Bounded N comment limit entries) (owner : AccountName) :
    ((entries.rows.filter (owned N owner)).map N.number).Nodup ∧
      ((entries.rows.filter (owned N owner)).map comment).Nodup ∧
      (entries.rows.filter (owned N owner)).length ≤ limit.toNat + 1 := by
  have hside : ∀ {β : Type} (f : α → β), (entries.rows.map fun e => (N.owner e, f e)).Nodup →
      ((entries.rows.filter (owned N owner)).map f).Nodup := by
    intro β f hpairs
    have hfiltered : ((entries.rows.filter (owned N owner)).map fun e => (N.owner e, f e)).Nodup :=
      hpairs.sublist (List.filter_sublist.map _)
    refine List.Nodup.of_map (fun b => (owner, b)) ?_
    rw [List.map_map]
    refine (List.map_congr_left fun e he => ?_) ▸ hfiltered
    have howner : N.owner e = owner := of_decide_eq_true (List.mem_filter.mp he).2
    rw [howner]
    rfl
  refine ⟨hside N.number h.numbers, hside comment h.comments, ?_⟩
  have hsize := h.size owner
  unfold count at hsize
  rwa [List.countP_eq_length_filter] at hsize

/-- Fewer entries are bounded, too. -/
theorem Bounded.of_sublist (h : Bounded N comment limit entries)
    (hsub : entries'.rows.Sublist entries.rows) : Bounded N comment limit entries' where
  numbers := h.numbers.of_sublist hsub
  comments := List.Nodup.sublist (hsub.map _) h.comments
  size := fun owner => (count_le_of_sublist hsub owner).trans (h.size owner)

/-- What the creation of an entry does. -/
theorem createEntry_rows {f : ℕ → α} (h : createEntry N comment f entries = .ok entries') :
    ∃ id, entries'.rows = entries.rows ++ [f id] ∧
      (Distinct N entries → Distinct N entries') ∧
      ((entries.rows.map fun e => (N.owner e, comment e)).Nodup →
        (entries'.rows.map fun e => (N.owner e, comment e)).Nodup) := by
  obtain ⟨row, hrow, hfree, hrows, -⟩ := Table.create_rows h
  obtain rfl := Except.ok.inj hrow
  refine ⟨_, hrows, fun hnumbers => ?_, fun hcomments => ?_⟩
  · unfold Distinct
    rw [hrows, List.map_append, List.map_singleton]
    refine List.Nodup.append hnumbers (List.nodup_singleton _) fun k hold hnew => ?_
    obtain ⟨old, hmem, rfl⟩ := List.mem_map.mp hold
    obtain ⟨howner, hnumber⟩ := Prod.mk.inj (List.mem_singleton.mp hnew)
    have hclash := hfree old hmem
    simp [howner, hnumber] at hclash
  · rw [hrows, List.map_append, List.map_singleton]
    refine List.Nodup.append hcomments (List.nodup_singleton _) fun k hold hnew => ?_
    obtain ⟨old, hmem, rfl⟩ := List.mem_map.mp hold
    obtain ⟨howner, hcomment⟩ := Prod.mk.inj (List.mem_singleton.mp hnew)
    have hclash := hfree old hmem
    simp [howner, hcomment] at hclash

/-- The entries of other owners. -/
theorem count_of_others (hrows : entries'.rows = entries.rows ++ [x]) {other : AccountName}
    (hother : N.owner x ≠ other) : count N entries' other = count N entries other := by
  unfold count
  rw [hrows, List.countP_append, List.countP_singleton]
  have hx : ¬ owned N other x = true := fun h => hother (of_decide_eq_true h)
  rw [if_neg hx, Nat.add_zero]

/-- A new entry of an owner that has no more than the limit. -/
theorem Bounded.create (h : Bounded N comment limit entries) {f : ℕ → α}
    (howner : ∀ id, N.owner (f id) = owner)
    (hcreate : createEntry N comment f entries = .ok entries')
    (hfew : count N entries owner ≤ limit.toNat) : Bounded N comment limit entries' := by
  obtain ⟨id, hrows, hnumbers, hcomments⟩ := createEntry_rows hcreate
  refine ⟨hnumbers h.numbers, hcomments h.comments, fun other => ?_⟩
  by_cases hother : owner = other
  · subst hother
    rw [count_append hrows (howner id)]
    omega
  · rw [count_of_others hrows (by rwa [howner])]
    exact h.size other

/-- A new entry with the next number, after which the oldest go. -/
theorem Bounded.create_trimmed (h : Bounded N comment limit entries) {f : ℕ → α}
    (howner : ∀ id, N.owner (f id) = owner)
    (hnumber : ∀ id, N.number (f id) = nextNumber N entries owner)
    (hcreate : createEntry N comment f entries = .ok entries')
    (hspacious : Spacious N limit entries owner) :
    Bounded N comment limit (trimmed N limit (nextNumber N entries owner) owner entries') := by
  obtain ⟨id, hrows, hnumbers, hcomments⟩ := createEntry_rows hcreate
  have hsub : (trimmed N limit (nextNumber N entries owner) owner entries').rows.Sublist
      entries'.rows := trim_sublist _ _ _ _ _
  refine ⟨(hnumbers h.numbers).of_sublist hsub,
    List.Nodup.sublist (hsub.map _) (hcomments h.comments), fun other => ?_⟩
  by_cases hother : owner = other
  · subst hother
    exact count_insert_trim hrows (howner id) (hnumber id) (hnumbers h.numbers) hspacious
  · refine (count_le_of_sublist hsub other).trans ?_
    rw [count_of_others hrows (by rwa [howner])]
    exact h.size other

/-- Entries that belong to others are the same. -/
def SameOthers (N : Numbering α AccountName) (owner : AccountName) (entries entries' : Table α) :
    Prop :=
  ∀ p : α → Bool, (∀ e, p e = true → N.owner e ≠ owner) →
    entries'.rows.filter p = entries.rows.filter p

/-- A new entry keeps those of the others. -/
theorem SameOthers.create {f : ℕ → α} (howner : ∀ id, N.owner (f id) = owner)
    (hcreate : createEntry N comment f entries = .ok entries') :
    SameOthers N owner entries entries' := by
  obtain ⟨id, hrows, -⟩ := createEntry_rows hcreate
  intro p hp
  have hnot : ¬ p (f id) = true := fun h => hp _ h (howner id)
  rw [hrows, List.filter_append, List.filter_cons_of_neg hnot, List.filter_nil, List.append_nil]

/-- Trimming keeps the entries of the others. -/
theorem SameOthers.trimmed {next : UInt32} (h : SameOthers N owner entries entries') :
    SameOthers N owner entries (Feeds.trimmed N limit next owner entries') :=
  fun p hp => (trim_others limit next owner _ _ hp).trans (h p hp)

/-- What a post does with the entries of an owner. -/
theorem postEntry_bounded {make : ℕ → UInt32 → α}
    (hpost : postEntry N comment limit owner c make entries = .ok entries')
    (h : Bounded N comment limit entries)
    (howner : ∀ id n, N.owner (make id n) = owner) (hnumber : ∀ id n, N.number (make id n) = n)
    (hspacious : entries.find (isEntry N comment c owner) = none → Spacious N limit entries owner) :
    Bounded N comment limit entries' ∧ SameOthers N owner entries entries' := by
  unfold postEntry at hpost
  cases hfind : entries.find (isEntry N comment c owner) with
  | none =>
    rw [hfind] at hpost
    obtain ⟨created, hcreate, rfl⟩ := map_eq_ok hpost
    exact ⟨h.create_trimmed (fun id => howner id _) (fun id => hnumber id _) hcreate
      (hspacious hfind), (SameOthers.create (fun id => howner id _) hcreate).trimmed⟩
  | some e =>
    rw [hfind] at hpost
    obtain rfl := Except.ok.inj hpost
    exact ⟨h, fun _ _ => rfl⟩

end Bounds

end Whaleshares.Feeds
