import Whaleshares.Database
import Whaleshares.FixedStrings
import Whaleshares.Process

/-!
# Tags of comments

The plugin `tags` (`tags_plugin.cpp`) keeps an object for each tag of a comment and, for each
tag, numbers about its objects. Tags come from the metadata of a comment, when it is made or
edited; a vote, a reply or a payout refreshes the objects of the comment and of those above it.

What an operation makes the plugin throw is caught by the signal and leaves what was done before
it. Objects are referred to by their ids; what happens after the use of an object that has been
removed is not defined. The scores of hotness and trend, which are floating point, and the
relations of voters, which are commented out, are left out.
-/

namespace Whaleshares.Tags

open Fc Protocol Objects Database FixedStrings

section Objects

/-- `tag_name_type`, a `fixed_string_32` -/
abbrev TagName := (UInt64 × UInt64) × (UInt64 × UInt64)

/-- The storage of `tag_name_type`. -/
def nameStorage : Storage TagName := erpair uint128 uint128

/-- `tag_name_type( str )` -/
def tagName (text : Bytes) : TagName := ofString nameStorage text

/-- `std::string( tag )` -/
def tagText (tag : TagName) : Bytes := FixedStrings.toString nameStorage tag

/-- `tag_object` -/
structure TagObject where
  id : ℕ
  tag : TagName
  created : TimePointSec
  active : TimePointSec
  cashout : TimePointSec
  netRshares : ℤ
  netVotes : Int32
  children : Int32
  author : ℕ
  /-- The id of the parent comment; zero for a root post. -/
  parent : ℕ
  comment : ℕ
  deriving DecidableEq

/-- `tag_stats_object` -/
structure TagStatsObject where
  id : ℕ
  tag : TagName
  /-- WLS -/
  totalPayout : ℤ := 0
  netVotes : Int32 := 0
  topPosts : UInt32 := 0
  comments : UInt32 := 0
  deriving DecidableEq

/-- `author_tag_stats_object` -/
structure AuthorTagStatsObject where
  id : ℕ
  author : ℕ
  tag : TagName
  totalPosts : UInt32
  deriving DecidableEq

/-- The tables of the plugin. -/
structure Plugin where
  /-- `tag_index` -/
  tags : Table TagObject
  /-- `tag_stats_index` -/
  stats : Table TagStatsObject
  /-- `author_tag_stats_index` -/
  authorStats : Table AuthorTagStatsObject
  /-- Whether a counter that was zero has been decremented. The source does not record it. -/
  underflow : Bool

/-- The tables before any operation. -/
def Plugin.empty : Plugin := ⟨.empty, .empty, .empty, false⟩

/-- What the plugin uses of fc for texts. -/
structure TextLib where
  /-- The tags of `fc::json::from_string( json ).as< comment_metadata >()`, or nothing when it
  throws. -/
  metadataTags : Bytes → Option (List Bytes)
  /-- `fc::to_lower` -/
  toLower : Bytes → Bytes

/-- What keeps a routine of the plugin from its end. -/
inductive Fault where
  /-- An exception. -/
  | thrown
  /-- A use of an object that has been removed. -/
  | removed
  /-- A recursion without an end. -/
  | endless
  deriving DecidableEq

/-- A routine of the plugin. -/
abbrev TagsM := Process Plugin Fault

end Objects

section Metadata

variable (lib : TextLib)

/-- `std::set< string >`: every string once, in their order. -/
def asSet (texts : List Bytes) : List Bytes := texts.dedup.insertionSort fun a b => a ≤ b

/-- The loop over the tags of the metadata: the first five, in lower case, without the empty
one. -/
def lowerTags : ℕ → List Bytes → List Bytes → List Bytes
  | _, lower, [] => lower
  | count, lower, tag :: rest =>
    if 5 < count + 1 || 5 < lower.length then lower
    else if tag = [] then lowerTags (count + 1) lower rest
    else lowerTags (count + 1) (lower.insert (lib.toLower tag)) rest

/-- `filter_tags`; the empty tag is the universal one. -/
def filterTags (c : CommentObject) : List Bytes :=
  let parsed := if c.jsonMetadata.length = 0 then [] else (lib.metadataTags c.jsonMetadata).getD []
  let lower := lowerTags lib 0 [] (asSet parsed)
  asSet (if 0 ≤ c.netRshares then lower.insert [] else lower)

end Metadata

section Statistics

/-- A new row, in a table where none can clash with it. -/
def added {α : Type} (f : ℕ → α) (table : Table α) : Table α :=
  ⟨table.rows ++ [f table.nextId], table.nextId + 1⟩

/-- What is found, or an exception. -/
def found {α : Type} (value : Option α) : TagsM α :=
  .ofExcept (match value with
    | some a => .ok a
    | none => .error .thrown)

/-- The object that an id refers to. -/
def deref (id : ℕ) : TagsM TagObject := fun p =>
  match p.tags.find fun t => t.id = id with
  | some t => (.ok t, p)
  | none => (.error .removed, p)

/-- `get_stats`, which makes the object if there is none. The tag refers to the object. -/
def getStats (tag : Bytes) : TagsM TagName := do
  let known ← .read fun p => p.stats.rows.any fun s => s.tag = tagName tag
  if known then pure (tagName tag)
  else do
    .change fun p => { p with stats := added (fun id => { id := id, tag := tagName tag }) p.stats }
    pure (tagName tag)

/-- A change of the object of a tag. -/
def modifyStats (tag : TagName) (f : TagStatsObject → TagStatsObject) (p : Plugin) : Plugin :=
  { p with stats := ⟨p.stats.rows.map fun s => if s.tag = tag then f s else s, p.stats.nextId⟩ }

/-- The numbers without a tag. -/
def discount (tag : TagObject) (s : TagStatsObject) : TagStatsObject :=
  { s with
    topPosts := if tag.parent = 0 then s.topPosts - 1 else s.topPosts
    comments := if tag.parent = 0 then s.comments else s.comments - 1
    netVotes := s.netVotes - tag.netVotes }

/-- The numbers with a tag. -/
def recount (tag : TagObject) (s : TagStatsObject) : TagStatsObject :=
  { s with
    topPosts := if tag.parent = 0 then s.topPosts + 1 else s.topPosts
    comments := if tag.parent = 0 then s.comments else s.comments + 1
    netVotes := s.netVotes + tag.netVotes }

/-- Whether the counter that is decremented for a tag is zero. -/
def atZero (tag : TagObject) (s : TagStatsObject) : Bool :=
  if tag.parent = 0 then s.topPosts = 0 else s.comments = 0

/-- `remove_stats` -/
def removeStats (tag : TagObject) (stats : TagName) : TagsM Unit :=
  .change fun p => { modifyStats stats (discount tag) p with
    underflow := p.underflow || p.stats.rows.any fun s => s.tag = stats && atZero tag s }

/-- `add_stats` -/
def addStats (tag : TagObject) (stats : TagName) : TagsM Unit :=
  .change (modifyStats stats (recount tag))

end Statistics

section Routines

variable (lib : TextLib) (s : ChainState)

/-- The tag of a comment after a refreshment. -/
def refreshed (c : CommentObject) (current : TagObject) : TagObject :=
  { current with
    active := c.active
    cashout := c.cashoutTime
    children := .ofNat c.children
    netRshares := c.netRshares
    netVotes := c.netVotes }

/-- `update_tag` -/
def updateTag (current : TagObject) (c : CommentObject) : TagsM Unit := do
  let stats ← getStats (tagText current.tag)
  removeStats current stats
  if c.cashoutTime ≠ timePointSecMaximum then do
    .change fun p => { p with
      tags := ⟨Table.amend (·.id) (refreshed c current) p.tags.rows, p.tags.nextId⟩ }
    addStats (refreshed c current) stats
  else .change fun p => { p with tags := p.tags.remove fun t => t.id = current.id }

/-- The object of a new tag. -/
def newTag (tag : Bytes) (c : CommentObject) (author parent id : ℕ) : TagObject where
  id := id
  tag := tagName tag
  created := c.created
  active := c.active
  cashout := c.cashoutTime
  netRshares := c.netRshares
  netVotes := c.netVotes
  children := .ofNat c.children
  author := author
  parent := parent
  comment := c.id

/-- One more post of an author under a tag. -/
def countAuthor (author : ℕ) (tag : TagName) (stats : Table AuthorTagStatsObject) :
    Table AuthorTagStatsObject :=
  if stats.rows.any fun a => a.author = author && a.tag = tag then
    ⟨stats.rows.map fun a =>
      if a.author = author && a.tag = tag then { a with totalPosts := a.totalPosts + 1 } else a,
      stats.nextId⟩
  else added (fun id => ⟨id, author, tag, 1⟩) stats

/-- The comment above a reply. -/
def above (c : CommentObject) : Option CommentObject :=
  s.comments.find (CommentObject.hasPermlink c.parentAuthor c.parentPermlink)

/-- The id of the parent of a comment; zero, the default, for a root post. -/
def parentId (c : CommentObject) : Option ℕ :=
  if c.parentAuthor.size = 0 then some 0 else (above s c).map (·.id)

/-- `create_tag` -/
def createTag (tag : Bytes) (c : CommentObject) : TagsM Unit := do
  let author ← found (s.accounts.find (named c.author))
  let parent ← found (parentId s c)
  let id ← .read fun p => p.tags.nextId
  .change fun p => { p with tags := added (newTag tag c author.id parent) p.tags }
  let stats ← getStats tag
  addStats (newTag tag c author.id parent id) stats
  .change fun p => { p with authorStats := countAuthor author.id (tagName tag) p.authorStats }

/-- `remove_tag`, which reads the object after its removal. -/
def removeTag (id : ℕ) : TagsM Unit := do
  let tag ← deref id
  .change fun p => { p with tags := p.tags.remove fun t => t.id = tag.id }
  let _ ← deref id
  pure ()

/-- The tags of a comment, in the order of `by_comment`. -/
def tagsOf (comment : ℕ) (p : Plugin) : List TagObject :=
  p.tags.select (fun t => t.comment = comment) fun a b => a.id ≤ b.id

/-- `existing_tags`: the last object of each tag. -/
def existingTag (mine : List TagObject) (tag : Bytes) : Option ℕ :=
  (mine.reverse.find? fun t => tagText t.tag = tag).map (·.id)

/-- One tag of the metadata. -/
def applyTag (mine : List TagObject) (c : CommentObject) (tag : Bytes) : TagsM Unit :=
  match existingTag mine tag with
  | none => createTag s tag c
  | some id => do
    let current ← deref id
    updateTag current c

/-- The part of `update_tags` that parses the metadata. -/
def parseTags (c : CommentObject) : TagsM Unit := do
  let mine ← .read (tagsOf c.id)
  .each (applyTag s mine c) (filterTags lib c)
  .each (fun t => removeTag t.id) (mine.filter fun t => tagText t.tag ∉ filterTags lib c)

/-- One round of the other part of `update_tags`: after the update `++citr` uses the object. -/
def refreshTag (c : CommentObject) (id : ℕ) : TagsM Unit := do
  let current ← deref id
  updateTag current c
  let _ ← deref id
  pure ()

/-- The part of `update_tags` that keeps the tags. -/
def refreshTags (c : CommentObject) : TagsM Unit := do
  let mine ← .read (tagsOf c.id)
  .each (fun t => refreshTag c t.id) mine

/-- `update_tags`, which goes on with the parent of the comment. -/
def updateTags : ℕ → CommentObject → Bool → TagsM Unit
  | 0, _, _ => .ofExcept (.error .endless)
  | steps + 1, c, parse => do
    if parse then parseTags lib s c else refreshTags c
    if c.parentAuthor.size = 0 then pure ()
    else do
      let parent ← found (above s c)
      updateTags steps parent false

/-- More steps than there are comments on a way up that ends. -/
def ladder : ℕ := s.comments.rows.length + 1

/-- The update of a comment that an operation names. -/
def updateNamed (author : AccountName) (permlink : Bytes) (parse : Bool) : TagsM Unit := do
  let c ← found (s.comments.find (CommentObject.hasPermlink author permlink))
  updateTags lib s (ladder s) c parse

end Routines

section Operations

variable (fc : FcLib) (lib : TextLib) (s : ChainState)

/-- `comment_operation` -/
def onComment (o : CommentOperation) : TagsM Unit := updateNamed lib s o.author o.permlink true

/-- `vote_operation` -/
def onVote (o : VoteOperation) : TagsM Unit := updateNamed lib s o.author o.permlink false

/-- `delete_comment_operation`: the tags of the author whose comments are not there any more are
removed. -/
def onDeleteComment (o : DeleteCommentOperation) : TagsM Unit := do
  let auth ← found (s.accounts.find (named o.author))
  .change fun p => { p with tags := p.tags.remove fun t =>
    t.author = auth.id && (s.comments.find fun c => c.id = t.comment).isNone }

/-- The virtual operations of a payout that the plugin looks at. -/
inductive PayoutOperation where
  /-- `comment_reward_operation`; the payout is in WLS. -/
  | commentReward (author : AccountName) (permlink : Bytes) (payout : ℤ)
  /-- `comment_payout_update_operation` -/
  | commentPayoutUpdate (author : AccountName) (permlink : Bytes)

/-- `ts.total_payout += op.payout`; an addition that throws changes nothing. -/
def raisePayout (payout : ℤ) (stats : TagName) : TagsM Unit := fun p =>
  match p.stats.rows.find? fun t => t.tag = stats with
  | none => (.ok (), p)
  | some t =>
    match fc.add t.totalPayout payout with
    | .error _ => (.error .thrown, p)
    | .ok total => (.ok (), modifyStats stats (fun t => { t with totalPayout := total }) p)

/-- The payout of a comment under one of its tags. -/
def addPayout (payout : ℤ) (tag : Bytes) : TagsM Unit := do
  let stats ← getStats tag
  raisePayout fc payout stats

/-- The virtual operations of a payout. -/
def onPayout : PayoutOperation → TagsM Unit
  | .commentReward author permlink payout => do
    let c ← found (s.comments.find (CommentObject.hasPermlink author permlink))
    updateTags lib s (ladder s) c false
    .each (addPayout fc payout) (filterTags lib c)
  | .commentPayoutUpdate author permlink => updateNamed lib s author permlink false

/-- `on_operation`, which catches what is thrown. What is not defined has no result. -/
def onOperation (m : TagsM Unit) (p : Plugin) : Option Plugin :=
  match m p with
  | (.ok _, q) => some q
  | (.error .thrown, q) => some q
  | (.error _, _) => none

end Operations

end Whaleshares.Tags
