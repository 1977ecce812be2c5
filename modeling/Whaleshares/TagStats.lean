import Whaleshares.KeyTotals
import Whaleshares.Tags

/-!
# What the statistics of the tags show

The numbers of a tag are totals over its objects: those of root posts, those of replies, and the
net votes. Taking an object out of the tables and the numbers, and putting one in, keeps them
right, and so do the updates and the creations of tags that are made of both.
-/

namespace Whaleshares.TagStats

open Fc Objects Database KeyTotals Tags

section Invariant

/-- A root post counts as one. -/
def rootWeight (t : TagObject) : ℤ := if t.parent = 0 then 1 else 0

/-- A reply counts as one. -/
def replyWeight (t : TagObject) : ℤ := if t.parent = 0 then 0 else 1

/-- The net votes. -/
def netVotesWeight (t : TagObject) : ℤ := t.netVotes.toInt

/-- The numbers of a tag are those of its objects. -/
structure Shows (rows : List TagObject) (s : TagStatsObject) : Prop where
  topPosts : (s.topPosts.toNat : ℤ) = total TagObject.tag rootWeight rows s.tag
  comments : (s.comments.toNat : ℤ) = total TagObject.tag replyWeight rows s.tag
  netVotes : s.netVotes = .ofInt (total TagObject.tag netVotesWeight rows s.tag)

/-- What the routines of the plugin keep. -/
structure Sound (p : Plugin) : Prop where
  ids : (p.tags.rows.map TagObject.id).Nodup
  below : ∀ t ∈ p.tags.rows, t.id < p.tags.nextId
  readable : ∀ t ∈ p.tags.rows, tagName (tagText t.tag) = t.tag
  listed : ∀ t ∈ p.tags.rows, ∃ s ∈ p.stats.rows, s.tag = t.tag
  shows : ∀ s ∈ p.stats.rows, Shows p.tags.rows s
  room : p.tags.rows.length < 2 ^ 32
  noUnderflow : p.underflow = false

variable {p : Plugin} {current : TagObject} {s : TagStatsObject}

/-- Empty tables are sound. -/
theorem sound_empty : Sound .empty where
  ids := List.nodup_nil
  below := fun _ h => absurd h List.not_mem_nil
  readable := fun _ h => absurd h List.not_mem_nil
  listed := fun _ h => absurd h List.not_mem_nil
  shows := fun _ h => absurd h List.not_mem_nil
  room := by decide
  noUnderflow := rfl

/-- A counter that a live tag is in is not zero. -/
theorem Shows.positive {rows : List TagObject} (h : Shows rows s) (hmem : current ∈ rows)
    (htag : s.tag = current.tag) : atZero current s = false ∧
      (current.parent = 0 → 1 ≤ s.topPosts.toNat) ∧
      (current.parent ≠ 0 → 1 ≤ s.comments.toNat) := by
  have hroot : current.parent = 0 → 1 ≤ s.topPosts.toNat := by
    intro hparent
    have hle : share TagObject.tag rootWeight s.tag current ≤ _ := share_le_total (fun a => by
      unfold rootWeight
      split <;> decide) hmem
    rw [← h.topPosts, htag, share_self, rootWeight, if_pos hparent] at hle
    omega
  have hreply : current.parent ≠ 0 → 1 ≤ s.comments.toNat := by
    intro hparent
    have hle : share TagObject.tag replyWeight s.tag current ≤ _ := share_le_total (fun a => by
      unfold replyWeight
      split <;> decide) hmem
    rw [← h.comments, htag, share_self, replyWeight, if_neg hparent] at hle
    omega
  refine ⟨?_, hroot, hreply⟩
  unfold atZero
  by_cases hparent : current.parent = 0
  · rw [if_pos hparent, decide_eq_false_iff_not]
    intro hzero
    have hone := hroot hparent
    rw [hzero] at hone
    exact absurd hone (by decide)
  · rw [if_neg hparent, decide_eq_false_iff_not]
    intro hzero
    have hone := hreply hparent
    rw [hzero] at hone
    exact absurd hone (by decide)

/-- The statistics with an object for a tag. -/
def withStats (tag : TagName) (stats : Table TagStatsObject) : Table TagStatsObject :=
  if stats.rows.any fun s => s.tag = tag then stats
  else added (fun id => { id := id, tag := tag }) stats

/-- The object of a tag is there, or it is made. -/
theorem getStats_eq (tag : Bytes) (p : Plugin) :
    getStats tag p = (.ok (tagName tag), { p with stats := withStats (tagName tag) p.stats }) := by
  unfold getStats withStats
  rw [Process.read_bind]
  by_cases hknown : (p.stats.rows.any fun s => s.tag = tagName tag) = true
  · rw [if_pos hknown, if_pos hknown]
    rfl
  · rw [if_neg hknown, if_neg hknown]
    rfl

/-- The tag has an object then. -/
theorem listed_withStats (tag : TagName) (stats : Table TagStatsObject) :
    ∃ s ∈ (withStats tag stats).rows, s.tag = tag := by
  unfold withStats
  by_cases hknown : (stats.rows.any fun s => s.tag = tag) = true
  · rw [if_pos hknown]
    obtain ⟨s, hmem, htag⟩ := List.any_eq_true.mp hknown
    exact ⟨s, hmem, of_decide_eq_true htag⟩
  · rw [if_neg hknown]
    exact ⟨_, List.mem_append_right _ (List.mem_singleton_self _), rfl⟩

/-- A tag without an object has no live tags, so that its numbers start right. -/
theorem Sound.withStats (hs : Sound p) (tag : TagName) :
    Sound { p with stats := withStats tag p.stats } := by
  unfold TagStats.withStats
  by_cases hknown : (p.stats.rows.any fun s => s.tag = tag) = true
  · rw [if_pos hknown]
    exact hs
  · rw [if_neg hknown]
    have hnone : ∀ t ∈ p.tags.rows, t.tag ≠ tag := by
      intro t ht htag
      obtain ⟨s, hmem, hstats⟩ := hs.listed t ht
      exact hknown (List.any_eq_true.mpr ⟨s, hmem, decide_eq_true (hstats.trans htag)⟩)
    refine ⟨hs.ids, hs.below, hs.readable, fun t ht => ?_, fun s hmem => ?_, hs.room,
      hs.noUnderflow⟩
    · obtain ⟨s, hmem, htag⟩ := hs.listed t ht
      exact ⟨s, List.mem_append_left _ hmem, htag⟩
    · rcases List.mem_append.mp hmem with hmem | hmem
      · exact hs.shows s hmem
      · obtain rfl := List.mem_singleton.mp hmem
        refine ⟨(total_eq_zero hnone).symm, (total_eq_zero hnone).symm, ?_⟩
        dsimp only
        rw [total_eq_zero hnone]
        rfl

/-- An object of the statistics after a change of the object of one tag. -/
theorem mem_modifyStats {tag : TagName} {f : TagStatsObject → TagStatsObject}
    (h : s ∈ (modifyStats tag f p).stats.rows) :
    (∃ old ∈ p.stats.rows, old.tag = tag ∧ s = f old) ∨ (s ∈ p.stats.rows ∧ s.tag ≠ tag) := by
  obtain ⟨old, hold, rfl⟩ := List.mem_map.mp h
  by_cases htag : old.tag = tag
  · rw [if_pos htag]
    exact .inl ⟨old, hold, htag, rfl⟩
  · rw [if_neg htag]
    exact .inr ⟨hold, htag⟩

/-- A change of numbers keeps the tags that have statistics. -/
theorem listed_modifyStats {tag : TagName} {f : TagStatsObject → TagStatsObject}
    (hf : ∀ s, (f s).tag = s.tag) {name : TagName} (h : ∃ s ∈ p.stats.rows, s.tag = name) :
    ∃ s ∈ (modifyStats tag f p).stats.rows, s.tag = name := by
  obtain ⟨s, hmem, hname⟩ := h
  refine ⟨_, List.mem_map_of_mem hmem, ?_⟩
  split
  · rw [hf, hname]
  · exact hname

/-- The numbers without a tag that was in them. -/
theorem Shows.discount {rows rest : List TagObject} (h : Shows rows s) (hmem : current ∈ rows)
    (htag : s.tag = current.tag)
    (hrest : ∀ w, total TagObject.tag w rest s.tag = total TagObject.tag w rows s.tag -
      share TagObject.tag w s.tag current) : Shows rest (Tags.discount current s) := by
  obtain ⟨-, hroot, hreply⟩ := h.positive hmem htag
  have hshare : ∀ w, share TagObject.tag w s.tag current = w current := by
    intro w
    rw [htag, share_self]
  unfold Tags.discount
  refine ⟨?_, ?_, ?_⟩
  · dsimp only
    rw [hrest, hshare, rootWeight, ← h.topPosts]
    by_cases hparent : current.parent = 0
    · have hone := hroot hparent
      have hle : (1 : UInt32) ≤ s.topPosts := UInt32.le_iff_toNat_le.mpr hone
      rw [if_pos hparent, if_pos hparent, UInt32.toNat_sub_of_le _ _ hle, UInt32.toNat_one]
      omega
    · rw [if_neg hparent, if_neg hparent]
      omega
  · dsimp only
    rw [hrest, hshare, replyWeight, ← h.comments]
    by_cases hparent : current.parent = 0
    · rw [if_pos hparent, if_pos hparent]
      omega
    · have hone := hreply hparent
      have hle : (1 : UInt32) ≤ s.comments := UInt32.le_iff_toNat_le.mpr hone
      rw [if_neg hparent, if_neg hparent, UInt32.toNat_sub_of_le _ _ hle, UInt32.toNat_one]
      omega
  · dsimp only
    rw [hrest, hshare, h.netVotes, netVotesWeight, Int32.ofInt_sub, Int32.ofInt_toInt]

/-- The numbers with a tag that was not in them. -/
theorem Shows.recount {rows more : List TagObject} (h : Shows rows s) {new : TagObject}
    (htag : s.tag = new.tag) (hroom : rows.length + 1 < 2 ^ 32)
    (hmore : ∀ w, total TagObject.tag w more s.tag = total TagObject.tag w rows s.tag +
      share TagObject.tag w s.tag new) : Shows more (Tags.recount new s) := by
  have hshare : ∀ w, share TagObject.tag w s.tag new = w new := by
    intro w
    rw [htag, share_self]
  have hlength : ∀ {x : UInt32} {w : TagObject → ℤ} {f : TagObject → Bool},
      (x.toNat : ℤ) = total TagObject.tag w rows s.tag → (∀ a, w a = if f a then 1 else 0) →
        x.toNat + 1 < 2 ^ 32 := by
    intro x w f hx hw
    rw [total_eq_countP hw] at hx
    have hle : (rows.countP fun a => decide (a.tag = s.tag) && f a) ≤ rows.length :=
      List.countP_le_length
    omega
  have hroots := hlength h.topPosts (f := fun t => t.parent = 0) fun a => by simp [rootWeight]
  have hreplies := hlength h.comments (f := fun t => t.parent ≠ 0) fun a => by simp [replyWeight]
  unfold Tags.recount
  refine ⟨?_, ?_, ?_⟩
  · dsimp only
    rw [hmore, hshare, rootWeight, ← h.topPosts]
    by_cases hparent : new.parent = 0
    · rw [if_pos hparent, if_pos hparent, UInt32.toNat_add, UInt32.toNat_one,
        Nat.mod_eq_of_lt hroots]
      rfl
    · rw [if_neg hparent, if_neg hparent]
      omega
  · dsimp only
    rw [hmore, hshare, replyWeight, ← h.comments]
    by_cases hparent : new.parent = 0
    · rw [if_pos hparent, if_pos hparent]
      omega
    · rw [if_neg hparent, if_neg hparent, UInt32.toNat_add, UInt32.toNat_one,
        Nat.mod_eq_of_lt hreplies]
      rfl
  · dsimp only
    rw [hmore, hshare, h.netVotes, netVotesWeight, Int32.ofInt_add, Int32.ofInt_toInt]

end Invariant

section Routines

variable {p : Plugin} {current : TagObject} {c : CommentObject}

/-- The tags without one of them. -/
def without (current : TagObject) (rows : List TagObject) : List TagObject :=
  rows.filter fun t => !decide (t.id = current.id)

/-- The tags after an update. -/
def updatedTags (c : CommentObject) (current : TagObject) (tags : Table TagObject) :
    Table TagObject :=
  if c.cashoutTime ≠ timePointSecMaximum then
    ⟨Table.amend TagObject.id (refreshed c current) tags.rows, tags.nextId⟩
  else tags.remove fun t => t.id = current.id

/-- One tag less. -/
theorem length_without {rows : List TagObject} (hmem : current ∈ rows) :
    (without current rows).length + 1 ≤ rows.length := by
  unfold without
  have hlt : (rows.filter fun t => !decide (t.id = current.id)).length < rows.length :=
    List.length_filter_lt_length_iff_exists.mpr ⟨current, hmem, by simp⟩
  exact hlt

/-- A tag that is updated stays at its comment and its parent, or goes. -/
theorem mem_updatedTags {t : TagObject} (h : t ∈ (updatedTags c current p.tags).rows) :
    t ∈ p.tags.rows ∨ t = refreshed c current := by
  unfold updatedTags at h
  split at h
  · rcases Table.mem_amend h with rfl | ⟨hold, -⟩
    · exact .inr rfl
    · exact .inl hold
  · exact .inl (List.mem_of_mem_filter h)

/-- The tables without a tag, in the numbers too. -/
def withdrawn (current : TagObject) (p : Plugin) : Plugin :=
  { modifyStats current.tag (discount current) p with
    tags := p.tags.remove fun t => t.id = current.id
    underflow := p.underflow || p.stats.rows.any fun s => s.tag = current.tag && atZero current s }

/-- A tag that is taken out of the tables and the numbers leaves them sound. -/
theorem Sound.withdrawn (hs : Sound p) (hmem : current ∈ p.tags.rows) :
    Sound (withdrawn current p) := by
  have hquiet : (p.stats.rows.any fun s => s.tag = current.tag && atZero current s) = false := by
    refine List.any_eq_false.mpr fun s hstats h => ?_
    rw [Bool.and_eq_true, decide_eq_true_eq] at h
    have hzero := ((hs.shows s hstats).positive hmem h.1).1
    rw [hzero] at h
    exact Bool.false_ne_true h.2
  have hrest : ∀ w k, total TagObject.tag w (without current p.tags.rows) k =
      total TagObject.tag w p.tags.rows k - share TagObject.tag w k current :=
    fun w k => total_remove hs.ids hmem
  refine ⟨hs.ids.sublist (List.filter_sublist.map _),
    fun t ht => hs.below t (List.mem_of_mem_filter ht),
    fun t ht => hs.readable t (List.mem_of_mem_filter ht),
    fun t ht => ?_, fun s hstats => ?_, ?_, ?_⟩
  · exact listed_modifyStats (f := discount current) (fun _ => rfl)
      (hs.listed t (List.mem_of_mem_filter ht))
  · rcases mem_modifyStats hstats with ⟨old, hold, htag, rfl⟩ | ⟨hold, htag⟩
    · exact (hs.shows old hold).discount hmem htag fun w => hrest w old.tag
    · have hsame : ∀ w, total TagObject.tag w (without current p.tags.rows) s.tag =
          total TagObject.tag w p.tags.rows s.tag := by
        intro w
        rw [hrest, share_of_ne (Ne.symm htag), Int.sub_zero]
      have hshows := hs.shows s hold
      exact ⟨hshows.topPosts.trans (hsame _).symm, hshows.comments.trans (hsame _).symm,
        hshows.netVotes.trans (congrArg _ (hsame _).symm)⟩
  · exact (List.length_filter_le _ _).trans_lt hs.room
  · change (p.underflow || _) = false
    rw [hs.noUnderflow, hquiet]
    rfl

/-- The tables with a tag more. -/
structure Enters (p : Plugin) (new : TagObject) (tags : Table TagObject) : Prop where
  ids : (tags.rows.map TagObject.id).Nodup
  below : ∀ t ∈ tags.rows, t.id < tags.nextId
  mem : ∀ t ∈ tags.rows, t ∈ p.tags.rows ∨ t = new
  totals : ∀ w k, total TagObject.tag w tags.rows k =
    total TagObject.tag w p.tags.rows k + share TagObject.tag w k new
  room : p.tags.rows.length + 1 < 2 ^ 32
  length : tags.rows.length < 2 ^ 32

/-- A tag that enters the tables and the numbers leaves them sound. -/
theorem Sound.enter (hs : Sound p) {new : TagObject} {tags : Table TagObject}
    (h : Enters p new tags) (hreadable : tagName (tagText new.tag) = new.tag)
    (hlisted : ∃ s ∈ p.stats.rows, s.tag = new.tag) :
    Sound { modifyStats new.tag (recount new) p with tags := tags } := by
  refine ⟨h.ids, h.below, fun t ht => ?_, fun t ht => ?_, fun s hstats => ?_, h.length,
    hs.noUnderflow⟩
  · rcases h.mem t ht with ht | rfl
    · exact hs.readable t ht
    · exact hreadable
  · rcases h.mem t ht with ht | rfl
    · exact listed_modifyStats (f := recount new) (fun _ => rfl) (hs.listed t ht)
    · exact listed_modifyStats (f := recount t) (fun _ => rfl) hlisted
  · rcases mem_modifyStats hstats with ⟨old, hold, htag, rfl⟩ | ⟨hold, htag⟩
    · exact (hs.shows old hold).recount htag h.room fun w => h.totals w old.tag
    · have hsame : ∀ w, total TagObject.tag w tags.rows s.tag =
          total TagObject.tag w p.tags.rows s.tag := by
        intro w
        rw [h.totals, share_of_ne (Ne.symm htag), Int.add_zero]
      have hshows := hs.shows s hold
      exact ⟨hshows.topPosts.trans (hsame _).symm, hshows.comments.trans (hsame _).symm,
        hshows.netVotes.trans (congrArg _ (hsame _).symm)⟩

/-- A tag that is refreshed enters again where it was. -/
theorem enters_refreshed (hs : Sound p) (hmem : current ∈ p.tags.rows) (c : CommentObject) :
    Enters (withdrawn current p) (refreshed c current)
      ⟨Table.amend TagObject.id (refreshed c current) p.tags.rows, p.tags.nextId⟩ := by
  have hlength : (Table.amend TagObject.id (refreshed c current) p.tags.rows).length =
      p.tags.rows.length := by
    unfold Table.amend
    rw [List.length_map]
  refine ⟨?_, fun t ht => ?_, fun t ht => ?_, fun w k => ?_, ?_, ?_⟩
  · dsimp only
    rw [Table.amend_keys]
    exact hs.ids
  · rcases Table.mem_amend ht with rfl | ⟨hold, -⟩
    · exact hs.below current hmem
    · exact hs.below t hold
  · rcases Table.mem_amend ht with rfl | ⟨hold, hne⟩
    · exact .inr rfl
    · refine .inl (List.mem_filter.mpr ⟨hold, ?_⟩)
      exact Bool.not_eq_true' _ ▸ decide_eq_false hne
  · have hrest : total TagObject.tag w (withdrawn current p).tags.rows k =
        total TagObject.tag w p.tags.rows k - share TagObject.tag w k current :=
      total_remove hs.ids hmem
    rw [hrest]
    exact total_amend hs.ids hmem rfl
  · exact (length_without hmem).trans_lt hs.room
  · rw [hlength]
    exact hs.room

/-- The update of a tag keeps the tables sound. -/
theorem updateTag_sound (hs : Sound p) (hmem : current ∈ p.tags.rows) (c : CommentObject) : ∃ q,
    updateTag current c p = (.ok (), q) ∧ Sound q ∧ q.tags = updatedTags c current p.tags := by
  have hreadable := hs.readable current hmem
  have hsound := hs.withStats current.tag
  have hlisted := listed_withStats current.tag p.stats
  have hget := getStats_eq (tagText current.tag) p
  rw [hreadable] at hget
  have hwithdrawn := hsound.withdrawn hmem
  by_cases hpaid : c.cashoutTime ≠ timePointSecMaximum
  · have hlisted' : ∃ s ∈ (withdrawn current { p with
        stats := withStats current.tag p.stats }).stats.rows, s.tag = current.tag :=
      listed_modifyStats (f := discount current) (fun _ => rfl) hlisted
    refine ⟨_, ?_, hwithdrawn.enter (enters_refreshed hsound hmem c) hreadable hlisted', ?_⟩
    · unfold updateTag
      rw [Process.bind_of_ok hget, if_pos hpaid]
      rfl
    · unfold updatedTags
      rw [if_pos hpaid]
  · refine ⟨_, ?_, hwithdrawn, ?_⟩
    · unfold updateTag
      rw [Process.bind_of_ok hget, if_neg hpaid]
      rfl
    · unfold updatedTags
      rw [if_neg hpaid]
      rfl

/-- What is found is passed on. -/
theorem found_bind {α β : Type} {value : Option α} {a : α} (h : value = some a) (k : α → TagsM β)
    (p : Plugin) : (found value >>= k) p = k a p := by
  rw [h]
  rfl

/-- What is not found throws. -/
theorem not_found_bind {α β : Type} {value : Option α} (h : value = none) (k : α → TagsM β)
    (p : Plugin) : (found value >>= k) p = (.error .thrown, p) := by
  rw [h]
  rfl

/-- The creation of a tag throws, or it adds the tag and keeps the tables sound. -/
theorem createTag_sound (chain : ChainState) (hs : Sound p) {tag : Bytes}
    (hreadable : tagName (tagText (tagName tag)) = tagName tag)
    (hroom : p.tags.rows.length + 1 < 2 ^ 32) (c : CommentObject) :
    createTag chain tag c p = (.error .thrown, p) ∨ ∃ author parent q,
      parentId chain c = some parent ∧ createTag chain tag c p = (.ok (), q) ∧ Sound q ∧
        q.tags = added (newTag tag c author parent) p.tags := by
  unfold createTag
  cases hauthor : chain.accounts.find (named c.author) with
  | none => exact .inl (not_found_bind rfl _ _)
  | some author =>
    cases hparent : parentId chain c with
    | none => exact .inl ((found_bind rfl _ _).trans (not_found_bind rfl _ _))
    | some parent =>
      right
      have hsound := hs.withStats (tagName tag)
      have hlisted := listed_withStats (tagName tag) p.stats
      have henters : Enters { p with stats := withStats (tagName tag) p.stats }
          (newTag tag c author.id parent p.tags.nextId)
          (added (newTag tag c author.id parent) p.tags) := by
        refine ⟨?_, fun t ht => ?_, fun t ht => ?_, fun w k => total_append, hroom, ?_⟩
        · unfold added
          rw [List.map_append, List.map_singleton]
          refine List.Nodup.append hs.ids (List.nodup_singleton _) fun id hold hnew => ?_
          obtain ⟨t, ht, rfl⟩ := List.mem_map.mp hold
          have hlt := hs.below t ht
          rw [List.mem_singleton.mp hnew] at hlt
          exact Nat.lt_irrefl _ hlt
        · rcases List.mem_append.mp ht with ht | ht
          · exact (hs.below t ht).trans (Nat.lt_succ_self _)
          · rw [List.mem_singleton.mp ht]
            exact Nat.lt_succ_self _
        · rcases List.mem_append.mp ht with ht | ht
          · exact .inl ht
          · exact .inr (List.mem_singleton.mp ht)
        · unfold added
          rw [List.length_append, List.length_singleton]
          exact hroom
      have hsound' := hsound.enter henters hreadable hlisted
      -- the count of the author is no part of the invariant
      refine ⟨author.id, parent, { modifyStats (tagName tag)
          (recount (newTag tag c author.id parent p.tags.nextId))
          { p with stats := withStats (tagName tag) p.stats } with
        tags := added (newTag tag c author.id parent) p.tags
        authorStats := countAuthor author.id (tagName tag) p.authorStats }, rfl, ?_,
        ⟨hsound'.ids, hsound'.below, hsound'.readable, hsound'.listed, hsound'.shows, hsound'.room,
          hsound'.noUnderflow⟩, rfl⟩
      rw [found_bind rfl, found_bind rfl, Process.read_bind, Process.change_bind,
        Process.bind_of_ok (getStats_eq _ _)]
      rfl

end Routines

end Whaleshares.TagStats
