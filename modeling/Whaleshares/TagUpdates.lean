import Whaleshares.TagStats

/-!
# The updates of tags

An operation updates the tags of a comment and of those above it. Where no comment on the way is
paid out and none of its tags goes, all of these loops come to their ends or to an exception, and
the statistics stay right.
-/

namespace Whaleshares.TagUpdates

open Fc Objects Tags TagStats

section Outcomes

variable {m : TagsM Unit} {k : Unit → TagsM Unit} {p q : Plugin} {P : Plugin → Prop}

/-- The routine comes to its end or throws, and leaves a state with the property. -/
def Ends (m : TagsM Unit) (p : Plugin) (P : Plugin → Prop) : Prop :=
  ∃ q, (m p = (.ok (), q) ∨ m p = (.error .thrown, q)) ∧ P q

/-- A routine that comes to its end. -/
theorem Ends.of_ok (h : m p = (.ok (), q)) (hq : P q) : Ends m p P := ⟨q, .inl h, hq⟩

/-- Two routines that keep the property. -/
theorem Ends.bind (h : Ends m p P) (hk : ∀ q, P q → Ends (k ()) q P) : Ends (m >>= k) p P := by
  obtain ⟨q, hm | hm, hq⟩ := h
  · obtain ⟨r, hr, hP⟩ := hk q hq
    refine ⟨r, ?_, hP⟩
    rw [Process.bind_of_ok hm]
    exact hr
  · exact ⟨q, .inr (Process.bind_of_error hm), hq⟩

/-- A search and what follows it. -/
theorem Ends.found_bind {α : Type} {value : Option α} {k : α → TagsM Unit} (hp : P p)
    (hk : ∀ a, value = some a → Ends (k a) p P) : Ends (found value >>= k) p P := by
  cases value with
  | none => exact ⟨p, .inr (not_found_bind rfl _ _), hp⟩
  | some a => exact hk a rfl

/-- A loop whose rounds keep the property. -/
theorem Ends.each {α : Type} {f : α → TagsM Unit} {l : List α} (hp : P p)
    (hf : ∀ x ∈ l, ∀ q, P q → Ends (f x) q P) : Ends (Process.each f l) p P := by
  induction l generalizing p with
  | nil => exact .of_ok rfl hp
  | cons x rest ih =>
    refine Ends.bind (hf x List.mem_cons_self p hp) fun q hq => ?_
    exact ih hq fun y hy => hf y (List.mem_cons_of_mem _ hy)

end Outcomes

section Loops

variable {p q : Plugin} {current : TagObject} {c : CommentObject} {B : ℕ → ℕ → Prop}
  {chain : ChainState}

/-- The tables are sound, and the comment and the parent of every tag have a property. -/
structure Good (B : ℕ → ℕ → Prop) (p : Plugin) : Prop where
  sound : Sound p
  tags : ∀ t ∈ p.tags.rows, B t.comment t.parent

/-- A weaker property of the tags. -/
theorem Good.mono {B' : ℕ → ℕ → Prop} (h : Good B p)
    (hB : ∀ t ∈ p.tags.rows, B t.comment t.parent → B' t.comment t.parent) : Good B' p :=
  ⟨h.sound, fun t ht => hB t ht (h.tags t ht)⟩

/-- The ids of the live tags. -/
def tagIds (p : Plugin) : List ℕ := p.tags.rows.map TagObject.id

/-- A live tag is found. -/
theorem deref_of_mem {id : ℕ} (h : id ∈ tagIds p) : ∃ t ∈ p.tags.rows, t.id = id ∧
    deref id p = (.ok t, p) := by
  obtain ⟨t, ht, hid⟩ := List.mem_map.mp h
  cases hfind : p.tags.find fun t => t.id = id with
  | none =>
    exact absurd (decide_eq_true hid) (List.find?_eq_none.mp hfind t ht)
  | some found =>
    refine ⟨found, List.mem_of_find?_eq_some hfind, ?_, ?_⟩
    · exact of_decide_eq_true (List.find?_some (p := fun t : TagObject => decide (t.id = id)) hfind)
    · unfold deref
      rw [hfind]

/-- The update of a tag keeps the comments and the parents. -/
theorem Good.updateTag (h : Good B p) (hmem : current ∈ p.tags.rows) (c : CommentObject) :
    ∃ q, Tags.updateTag current c p = (.ok (), q) ∧ Good B q ∧
      q.tags = updatedTags c current p.tags := by
  obtain ⟨q, hq, hsound, htags⟩ := updateTag_sound h.sound hmem c
  refine ⟨q, hq, ⟨hsound, fun t ht => ?_⟩, htags⟩
  rw [htags] at ht
  rcases mem_updatedTags ht with hold | rfl
  · exact h.tags t hold
  · exact h.tags current hmem

/-- Other tags than the updated one stay. -/
theorem tagIds_updated (h : q.tags = updatedTags c current p.tags) {id : ℕ} (hid : id ∈ tagIds p)
    (hne : id ≠ current.id ∨ c.cashoutTime ≠ timePointSecMaximum) : id ∈ tagIds q := by
  unfold tagIds at *
  rw [h]
  unfold updatedTags
  by_cases hpaid : c.cashoutTime ≠ timePointSecMaximum
  · rw [if_pos hpaid]
    dsimp only
    rwa [Table.amend_keys]
  · rw [if_neg hpaid]
    obtain ⟨t, ht, rfl⟩ := List.mem_map.mp hid
    have hother : t.id ≠ current.id := hne.resolve_right hpaid
    refine List.mem_map_of_mem (List.mem_filter.mpr ⟨ht, ?_⟩)
    exact Bool.not_eq_true' _ ▸ decide_eq_false hother

/-- A round over the tags of a comment that is not paid out. -/
theorem Good.refreshTag (h : Good B p) (hunpaid : c.cashoutTime ≠ timePointSecMaximum) {id : ℕ}
    (hid : id ∈ tagIds p) : ∃ q, Tags.refreshTag c id p = (.ok (), q) ∧ Good B q ∧
      ∀ other ∈ tagIds p, other ∈ tagIds q := by
  obtain ⟨current, hmem, -, hderef⟩ := deref_of_mem hid
  obtain ⟨q, hq, hgood, htags⟩ := h.updateTag hmem c
  have hstay : ∀ other ∈ tagIds p, other ∈ tagIds q :=
    fun other hother => tagIds_updated htags hother (.inr hunpaid)
  obtain ⟨again, -, -, hagain⟩ := deref_of_mem (hstay id hid)
  refine ⟨q, ?_, hgood, hstay⟩
  unfold Tags.refreshTag
  rw [Process.bind_of_ok hderef, Process.bind_of_ok hq, Process.bind_of_ok hagain]
  rfl

/-- A live tag of a comment. -/
theorem mem_tagsOf {t : TagObject} {comment : ℕ} : t ∈ tagsOf comment p ↔
    t ∈ p.tags.rows ∧ t.comment = comment := by
  unfold tagsOf Table.select
  rw [List.mem_insertionSort, List.mem_filter, decide_eq_true_eq]

/-- The refreshment of the tags of a comment that is not paid out or has none. -/
theorem Good.refreshTags (h : Good B p)
    (hpaid : c.cashoutTime = timePointSecMaximum → ∀ parent, ¬ B c.id parent) :
    Ends (Tags.refreshTags c) p (Good B) := by
  have hloop : ∀ (rest : List TagObject) (q : Plugin), c.cashoutTime ≠ timePointSecMaximum →
      Good B q → (∀ t ∈ rest, t.id ∈ tagIds q) →
      Ends (Process.each (fun t : TagObject => Tags.refreshTag c t.id) rest) q (Good B) := by
    intro rest
    induction rest with
    | nil => exact fun q _ hq _ => .of_ok rfl hq
    | cons t rest ih =>
      intro q hunpaid hq hids
      obtain ⟨r, hr, hgood, hstay⟩ := hq.refreshTag hunpaid (hids t List.mem_cons_self)
      obtain ⟨u, hu, hP⟩ := ih r hunpaid hgood fun t' ht' =>
        hstay t'.id (hids t' (List.mem_cons_of_mem _ ht'))
      refine ⟨u, ?_, hP⟩
      change ((Tags.refreshTag c t.id >>= fun _ => Process.each _ rest) q = _) ∨
        ((Tags.refreshTag c t.id >>= fun _ => Process.each _ rest) q = _)
      rw [Process.bind_of_ok hr]
      exact hu
  unfold Tags.refreshTags
  by_cases hunpaid : c.cashoutTime ≠ timePointSecMaximum
  · refine hloop _ p hunpaid h fun t ht => ?_
    exact List.mem_map_of_mem (mem_tagsOf.mp ht).1
  · have hnone : tagsOf c.id p = [] := by
      refine List.eq_nil_iff_forall_not_mem.mpr fun t ht => ?_
      obtain ⟨hmem, hcomment⟩ := mem_tagsOf.mp ht
      have hB := h.tags t hmem
      rw [hcomment] at hB
      exact hpaid (not_not.mp hunpaid) t.parent hB
    refine .of_ok (q := p) ?_ h
    rw [Process.read_bind, hnone]
    rfl

/-- The tags of a list are different. -/
theorem asSet_nodup (texts : List Bytes) : (asSet texts).Nodup := by
  unfold asSet
  exact (List.perm_insertionSort _ _).nodup_iff.mpr (List.nodup_dedup texts)

/-- The tags of a comment are different. -/
theorem filterTags_nodup (lib : TextLib) (c : CommentObject) : (filterTags lib c).Nodup :=
  asSet_nodup _

/-- What the object of a tag is. -/
theorem existingTag_eq {mine : List TagObject} {tag : Bytes} {id : ℕ}
    (h : existingTag mine tag = some id) : ∃ t ∈ mine, t.id = id ∧ tagText t.tag = tag := by
  obtain ⟨t, ht, hid⟩ := Option.map_eq_some_iff.mp h
  refine ⟨t, List.mem_reverse.mp (List.mem_of_find?_eq_some ht), hid, ?_⟩
  have hfound := List.find?_some (p := fun t : TagObject => decide (tagText t.tag = tag)) ht
  exact of_decide_eq_true hfound

/-- The loop over the tags of the metadata. -/
theorem Good.applyTags {mine : List TagObject} (hmine : (mine.map TagObject.id).Nodup)
    (rest : List Bytes) (hnodup : rest.Nodup)
    (hreadable : ∀ tag ∈ rest, tagName (tagText (tagName tag)) = tagName tag)
    (hparent : ∀ parent, parentId chain c = some parent → B c.id parent) (h : Good B p)
    (hlive : ∀ t ∈ mine, tagText t.tag ∈ rest → t.id ∈ tagIds p)
    (hroom : p.tags.rows.length + rest.length < 2 ^ 32) :
    Ends (Process.each (applyTag chain mine c) rest) p (Good B) := by
  induction rest generalizing p with
  | nil => exact .of_ok rfl h
  | cons tag rest ih =>
    rw [List.nodup_cons] at hnodup
    rw [List.length_cons] at hroom
    have hrest : ∀ tag' ∈ rest, tagName (tagText (tagName tag')) = tagName tag' :=
      fun tag' h => hreadable tag' (List.mem_cons_of_mem _ h)
    have hgo : ∀ q, applyTag chain mine c tag p = (.ok (), q) → Good B q →
        (∀ t ∈ mine, tagText t.tag ∈ rest → t.id ∈ tagIds q) →
        q.tags.rows.length ≤ p.tags.rows.length + 1 →
        Ends (Process.each (applyTag chain mine c) (tag :: rest)) p (Good B) := by
      intro q hq hgood hstay hlength
      obtain ⟨u, hu, hP⟩ := ih hnodup.2 hrest hgood hstay (by omega)
      refine ⟨u, ?_, hP⟩
      change ((applyTag chain mine c tag >>= fun _ => Process.each _ rest) p = _) ∨
        ((applyTag chain mine c tag >>= fun _ => Process.each _ rest) p = _)
      rw [Process.bind_of_ok hq]
      exact hu
    cases hexisting : existingTag mine tag with
    | none =>
      rcases createTag_sound chain h.sound (hreadable tag List.mem_cons_self) (by omega) c with
        hthrown | ⟨author, parent, q, hid, hq, hsound, htags⟩
      · refine ⟨p, .inr (Process.bind_of_error ?_), h⟩
        unfold applyTag
        rw [hexisting]
        exact hthrown
      · have happly : applyTag chain mine c tag p = (.ok (), q) := by
          unfold applyTag
          rw [hexisting]
          exact hq
        refine hgo q happly ⟨hsound, fun t ht => ?_⟩ (fun t ht htext => ?_) ?_
        · rw [htags] at ht
          rcases List.mem_append.mp ht with ht | ht
          · exact h.tags t ht
          · rw [List.mem_singleton.mp ht]
            exact hparent parent hid
        · unfold tagIds
          rw [htags]
          unfold added
          rw [List.map_append]
          exact List.mem_append_left _ (hlive t ht (List.mem_cons_of_mem _ htext))
        · rw [htags]
          unfold added
          rw [List.length_append, List.length_singleton]
    | some id =>
      obtain ⟨old, hold, rfl, htext⟩ := existingTag_eq hexisting
      have holdlive := hlive old hold (htext ▸ List.mem_cons_self)
      obtain ⟨current, hmem, hid, hderef⟩ := deref_of_mem holdlive
      obtain ⟨q, hq, hgood, htags⟩ := h.updateTag hmem c
      have happly : applyTag chain mine c tag p = (.ok (), q) := by
        unfold applyTag
        rw [hexisting]
        dsimp only
        rw [Process.bind_of_ok hderef]
        exact hq
      refine hgo q happly hgood (fun t ht htext' => ?_) ?_
      · have htlive := hlive t ht (List.mem_cons_of_mem _ htext')
        refine tagIds_updated htags htlive (.inl fun hsame => ?_)
        have hsame : t = old := Table.eq_of_key_eq TagObject.id hmine ht hold (hsame.trans hid)
        rw [hsame, htext] at htext'
        exact hnodup.1 htext'
      · rw [htags]
        unfold updatedTags
        split
        · unfold Table.amend
          rw [List.length_map]
          exact Nat.le_succ _
        · exact (List.length_filter_le _ _).trans (Nat.le_succ _)

end Loops

section Walks

variable {p : Plugin} {c : CommentObject} {B : ℕ → ℕ → Prop} {T : ℕ → Prop} {chain : ChainState}
  {lib : TextLib} {fc : FcLib} {steps : ℕ}

/-- No comment from here upwards is both paid out and marked, and the way up has an end. -/
def Refreshable (chain : ChainState) (T : ℕ → Prop) : ℕ → CommentObject → Prop
  | 0, _ => False
  | steps + 1, c => (c.cashoutTime = timePointSecMaximum → ¬ T c.id) ∧
    (c.parentAuthor.size ≠ 0 → ∀ parent, above chain c = some parent →
      Refreshable chain T steps parent)

/-- The comments above a comment are refreshable. -/
def RefreshableAbove (chain : ChainState) (T : ℕ → Prop) (steps : ℕ) (c : CommentObject) : Prop :=
  c.parentAuthor.size ≠ 0 → ∀ parent, above chain c = some parent → Refreshable chain T steps parent

/-- The way up after the update of a comment. -/
theorem Good.goUp (hup : RefreshableAbove chain T steps c) (h : Good B p)
    (hwalk : ∀ parent, Refreshable chain T steps parent →
      Ends (updateTags lib chain steps parent false) p (Good B)) :
    Ends (if c.parentAuthor.size = 0 then pure () else do
      let parent ← found (above chain c)
      updateTags lib chain steps parent false) p (Good B) := by
  by_cases hroot : c.parentAuthor.size = 0
  · rw [if_pos hroot]
    exact .of_ok rfl h
  · rw [if_neg hroot]
    exact .found_bind h fun parent hparent => hwalk parent (hup hroot parent hparent)

/-- The refreshment of a comment and of those above it. -/
theorem Good.updateTags (hB : ∀ comment parent, B comment parent → T comment)
    (hc : Refreshable chain T steps c) (h : Good B p) :
    Ends (Tags.updateTags lib chain steps c false) p (Good B) := by
  induction steps generalizing c p with
  | zero => exact hc.elim
  | succ steps ih =>
    unfold Tags.updateTags
    rw [if_neg Bool.false_ne_true]
    refine Ends.bind (h.refreshTags fun hpaid parent hparent => hc.1 hpaid (hB _ _ hparent))
      fun q hq => ?_
    exact hq.goUp hc.2 fun parent hparent => ih hparent hq

/-- The metadata of a comment keep its tags, and new tags can be read back. -/
structure KeepsTags (lib : TextLib) (p : Plugin) (c : CommentObject) : Prop where
  kept : ∀ t ∈ p.tags.rows, t.comment = c.id → tagText t.tag ∈ filterTags lib c
  readable : ∀ tag ∈ filterTags lib c, tagName (tagText (tagName tag)) = tagName tag

/-- An insertion adds at most one. -/
theorem length_insert_le (text : Bytes) (texts : List Bytes) :
    (texts.insert text).length ≤ texts.length + 1 := by
  rw [List.length_insert]
  split <;> omega

/-- The loop over the tags of the metadata ends after five of them. -/
theorem length_lowerTags (lib : TextLib) (tags lower : List Bytes) (count : ℕ) :
    (lowerTags lib count lower tags).length ≤ lower.length + (5 - count) := by
  induction tags generalizing lower count with
  | nil => exact Nat.le_add_right _ _
  | cons tag rest ih =>
    unfold lowerTags
    split
    · exact Nat.le_add_right _ _
    · next hfew =>
      simp only [Bool.or_eq_true, decide_eq_true_eq, not_or, not_lt] at hfew
      split
      · exact (ih lower (count + 1)).trans (by omega)
      · have hinsert := length_insert_le (lib.toLower tag) lower
        exact (ih _ (count + 1)).trans (by omega)

/-- A comment has at most five tags, and the universal one. -/
theorem length_filterTags (lib : TextLib) (c : CommentObject) : (filterTags lib c).length ≤ 6 := by
  have hset : ∀ texts : List Bytes, (asSet texts).length ≤ texts.length := by
    intro texts
    unfold asSet
    rw [List.length_insertionSort]
    exact (List.dedup_sublist texts).length_le
  unfold filterTags
  refine (hset _).trans ?_
  split
  · refine (length_insert_le _ _).trans (Nat.succ_le_succ ?_)
    exact length_lowerTags lib _ [] 0
  · exact (length_lowerTags lib _ [] 0).trans (by decide)

/-- The tags of a comment that is made or edited. -/
theorem Good.parseTags (hkeeps : KeepsTags lib p c)
    (hparent : ∀ parent, parentId chain c = some parent → B c.id parent)
    (hroom : p.tags.rows.length + 6 < 2 ^ 32) (h : Good B p) :
    Ends (Tags.parseTags lib chain c) p (Good B) := by
  have hnone : ((tagsOf c.id p).filter fun t => tagText t.tag ∉ filterTags lib c) = [] := by
    refine List.filter_eq_nil_iff.mpr fun t ht => ?_
    obtain ⟨hmem, hcomment⟩ := mem_tagsOf.mp ht
    simpa using hkeeps.kept t hmem hcomment
  have hmine : ((tagsOf c.id p).map TagObject.id).Nodup := by
    unfold tagsOf Table.select
    refine (((List.perm_insertionSort _ _).map TagObject.id).nodup_iff).mpr ?_
    exact h.sound.ids.sublist (List.filter_sublist.map _)
  have hlength := length_filterTags lib c
  have hloop : Ends (Process.each (applyTag chain (tagsOf c.id p) c) (filterTags lib c)) p
      (Good B) :=
    h.applyTags hmine _ (filterTags_nodup lib c) hkeeps.readable hparent
      (fun t ht _ => List.mem_map_of_mem (mem_tagsOf.mp ht).1) (by omega)
  have hends : Ends (Process.each (applyTag chain (tagsOf c.id p) c) (filterTags lib c) >>= fun _ =>
      Process.each (fun t : TagObject => removeTag t.id)
        ((tagsOf c.id p).filter fun t => tagText t.tag ∉ filterTags lib c)) p (Good B) := by
    refine hloop.bind fun q hq => ?_
    rw [hnone]
    exact .of_ok rfl hq
  exact hends

/-- A comment operation. -/
theorem Good.updateParsed (hB : ∀ comment parent, B comment parent → T comment)
    (hkeeps : KeepsTags lib p c)
    (hparent : ∀ parent, parentId chain c = some parent → B c.id parent)
    (hroom : p.tags.rows.length + 6 < 2 ^ 32) (hup : RefreshableAbove chain T steps c)
    (h : Good B p) :
    Ends (Tags.updateTags lib chain (steps + 1) c true) p (Good B) := by
  unfold Tags.updateTags
  rw [if_pos rfl]
  refine Ends.bind (h.parseTags hkeeps hparent hroom) fun q hq => ?_
  exact hq.goUp hup fun parent hparent => hq.updateTags hB hparent

/-- A payout that is added up changes no number of posts. -/
theorem Good.raisePayout (h : Good B p) (payout : ℤ) (stats : TagName) :
    Ends (Tags.raisePayout fc payout stats) p (Good B) := by
  unfold Ends Tags.raisePayout
  split
  · exact ⟨_, .inl rfl, h⟩
  · split
    · exact ⟨_, .inr rfl, h⟩
    · next _ total _ =>
      have hsound := h.sound
      refine ⟨_, .inl rfl, ⟨⟨hsound.ids, hsound.below, hsound.readable, fun t ht => ?_,
        fun s hs => ?_, hsound.room, hsound.noUnderflow⟩, h.tags⟩⟩
      · exact listed_modifyStats (f := fun t => { t with totalPayout := total }) (fun _ => rfl)
          (hsound.listed t ht)
      · rcases mem_modifyStats hs with ⟨old, hold, -, rfl⟩ | ⟨hold, -⟩
        · have hshows := hsound.shows old hold
          exact ⟨hshows.topPosts, hshows.comments, hshows.netVotes⟩
        · exact hsound.shows s hold

/-- The payout of a comment under one of its tags. -/
theorem Good.addPayout (h : Good B p) (payout : ℤ) (tag : Bytes) :
    Ends (Tags.addPayout fc payout tag) p (Good B) := by
  have hgood : Good B { p with stats := withStats (tagName tag) p.stats } :=
    ⟨h.sound.withStats (tagName tag), h.tags⟩
  have hraise : Ends (Tags.raisePayout fc payout (tagName tag)) _ (Good B) :=
    hgood.raisePayout payout (tagName tag)
  obtain ⟨q, hq, hP⟩ := hraise
  have hrun : Tags.addPayout fc payout tag p = Tags.raisePayout fc payout (tagName tag)
      { p with stats := withStats (tagName tag) p.stats } := Process.bind_of_ok (getStats_eq tag p)
  refine ⟨q, ?_, hP⟩
  rw [hrun]
  exact hq

/-- The comment that a virtual operation of a payout names. -/
def payoutComment (chain : ChainState) : PayoutOperation → Option CommentObject
  | .commentReward author permlink _ =>
    chain.comments.find (CommentObject.hasPermlink author permlink)
  | .commentPayoutUpdate author permlink =>
    chain.comments.find (CommentObject.hasPermlink author permlink)

/-- A virtual operation of a payout. -/
theorem Good.onPayout (hB : ∀ comment parent, B comment parent → T comment)
    {op : PayoutOperation} (h : Good B p)
    (hop : ∀ c, payoutComment chain op = some c → Refreshable chain T (ladder chain) c) :
    Ends (Tags.onPayout fc lib chain op) p (Good B) := by
  cases op with
  | commentReward author permlink payout =>
    refine .found_bind h fun c hc => ?_
    refine Ends.bind (h.updateTags hB (hop c hc)) fun q hq => ?_
    exact .each hq fun tag _ r hr => hr.addPayout payout tag
  | commentPayoutUpdate author permlink =>
    exact .found_bind h fun c hc => h.updateTags hB (hop c hc)

/-- What is thrown is caught. -/
theorem Ends.onOperation {m : TagsM Unit} {P : Plugin → Prop} (h : Ends m p P) :
    ∃ q, Tags.onOperation m p = some q ∧ P q := by
  obtain ⟨q, hq | hq, hP⟩ := h
  · refine ⟨q, ?_, hP⟩
    unfold Tags.onOperation
    rw [hq]
  · refine ⟨q, ?_, hP⟩
    unfold Tags.onOperation
    rw [hq]

end Walks

end Whaleshares.TagUpdates
