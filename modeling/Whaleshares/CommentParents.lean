import Whaleshares.ChainRun

/-!
# The parent of an edited comment

An edit names the parent of the comment again, and `comment_evaluator` compares it with the
stored one. The permlinks are compared by `strcmp_equal`, which joins the comparison of the
lengths and that of the C strings by an or: permlinks of one length count as equal. The
edits that name another parent and are accepted are exactly those.
-/

namespace Whaleshares.CommentParents

open Config Fc Assets Protocol Objects Program Database CommentEvaluators Genesis ChainRun

variable {env : Env} {s t : ChainState} {comment : CommentObject} {o : CommentOperation}

/-- The checks of an edit besides the comparison of the permlinks of the parents. -/
structure EditPasses (env : Env) (s : ChainState) (comment : CommentObject)
    (o : CommentOperation) : Prop where
  /-- Something appears to be changing. -/
  content : 0 < o.title.length + o.body.length + o.jsonMetadata.length
  /-- The author exists. -/
  author : ∃ auth, s.accounts.find (named o.author) = some auth
  /-- The parent of a reply exists and is not nested too deep. -/
  parent : o.parentAuthor ≠ .empty → ∃ parent,
    s.comments.find (CommentObject.hasPermlink o.parentAuthor o.parentPermlink) = some parent ∧
      parent.depth < wlsMaxCommentDepth
  /-- The metadata is empty or UTF-8. -/
  metadata : (o.jsonMetadata.length = 0 || env.isUtf8 o.jsonMetadata) = true
  /-- The author of the parent is the stored one. -/
  parentAuthor : comment.parentAuthor = o.parentAuthor

/-- The lookup of the parent changes nothing and finds a parent within the depth. -/
theorem findParent_returns {r : Option CommentObject} (h : Returns (findParent o) s r t) :
    t = s ∧ (o.parentAuthor ≠ .empty → ∃ parent,
      s.comments.find (CommentObject.hasPermlink o.parentAuthor o.parentPermlink) = some parent ∧
        parent.depth < wlsMaxCommentDepth) := by
  unfold findParent at h
  split at h
  next hroot => exact ⟨h.pure.2, fun hne => absurd hroot hne⟩
  next =>
    obtain ⟨parent, hparent, h⟩ := lookup_bind h
    obtain ⟨_, hdepth, h⟩ := h.lift_bind
    exact ⟨h.pure.2, fun _ => ⟨parent, hparent, by simpa using fcAssert_eq_ok hdepth⟩⟩

/-- A parent that is there within the depth is found. -/
theorem findParent_exists (h : o.parentAuthor ≠ .empty → ∃ parent,
      s.comments.find (CommentObject.hasPermlink o.parentAuthor o.parentPermlink) = some parent ∧
        parent.depth < wlsMaxCommentDepth) : ∃ r, Returns (findParent o) s r s := by
  unfold findParent
  by_cases hroot : o.parentAuthor = .empty
  · rw [if_pos hroot]
    exact ⟨none, rfl⟩
  · obtain ⟨parent, hparent, hdepth⟩ := h hroot
    rw [if_neg hroot]
    refine ⟨some parent, Returns.intro_bind (lookup_returns hparent) ?_⟩
    exact Returns.intro_bind (Returns.intro_lift (fcAssert_of (by simpa using hdepth))) rfl

/-- An edit that is accepted has the parent of the comment by the tests of the source. -/
theorem editedComment_eq_ok {now : TimePointSec} {c : CommentObject}
    (h : editedComment env o now comment = .ok c) :
    comment.parentAuthor = o.parentAuthor ∧
      strcmpEqual comment.parentPermlink o.parentPermlink = true := by
  obtain ⟨_, hauthor, h⟩ := bind_eq_ok h
  obtain ⟨_, hpermlink, -⟩ := bind_eq_ok h
  exact ⟨by simpa using fcAssert_eq_ok hauthor, fcAssert_eq_ok hpermlink⟩

/-- An edit with the same parent by these tests is accepted. -/
theorem editedComment_exists (env : Env) (now : TimePointSec) (hauthor : comment.parentAuthor = o.parentAuthor)
    (hpermlink : strcmpEqual comment.parentPermlink o.parentPermlink = true) :
    ∃ c, editedComment env o now comment = .ok c := by
  unfold editedComment
  rw [fcAssert_of (by simpa using hauthor), fcAssert_of hpermlink]
  exact ⟨_, rfl⟩

/-- An edit is accepted if and only if it passes the other checks and `strcmp_equal` takes the
permlinks of the parents as equal. -/
theorem edit_returns_iff (env : Env) (hids : (s.comments.rows.map (·.id)).Nodup)
    (hfound : s.comments.find (CommentObject.hasPermlink o.author o.permlink) = some comment) :
    (∃ t, Returns (applyComment env o) s () t) ↔
      EditPasses env s comment o ∧
        strcmpEqual comment.parentPermlink o.parentPermlink = true := by
  have hmem : comment ∈ s.comments.rows := List.mem_of_find?_eq_some hfound
  have hfind : s.comments.find (fun c => c.id = comment.id) = some comment :=
    (Table.find_key CommentObject.id hids).mpr ⟨hmem, rfl⟩
  constructor
  · rintro ⟨t, h⟩
    obtain ⟨_, hcontent, h⟩ := h.lift_bind
    obtain ⟨auth, hauth, h⟩ := lookup_bind h.gets_bind
    obtain ⟨parent, u, hu, h⟩ := h.bind
    obtain ⟨rfl, hparent⟩ := findParent_returns hu
    obtain ⟨_, hmetadata, h⟩ := h.lift_bind
    have h := h.gets_bind
    rw [hfound] at h
    obtain ⟨x, hx, -⟩ := map_eq_ok h.update
    obtain ⟨_, c, _, -, -, hc⟩ := Table.modify_found hx hfind
    obtain ⟨hauthor, hpermlink⟩ := editedComment_eq_ok hc
    exact ⟨⟨by simpa using fcAssert_eq_ok hcontent, ⟨auth, hauth⟩, hparent,
      fcAssert_eq_ok hmetadata, hauthor⟩, hpermlink⟩
  · rintro ⟨hpasses, hpermlink⟩
    obtain ⟨auth, hauth⟩ := hpasses.author
    obtain ⟨parent, hparent⟩ := findParent_exists hpasses.parent
    obtain ⟨c, hc⟩ := editedComment_exists env s.dgp.time hpasses.parentAuthor hpermlink
    obtain ⟨x, hx⟩ := Table.exists_modify unknownKey hfind hc
    refine ⟨{ s with comments := x }, ?_⟩
    refine Returns.intro_bind (Returns.intro_lift (fcAssert_of (by simpa using hpasses.content))) ?_
    refine Returns.intro_bind (a := some comment) (u := s) ?_ ?_
    · rw [← hfound]
      rfl
    refine Returns.intro_bind (lookup_returns hauth) ?_
    refine Returns.intro_bind hparent ?_
    refine Returns.intro_bind (Returns.intro_lift (fcAssert_of hpasses.metadata)) ?_
    refine Returns.intro_bind (a := s.dgp.time) rfl (Returns.intro_update ?_)
    rw [hx]
    rfl

/-- Every accepted edit names the parent that is stored. -/
def KeepsParent (env : Env) (s : ChainState) (comment : CommentObject) (o : CommentOperation) :
    Prop :=
  ∀ t, Returns (applyComment env o) s () t →
    o.parentAuthor = comment.parentAuthor ∧ o.parentPermlink = comment.parentPermlink

/-- An edit of an existing comment that is accepted names the stored parent, if and only if it
fails another check, or names the stored permlink, or names one that differs from it both in
its length and as a C string. -/
theorem keeps_parent_iff (hids : (s.comments.rows.map (·.id)).Nodup)
    (hfound : s.comments.find (CommentObject.hasPermlink o.author o.permlink) = some comment) :
    KeepsParent env s comment o ↔
      ¬ EditPasses env s comment o ∨ o.parentPermlink = comment.parentPermlink ∨
        (o.parentPermlink.length ≠ comment.parentPermlink.length ∧
          cString o.parentPermlink ≠ cString comment.parentPermlink) := by
  have haccepted := edit_returns_iff env hids hfound
  constructor
  · intro hkeeps
    by_cases hpasses : EditPasses env s comment o
    · by_cases hequal : strcmpEqual comment.parentPermlink o.parentPermlink = true
      · obtain ⟨t, ht⟩ := haccepted.mpr ⟨hpasses, hequal⟩
        exact .inr (.inl (hkeeps t ht).2)
      · unfold strcmpEqual at hequal
        simp only [Bool.or_eq_true, decide_eq_true_eq, not_or] at hequal
        exact .inr (.inr ⟨Ne.symm hequal.1, Ne.symm hequal.2⟩)
    · exact .inl hpasses
  · intro hcondition t ht
    obtain ⟨hpasses, hequal⟩ := haccepted.mp ⟨t, ht⟩
    refine ⟨hpasses.parentAuthor.symm, ?_⟩
    rcases hcondition with hnot | hsame | ⟨hlength, hstring⟩
    · exact absurd hpasses hnot
    · exact hsame
    · unfold strcmpEqual at hequal
      simp only [Bool.or_eq_true, decide_eq_true_eq] at hequal
      rcases hequal with h | h
      · exact absurd h.symm hlength
      · exact absurd h.symm hstring

section Sample

/-- The first miner posts under a category. -/
def firstPost : CommentOperation where
  parentAuthor := .empty
  parentPermlink := bytesOf "cats"
  author := initMinerName 0
  permlink := bytesOf "post"
  title := bytesOf "title"
  body := bytesOf "body"
  jsonMetadata := []

/-- An edit that names a category of the same length. -/
def movedPost : CommentOperation := { firstPost with parentPermlink := bytesOf "dogs" }

/-- A transaction with the first post. -/
def firstPostTransaction : SignedTransaction where
  refBlockNum := 0
  refBlockPrefix := 0
  expiration := wlsGenesisTime + 60
  operations := [.comment firstPost]
  signatures := [⟨0⟩]

/-- In the state after a block with the first post, the other edit is accepted. -/
theorem firstPost_moves : ∃ s comment, Reaches sampleEnv 1000000
      [sampleCall (sampleChain [firstPostTransaction] 0)] s ∧
    (s.comments.rows.map (·.id)).Nodup ∧
    s.comments.find (CommentObject.hasPermlink (initMinerName 0) (bytesOf "post")) = some comment ∧
    comment.parentPermlink = bytesOf "cats" ∧ ∃ t, Returns (applyComment sampleEnv movedPost) s () t := by
  have hends : endsIn (runBlocks sampleEnv [sampleCall (sampleChain [firstPostTransaction] 0)])
      (initGenesis sampleEnv 1000000) (fun _ s =>
        decide ((s.comments.rows.map fun c => (c.author, c.permlink, c.parentPermlink)) =
          [(initMinerName 0, bytesOf "post", bytesOf "cats")]) &&
        endsIn (applyComment sampleEnv movedPost) s fun _ _ => true) = true := by
    decide +kernel
  obtain ⟨_, s, hs, hend⟩ := returns_of_endsIn hends
  rw [Bool.and_eq_true] at hend
  obtain ⟨_, t, ht, -⟩ := returns_of_endsIn hend.2
  obtain ⟨c, hrows, hc⟩ := List.map_eq_singleton_iff.mp (of_decide_eq_true hend.1)
  simp only [Prod.mk.injEq] at hc
  refine ⟨s, c, hs, ?_, ?_, hc.2.2, t, ht⟩
  · rw [hrows]
    exact List.nodup_singleton _
  · unfold Table.find
    rw [hrows, List.find?_cons_of_pos (by simp [CommentObject.hasPermlink, hc])]

/-- An edit of the first post keeps its parent. -/
theorem keeps_parent_iff_firstPost : ∃ s comment, Reaches sampleEnv 1000000
    [sampleCall (sampleChain [firstPostTransaction] 0)] s ∧
    s.comments.find (CommentObject.hasPermlink (initMinerName 0) (bytesOf "post")) = some comment ∧
    KeepsParent sampleEnv s comment firstPost := by
  obtain ⟨s, comment, hs, hids, hfound, hparent, -⟩ := firstPost_moves
  exact ⟨s, comment, hs, hfound,
    (keeps_parent_iff (o := firstPost) hids hfound).mpr (.inr (.inl hparent.symm))⟩

/-- The edit of the first post that names another category is accepted. -/
theorem parent_changes : ∃ s comment, Reaches sampleEnv 1000000
    [sampleCall (sampleChain [firstPostTransaction] 0)] s ∧
    s.comments.find (CommentObject.hasPermlink (initMinerName 0) (bytesOf "post")) = some comment ∧
    ¬ KeepsParent sampleEnv s comment movedPost := by
  obtain ⟨s, comment, hs, -, hfound, hparent, t, ht⟩ := firstPost_moves
  refine ⟨s, comment, hs, hfound, fun hkeeps => ?_⟩
  have hsame : bytesOf "dogs" = bytesOf "cats" := (hkeeps t ht).2.trans hparent
  exact absurd hsame (by decide)

end Sample

end Whaleshares.CommentParents
