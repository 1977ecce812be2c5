import Whaleshares.CommentPolls

/-!
# The places of comments

A comment keeps its id and the author of its parent for as long as it is there. Every step but
those that write or delete a comment keeps all of these, a comment that is written gets a new
id, and one that is deleted takes no other along.
-/

namespace Whaleshares.CommentPlaces

open Fc Protocol Objects Program Database CommentEvaluators Footprint Sidelines

section Heads

variable {s t : ChainState}

/-- The ids of the comments and the authors of their parents. -/
def heads (s : ChainState) : List (ℕ × AccountName) :=
  s.comments.rows.map fun c => (c.id, c.parentAuthor)

/-- The same comments, as far as their places go. -/
structure SameHeads (s t : ChainState) : Prop where
  heads : heads t = heads s
  nextId : t.comments.nextId = s.comments.nextId

instance : IsPreorder ChainState SameHeads where
  refl _ := ⟨rfl, rfl⟩
  trans _ _ _ h h' := ⟨h'.heads.trans h.heads, h'.nextId.trans h.nextId⟩

/-- The ids of the comments are different and have been given. -/
structure Numbered (s : ChainState) : Prop where
  ids : ((heads s).map Prod.fst).Nodup
  below : ∀ h ∈ heads s, h.1 < s.comments.nextId

/-- The comments stay, and new ones get new ids. -/
structure Lasting (s t : ChainState) : Prop where
  stay : ∀ h ∈ heads s, h ∈ heads t
  numbered : Numbered s → Numbered t

instance : IsPreorder ChainState Lasting where
  refl _ := ⟨fun _ h => h, fun h => h⟩
  trans _ _ _ h h' := ⟨fun x hx => h'.stay x (h.stay x hx), fun hs => h'.numbered (h.numbered hs)⟩

/-- Whether the comment with an id has a property, from its place. -/
theorem any_place (hs : Numbered s) {id : ℕ} {a : AccountName} (hmem : (id, a) ∈ heads s)
    (f : AccountName → Bool) :
    (s.comments.rows.any fun c => decide (c.id = id) && f c.parentAuthor) = f a := by
  obtain ⟨c, hc, hpair⟩ := List.mem_map.mp hmem
  obtain ⟨rfl, rfl⟩ := Prod.mk.inj hpair
  refine Bool.eq_iff_iff.mpr ⟨fun hany => ?_, fun hf => ?_⟩
  · obtain ⟨d, hd, hdf⟩ := List.any_eq_true.mp hany
    rw [Bool.and_eq_true, decide_eq_true_eq] at hdf
    have hhead : (d.id, d.parentAuthor) ∈ heads s :=
      List.mem_map_of_mem (f := fun c : CommentObject => (c.id, c.parentAuthor)) hd
    have hsame := Table.eq_of_key_eq Prod.fst hs.ids hhead hmem hdf.1
    have hauthor : d.parentAuthor = c.parentAuthor := congrArg Prod.snd hsame
    rw [← hauthor]
    exact hdf.2
  · refine List.any_eq_true.mpr ⟨c, hc, ?_⟩
    rw [hf, Bool.and_true]
    exact decide_eq_true rfl

/-- The same comments stay. -/
theorem SameHeads.lasting (h : SameHeads s t) : Lasting s t := by
  refine ⟨fun x hx => ?_, fun hs => ⟨?_, ?_⟩⟩
  · rw [h.heads]
    exact hx
  · rw [h.heads]
    exact hs.ids
  · rw [h.heads, h.nextId]
    exact hs.below

/-- Changes that keep the threads of the comments keep their places. -/
theorem SameHeads.of_threads (hthreads : t.comments.rows.map thread = s.comments.rows.map thread)
    (hnext : t.comments.nextId = s.comments.nextId) : SameHeads s t := by
  refine ⟨?_, hnext⟩
  exact map_eq_of_map_eq (fun h : Thread => (h.id, h.parentAuthor)) (fun _ => rfl) hthreads

/-- Changes aside of the comments keep their places. -/
theorem sameHeads_sideFrame : SideFrame SameHeads where
  accounts _ _ _ _ := ⟨rfl, rfl⟩
  comments _ _ hx hnext := .of_threads (map_eq_of_map_eq Prod.fst (fun _ => rfl) hx) hnext
  accountAuthorities _ _ := ⟨rfl, rfl⟩
  witnesses _ _ := ⟨rfl, rfl⟩
  witnessVotes _ _ := ⟨rfl, rfl⟩
  rewardFunds _ _ _ := ⟨rfl, rfl⟩
  transactions _ _ := ⟨rfl, rfl⟩
  dgp _ _ := ⟨rfl, rfl⟩
  wso _ _ := ⟨rfl, rfl⟩
  hardforks _ _ := ⟨rfl, rfl⟩
  blockSummaries _ _ := ⟨rfl, rfl⟩

/-- Changes of polls keep the places of the comments. -/
theorem sameHeads_polls : AllowsPolls SameHeads := fun _ _ hx hnext => .of_threads hx hnext

/-- Changes of the votes on comments keep their places. -/
theorem sameHeads_commentVotes : AllowsCommentVotes SameHeads := fun _ _ => ⟨rfl, rfl⟩

/-- Changes of voting power keep the places of the comments. -/
theorem sameHeads_power : AllowsPower SameHeads := fun _ _ _ _ => ⟨rfl, rfl⟩

/-- Changes of power-downs keep the places of the comments. -/
theorem sameHeads_powerDown : AllowsPowerDown SameHeads := fun _ _ _ _ => ⟨rfl, rfl⟩

/-- Changes of routes keep the places of the comments. -/
theorem sameHeads_routes : AllowsRoutes SameHeads where
  accounts _ _ _ _ := ⟨rfl, rfl⟩
  routes _ _ := ⟨rfl, rfl⟩

/-- A new account keeps the places of the comments. -/
theorem sameHeads_account : AllowsAccount SameHeads := fun _ _ _ _ _ _ _ => ⟨rfl, rfl⟩

/-- A change of a comment that keeps its place keeps all places. -/
theorem modifyComment_sameHeads {id : ℕ} {f : CommentObject → Except Exc CommentObject}
    (hf : ∀ a b, f a = .ok b → (b.id, b.parentAuthor) = (a.id, a.parentAuthor)) :
    Keeps SameHeads (modifyComment id f) :=
  replace_keeps fun _ _ hx => ⟨Table.modify_map_eq hx hf, (Table.modify_eq_ok hx).2⟩

/-- Counting replies up the tree keeps the places of the comments. -/
theorem updateAncestors_sameHeads (f : ℕ → ℕ) (now : TimePointSec) (steps : ℕ)
    (parent : CommentObject) : Keeps SameHeads (updateAncestors f now steps parent) := by
  induction steps generalizing parent with
  | zero => exact .lift _
  | succ steps ih =>
    refine .bind (modifyComment_sameHeads fun a b hab => ?_) fun _ =>
      .whenever (.bind (lookup_keeps _ _) fun next => ih next)
    rw [← Except.ok.inj hab]

/-- An edit keeps the place of the comment. -/
theorem editedComment_head {env : Env} {o : CommentOperation} {now : TimePointSec}
    {a b : CommentObject} (h : editedComment env o now a = .ok b) :
    (b.id, b.parentAuthor) = (a.id, a.parentAuthor) := by
  obtain ⟨_, -, h⟩ := bind_eq_ok h
  obtain ⟨_, -, h⟩ := bind_eq_ok h
  rw [← Except.ok.inj h]

/-- A new comment gets a new id. -/
theorem createComment_lasting (env : Env) (o : CommentOperation) (parent : Option CommentObject)
    (now : TimePointSec) : Keeps Lasting (createComment (newComment env o parent now)) := by
  refine replace_keeps fun s x hx => ?_
  obtain ⟨row, hrow, -, hrows, hnext⟩ := Table.create_rows hx
  have hid : row.id = s.comments.nextId := by
    obtain ⟨_, -, hrow⟩ := bind_eq_ok hrow
    obtain ⟨_, -, hrow⟩ := bind_eq_ok hrow
    rw [← Except.ok.inj hrow]
  have hheads : heads { s with comments := x } =
      heads s ++ [(s.comments.nextId, row.parentAuthor)] := by
    unfold heads
    rw [hrows, List.map_append, List.map_singleton, hid]
  refine ⟨fun h hh => ?_, fun hs => ⟨?_, fun h hh => ?_⟩⟩
  · rw [hheads]
    exact List.mem_append_left _ hh
  · rw [hheads, List.map_append, List.map_singleton]
    refine List.Nodup.append hs.ids (List.nodup_singleton _) fun id hold hnew => ?_
    obtain ⟨h, hh, rfl⟩ := List.mem_map.mp hold
    have hlt := hs.below h hh
    rw [List.mem_singleton.mp hnew] at hlt
    exact Nat.lt_irrefl _ hlt
  · rw [hheads] at hh
    change h.1 < x.nextId
    rw [hnext]
    rcases List.mem_append.mp hh with hh | hh
    · exact (hs.below h hh).trans (Nat.lt_succ_self _)
    · rw [List.mem_singleton.mp hh]
      exact Nat.lt_succ_self _

/-- A routine that keeps the places of the comments keeps the comments. -/
theorem lasting_of_same {α : Type} {m : Chain α} (h : Keeps SameHeads m) : Keeps Lasting m :=
  ⟨fun s a t hm => (h.rel s a t hm).lasting⟩

/-- `comment` keeps the comments. -/
theorem applyComment_lasting (env : Env) (o : CommentOperation) :
    Keeps Lasting (applyComment env o) := by
  refine .bind (.lift _) fun _ => .bind (.gets _) fun found => .bind (lookup_keeps _ _) fun auth =>
    .bind (findParent_keeps o) fun parent => .bind (.lift _) fun _ => .bind (.gets _) fun now => ?_
  cases found with
  | some comment =>
    exact lasting_of_same (modifyComment_sameHeads fun _ _ h => editedComment_head h)
  | none =>
    refine .bind (checkNewComment_keeps o parent auth now) fun _ =>
      .bind (lasting_of_same (setAccount_aside sameHeads_sideFrame fun _ => by rfl)) fun _ =>
      .bind (createComment_lasting env o parent now) fun _ =>
      .bind (.gets _) fun comments => .forEach (fun parent => ?_) _
    exact lasting_of_same (updateAncestors_sameHeads _ now comments parent)

/-- `delete_comment` keeps the other comments. -/
theorem applyDeleteComment_heads {o : DeleteCommentOperation} {r : Unit}
    (h : Returns (applyDeleteComment o) s r t) :
    ∃ c, s.comments.find (CommentObject.hasPermlink o.author o.permlink) = some c ∧
      (∀ x ∈ heads s, x.1 ≠ c.id → x ∈ heads t) ∧ (Numbered s → Numbered t) := by
  obtain ⟨c, hc, h⟩ := lookup_bind h
  obtain ⟨_, -, h⟩ := h.lift_bind
  obtain ⟨_, -, h⟩ := h.lift_bind
  obtain ⟨_, -, h⟩ := h.lift_bind
  obtain ⟨_, u, hu, h⟩ := h.bind
  obtain ⟨_, v, hv, h⟩ := h.bind
  have hsu : SameHeads s u := by
    rw [← Except.ok.inj hu.update]
    exact ⟨rfl, rfl⟩
  have huv : SameHeads u v := by
    have hkeeps : Keeps SameHeads (whenever (c.parentAuthor ≠ .empty) (discountAncestors c)) :=
      .whenever (.bind (lookup_keeps _ _) fun parent => .bind (.gets _) fun now =>
        .bind (.gets _) fun comments => updateAncestors_sameHeads _ now comments parent)
    exact hkeeps.rel _ _ _ hv
  have hsame := Trans.trans hsu huv
  have ht : t = { v with comments := v.comments.remove fun d => d.id = c.id } :=
    (Except.ok.inj h.update).symm
  have hmem : ∀ x, x ∈ heads t ↔ x ∈ heads v ∧ x.1 ≠ c.id := by
    intro x
    rw [ht]
    unfold heads Table.remove
    simp only [List.mem_map, List.mem_filter, Bool.not_eq_eq_eq_not, Bool.not_true,
      decide_eq_false_iff_not]
    constructor
    · rintro ⟨d, ⟨hd, hne⟩, rfl⟩
      exact ⟨⟨d, hd, rfl⟩, hne⟩
    · rintro ⟨⟨d, hd, rfl⟩, hne⟩
      exact ⟨d, ⟨hd, hne⟩, rfl⟩
  refine ⟨c, hc, fun x hx hne => (hmem x).mpr ⟨hsame.lasting.stay x hx, hne⟩, fun hs => ?_⟩
  have hv := hsame.lasting.numbered hs
  refine ⟨?_, fun x hx => ?_⟩
  · have hsub : (heads t).Sublist (heads v) := by
      rw [ht]
      exact List.filter_sublist.map _
    exact hv.ids.sublist (hsub.map _)
  · have hnext : t.comments.nextId = v.comments.nextId := by
      rw [ht]
      rfl
    rw [hnext]
    exact hv.below x ((hmem x).mp hx).1

end Heads

end Whaleshares.CommentPlaces
