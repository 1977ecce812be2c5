import Mathlib
import Whaleshares.CommentParents
import Whaleshares.KeyedForest
import Whaleshares.Timeline

/-!
# The tree of comments

A reply names its parent by author and permlink. The evaluators that create and delete comments
walk from the parent up to the root post and count the new comment, or the deleted one, at
every comment on the way. So each comment knows how many others stand below it, and as a
comment with replies cannot be deleted, the parent of every comment stays. The counter has 32
bits: all this holds as long as no comment gets more descendants than it can count.
-/

namespace Whaleshares.CommentTree

open Config Fc Assets Protocol Objects Program Database Rewards CommentEvaluators Genesis
  ChainRun Footprint Sidelines LabelledRun Timeline KeyedForest CommentParents

section Places

/-- Where a comment stands in its discussion. -/
structure Place where
  id : ℕ
  author : AccountName
  permlink : Bytes
  parentAuthor : AccountName
  parentPermlink : Bytes
  depth : ℕ
  rootComment : ℕ

/-- The place of a comment. -/
def place (c : CommentObject) : Place :=
  ⟨c.id, c.author, c.permlink, c.parentAuthor, c.parentPermlink, c.depth, c.rootComment⟩

/-- The places of the comments. -/
def places (s : ChainState) : List Place := s.comments.rows.map place

/-- Comments are found by author and permlink; a reply is younger than its parent. -/
def shape : Shape Place (AccountName × Bytes) where
  key p := (p.author, cString p.permlink)
  up p := if p.parentAuthor = .empty then none else some (p.parentAuthor, cString p.parentPermlink)
  rank := Place.id

/-- The number of the comments below a comment: its replies, their replies, and so on. -/
noncomputable def descendants (s : ChainState) (c : CommentObject) : ℕ :=
  shape.descendants (places s) (place c)

variable {s t : ChainState} {c d : CommentObject} {author : AccountName} {permlink : Bytes}

/-- What the places and counters of a state satisfy. -/
structure Tree (s : ChainState) : Prop where
  ids : ((places s).map (·.id)).Nodup
  below : ∀ p ∈ places s, p.id < s.comments.nextId
  forest : shape.Forest (places s)
  replies : ∀ d ∈ places s, ∀ p, shape.Parent (places s) d p →
    d.depth = p.depth + 1 ∧ d.rootComment = p.rootComment
  roots : ∀ d ∈ places s, d.parentAuthor = .empty → d.depth = 0 ∧ d.rootComment = d.id
  counts : ∀ c ∈ s.comments.rows, c.children = descendants s c
  fits : ∀ p ∈ places s, shape.descendants (places s) p < 2 ^ 32

/-- The lookup by permlink compares the author and the permlink up to its first zero byte. -/
theorem hasPermlink_eq (author : AccountName) (permlink : Bytes) :
    CommentObject.hasPermlink author permlink =
      fun c : CommentObject =>
        decide ((c.author, cString c.permlink) = (author, cString permlink)) := by
  funext c
  unfold CommentObject.hasPermlink
  simp only [Prod.mk.injEq, Bool.decide_and]

/-- The comment that a search by author and permlink finds. -/
theorem find_iff (hforest : shape.Forest (places s)) :
    s.comments.find (CommentObject.hasPermlink author permlink) = some c ↔
      c ∈ s.comments.rows ∧ shape.key (place c) = (author, cString permlink) := by
  have hkeys : (s.comments.rows.map fun c => (c.author, cString c.permlink)).Nodup := by
    have hkeys := hforest.keys
    unfold places at hkeys
    rwa [List.map_map] at hkeys
  unfold Table.find
  rw [hasPermlink_eq]
  exact Table.find_key (fun c : CommentObject => (c.author, cString c.permlink)) hkeys

/-- A post has no parent key. -/
theorem up_of_empty {p : Place} (h : p.parentAuthor = .empty) : shape.up p = none := if_pos h

/-- The parent key of a reply is that of the comment it replies to. -/
theorem up_of_ne {p : Place} (h : p.parentAuthor ≠ .empty) :
    shape.up p = some (p.parentAuthor, cString p.parentPermlink) := if_neg h

/-- The parent of a reply is found. -/
theorem find_parent (hforest : shape.Forest (places s)) {p : Place} (hp : p ∈ places s)
    (hreply : p.parentAuthor ≠ .empty) : ∃ next,
      s.comments.find (CommentObject.hasPermlink p.parentAuthor p.parentPermlink) = some next ∧
        next ∈ s.comments.rows ∧ shape.Parent (places s) p (place next) ∧ next.id < p.id := by
  obtain ⟨q, hq, hkey, hrank⟩ := hforest.parents p hp _ (up_of_ne hreply)
  obtain ⟨next, hnext, rfl⟩ := List.mem_map.mp hq
  refine ⟨next, (find_iff hforest).mpr ⟨hnext, hkey⟩, hnext, ⟨hq, ?_⟩, hrank⟩
  rw [up_of_ne hreply, hkey]

/-- Comments of one id are the same. -/
theorem eq_of_id (hids : ((places s).map (·.id)).Nodup) (hc : c ∈ s.comments.rows)
    (hd : d ∈ s.comments.rows) (hid : c.id = d.id) : c = d := by
  have hkeys : (s.comments.rows.map (·.id)).Nodup := by
    unfold places at hids
    rwa [List.map_map] at hids
  exact Table.eq_of_key_eq CommentObject.id hkeys hc hd hid

/-- A comment is nested less deep than there are comments. -/
theorem Tree.depth_lt (hs : Tree s) {p : Place} (hp : p ∈ places s) :
    p.depth < (places s).length := by
  have hlevels : ∀ depth, ∀ q ∈ places s, q.depth = depth → ∀ level ≤ depth,
      level ∈ (places s).map (·.depth) := by
    intro depth
    induction depth with
    | zero =>
      intro q hq hdepth level hlevel
      rw [Nat.le_zero.mp hlevel, ← hdepth]
      exact List.mem_map_of_mem hq
    | succ depth ih =>
      intro q hq hdepth level hlevel
      rcases Nat.eq_or_lt_of_le hlevel with rfl | hless
      · rw [← hdepth]
        exact List.mem_map_of_mem hq
      · have hreply : q.parentAuthor ≠ .empty := by
          intro hroot
          have hzero := (hs.roots q hq hroot).1
          omega
        obtain ⟨next, -, hnext, hparent, -⟩ := find_parent hs.forest hq hreply
        have hone := (hs.replies q hq _ hparent).1
        exact ih (place next) (List.mem_map_of_mem hnext) (by omega) level (by omega)
  have hsub : List.range (p.depth + 1) ⊆ (places s).map (·.depth) := by
    intro level hlevel
    exact hlevels p.depth p hp rfl level (by have := List.mem_range.mp hlevel; omega)
  have hlength := (List.subperm_of_subset List.nodup_range hsub).length_le
  rw [List.length_range, List.length_map] at hlength
  omega

end Places

section Walks

variable {s t : ChainState} {g : CommentObject → CommentObject}

/-- The walk from a comment up to its root post that changes every comment on the way. -/
def walkUp (g : CommentObject → CommentObject) : ℕ → CommentObject → Chain Unit
  | 0, _ => lift (.error ⟨.undefinedBehaviour, "a cycle of comments"⟩)
  | steps + 1, parent => do
    modifyComment parent.id fun p => .ok (g p)
    whenever (parent.parentAuthor ≠ .empty) do
      let next ← getComment parent.parentAuthor parent.parentPermlink
      walkUp g steps next

/-- The change of a comment when the number of its descendants changes. -/
def refresh (f : ℕ → ℕ) (now : TimePointSec) (p : CommentObject) : CommentObject :=
  { p with children := f p.children, active := now }

/-- The loop of `update_ancestors` is a walk up the tree. -/
theorem updateAncestors_eq (f : ℕ → ℕ) (now : TimePointSec) (steps : ℕ) :
    updateAncestors f now steps = walkUp (refresh f now) steps := by
  induction steps with
  | zero => rfl
  | succ steps ih =>
    funext parent
    unfold updateAncestors walkUp
    rw [ih]
    rfl

open Classical in
/-- A comment that is changed if its place satisfies a condition. -/
noncomputable def alter (g : CommentObject → CommentObject) (S : Place → Prop)
    (c : CommentObject) : CommentObject :=
  if S (place c) then g c else c

/-- A comment in the set is changed. -/
theorem alter_of {S : Place → Prop} {c : CommentObject} (h : S (place c)) : alter g S c = g c :=
  if_pos h

/-- A comment outside the set stays. -/
theorem alter_of_not {S : Place → Prop} {c : CommentObject} (h : ¬ S (place c)) :
    alter g S c = c :=
  if_neg h

/-- A change that keeps places keeps them on a set as well. -/
theorem alter_place (hg : ∀ c, place (g c) = place c) (S : Place → Prop) (c : CommentObject) :
    place (alter g S c) = place c := by
  by_cases h : S (place c)
  · rw [alter_of h, hg]
  · rw [alter_of_not h]

/-- The state in which the comments whose places satisfy a condition are changed. -/
noncomputable def changed (s : ChainState) (g : CommentObject → CommentObject)
    (S : Place → Prop) : ChainState :=
  { s with comments := ⟨s.comments.rows.map (alter g S), s.comments.nextId⟩ }

/-- A change that keeps places keeps all of them. -/
theorem changed_places (hg : ∀ c, place (g c) = place c) (S : Place → Prop) :
    places (changed s g S) = places s := by
  unfold places changed
  rw [List.map_map]
  exact List.map_congr_left fun c _ => alter_place hg S c

/-- Two changes, one after the other, of different comments. -/
theorem changed_changed (hg : ∀ c, place (g c) = place c) {S S' : Place → Prop}
    (hapart : ∀ p ∈ places s, S p → ¬ S' p) :
    changed (changed s g S) g S' = changed s g fun p => S p ∨ S' p := by
  have hrows : (s.comments.rows.map (alter g S)).map (alter g S') =
      s.comments.rows.map (alter g fun p => S p ∨ S' p) := by
    rw [List.map_map]
    refine List.map_congr_left fun c hc => ?_
    simp only [Function.comp_apply]
    by_cases h : S (place c)
    · have hnot : ¬ S' (place (g c)) := by
        rw [hg]
        exact hapart (place c) (List.mem_map_of_mem hc) h
      rw [alter_of h, alter_of_not hnot, alter_of (.inl h)]
    · rw [alter_of_not h]
      by_cases h' : S' (place c)
      · rw [alter_of h', alter_of (.inr h')]
      · rw [alter_of_not h', alter_of_not (not_or.mpr ⟨h, h'⟩)]
  unfold changed
  simp only [hrows]

/-- No comment is changed. -/
theorem changed_none {S : Place → Prop} (h : ∀ p ∈ places s, ¬ S p) : changed s g S = s := by
  have hrows : s.comments.rows.map (alter g S) = s.comments.rows.map id :=
    List.map_congr_left fun c hc => alter_of_not (h (place c) (List.mem_map_of_mem hc))
  unfold changed
  rw [hrows, List.map_id]

/-- The same change on sets that agree on the places has the same result. -/
theorem changed_congr {S S' : Place → Prop} (h : ∀ p ∈ places s, (S p ↔ S' p)) :
    changed s g S = changed s g S' := by
  have hrows : s.comments.rows.map (alter g S) = s.comments.rows.map (alter g S') := by
    refine List.map_congr_left fun c hc => ?_
    have hiff := h (place c) (List.mem_map_of_mem hc)
    by_cases hS : S (place c)
    · rw [alter_of hS, alter_of (hiff.mp hS)]
    · rw [alter_of_not hS, alter_of_not fun hS' => hS (hiff.mpr hS')]
  unfold changed
  rw [hrows]

/-- One comment is changed. -/
theorem modifyComment_returns (hids : ((places s).map (·.id)).Nodup) {c : CommentObject}
    (hc : c ∈ s.comments.rows) (hg : ∀ c, place (g c) = place c) :
    Returns (modifyComment c.id fun p => .ok (g p)) s () (changed s g (· = place c)) := by
  have hkeys : (s.comments.rows.map (·.id)).Nodup := by
    unfold places at hids
    rwa [List.map_map] at hids
  have hfind : s.comments.find (fun d => d.id = c.id) = some c :=
    (Table.find_key CommentObject.id hkeys).mpr ⟨hc, rfl⟩
  obtain ⟨x, hx⟩ := Table.exists_modify unknownKey (f := fun p => Except.ok (g p)) hfind rfl
  obtain ⟨a, b, ha, hmem, hid, hab, hrows, hnext⟩ := Table.modify_amend CommentObject.id hx hkeys
    fun p q hpq => by
      rw [← Except.ok.inj hpq]
      exact congrArg Place.id (hg p)
  have hsame : a = c := Option.some.inj (ha.symm.trans hfind)
  refine Returns.intro_update ?_
  rw [hx]
  have hx' : x = ⟨x.rows, x.nextId⟩ := rfl
  unfold changed
  rw [hx', hrows, hnext, ← Except.ok.inj hab, hsame]
  unfold Table.amend
  have hchanged : s.comments.rows.map (fun old => if old.id = (g c).id then g c else old) =
      s.comments.rows.map (alter g (· = place c)) := by
    refine List.map_congr_left fun d hd => ?_
    have hgid : (g c).id = c.id := congrArg Place.id (hg c)
    rw [hgid]
    by_cases heq : d = c
    · have hself : alter g (· = place c) c = g c := if_pos rfl
      rw [heq, if_pos rfl, hself]
    · have hne : d.id ≠ c.id := fun hid => heq (eq_of_id hids hd hc hid)
      have hplace : place d ≠ place c := fun hplace => hne (congrArg Place.id hplace)
      have hother : alter g (· = place c) d = d := if_neg hplace
      rw [if_neg hne, hother]
  rw [hchanged]
  rfl

/-- The walk changes the comment that it starts at and all above. -/
theorem walkUp_returns (hg : ∀ c, place (g c) = place c) {P : List Place}
    (hids : (P.map (·.id)).Nodup) (hforest : shape.Forest P)
    (hreplies : ∀ d ∈ P, ∀ p, shape.Parent P d p → d.depth = p.depth + 1) {steps : ℕ}
    (hs : places s = P) {c : CommentObject} (hc : place c ∈ P) (hsteps : c.depth < steps) :
    Returns (walkUp g steps c) s ()
      (changed s g fun p => p = place c ∨ shape.Below P (place c) p) := by
  induction steps generalizing s c with
  | zero => omega
  | succ steps ih =>
    obtain ⟨current, hcurrent, hplace⟩ := List.mem_map.mp (hs ▸ hc)
    have hid : current.id = c.id := congrArg Place.id hplace
    have hfirst := modifyComment_returns (hs ▸ hids) hcurrent hg
    rw [hplace, hid] at hfirst
    refine hfirst.intro_bind ?_
    have hplaces : places (changed s g (· = place c)) = P := (changed_places hg _).trans hs
    unfold whenever
    by_cases hroot : c.parentAuthor = .empty
    · have honly : ∀ p ∈ places s,
          (p = place c ↔ p = place c ∨ shape.Below P (place c) p) := fun p _ =>
        ⟨.inl, fun h => h.resolve_right (Shape.not_below_of_root (up_of_empty hroot))⟩
      rw [if_neg (not_not.mpr hroot), changed_congr honly]
      rfl
    · rw [if_pos hroot]
      obtain ⟨next, hnext, hmem, hparent, hless⟩ :=
        find_parent (hplaces ▸ hforest) (hplaces ▸ hc) hroot
      have hparent : shape.Parent P (place c) (place next) := hplaces ▸ hparent
      have hdepth := hreplies (place c) hc _ hparent
      refine Returns.intro_bind (lookup_returns hnext) ?_
      have hrest := ih hplaces hparent.1 (by
        change c.depth = next.depth + 1 at hdepth
        omega)
      have hapart : ∀ p ∈ places s, p = place c →
          ¬ (p = place next ∨ shape.Below P (place next) p) := by
        rintro p - rfl hbelow
        have hself : shape.Below P (place c) (place c) := (hforest.below_iff hparent).mpr hbelow
        exact hforest.not_below_self hc hself
      rw [changed_changed hg hapart] at hrest
      rw [changed_congr fun p _ => or_congr Iff.rfl (hforest.below_iff hparent)]
      exact hrest

/-- The walk from the parent of a comment changes all comments above that one. -/
theorem walkAbove_returns (hg : ∀ c, place (g c) = place c) {P : List Place}
    (hids : (P.map (·.id)).Nodup) (hforest : shape.Forest P)
    (hreplies : ∀ d ∈ P, ∀ p, shape.Parent P d p → d.depth = p.depth + 1) {steps : ℕ}
    (hs : places s = P) {d : Place} {next : CommentObject}
    (hparent : shape.Parent P d (place next)) (hsteps : next.depth < steps) :
    Returns (walkUp g steps next) s () (changed s g fun p => shape.Below P d p) := by
  have hwalk := walkUp_returns hg hids hforest hreplies hs hparent.1 hsteps
  have habove : ∀ p ∈ places s,
      (p = place next ∨ shape.Below P (place next) p ↔ shape.Below P d p) :=
    fun p _ => (hforest.below_iff hparent).symm
  rwa [changed_congr habove] at hwalk

end Walks

section Retally

variable {s : ChainState}

/-- The comment without a count of its children. -/
def clearChildren (c : CommentObject) : CommentObject := { c with children := 0 }

/-- The comment with one more child. -/
def countChild (c : CommentObject) : CommentObject := { c with children := increment c.children }

/-- `retally_comment_children` -/
def retallyCommentChildren : Chain Unit := do
  let comments ← gets (·.comments.rows)
  forEach (fun c => modifyComment c.id fun c => .ok (clearChildren c)) comments
  forEach (fun c => whenever (c.parentAuthor ≠ .empty) do
    let parent ← getComment c.parentAuthor c.parentPermlink
    walkUp countChild comments.length parent) comments

/-- The comment with the number of children that belongs to its place. -/
def setChildren (n : Place → ℕ) (c : CommentObject) : CommentObject :=
  { c with children := n (place c) }

/-- The state with other numbers of children. -/
def recounted (s : ChainState) (n : Place → ℕ) : ChainState :=
  { s with comments := ⟨s.comments.rows.map (setChildren n), s.comments.nextId⟩ }

/-- Recounting the replies leaves the places. -/
theorem recounted_places (n : Place → ℕ) : places (recounted s n) = places s := by
  unfold places recounted
  rw [List.map_map]
  rfl

/-- The count of replies of a comment depends on its place alone. -/
theorem setChildren_congr {n n' : Place → ℕ} {c : CommentObject} (h : n (place c) = n' (place c)) :
    setChildren n c = setChildren n' c := by
  unfold setChildren
  rw [h]

/-- Counts that agree on the places give the same comments. -/
theorem recounted_congr {n n' : Place → ℕ} (h : ∀ p ∈ places s, n p = n' p) :
    recounted s n = recounted s n' := by
  have hrows : s.comments.rows.map (setChildren n) = s.comments.rows.map (setChildren n') :=
    List.map_congr_left fun c hc => setChildren_congr (h (place c) (List.mem_map_of_mem hc))
  unfold recounted
  rw [hrows]

/-- The numbers of children that a tree has already. -/
theorem Tree.recounted_self (hs : Tree s) : recounted s (shape.descendants (places s)) = s := by
  have hrows : s.comments.rows.map (setChildren (shape.descendants (places s))) =
      s.comments.rows.map id := by
    refine List.map_congr_left fun c hc => ?_
    have hcount := hs.counts c hc
    unfold descendants at hcount
    unfold setChildren
    rw [← hcount]
    rfl
  unfold recounted
  rw [hrows, List.map_id]

open Classical in
/-- One more child for some comments. -/
theorem changed_countChild {n : Place → ℕ} {S : Place → Prop}
    (hn : ∀ p ∈ places s, S p → n p + 1 < 2 ^ 32) :
    changed (recounted s n) countChild S = recounted s fun p => n p + if S p then 1 else 0 := by
  have hrows : (s.comments.rows.map (setChildren n)).map (alter countChild S) =
      s.comments.rows.map (setChildren fun p => n p + if S p then 1 else 0) := by
    rw [List.map_map]
    refine List.map_congr_left fun c hc => ?_
    simp only [Function.comp_apply]
    by_cases h : S (place c)
    · have hfits := hn (place c) (List.mem_map_of_mem hc) h
      have hcounted : alter countChild S (setChildren n c) = countChild (setChildren n c) :=
        alter_of h
      have hone : countChild (setChildren n c) = setChildren (fun p => n p + 1) c :=
        congrArg (fun k => { c with children := k }) (Nat.mod_eq_of_lt hfits)
      rw [hcounted, hone]
      exact setChildren_congr (by rw [if_pos h])
    · have hleft : alter countChild S (setChildren n c) = setChildren n c := alter_of_not h
      rw [hleft]
      exact setChildren_congr (by rw [if_neg h, Nat.add_zero])
  unfold changed recounted
  simp only [hrows]

open Classical in
/-- A reply is counted at the comments above it. -/
theorem countAbove_returns (hs : Tree s) {n : Place → ℕ} {d : CommentObject}
    (hd : d ∈ s.comments.rows)
    (hn : ∀ p ∈ places s, shape.Below (places s) (place d) p → n p + 1 < 2 ^ 32) :
    Returns (whenever (d.parentAuthor ≠ .empty) do
        let parent ← getComment d.parentAuthor d.parentPermlink
        walkUp countChild s.comments.rows.length parent) (recounted s n) ()
      (recounted s fun p => n p + if shape.Below (places s) (place d) p then 1 else 0) := by
  have hplace : place d ∈ places s := List.mem_map_of_mem hd
  have hplaces : places (recounted s n) = places s := recounted_places n
  unfold whenever
  by_cases hroot : d.parentAuthor = .empty
  · have hnone : ∀ p ∈ places s,
        n p = n p + if shape.Below (places s) (place d) p then 1 else 0 := fun p _ => by
      rw [if_neg (Shape.not_below_of_root (up_of_empty hroot)), Nat.add_zero]
    rw [if_neg (not_not.mpr hroot), ← recounted_congr hnone]
    rfl
  · rw [if_pos hroot]
    obtain ⟨next, hnext, -, hparent, -⟩ :=
      find_parent (s := recounted s n) (hplaces ▸ hs.forest) (hplaces ▸ hplace) hroot
    have hparent : shape.Parent (places s) (place d) (place next) := hplaces ▸ hparent
    have hdepth := hs.depth_lt hparent.1
    unfold places at hdepth
    rw [List.length_map] at hdepth
    have hwalk := walkAbove_returns (g := countChild) (fun _ => rfl) hs.ids hs.forest
      (fun d hd p hp => (hs.replies d hd p hp).1) hplaces hparent hdepth
    rw [changed_countChild hn] at hwalk
    exact Returns.intro_bind (lookup_returns hnext) hwalk

/-- The numbers of children are cleared one after the other. -/
theorem clear_returns (hs : Tree s) :
    Returns (forEach (fun c => modifyComment c.id fun c => .ok (clearChildren c))
      s.comments.rows) s () (recounted s fun _ => 0) := by
  have hg : ∀ c, place (clearChildren c) = place c := fun _ => rfl
  have hall : changed s clearChildren (· ∈ s.comments.rows.map place) =
      recounted s fun _ => 0 := by
    have hrows : s.comments.rows.map (alter clearChildren (· ∈ s.comments.rows.map place)) =
        s.comments.rows.map (setChildren fun _ => 0) :=
      List.map_congr_left fun c hc => alter_of (List.mem_map_of_mem hc)
    unfold changed
    rw [hrows]
    rfl
  have hnone : changed s clearChildren (· ∈ ([] : List CommentObject).map place) = s :=
    changed_none fun _ _ => List.not_mem_nil
  rw [← hall]
  nth_rewrite 2 [← hnone]
  refine Returns.intro_forEach
    (fun earlier => changed s clearChildren (· ∈ earlier.map place)) ?_
  intro earlier c later hrows
  have hcurrent : place c ∈ places (changed s clearChildren (· ∈ earlier.map place)) := by
    rw [changed_places hg]
    exact List.mem_map_of_mem (hrows ▸ List.mem_append_right _ List.mem_cons_self)
  obtain ⟨current, hmem, hplace⟩ := List.mem_map.mp hcurrent
  have hid : current.id = c.id := congrArg Place.id hplace
  have hids := hs.ids
  rw [← changed_places (s := s) hg (· ∈ earlier.map place)] at hids
  have hone := modifyComment_returns hids hmem hg
  have hapart : ∀ p ∈ places s, p ∈ earlier.map place → ¬ p = place c := by
    rintro p - hearlier rfl
    have hnodup := hs.ids
    unfold places at hnodup
    rw [hrows, List.map_append, List.map_append, List.map_cons, List.map_cons] at hnodup
    exact (List.nodup_append.mp hnodup).2.2 _ (List.mem_map_of_mem hearlier) _
      List.mem_cons_self rfl
  rw [hid, hplace, changed_changed hg hapart] at hone
  refine (congrArg (Returns _ _ ()) (changed_congr fun p _ => ?_)).mp hone
  rw [List.map_append, List.mem_append, List.map_singleton, List.mem_singleton]

open Classical in
/-- The comments below a place are counted as its descendants. -/
theorem descendants_eq_countP (s : ChainState) (p : Place) :
    (s.comments.rows.countP fun d => decide (shape.Below (places s) (place d) p)) =
      shape.descendants (places s) p := by
  unfold Shape.descendants places
  rw [List.countP_map]
  rfl

open Classical in
/-- The count of the children finds the numbers that a tree has already. -/
theorem Tree.retally (hs : Tree s) : Returns retallyCommentChildren s () s := by
  refine Returns.intro_bind (a := s.comments.rows) rfl ?_
  refine (clear_returns hs).intro_bind ?_
  have hall : recounted s (fun p => s.comments.rows.countP fun d =>
      decide (shape.Below (places s) (place d) p)) = s := by
    rw [funext (descendants_eq_countP s)]
    exact hs.recounted_self
  nth_rewrite 4 [← hall]
  refine Returns.intro_forEach (fun earlier => recounted s fun p =>
      earlier.countP fun d => decide (shape.Below (places s) (place d) p)) ?_
  intro earlier d later hrows
  have hcounted : ∀ p ∈ places s, shape.Below (places s) (place d) p →
      (earlier.countP fun d => decide (shape.Below (places s) (place d) p)) + 1 < 2 ^ 32 := by
    intro p hp hbelow
    have hfits := hs.fits p hp
    rw [← descendants_eq_countP, hrows, List.countP_append,
      List.countP_cons_of_pos (by simpa using hbelow)] at hfits
    omega
  have hone := countAbove_returns hs (hrows ▸ List.mem_append_right _ List.mem_cons_self) hcounted
  refine (congrArg (Returns _ _ ()) (recounted_congr fun p _ => ?_)).mp hone
  rw [List.countP_append, List.countP_singleton]
  simp only [decide_eq_true_eq]

end Retally

section Growing

variable {s t v : ChainState} {g : CommentObject → CommentObject} {new c : CommentObject}

/-- A comment that joins a tree: it has a new id and a new key, and stands as a root post or
below a comment that is there. -/
structure Joins (s : ChainState) (new : CommentObject) : Prop where
  id : new.id = s.comments.nextId
  key : ∀ old ∈ s.comments.rows, shape.key (place old) ≠ shape.key (place new)
  children : new.children = 0
  root : new.parentAuthor = .empty → new.depth = 0 ∧ new.rootComment = new.id
  parent : new.parentAuthor ≠ .empty → ∃ p ∈ s.comments.rows,
    shape.key (place p) = (new.parentAuthor, cString new.parentPermlink) ∧
      new.depth = p.depth + 1 ∧ new.rootComment = p.rootComment

/-- With the new comment the places are a forest, in which it is a leaf. -/
theorem Joins.forest (h : Joins s new) (hs : Tree s) :
    shape.Forest (places s ++ [place new]) ∧ shape.Leaf (places s ++ [place new]) (place new) := by
  refine hs.forest.add ?_ ?_
  · intro hmem
    obtain ⟨q, hq, hkey⟩ := List.mem_map.mp hmem
    obtain ⟨old, hold, rfl⟩ := List.mem_map.mp hq
    exact h.key old hold hkey
  · intro k hup
    by_cases hroot : new.parentAuthor = .empty
    · rw [up_of_empty (p := place new) hroot] at hup
      cases hup
    · obtain ⟨p, hp, hkey, -⟩ := h.parent hroot
      have hbelow := hs.below (place p) (List.mem_map_of_mem hp)
      rw [up_of_ne (p := place new) hroot] at hup
      refine ⟨place p, List.mem_map_of_mem hp, hkey.trans (Option.some.inj hup), ?_⟩
      change (place p).id < new.id
      rw [h.id]
      exact hbelow

/-- The parents in the tree with the new comment are those of before. -/
theorem Joins.parent_iff (h : Joins s new) (hs : Tree s) {d p : Place}
    (hd : d ∈ places s ++ [place new]) :
    shape.Parent (places s ++ [place new]) d p ↔ shape.Parent (places s) d p := by
  have hiff := (h.forest hs).2.parent_iff (p := p) hd
  rwa [List.append_nil] at hiff

/-- A new leaf is below other places only, and nothing else changes below them. -/
theorem Joins.below_iff (h : Joins s new) (hs : Tree s) {d p : Place}
    (hd : d ∈ places s ++ [place new]) :
    shape.Below (places s ++ [place new]) d p ↔ shape.Below (places s) d p := by
  have hiff := (h.forest hs).2.below_iff (c := p) hd
  rwa [List.append_nil] at hiff

/-- The ids stay different with the new comment. -/
theorem Joins.ids (h : Joins s new) (hs : Tree s) :
    ((places s ++ [place new]).map (·.id)).Nodup := by
  rw [List.map_append]
  refine List.Nodup.append hs.ids (List.nodup_singleton _) fun id hold hid => ?_
  obtain ⟨p, hp, rfl⟩ := List.mem_map.mp hold
  have hbelow := hs.below p hp
  have hsame : p.id = new.id := List.mem_singleton.mp hid
  have hnew := h.id
  omega

/-- The new comment is one level below its parent and under the same root. -/
theorem Joins.replies (h : Joins s new) (hs : Tree s) {d p : Place}
    (hd : d ∈ places s ++ [place new]) (hparent : shape.Parent (places s ++ [place new]) d p) :
    d.depth = p.depth + 1 ∧ d.rootComment = p.rootComment := by
  have hparent := (h.parent_iff hs hd).mp hparent
  rcases List.mem_append.mp hd with hd | hd
  · exact hs.replies d hd p hparent
  · obtain rfl := List.mem_singleton.mp hd
    have hreply : new.parentAuthor ≠ .empty := by
      intro hroot
      have hup := hparent.2
      rw [up_of_empty (p := place new) hroot] at hup
      cases hup
    obtain ⟨q, hq, hkey, hdepth, hrootComment⟩ := h.parent hreply
    have hq : shape.Parent (places s) (place new) (place q) :=
      ⟨List.mem_map_of_mem hq, (up_of_ne (p := place new) hreply).trans (congrArg some hkey.symm)⟩
    rw [hs.forest.parent_unique hparent hq]
    exact ⟨hdepth, hrootComment⟩

open Classical in
/-- A new comment adds one descendant to each place that it is below. -/
theorem Joins.descendants_eq (h : Joins s new) (hs : Tree s) (p : Place) :
    shape.descendants (places s ++ [place new]) p =
      shape.descendants (places s) p + if shape.Below (places s) (place new) p then 1 else 0 := by
  have heq := (h.forest hs).2.descendants_eq p
  rwa [List.append_nil] at heq

/-- The new comment is counted at all comments above it. -/
theorem Tree.grow (hs : Tree s) (hjoins : Joins s new)
    (hg : ∀ c, place (g c) = place c ∧ (g c).children = increment c.children)
    (hrows : v.comments.rows = s.comments.rows ++ [new])
    (hnext : v.comments.nextId = s.comments.nextId + 1)
    (hroom : ∀ p ∈ places s, shape.Below (places s) (place new) p →
      shape.descendants (places s) p + 1 < 2 ^ 32) :
    Tree (changed v g fun p => shape.Below (places s) (place new) p) := by
  have hplacesv : places v = places s ++ [place new] := by
    unfold places
    rw [hrows, List.map_append, List.map_singleton]
  have hplaces : places (changed v g fun p => shape.Below (places s) (place new) p) =
      places s ++ [place new] := (changed_places (fun c => (hg c).1) _).trans hplacesv
  obtain ⟨hforest, hleaf⟩ := hjoins.forest hs
  have hlast : place new ∈ places s ++ [place new] :=
    List.mem_append_right _ (List.mem_singleton_self _)
  have hcases : ∀ p ∈ places s ++ [place new], p ∈ places s ∨ p = place new := by
    intro p hp
    rcases List.mem_append.mp hp with hp | hp
    · exact .inl hp
    · exact .inr (List.mem_singleton.mp hp)
  have hself : ¬ shape.Below (places s) (place new) (place new) := fun hbelow =>
    hforest.not_below_self hlast ((hjoins.below_iff hs hlast).mpr hbelow)
  have hzero : shape.descendants (places s ++ [place new]) (place new) = 0 :=
    hleaf.descendants_zero
  refine ⟨?_, ?_, ?_, ?_, ?_, ?_, ?_⟩
  · rw [hplaces]
    exact hjoins.ids hs
  · rw [hplaces]
    intro p hp
    change p.id < v.comments.nextId
    rw [hnext]
    rcases hcases p hp with hp | rfl
    · have hbelow := hs.below p hp
      omega
    · change new.id < _
      rw [hjoins.id]
      exact Nat.lt_succ_self _
  · rw [hplaces]
    exact hforest
  · rw [hplaces]
    exact fun d hd p hparent => hjoins.replies hs hd hparent
  · rw [hplaces]
    intro d hd hroot
    rcases hcases d hd with hd | rfl
    · exact hs.roots d hd hroot
    · exact hjoins.root hroot
  · intro c hc
    obtain ⟨old, hold, rfl⟩ := List.mem_map.mp hc
    unfold descendants
    rw [hplaces, alter_place (fun c => (hg c).1)]
    rw [hrows] at hold
    rcases List.mem_append.mp hold with hold | hold
    · have hcount := hs.counts old hold
      rw [hjoins.descendants_eq hs]
      by_cases habove : shape.Below (places s) (place new) (place old)
      · have hfits := hroom (place old) (List.mem_map_of_mem hold) habove
        rw [alter_of habove, if_pos habove, (hg old).2, hcount]
        exact Nat.mod_eq_of_lt hfits
      · rw [alter_of_not habove, if_neg habove, hcount]
        rfl
    · rw [List.mem_singleton.mp hold, hzero, alter_of_not hself]
      exact hjoins.children
  · rw [hplaces]
    intro p hp
    rcases hcases p hp with hp | rfl
    · rw [hjoins.descendants_eq hs]
      have hfits := hs.fits p hp
      by_cases habove : shape.Below (places s) (place new) p
      · rw [if_pos habove]
        exact hroom p hp habove
      · rwa [if_neg habove]
    · rw [hzero]
      norm_num

end Growing

section Shrinking

variable {s t : ChainState} {g : CommentObject → CommentObject} {c : CommentObject}
  {before after : List CommentObject}

/-- A comment without counted children is a leaf. -/
theorem Tree.leaf (hs : Tree s) (hc : c ∈ s.comments.rows) (hchildren : c.children = 0) :
    shape.Leaf (places s) (place c) := by
  have hcount := hs.counts c hc
  rw [hchildren] at hcount
  exact Shape.leaf_of_descendants_zero (List.mem_map_of_mem hc) hcount.symm

/-- A comment without children is taken out and not counted any more at the comments above. -/
theorem Tree.shrink (hs : Tree s)
    (hg : ∀ c, place (g c) = place c ∧ (g c).children = decrement c.children)
    (hrows : s.comments.rows = before ++ c :: after) (hchildren : c.children = 0)
    (hrows' : t.comments.rows =
      (before ++ after).map (alter g fun p => shape.Below (places s) (place c) p))
    (hnext : t.comments.nextId = s.comments.nextId) : Tree t := by
  have hplacess : places s = before.map place ++ place c :: after.map place := by
    unfold places
    rw [hrows, List.map_append, List.map_cons]
  have hplaces : places t = before.map place ++ after.map place := by
    unfold places
    rw [hrows', List.map_map, ← List.map_append]
    exact List.map_congr_left fun d _ => alter_place (fun c => (hg c).1) _ d
  have hmem : ∀ p ∈ places t, p ∈ places s := by
    intro p hp
    rw [hplaces] at hp
    rw [hplacess]
    exact Shape.mem_middle.mpr (.inr hp)
  have hleaf : shape.Leaf (before.map place ++ place c :: after.map place) (place c) := by
    rw [← hplacess]
    exact hs.leaf (hrows ▸ List.mem_append_right _ List.mem_cons_self) hchildren
  have hlast : place c ∈ before.map place ++ place c :: after.map place :=
    List.mem_append_right _ List.mem_cons_self
  have hdescendants : ∀ p, shape.Below (places s) (place c) p →
      shape.descendants (places s) p = shape.descendants (places t) p + 1 := by
    intro p habove
    rw [hplacess] at habove ⊢
    have heq := hleaf.descendants_eq p
    rwa [if_pos ((hleaf.below_iff hlast).mp habove), ← hplaces] at heq
  have hothers : ∀ p, ¬ shape.Below (places s) (place c) p →
      shape.descendants (places s) p = shape.descendants (places t) p := by
    intro p habove
    rw [hplacess] at habove ⊢
    have heq := hleaf.descendants_eq p
    rwa [if_neg fun h => habove ((hleaf.below_iff hlast).mpr h), ← hplaces] at heq
  refine ⟨?_, ?_, ?_, ?_, ?_, ?_, ?_⟩
  · have hids := hs.ids
    rw [hplacess, List.map_append, List.map_cons] at hids
    rw [hplaces, List.map_append]
    exact (List.nodup_middle.mp hids).of_cons
  · rw [hnext]
    exact fun p hp => hs.below p (hmem p hp)
  · rw [hplaces]
    exact (hplacess ▸ hs.forest).remove hleaf
  · intro d hd p hparent
    have hold := hmem d hd
    refine hs.replies d hold p ?_
    rw [hplacess] at hold ⊢
    rw [hplaces] at hparent
    exact (hleaf.parent_iff hold).mpr hparent
  · exact fun d hd => hs.roots d (hmem d hd)
  · intro d hd
    rw [hrows'] at hd
    obtain ⟨old, hold, rfl⟩ := List.mem_map.mp hd
    have hcount := hs.counts old (hrows ▸ Shape.mem_middle.mpr (.inr hold))
    unfold descendants at hcount ⊢
    rw [alter_place (fun c => (hg c).1)]
    by_cases habove : shape.Below (places s) (place c) (place old)
    · have hfits := hs.fits (place old) habove.mem
      rw [alter_of habove, (hg old).2, hcount, hdescendants _ habove] at *
      unfold decrement
      omega
    · rw [alter_of_not habove, hcount, hothers _ habove]
  · intro p hp
    have hfits := hs.fits p (hmem p hp)
    by_cases habove : shape.Below (places s) (place c) p
    · rw [hdescendants p habove] at hfits
      omega
    · rwa [hothers p habove] at hfits

end Shrinking

section Evaluators

variable {env : Env} {s t u v : ChainState}

/-- A tree depends only on the threads of the comments. -/
theorem Tree.of_threads (hs : Tree s)
    (hthreads : t.comments.rows.map thread = s.comments.rows.map thread)
    (hnext : t.comments.nextId = s.comments.nextId) : Tree t := by
  have hplaces : places t = places s := by
    have hview := congrArg (List.map fun h : Thread => (⟨h.id, h.author, h.permlink, h.parentAuthor,
      h.parentPermlink, h.depth, h.rootComment⟩ : Place)) hthreads
    rw [List.map_map, List.map_map] at hview
    exact hview
  refine ⟨hplaces ▸ hs.ids, ?_, hplaces ▸ hs.forest, hplaces ▸ hs.replies, hplaces ▸ hs.roots, ?_,
    hplaces ▸ hs.fits⟩
  · rw [hplaces, hnext]
    exact hs.below
  · intro c hc
    have hthread : thread c ∈ s.comments.rows.map thread := hthreads ▸ List.mem_map_of_mem hc
    obtain ⟨old, hold, hsame⟩ := List.mem_map.mp hthread
    have hchildren : old.children = c.children := congrArg Thread.children hsame
    have hplace : place old = place c := congrArg (fun h : Thread =>
      (⟨h.id, h.author, h.permlink, h.parentAuthor, h.parentPermlink, h.depth, h.rootComment⟩ :
        Place)) hsame
    have hcount := hs.counts old hold
    unfold descendants at hcount ⊢
    rwa [hchildren, hplace, ← hplaces] at hcount

/-- Changes aside of the comments keep the tree. -/
theorem tree_sideFrame : SideFrame (Preserves Tree) where
  accounts _ _ _ _ h := h.of_threads rfl rfl
  comments _ _ hx hnext h := h.of_threads (map_eq_of_map_eq Prod.fst (fun _ => rfl) hx) hnext
  accountAuthorities _ _ h := h.of_threads rfl rfl
  witnesses _ _ h := h.of_threads rfl rfl
  witnessVotes _ _ h := h.of_threads rfl rfl
  rewardFunds _ _ _ h := h.of_threads rfl rfl
  transactions _ _ h := h.of_threads rfl rfl
  dgp _ _ h := h.of_threads rfl rfl
  wso _ _ h := h.of_threads rfl rfl
  hardforks _ _ h := h.of_threads rfl rfl
  blockSummaries _ _ h := h.of_threads rfl rfl

/-- Changes of polls keep the tree. -/
theorem tree_polls : AllowsPolls (Preserves Tree) := fun _ _ hx hnext h => h.of_threads hx hnext

/-- Changes of the votes on comments keep the tree. -/
theorem tree_commentVotes : AllowsCommentVotes (Preserves Tree) := fun _ _ h => h.of_threads rfl rfl

/-- Changes of voting power keep the tree. -/
theorem tree_power : AllowsPower (Preserves Tree) := fun _ _ _ _ h => h.of_threads rfl rfl

/-- Changes of power-downs keep the tree. -/
theorem tree_powerDown : AllowsPowerDown (Preserves Tree) := fun _ _ _ _ h => h.of_threads rfl rfl

/-- Changes of routes keep the tree. -/
theorem tree_routes : AllowsRoutes (Preserves Tree) where
  accounts _ _ _ _ h := h.of_threads rfl rfl
  routes _ _ h := h.of_threads rfl rfl

/-- A new account keeps the tree. -/
theorem tree_account : AllowsAccount (Preserves Tree) := fun _ _ _ _ _ _ _ h => h.of_threads rfl rfl

/-- The parent of a comment is found unless the operation names none. -/
theorem findParent_cases {o : CommentOperation} {r : Option CommentObject}
    (h : Returns (findParent o) s r t) :
    t = s ∧ ((o.parentAuthor = .empty ∧ r = none) ∨ (o.parentAuthor ≠ .empty ∧ ∃ parent,
      s.comments.find (CommentObject.hasPermlink o.parentAuthor o.parentPermlink) = some parent ∧
        parent.depth < wlsMaxCommentDepth ∧ r = some parent)) := by
  unfold findParent at h
  split at h
  next hroot => exact ⟨h.pure.2, .inl ⟨hroot, h.pure.1⟩⟩
  next hroot =>
    obtain ⟨parent, hparent, h⟩ := lookup_bind h
    obtain ⟨_, hdepth, h⟩ := h.lift_bind
    exact ⟨h.pure.2, .inr ⟨hroot, parent, hparent, by simpa using fcAssert_eq_ok hdepth, h.pure.1⟩⟩

/-- A comment operation creates a reply, and a comment above the new one has as many descendants
as it can count. -/
def Crowded (o : CommentOperation) (s : ChainState) : Prop :=
  s.comments.find (CommentObject.hasPermlink o.author o.permlink) = none ∧
    o.parentAuthor ≠ .empty ∧ ∃ parent c,
      s.comments.find (CommentObject.hasPermlink o.parentAuthor o.parentPermlink) = some parent ∧
        c ∈ s.comments.rows ∧
        (place c = place parent ∨ shape.Below (places s) (place parent) (place c)) ∧
        descendants s c + 1 = 2 ^ 32

/-- The new comment joins the tree. -/
theorem newComment_joins (hs : Tree s) {o : CommentOperation} {parent : Option CommentObject}
    {now : TimePointSec} {new : CommentObject}
    (hparent : (o.parentAuthor = .empty ∧ parent = none) ∨ (o.parentAuthor ≠ .empty ∧ ∃ p,
      s.comments.find (CommentObject.hasPermlink o.parentAuthor o.parentPermlink) = some p ∧
        p.depth < wlsMaxCommentDepth ∧ parent = some p))
    (hnew : newComment env o parent now s.comments.nextId = .ok new)
    (hclash : ∀ old ∈ s.comments.rows, old.hasPermlink new.author new.permlink = false) :
    Joins s new := by
  obtain ⟨_, -, hnew⟩ := bind_eq_ok hnew
  obtain ⟨_, -, hnew⟩ := bind_eq_ok hnew
  have hnew := Except.ok.inj hnew
  have hfound : ∀ old ∈ s.comments.rows, shape.key (place old) ≠ shape.key (place new) := by
    intro old hold hkey
    have hno := hclash old hold
    rw [hasPermlink_eq] at hno
    exact of_decide_eq_false hno hkey
  rcases hparent with ⟨-, rfl⟩ | ⟨hne, p, hp, hdepth, rfl⟩
  · refine ⟨by rw [← hnew], hfound, by rw [← hnew], fun _ => ?_, fun hreply => ?_⟩
    · rw [← hnew]
      exact ⟨rfl, rfl⟩
    · rw [← hnew] at hreply
      exact absurd rfl hreply
  · obtain ⟨hmem, hkey⟩ := (find_iff hs.forest).mp hp
    have hauthor : p.author = o.parentAuthor := congrArg Prod.fst hkey
    refine ⟨by rw [← hnew], hfound, by rw [← hnew], fun hroot => ?_, fun _ => ?_⟩
    · rw [← hnew] at hroot
      have hempty : p.author = .empty := hroot
      exact absurd (hauthor.symm.trans hempty) hne
    · rw [← hnew]
      have hmod : (p.depth + 1) % 2 ^ 16 = p.depth + 1 := by
        unfold wlsMaxCommentDepth at hdepth
        omega
      exact ⟨p, hmem, rfl, hmod, rfl⟩

/-- A new comment names the author and the permlink of its parent. -/
theorem newComment_parent {o : CommentOperation} {parent : Option CommentObject}
    {now : TimePointSec} {id : ℕ} {new : CommentObject}
    (h : newComment env o parent now id = .ok new) :
    new.parentAuthor = (parent.map (·.author)).getD .empty ∧
      new.parentPermlink = (parent.map (·.permlink)).getD o.parentPermlink := by
  obtain ⟨_, -, h⟩ := bind_eq_ok h
  obtain ⟨_, -, h⟩ := bind_eq_ok h
  rw [← Except.ok.inj h]
  exact ⟨rfl, rfl⟩

/-- A comment operation that creates a comment. -/
theorem createNewComment_tree (hs : Tree s) {o : CommentOperation}
    {parent : Option CommentObject} {auth : AccountObject} {now : TimePointSec}
    (hparent : (o.parentAuthor = .empty ∧ parent = none) ∨ (o.parentAuthor ≠ .empty ∧ ∃ p,
      s.comments.find (CommentObject.hasPermlink o.parentAuthor o.parentPermlink) = some p ∧
        p.depth < wlsMaxCommentDepth ∧ parent = some p))
    (hfind : s.comments.find (CommentObject.hasPermlink o.author o.permlink) = none)
    (hroom : ¬ Crowded o s) (h : Returns (createNewComment env o parent auth now) s () t) :
    Tree t := by
  obtain ⟨_, a, ha, h⟩ := h.bind
  have hsame : s = a := (checkNewComment_keeps (R := Eq) o parent auth now).rel _ _ _ ha
  rw [← hsame] at h
  obtain ⟨_, u, hu, h⟩ := h.bind
  obtain ⟨accounts, -, hu⟩ := map_eq_ok hu.update
  have hcomments : u.comments = s.comments := by rw [hu]
  obtain ⟨_, v, hv, h⟩ := h.bind
  obtain ⟨x, hx, hv⟩ := map_eq_ok hv.update
  rw [hcomments] at hx
  obtain ⟨new, hnew, hclash, hrows, hnext⟩ := Table.create_rows hx
  have hjoins := newComment_joins hs hparent hnew hclash
  have hrowsv : v.comments.rows = s.comments.rows ++ [new] := by rw [hv, hrows]
  have hnextv : v.comments.nextId = s.comments.nextId + 1 := by rw [hv, hnext]
  have hplaces : places v = places s ++ [place new] := by
    unfold places
    rw [hrowsv, List.map_append, List.map_singleton]
  have hlast : place new ∈ places s ++ [place new] :=
    List.mem_append_right _ (List.mem_singleton_self _)
  obtain ⟨hauthor, hpermlink⟩ := newComment_parent hnew
  have hcounts : Returns (forEach (updateAncestors increment now v.comments.rows.length)
        parent.toList) v ()
      (changed v (refresh increment now) fun p => shape.Below (places s) (place new) p) ∧
      ∀ p ∈ places s, shape.Below (places s) (place new) p →
        shape.descendants (places s) p + 1 < 2 ^ 32 := by
    rcases hparent with ⟨-, rfl⟩ | ⟨hne, p, hp, -, rfl⟩
    · have hroot : ∀ q, ¬ shape.Below (places s) (place new) q := fun q =>
        Shape.not_below_of_root (up_of_empty hauthor)
      rw [changed_none fun q _ => hroot q]
      exact ⟨rfl, fun q _ hbelow => absurd hbelow (hroot q)⟩
    · obtain ⟨hmem, hkey⟩ := (find_iff hs.forest).mp hp
      have hpauthor : p.author = o.parentAuthor := congrArg Prod.fst hkey
      have hauthor : new.parentAuthor = p.author := hauthor
      have hpermlink : new.parentPermlink = p.permlink := hpermlink
      have hreply : new.parentAuthor ≠ .empty := by
        rw [hauthor, hpauthor]
        exact hne
      have hup : shape.up (place new) = some (shape.key (place p)) := by
        rw [up_of_ne (p := place new) hreply]
        exact congrArg some (Prod.ext hauthor (congrArg cString hpermlink))
      have hplace : place p ∈ places s := List.mem_map_of_mem hmem
      have hold : shape.Parent (places s) (place new) (place p) := ⟨hplace, hup⟩
      have hdepth := hs.depth_lt hplace
      constructor
      · have hparent : shape.Parent (places s ++ [place new]) (place new) (place p) :=
          ⟨List.mem_append_left _ hplace, hup⟩
        have hsteps : p.depth < v.comments.rows.length := by
          have hlength : (places s).length < v.comments.rows.length := by
            rw [hrowsv]
            unfold places
            simp
          exact Nat.lt_trans hdepth hlength
        have hwalk := walkAbove_returns (g := refresh increment now) (fun _ => rfl) ?_ (hjoins.forest hs).1 ?_ hplaces hparent hsteps
        · have habove : ∀ q ∈ places v, (shape.Below (places s ++ [place new]) (place new) q ↔
              shape.Below (places s) (place new) q) := fun q _ => hjoins.below_iff hs hlast
          rw [changed_congr habove, ← updateAncestors_eq] at hwalk
          exact hwalk.intro_bind rfl
        · exact hjoins.ids hs
        · exact fun d hd q hq => (hjoins.replies hs hd hq).1
      · intro q hq hbelow
        obtain ⟨c, hc, rfl⟩ := List.mem_map.mp hq
        have hfits := hs.fits (place c) hq
        by_contra hfull
        refine hroom ⟨hfind, hne, p, c, hp, hc, (hs.forest.below_iff hold).mp hbelow, ?_⟩
        unfold descendants
        omega
  obtain ⟨hwalk, hfits⟩ := hcounts
  rw [(h.gets_bind).state_unique hwalk]
  exact hs.grow hjoins (fun _ => ⟨rfl, rfl⟩) hrowsv hnextv hfits

/-- A comment operation keeps the tree. -/
theorem applyComment_tree (hs : Tree s) {o : CommentOperation} (hroom : ¬ Crowded o s)
    (h : Returns (applyComment env o) s () t) : Tree t := by
  obtain ⟨_, -, h⟩ := h.lift_bind
  have h := h.gets_bind
  obtain ⟨auth, -, h⟩ := lookup_bind h
  obtain ⟨parent, u, hu, h⟩ := h.bind
  obtain ⟨rfl, hparent⟩ := findParent_cases hu
  obtain ⟨_, -, h⟩ := h.lift_bind
  have h := h.gets_bind
  cases hfind : u.comments.find (CommentObject.hasPermlink o.author o.permlink) with
  | none =>
    rw [hfind] at h
    exact createNewComment_tree hs hparent hfind hroom h
  | some comment =>
    rw [hfind] at h
    obtain ⟨x, hx, rfl⟩ := map_eq_ok h.update
    refine hs.of_threads (Table.modify_map_eq hx fun a b hab => ?_) (Table.modify_eq_ok hx).2
    obtain ⟨_, -, hab⟩ := bind_eq_ok hab
    obtain ⟨_, -, hab⟩ := bind_eq_ok hab
    rw [← Except.ok.inj hab]
    rfl

/-- What is left of a list of comments when the one with an id is removed. -/
theorem filter_middle {rows before after : List CommentObject} {c : CommentObject}
    (hrows : rows = before ++ c :: after) (hids : (rows.map (·.id)).Nodup) :
    (rows.filter fun d => !decide (d.id = c.id)) = before ++ after := by
  rw [hrows, List.map_append, List.map_cons] at hids
  have hne := (List.nodup_cons.mp (List.nodup_middle.mp hids)).1
  rw [hrows, List.filter_append, List.filter_cons_of_neg (by simp)]
  have hkeep : ∀ d ∈ before ++ after, (!decide (d.id = c.id)) = true := by
    intro d hd
    have hid : d.id ≠ c.id := fun heq => hne (heq ▸ (List.map_append ▸ List.mem_map_of_mem hd))
    simpa using hid
  rw [← List.filter_append]
  exact List.filter_eq_self.mpr hkeep

/-- The deletion of a comment keeps the tree, and the comment has no descendants. -/
theorem applyDeleteComment_tree (hs : Tree s) {o : DeleteCommentOperation}
    (h : Returns (applyDeleteComment o) s () t) : Tree t ∧
      ∃ c, s.comments.find (CommentObject.hasPermlink o.author o.permlink) = some c ∧
        descendants s c = 0 := by
  obtain ⟨c, hc, h⟩ := lookup_bind h
  obtain ⟨_, hchildren, h⟩ := h.lift_bind
  have hchildren : c.children = 0 := by simpa using fcAssert_eq_ok hchildren
  obtain ⟨_, -, h⟩ := h.lift_bind
  obtain ⟨_, -, h⟩ := h.lift_bind
  have hmem := ((find_iff hs.forest).mp hc).1
  refine ⟨?_, c, hc, (hs.counts c hmem).symm.trans hchildren⟩
  obtain ⟨_, u, hu, h⟩ := h.bind
  have hcomments : u.comments = s.comments := by rw [← Except.ok.inj hu.update]
  obtain ⟨_, v, hv, h⟩ := h.bind
  have hplaces : places u = places s := by
    unfold places
    rw [hcomments]
  have hv' : Returns (whenever (c.parentAuthor ≠ .empty) (discountAncestors c)) u ()
      (changed u (refresh decrement u.dgp.time) fun p => shape.Below (places s) (place c) p) := by
    unfold whenever
    by_cases hroot : c.parentAuthor = .empty
    · rw [if_neg (not_not.mpr hroot), changed_none fun q _ =>
        Shape.not_below_of_root (up_of_empty hroot)]
      rfl
    · rw [if_pos hroot]
      obtain ⟨next, hnext, -, hparent, -⟩ :=
        find_parent hs.forest (List.mem_map_of_mem hmem) hroot
      have hdepth := hs.depth_lt hparent.1
      have hwalk := walkAbove_returns (g := refresh decrement u.dgp.time) (fun _ => rfl) hs.ids hs.forest (fun d hd q hq => (hs.replies d hd q hq).1) hplaces hparent
        hdepth
      rw [← updateAncestors_eq, ← hplaces] at hwalk
      have hlength : (places u).length = u.comments.rows.length := by
        unfold places
        rw [List.length_map]
      rw [hlength, hplaces] at hwalk
      rw [← hcomments] at hnext
      exact Returns.intro_bind (lookup_returns hnext) (Returns.intro_bind (a := u.dgp.time) rfl
        (Returns.intro_bind (a := u.comments.rows.length) rfl hwalk))
  obtain ⟨before, after, hrows⟩ := List.append_of_mem hmem
  have ht := Except.ok.inj h.update
  have hids : (s.comments.rows.map (·.id)).Nodup := by
    have hids := hs.ids
    unfold places at hids
    rwa [List.map_map] at hids
  refine hs.shrink (g := refresh decrement u.dgp.time) (fun _ => ⟨rfl, rfl⟩) hrows hchildren ?_ ?_
  · rw [← ht, hv.state_unique hv', ← filter_middle hrows hids, ← hcomments]
    change (u.comments.rows.map _).filter _ = _
    rw [List.filter_map]
    refine congrArg (List.map _) (List.filter_congr fun d _ => ?_)
    have hid := congrArg Place.id (alter_place (g := refresh decrement u.dgp.time) (fun _ => rfl)
      (fun p => shape.Below (places s) (place c) p) d)
    exact congrArg (fun id => !decide (id = c.id)) hid
  · rw [← ht, hv.state_unique hv']
    change u.comments.nextId = _
    rw [hcomments]

end Evaluators

section Runs

variable {env : Env} {s t : ChainState} {steps : List Step}

/-- A step keeps the tree, unless it is the creation of one comment too many. -/
theorem step_tree {m : Step} (hm : Occurs env m.event m.before m.after)
    (hroom : ∀ o, m.event = .operation (.comment o) → ¬ Crowded o m.before)
    (hs : Tree m.before) : Tree m.after := by
  obtain ⟨s, event, t⟩ := m
  have hside := tree_sideFrame
  cases hm with
  | operation ctx henv op hvalid hnull h =>
    cases op with
    | vote o =>
      exact (applyVote_aside _ hside tree_power tree_polls tree_commentVotes o).rel _ _ _ h hs
    | comment o => exact applyComment_tree hs (hroom o rfl) h
    | deleteComment o => exact (applyDeleteComment_tree hs h).1
    | withdrawVesting o => exact (applyWithdrawVesting_aside _ tree_powerDown o).rel _ _ _ h hs
    | setWithdrawVestingRoute o =>
      exact (applySetWithdrawVestingRoute_aside tree_routes o).rel _ _ _ h hs
    | accountCreate o => exact (applyAccountCreate_aside ctx hside tree_account o).rel _ _ _ h hs
    | _ =>
      refine (applyOperation_aside ctx hside ?_).rel _ _ _ h hs
      trivial
  | withdrawal hsource hdue h =>
    exact (processVestingWithdrawal_aside _ hside tree_powerDown _).rel _ _ _ h hs
  | cashout h =>
    exact (processCommentCashout_aside _ hside tree_polls tree_commentVotes).rel _ _ _ h hs
  | burning h => exact (clearNullAccountBalance_aside _ hside).rel _ _ _ h hs
  | upkeep hm hlater h => exact (hm.aside hside).rel _ _ _ h hs

/-- There are no comments at the genesis. -/
theorem tree_initGenesis (env : Env) (initSupply : ℕ) : Tree (initGenesis env initSupply) := by
  have hnone : ∀ p : Place, p ∉ places (initGenesis env initSupply) := fun _ => List.not_mem_nil
  refine ⟨List.nodup_nil, fun p hp => absurd hp (hnone p),
    ⟨List.nodup_nil, fun p hp => absurd hp (hnone p)⟩, fun p hp => absurd hp (hnone p),
    fun p hp => absurd hp (hnone p), fun c hc => absurd hc List.not_mem_nil,
    fun p hp => absurd hp (hnone p)⟩

/-- In every run without one comment too many the comments are a tree. -/
theorem history_tree {initSupply : ℕ} (h : History env (initGenesis env initSupply) steps t)
    (hroom : ∀ m ∈ steps, ∀ o, m.event = .operation (.comment o) → ¬ Crowded o m.before) :
    Tree t :=
  Path.invariant (P := Tree) h (tree_initGenesis env initSupply) fun m hm hstep hs =>
    step_tree hstep (hroom m hm) hs

/-- The place and the counter of a comment are right. -/
structure WellPlaced (s : ChainState) (c : CommentObject) : Prop where
  /-- A root post has itself as the root, at depth 0. -/
  root : c.parentAuthor = .empty → c.depth = 0 ∧ c.rootComment = c.id
  /-- The parent of a reply is there, one level up, with the same root. -/
  reply : c.parentAuthor ≠ .empty → ∃ parent,
    s.comments.find (CommentObject.hasPermlink c.parentAuthor c.parentPermlink) = some parent ∧
      c.depth = parent.depth + 1 ∧ c.rootComment = parent.rootComment
  /-- `children` is the number of the descendants. -/
  children : c.children = descendants s c

/-- In a tree every comment is well placed. -/
theorem Tree.wellPlaced (hs : Tree s) {c : CommentObject} (hc : c ∈ s.comments.rows) :
    WellPlaced s c := by
  have hplace : place c ∈ places s := List.mem_map_of_mem hc
  refine ⟨hs.roots (place c) hplace, fun hreply => ?_, hs.counts c hc⟩
  obtain ⟨parent, hfind, -, hparent, -⟩ := find_parent hs.forest hplace hreply
  have habove := hs.replies (place c) hplace _ hparent
  exact ⟨parent, hfind, habove.1, habove.2⟩

/-- In every run in which no comment gets more descendants than it can count, every comment has
its parent, the right depth and root, and counts its descendants, so that
`retally_comment_children` changes nothing; and every deleted comment had no descendants. -/
theorem comment_tree {initSupply : ℕ} (h : History env (initGenesis env initSupply) steps t)
    (hroom : ∀ m ∈ steps, ∀ o, m.event = .operation (.comment o) → ¬ Crowded o m.before) :
    (∀ c ∈ t.comments.rows, WellPlaced t c) ∧ Returns retallyCommentChildren t () t ∧
      ∀ m ∈ steps, ∀ o, m.event = .operation (.deleteComment o) → ∃ c,
        m.before.comments.find (CommentObject.hasPermlink o.author o.permlink) = some c ∧
          descendants m.before c = 0 := by
  have htree := history_tree h hroom
  refine ⟨fun c hc => htree.wellPlaced hc, htree.retally, fun m hm o ho => ?_⟩
  obtain ⟨earlier, later, rfl, hearlier, hstep, -⟩ := h.moment hm
  have hbefore := history_tree hearlier fun m' hm' => hroom m' (List.mem_append_left _ hm')
  rw [ho] at hstep
  cases hstep with
  | operation ctx henv op hvalid hnull h => exact (applyDeleteComment_tree hbefore h).2

end Runs

section Replies

/-- The permlink of a reply spells the bits of its number. -/
def replyPermlink (k : ℕ) : Bytes := (List.range 32).map fun i => if k.testBit i then 97 else 98

/-- A reply of the first miner to its first post. -/
def reply (k : ℕ) : CommentOperation where
  parentAuthor := initMinerName 0
  parentPermlink := bytesOf "post"
  author := initMinerName 0
  permlink := replyPermlink k
  title := bytesOf "title"
  body := bytesOf "body"
  jsonMetadata := []

/-- A permlink of the sample has two letters only. -/
theorem replyPermlink_mem {k : ℕ} {b : UInt8} (h : b ∈ replyPermlink k) : b = 97 ∨ b = 98 := by
  obtain ⟨i, -, rfl⟩ := List.mem_map.mp h
  by_cases hbit : k.testBit i = true
  · exact .inl (if_pos hbit)
  · exact .inr (if_neg hbit)

/-- A permlink of the sample has 32 letters. -/
theorem length_replyPermlink (k : ℕ) : (replyPermlink k).length = 32 := by
  unfold replyPermlink
  rw [List.length_map, List.length_range]

/-- A permlink of the sample has no zero byte. -/
theorem cString_replyPermlink (k : ℕ) : cString (replyPermlink k) = replyPermlink k := by
  unfold cString
  refine List.takeWhile_eq_self_iff.mpr fun b hb => ?_
  rcases replyPermlink_mem hb with rfl | rfl <;> decide

/-- Different replies have different permlinks. -/
theorem replyPermlink_inj {k l : ℕ} (hk : k < 2 ^ 32) (hl : l < 2 ^ 32)
    (h : replyPermlink k = replyPermlink l) : k = l := by
  refine Nat.eq_of_testBit_eq fun i => ?_
  by_cases hi : i < 32
  · have hat : (if k.testBit i then (97 : UInt8) else 98) = if l.testBit i then 97 else 98 := by
      exact List.map_inj_left.mp h i (List.mem_range.mpr hi)
    cases hkbit : k.testBit i <;> cases hlbit : l.testBit i <;> simp [hkbit, hlbit] at hat ⊢
  · have hhigh : 2 ^ 32 ≤ 2 ^ i := Nat.pow_le_pow_right (by omega) (by omega)
    rw [Nat.testBit_lt_two_pow (Nat.lt_of_lt_of_le hk hhigh),
      Nat.testBit_lt_two_pow (Nat.lt_of_lt_of_le hl hhigh)]

/-- A permlink of the sample is valid. -/
theorem validatePermlink01_reply (k : ℕ) : validatePermlink01 (replyPermlink k) = .ok () := by
  have hletters : (replyPermlink k).all isPermlinkCharacter = true := by
    rw [List.all_eq_true]
    intro b hb
    rcases replyPermlink_mem hb with rfl | rfl <;> decide
  unfold validatePermlink01
  rw [length_replyPermlink, hletters]
  rfl

/-- A reply of the sample is valid. -/
theorem validate_reply (k : ℕ) :
    (Operation.comment (reply k)).validate sampleEnv.toFcLib = .ok () := by
  have hpermlink : Protocol.validatePermlink sampleEnv.toFcLib (replyPermlink k) = .ok () := by
    unfold Protocol.validatePermlink
    rw [length_replyPermlink]
    rfl
  have hpost : Protocol.validatePermlink sampleEnv.toFcLib (bytesOf "post") = .ok () := by decide
  have hname : validateAccountName (initMinerName 0) = .ok () := by decide
  unfold Operation.validate CommentOperation.validate reply
  simp only [hname, hpost, hpermlink]
  rfl

end Replies

section Counting

/-- The post, and the number that its counter shows. -/
structure IsPost (k : ℕ) (c : CommentObject) : Prop where
  id : c.id = 0
  author : c.author = initMinerName 0
  permlink : c.permlink = bytesOf "post"
  parentAuthor : c.parentAuthor = .empty
  depth : c.depth = 0
  rootComment : c.rootComment = 0
  allowReplies : c.allowReplies = true
  children : c.children = k % 2 ^ 32

/-- One of the first replies. -/
structure IsReply (k : ℕ) (c : CommentObject) : Prop where
  id : c.id ≠ 0
  author : c.author = initMinerName 0
  parentAuthor : c.parentAuthor = initMinerName 0
  parentPermlink : c.parentPermlink = bytesOf "post"
  permlink : ∃ i < k, c.permlink = replyPermlink i

/-- The post with a number of replies. -/
structure Replied (k : ℕ) (s : ChainState) : Prop where
  early : s.dgp.headBlockNumber ≤ 28800
  author : initMinerName 0 ∈ s.accounts.rows.map (·.name)
  rows : ∃ post replies, s.comments.rows = post :: replies ∧ IsPost k post ∧
    replies.length = k ∧ ∀ c ∈ replies, IsReply k c
  nextId : 0 < s.comments.nextId

variable {s : ChainState} {k : ℕ}

/-- No comment has the permlink of the next reply. -/
theorem Replied.fresh (hs : Replied k s) (hk : k < 2 ^ 32) :
    ∀ c ∈ s.comments.rows, c.hasPermlink (initMinerName 0) (replyPermlink k) = false := by
  obtain ⟨post, replies, hrows, hpost, -, hreplies⟩ := hs.rows
  intro c hc
  have hne : cString c.permlink ≠ cString (replyPermlink k) := by
    rw [cString_replyPermlink]
    rw [hrows] at hc
    rcases List.mem_cons.mp hc with rfl | hc
    · intro heq
      have hlength := congrArg List.length heq
      rw [hpost.permlink, length_replyPermlink] at hlength
      exact absurd hlength (by decide)
    · obtain ⟨i, hi, hpermlink⟩ := (hreplies c hc).permlink
      rw [hpermlink, cString_replyPermlink]
      intro heq
      have hsame := replyPermlink_inj (Nat.lt_trans hi hk) hk heq
      omega
  unfold CommentObject.hasPermlink
  rw [Bool.and_eq_false_iff]
  exact .inr (decide_eq_false hne)

/-- The permlink of the next reply is new. -/
theorem Replied.find_none (hs : Replied k s) (hk : k < 2 ^ 32) :
    s.comments.find (CommentObject.hasPermlink (initMinerName 0) (replyPermlink k)) = none := by
  refine List.find?_eq_none.mpr fun c hc => ?_
  rw [hs.fresh hk c hc]
  exact Bool.false_ne_true

/-- The post of the sample is found by its permlink. -/
theorem IsPost.found {post : CommentObject} {replies : List CommentObject} (hpost : IsPost k post)
    (hrows : s.comments.rows = post :: replies) :
    s.comments.find (CommentObject.hasPermlink (initMinerName 0) (bytesOf "post")) = some post ∧
      s.comments.find (fun c => c.id = 0) = some post := by
  unfold Table.find
  rw [hrows]
  refine ⟨List.find?_cons_of_pos ?_, List.find?_cons_of_pos (decide_eq_true hpost.id)⟩
  unfold CommentObject.hasPermlink
  rw [hpost.author, hpost.permlink]
  rfl

/-- The object of a reply. -/
theorem newComment_reply {post : CommentObject} (hpost : IsPost k post) (now : TimePointSec)
    (id : ℕ) : ∃ new, newComment sampleEnv (reply k) (some post) now id = .ok new ∧ new.id = id ∧
      (id ≠ 0 → IsReply (k + 1) new) ∧ new.permlink = replyPermlink k := by
  have hpermlink : validatePermlink01 (bytesOf "post") = .ok () := by decide
  unfold newComment reply
  rw [hpermlink, validatePermlink01_reply]
  refine ⟨_, rfl, rfl, fun hid => ⟨hid, rfl, ?_, ?_, k, Nat.lt_succ_self k, rfl⟩, rfl⟩
  · exact hpost.author
  · exact hpost.permlink

/-- A reply to the post that was not made before returns, and is counted. -/
theorem reply_returns (hs : Replied k s) (hk : k < 2 ^ 32) : ∃ t,
    Returns (applyComment sampleEnv (reply k)) s () t ∧ Replied (k + 1) t := by
  have hfresh := hs.fresh hk
  have hnone := hs.find_none hk
  obtain ⟨post, replies, hrows, hpost, hlength, hreplies⟩ := hs.rows
  obtain ⟨hfound, hroot⟩ := hpost.found hrows
  obtain ⟨a, ha, hname⟩ := List.mem_map.mp hs.author
  have hauthor : ∃ auth, s.accounts.find (named (initMinerName 0)) = some auth :=
    Option.isSome_iff_exists.mp (List.find?_isSome.mpr ⟨a, ha, decide_eq_true hname⟩)
  obtain ⟨auth, hauth⟩ := hauthor
  obtain ⟨x, hx⟩ := Table.exists_modify unknownKey hauth
    (f := fun a => .ok (countPost (reply k) s.dgp.time a)) rfl
  obtain ⟨new, hnew, hid, hreply, hpermlink⟩ := newComment_reply hpost s.dgp.time s.comments.nextId
  have hcreate : s.comments.create couldNotInsert (fun a b => b.hasPermlink a.author a.permlink)
      (newComment sampleEnv (reply k) (some post) s.dgp.time) =
      .ok ⟨s.comments.rows ++ [new], s.comments.nextId + 1⟩ := by
    refine Table.create_of hnew fun old hold => ?_
    rw [hpermlink, (hreply hs.nextId.ne').author]
    exact hfresh old hold
  have hchecked : Returns (checkNewComment (reply k) (some post) auth s.dgp.time) s () s := by
    rw [← hpost.rootComment] at hroot
    refine Returns.intro_bind (u := s) (a := ()) ?_ (Returns.intro_bind (a := s.dgp.headBlockNumber)
      rfl ?_)
    · refine Returns.intro_bind (u := s) (a := ()) (Returns.intro_bind (lookup_returns hroot) ?_) rfl
      exact Returns.intro_lift (by rw [hpost.allowReplies]; rfl)
    · unfold whenever
      rw [if_neg (Nat.not_lt.mpr hs.early)]
      rfl
  have hcounted : (⟨s.comments.rows ++ [new], s.comments.nextId + 1⟩ :
        Table CommentObject).modify unknownKey (fun c => c.id = post.id)
        (fun p => .ok (refresh increment s.dgp.time p)) =
      .ok ⟨refresh increment s.dgp.time post :: (replies ++ [new]), s.comments.nextId + 1⟩ :=
    Table.modify_first unknownKey (by rw [hrows]; rfl) (decide_eq_true rfl) rfl
  refine ⟨{ s with
    accounts := x
    comments := ⟨refresh increment s.dgp.time post :: (replies ++ [new]),
      s.comments.nextId + 1⟩ }, ?_, ?_⟩
  · refine Returns.intro_bind (Returns.intro_lift rfl) ?_
    refine Returns.intro_bind (a := none) (u := s) (by rw [← hnone]; rfl) ?_
    refine Returns.intro_bind (lookup_returns hauth) ?_
    refine Returns.intro_bind (a := some post) (u := s) ?_ ?_
    · have hne : initMinerName 0 ≠ .empty := by decide
      have hreplies : (reply k).parentAuthor ≠ .empty := hne
      unfold findParent
      rw [if_neg hreplies]
      refine Returns.intro_bind (lookup_returns hfound) ?_
      refine Returns.intro_bind (Returns.intro_lift (fcAssert_of ?_)) rfl
      rw [hpost.depth]
      rfl
    · refine Returns.intro_bind (Returns.intro_lift rfl) ?_
      refine Returns.intro_bind (a := s.dgp.time) rfl ?_
      refine hchecked.intro_bind ?_
      refine Returns.intro_bind (a := ()) (u := { s with accounts := x })
        (Returns.intro_update (congrArg (Except.map _) hx)) ?_
      refine Returns.intro_bind (a := ()) (u := { s with
        accounts := x
        comments := ⟨s.comments.rows ++ [new], s.comments.nextId + 1⟩ })
        (Returns.intro_update (congrArg (Except.map _) hcreate)) ?_
      refine Returns.intro_bind (a := (s.comments.rows ++ [new]).length) rfl ?_
      rw [List.length_append, List.length_singleton]
      refine Returns.intro_bind (a := ()) ?_ rfl
      rw [updateAncestors_eq]
      have hwalk : Returns (modifyComment post.id fun p => .ok (refresh increment s.dgp.time p))
          { s with
            accounts := x
            comments := ⟨s.comments.rows ++ [new], s.comments.nextId + 1⟩ } ()
          { s with
            accounts := x
            comments := ⟨refresh increment s.dgp.time post :: (replies ++ [new]),
              s.comments.nextId + 1⟩ } :=
        Returns.intro_update (congrArg (Except.map _) hcounted)
      refine hwalk.intro_bind ?_
      unfold whenever
      rw [if_neg (not_not.mpr hpost.parentAuthor)]
      rfl
  · refine ⟨hs.early, ?_, ?_, Nat.succ_pos _⟩
    · have hnames : x.rows.map (·.name) = s.accounts.rows.map (·.name) :=
        Table.modify_map_eq hx fun a b hab => by rw [← Except.ok.inj hab]; rfl
      change initMinerName 0 ∈ x.rows.map (·.name)
      rw [hnames]
      exact hs.author
    · refine ⟨refresh increment s.dgp.time post, replies ++ [new], rfl, ?_, ?_, ?_⟩
      · refine ⟨hpost.id, hpost.author, hpost.permlink, hpost.parentAuthor, hpost.depth,
          hpost.rootComment, hpost.allowReplies, ?_⟩
        change (post.children + 1) % 2 ^ 32 = (k + 1) % 2 ^ 32
        rw [hpost.children, Nat.mod_add_mod]
      · rw [List.length_append, hlength]
        rfl
      · intro c hc
        rcases List.mem_append.mp hc with hc | hc
        · have hold := hreplies c hc
          obtain ⟨i, hi, hpermlink⟩ := hold.permlink
          exact ⟨hold.id, hold.author, hold.parentAuthor, hold.parentPermlink, i,
            Nat.lt_succ_of_lt hi, hpermlink⟩
        · rw [List.mem_singleton.mp hc]
          exact hreply hs.nextId.ne'

end Counting

section Wrapping

variable {k : ℕ} {s : ChainState}

/-- The context in which the replies are applied. -/
def replyContext : Context := (sampleCall (sampleChain [firstPostTransaction] 0)).context sampleEnv

/-- The state after the first post has a post without replies. -/
theorem firstPost_replied : ∃ s,
    Returns (applyOperation replyContext (.comment firstPost)) (initGenesis sampleEnv 1000000) () s ∧
      Replied 0 s := by
  have hends : endsIn (applyOperation replyContext (.comment firstPost))
      (initGenesis sampleEnv 1000000) (fun _ s =>
        decide (s.dgp.headBlockNumber ≤ 28800) &&
        (s.accounts.rows.map (·.name)).contains (initMinerName 0) &&
        decide (0 < s.comments.nextId) && decide (s.comments.rows.map (fun c => ((c.id, c.author, c.permlink, c.parentAuthor), c.depth,
            c.rootComment, c.allowReplies, c.children)) =
          [((0, initMinerName 0, bytesOf "post", .empty), 0, 0, true, 0)])) = true := by
    decide +kernel
  obtain ⟨_, s, hs, hends⟩ := returns_of_endsIn hends
  simp only [Bool.and_eq_true, List.contains_iff_mem, decide_eq_true_eq] at hends
  obtain ⟨⟨⟨hearly, hauthor⟩, hnext⟩, hrows⟩ := hends
  obtain ⟨post, hpost, hfields⟩ := List.map_eq_singleton_iff.mp hrows
  simp only [Prod.mk.injEq] at hfields
  obtain ⟨⟨hid, hname, hpermlink, hparent⟩, hdepth, hroot, hallow, hchildren⟩ := hfields
  refine ⟨s, hs, hearly, hauthor, ⟨post, [], hpost, ?_, rfl, fun c hc => absurd hc List.not_mem_nil⟩,
    hnext⟩
  exact ⟨hid, hname, hpermlink, hparent, hdepth, hroot, hallow, hchildren⟩

/-- A reply of the sample is not for the null account. -/
theorem notForNull_reply (k : ℕ) : NotForNull (.comment (reply k)) := by
  have hpost : NotForNull (.comment firstPost) := ⟨by decide, by decide⟩
  exact hpost

/-- An applied reply is a step of the chain. -/
theorem occurs_reply {t : ChainState} (h : Returns (applyComment sampleEnv (reply k)) s () t) :
    Occurs sampleEnv (.operation (.comment (reply k))) s t :=
  .operation replyContext rfl _ (validate_reply k) (notForNull_reply k) h

/-- The applied first post is a step of the chain. -/
theorem occurs_firstPost
    (h : Returns (applyOperation replyContext (.comment firstPost))
      (initGenesis sampleEnv 1000000) () s) :
    Occurs sampleEnv (.operation (.comment firstPost)) (initGenesis sampleEnv 1000000) s :=
  .operation replyContext rfl _ (by decide +kernel) ⟨by decide, by decide⟩ h

open Classical in
/-- The first miner posts and replies to its post. -/
theorem comment_tree_reply : ∃ steps t c,
    History sampleEnv (initGenesis sampleEnv 1000000) steps t ∧
      operations steps = [.comment firstPost, .comment (reply 0)] ∧ c ∈ t.comments.rows ∧
      c.children = 1 ∧ WellPlaced t c ∧ Returns retallyCommentChildren t () t := by
  obtain ⟨s, hs, hpost⟩ := firstPost_replied
  obtain ⟨t, ht, hreplied⟩ := reply_returns hpost (by norm_num)
  obtain ⟨post, replies, hrows, hfirst, -, -⟩ := hreplied.rows
  have hsteps : History sampleEnv (initGenesis sampleEnv 1000000)
      [⟨initGenesis sampleEnv 1000000, .operation (.comment firstPost), s⟩,
        ⟨s, .operation (.comment (reply 0)), t⟩] t :=
    ⟨rfl, occurs_firstPost hs, rfl, occurs_reply ht, rfl⟩
  have hmem : post ∈ t.comments.rows := hrows ▸ List.mem_cons_self
  have htree := comment_tree hsteps ?_
  · exact ⟨_, t, post, hsteps, rfl, hmem, hfirst.children, htree.1 post hmem, htree.2.1⟩
  · intro m hm o ho
    simp only [List.mem_cons, List.not_mem_nil, or_false] at hm
    rcases hm with rfl | rfl
    · cases ho
      exact fun hcrowded => hcrowded.2.1 rfl
    · rintro ⟨-, -, parent, c, -, -, -, hfull⟩
      -- There is only the post, so nothing can have as many descendants.
      obtain ⟨post, replies, hrows, -, hlength, -⟩ := hpost.rows
      have hfew : descendants s c ≤ s.comments.rows.length := by
        unfold CommentTree.descendants
        rw [← descendants_eq_countP]
        exact List.countP_le_length
      rw [hrows, List.length_cons, hlength] at hfew
      have hsame : descendants s c + 1 = 2 ^ 32 := hfull
      omega

/-- The post gets one reply after the other. -/
theorem history_replies (k : ℕ) (hk : k ≤ 2 ^ 32) : ∃ steps t,
    History sampleEnv (initGenesis sampleEnv 1000000) steps t ∧
      operations steps = .comment firstPost :: (List.range k).map (fun i => .comment (reply i)) ∧
      Replied k t := by
  induction k with
  | zero =>
    obtain ⟨s, hs, hreplied⟩ := firstPost_replied
    exact ⟨_, s, .single (occurs_firstPost hs), rfl, hreplied⟩
  | succ k ih =>
    obtain ⟨steps, s, hsteps, hops, hs⟩ := ih (by omega)
    obtain ⟨t, ht, hreplied⟩ := reply_returns hs hk
    refine ⟨_, t, hsteps.append (.single (occurs_reply ht)), ?_, hreplied⟩
    rw [List.range_succ, List.map_append, ← List.cons_append, ← hops]
    unfold operations
    rw [List.filterMap_append]
    rfl

open Classical in
/-- All replies stand below the post. -/
theorem Replied.descendants (hs : Replied k s) : ∃ post ∈ s.comments.rows,
    post.children = k % 2 ^ 32 ∧ k ≤ descendants s post := by
  obtain ⟨post, replies, hrows, hpost, hlength, hreplies⟩ := hs.rows
  have hmem : post ∈ s.comments.rows := hrows ▸ List.mem_cons_self
  refine ⟨post, hmem, hpost.children, ?_⟩
  have hbelow : ∀ c ∈ replies, decide (shape.Below (places s) (place c) (place post)) = true := by
    intro c hc
    have hreply := hreplies c hc
    refine decide_eq_true (.single ⟨List.mem_map_of_mem hmem, ?_⟩)
    have hne : c.parentAuthor ≠ .empty := by
      rw [hreply.parentAuthor]
      decide
    rw [up_of_ne (p := place c) hne]
    change some (c.parentAuthor, cString c.parentPermlink) = some (post.author, cString post.permlink)
    rw [hreply.parentAuthor, hreply.parentPermlink, hpost.author, hpost.permlink]
  unfold CommentTree.descendants
  rw [← descendants_eq_countP, hrows, List.countP_cons, List.countP_eq_length.mpr hbelow, hlength]
  exact Nat.le_add_right _ _

/-- After 2^32 replies the post shows no children. -/
theorem counter_wraps : ∃ steps t c, History sampleEnv (initGenesis sampleEnv 1000000) steps t ∧
    operations steps =
      .comment firstPost :: (List.range (2 ^ 32)).map (fun i => .comment (reply i)) ∧
    c ∈ t.comments.rows ∧ c.children = 0 ∧ 2 ^ 32 ≤ descendants t c ∧ ¬ WellPlaced t c := by
  obtain ⟨steps, t, hsteps, hops, ht⟩ := history_replies (2 ^ 32) (Nat.le_refl _)
  obtain ⟨c, hc, hchildren, hbelow⟩ := ht.descendants
  rw [Nat.mod_self] at hchildren
  refine ⟨steps, t, c, hsteps, hops, hc, hchildren, hbelow, fun hplaced => ?_⟩
  have hcount := hplaced.children
  omega

end Wrapping

end Whaleshares.CommentTree
