import Mathlib
import Whaleshares.ChainRun
import Whaleshares.ForkDatabase
import Whaleshares.Lineage

/-!
# The common ancestor of two branches

`fetch_branch_from` levels two blocks of the fork database and walks down from both together.
An item's parent is one block lower, so the two walks are compared on one level, and stop at the
highest level on which the previous blocks agree. The weak pointers keep no item alive: if a
parent is gone before that level, there are no two branches at all.
-/

namespace Whaleshares.CommonAncestor

open Fc Protocol Program ForkDatabase Lineage

variable {env : Env} {f g : ForkDatabase} {b : SignedBlock} {x y z u v item : ForkItem}
  {items items' firsts seconds : List ForkItem} {num steps : ℕ} {text : String}

section Growth

/-- What changes the fork database. Code that holds items has got them from it. -/
inductive Grows (env : Env) (f : ForkDatabase) : ForkDatabase → Prop
  | push {b : SignedBlock} {head : ForkItem} {g : ForkDatabase}
      (h : f.pushBlock env b = .ok (head, g)) : Grows env f g
  | pop {g : ForkDatabase} (h : f.popBlock = .ok g) : Grows env f g
  | start (b : SignedBlock) : Grows env f (f.startBlock env b)
  | reset : Grows env f f.reset
  | setHead {item : ForkItem} (h : item ∈ f.alive) : Grows env f (f.setHead item)
  | remove (id : BlockId) : Grows env f (f.remove id)
  | setMaxSize (size : ℕ) : Grows env f (f.setMaxSize size)
  | hold {items : List ForkItem} (h : ∀ x ∈ items, x ∈ f.alive) :
      Grows env f { f with pinned := items }

/-- The fork databases that any sequence of these operations leads to. -/
def Grown (env : Env) (f : ForkDatabase) : Prop := Relation.ReflTransGen (Grows env) {} f

/-- Items are made of their blocks, have addresses of their own, and the item at the address of
a parent is that of the previous block. -/
structure Linked (env : Env) (f : ForkDatabase) : Prop where
  made : ∀ x ∈ f.alive, x.num = x.data.blockNum ∧ x.id = x.data.id env
  issued : ∀ x ∈ f.alive, x.uid < f.nextUid ∧ ∀ uid, x.prev = some uid → uid < f.nextUid
  distinct : ∀ x ∈ f.alive, ∀ y ∈ f.alive, x.uid = y.uid → x = y
  parent : ∀ x ∈ f.alive, ∀ y ∈ f.alive, x.prev = some y.uid → y.id = x.data.header.previous

/-- A part of a linked database is linked. -/
theorem Linked.shrink (h : Linked env f) (hsub : ∀ x ∈ g.alive, x ∈ f.alive)
    (huid : g.nextUid = f.nextUid) : Linked env g := by
  refine ⟨fun x hx => h.made x (hsub x hx), fun x hx => ?_,
    fun x hx y hy => h.distinct x (hsub x hx) y (hsub y hy),
    fun x hx y hy => h.parent x (hsub x hx) y (hsub y hy)⟩
  rw [huid]
  exact h.issued x (hsub x hx)

/-- A new item refers to the item of the previous block, or to none. -/
theorem Linked.grow {parent : Option ForkItem} (h : Linked env f)
    (hparent : ∀ p, parent = some p → p ∈ f.alive ∧ p.id = b.header.previous)
    (hsub : ∀ x ∈ g.alive, x ∈ f.alive ∨ x = f.newItem env b parent)
    (huid : g.nextUid = f.nextUid + 1) : Linked env g := by
  have hprev : ∀ uid, (f.newItem env b parent).prev = some uid → uid < f.nextUid := by
    intro uid huid
    obtain ⟨p, hp, rfl⟩ := Option.map_eq_some_iff.mp huid
    exact (h.issued p (hparent p hp).1).1
  refine ⟨fun x hx => ?_, fun x hx => ?_, fun x hx y hy hsame => ?_, fun x hx y hy hxy => ?_⟩
  · rcases hsub x hx with hx | rfl
    · exact h.made x hx
    · exact ⟨rfl, rfl⟩
  · rw [huid]
    rcases hsub x hx with hx | rfl
    · obtain ⟨hlt, hall⟩ := h.issued x hx
      exact ⟨Nat.lt_succ_of_lt hlt, fun uid heq => Nat.lt_succ_of_lt (hall uid heq)⟩
    · exact ⟨Nat.lt_succ_self _, fun uid heq => Nat.lt_succ_of_lt (hprev uid heq)⟩
  · rcases hsub x hx with hx | rfl <;> rcases hsub y hy with hy | rfl
    · exact h.distinct x hx y hy hsame
    · exact absurd (h.issued x hx).1 (by rw [hsame]; exact Nat.lt_irrefl _)
    · exact absurd (h.issued y hy).1 (by rw [← hsame]; exact Nat.lt_irrefl _)
    · rfl
  · rcases hsub y hy with hy | rfl
    · rcases hsub x hx with hx | rfl
      · exact h.parent x hx y hy hxy
      · obtain ⟨p, hp, hpuid⟩ := Option.map_eq_some_iff.mp hxy
        obtain ⟨hmem, hid⟩ := hparent p hp
        rw [← h.distinct p hmem y hy hpuid]
        exact hid
    · rcases hsub x hx with hx | rfl
      · exact absurd ((h.issued x hx).2 _ hxy) (Nat.lt_irrefl _)
      · exact absurd (hprev _ hxy) (Nat.lt_irrefl _)

/-- The parent that is found is alive and has the previous id. -/
theorem parentOf_eq_ok {parent : Option ForkItem} (h : f.parentOf b = .ok parent) :
    ∀ p, parent = some p → p ∈ f.alive ∧ p.id = b.header.previous := by
  intro p hp
  unfold parentOf at h
  split at h
  · split at h
    next q hq =>
      have hsame : q = p := Option.some.inj ((Except.ok.inj h).trans hp)
      rw [← hsame]
      exact ⟨index_subset_alive (findById_mem hq), findById_id hq⟩
    · cases h
  · have hnone : none = some p := (Except.ok.inj h).trans hp
    cases hnone

/-- Starting with a block adds its item. -/
theorem startBlock_alive : ∀ x ∈ (f.startBlock env b).alive,
    x ∈ f.alive ∨ x = f.newItem env b none := by
  intro x hx
  rcases List.mem_append.mp hx with hx | hx
  · rcases List.mem_append.mp hx with hx | hx
    · rcases insert_mem hx with hx | hx
      · exact .inl (index_subset_alive hx)
      · exact .inr hx
    · exact .inr (by simpa [startBlock] using hx)
  · exact .inl (pinned_subset_alive hx)

/-- A linked database that grows stays linked. -/
theorem Linked.step (h : Linked env f) (hgrows : Grows env f g) : Linked env g := by
  cases hgrows with
  | push hpush =>
    obtain ⟨parent, hparent, hsub⟩ := pushBlock_alive hpush
    obtain ⟨-, _, -, -, rfl⟩ := pushBlock_eq_ok hpush
    exact h.grow (parentOf_eq_ok hparent) hsub rfl
  | pop hpop =>
    unfold ForkDatabase.popBlock at hpop
    split at hpop
    · cases hpop
    next head hhead =>
      split at hpop
      · cases hpop
      next prev hprev =>
        rw [← Except.ok.inj hpop]
        refine h.shrink (alive_of_subset (fun x hx => index_subset_alive hx) (fun x hx => ?_)
          fun x hx => pinned_subset_alive hx) rfl
        have hx : prev = x := by simpa using hx
        rw [← hx]
        exact lock_mem hprev
  | start b => exact h.grow (fun p hp => by cases hp) startBlock_alive rfl
  | reset =>
    exact h.shrink (alive_of_subset (fun x hx => by cases hx) (fun x hx => by cases hx)
      fun x hx => pinned_subset_alive hx) rfl
  | @setHead item hitem =>
    refine h.shrink (alive_of_subset (fun x hx => index_subset_alive hx) (fun x hx => ?_)
      fun x hx => pinned_subset_alive hx) rfl
    have hx : item = x := Option.some.inj hx
    rw [← hx]
    exact hitem
  | remove id =>
    exact h.shrink (alive_of_subset (fun x hx => index_subset_alive (List.mem_filter.mp hx).1)
      (fun x hx => head_mem_alive hx) fun x hx => pinned_subset_alive hx) rfl
  | setMaxSize size => exact h.shrink setMaxSize_alive (setMaxSize_nextUid size)
  | hold hitems =>
    exact h.shrink (alive_of_subset (fun x hx => index_subset_alive hx)
      (fun x hx => head_mem_alive hx) hitems) rfl

/-- A grown database is linked. -/
theorem Grown.linked (h : Grown env f) : Linked env f := by
  induction h with
  | refl =>
    have hnone : ∀ x, x ∉ ({} : ForkDatabase).alive := fun x hx => by cases hx
    exact ⟨fun x hx => absurd hx (hnone x), fun x hx => absurd hx (hnone x),
      fun x hx => absurd hx (hnone x), fun x hx => absurd hx (hnone x)⟩
  | tail hgrown hgrows ih => exact ih.step hgrows

end Growth

section Levels

/-- The id of the block below an item's. -/
def previousOf (x : ForkItem) : BlockId := x.data.header.previous

/-- A parent that is locked is the one that the item points to. -/
theorem lock_prev (h : f.lock x = some y) : x.prev = some y.uid := by
  unfold lock at h
  cases hprev : x.prev with
  | none =>
    rw [hprev] at h
    cases h
  | some uid =>
    rw [hprev] at h
    have huid : y.uid = uid := by simpa using List.find?_some h
    rw [huid]

variable (hf : Linked env f)
include hf

/-- The parent of an item has the previous id. -/
theorem Linked.lock_id (hx : x ∈ f.alive) (h : f.lock x = some y) : y.id = previousOf x :=
  hf.parent x hx y (lock_mem h) (lock_prev h)

/-- The number of an item is that of its id. -/
theorem Linked.id_num (hx : x ∈ f.alive) : x.id.num = x.num := by
  obtain ⟨hnum, hid⟩ := hf.made x hx
  rw [hid, hnum]
  rfl

/-- An item is one block above the previous one. -/
theorem Linked.num_eq (hx : x ∈ f.alive) : x.num = (previousOf x).num + 1 := (hf.made x hx).1

/-- The pointers go down one level at a time. -/
theorem Linked.graded : Graded f.lock (· ∈ f.alive) (·.num) where
  inherited _ h := lock_mem h
  lower hx h := by
    rw [hf.num_eq hx, ← hf.lock_id hx h, hf.id_num (lock_mem h)]

/-- The level of an item is that of its previous block and one. -/
theorem Linked.level : Level (· ∈ f.alive) (·.num) previousOf := by
  intro u v hu hv hsame
  change u.num = v.num
  rw [hf.num_eq hu, hf.num_eq hv, hsame]

end Levels

section Loops

variable (hf : Linked env f)
include hf

/-- The first two loops: they reach the level, or an item above it whose parent is gone. -/
theorem descendTo_spec (text : String) (hx : x ∈ f.alive) (hsteps : x.num ≤ num + steps) :
    (∃ items z, f.descendTo text num steps x = .ok (items, z) ∧ Walk f.lock x items z ∧
      z.num = min x.num num) ∨
    ∃ items z, f.descendTo text num steps x = .error (failed text) ∧ Walk f.lock x items z ∧
      num < z.num ∧ f.lock z = none := by
  induction steps generalizing x with
  | zero =>
    have hnot : ¬ num < x.num := by omega
    refine .inl ⟨[], x, ?_, .stay x, by omega⟩
    unfold descendTo
    rw [if_neg hnot]
  | succ steps ih =>
    unfold descendTo
    by_cases hlt : num < x.num
    · rw [if_pos hlt]
      cases hlock : f.lock x with
      | none => exact .inr ⟨[], x, rfl, .stay x, hlt, hlock⟩
      | some y =>
        have hlower := hf.graded.lower hx hlock
        rcases ih (lock_mem hlock) (by omega) with ⟨items, z, heq, hwalk, hnum⟩ |
            ⟨items, z, heq, hwalk, hrest⟩
        · refine .inl ⟨x :: items, z, ?_, .down hlock hwalk, by omega⟩
          change (f.descendTo text num steps y >>= _) = _
          rw [heq]
          rfl
        · refine .inr ⟨x :: items, z, ?_, .down hlock hwalk, hrest⟩
          change (f.descendTo text num steps y >>= _) = _
          rw [heq]
          rfl
    · rw [if_neg hlt]
      exact .inl ⟨[], x, rfl, .stay x, by omega⟩

/-- More steps than the level needs change nothing. -/
theorem descendTo_steps_eq {more : ℕ} (hx : x ∈ f.alive) (hsteps : x.num ≤ num + steps)
    (hmore : x.num ≤ num + more) :
    f.descendTo text num more x = f.descendTo text num steps x := by
  induction steps generalizing x more with
  | zero =>
    have hnot : ¬ num < x.num := by omega
    cases more <;> unfold descendTo <;> simp only [if_neg hnot]
  | succ steps ih =>
    by_cases hlt : num < x.num
    · cases more with
      | zero => omega
      | succ more =>
        unfold descendTo
        rw [if_pos hlt, if_pos hlt]
        cases hlock : f.lock x with
        | none => rfl
        | some y =>
          have hlower := hf.graded.lower hx hlock
          change (f.descendTo text num more y >>= _) = (f.descendTo text num steps y >>= _)
          rw [ih (lock_mem hlock) (by omega) (by omega)]
    · cases more <;> unfold descendTo <;> simp only [if_neg hlt]

/-- No two walks down from these items meet. -/
def Apart (f : ForkDatabase) (x y : ForkItem) : Prop :=
  ∀ items u items' v, ¬ Meeting f.lock previousOf x y items u items' v

/-- Some walk down from one of these items ends where the parent is gone. -/
def Broken (f : ForkDatabase) (x y : ForkItem) : Prop :=
  ∃ items z, (Walk f.lock x items z ∨ Walk f.lock y items z) ∧ f.lock z = none

/-- The last loop: it stops at the highest level on which the previous blocks agree. -/
theorem descendTogether_spec (hx : x ∈ f.alive) (hy : y ∈ f.alive) (hsame : x.num = y.num)
    (hsteps : x.num ≤ steps) :
    (∃ items u items' v, f.descendTogether steps x y = .ok (items ++ [u], items' ++ [v]) ∧
      Meeting f.lock previousOf x y items u items' v ∧
      Highest f.lock (·.num) previousOf x y u) ∨
    (∃ text, f.descendTogether steps x y = .error (failed text)) ∧ Broken f x y ∧ Apart f x y := by
  induction steps generalizing x y with
  | zero =>
    have hnum := hf.num_eq hx
    omega
  | succ steps ih =>
    unfold descendTogether
    by_cases hne : x.data.header.previous ≠ y.data.header.previous
    · rw [if_pos hne]
      have hlower : ∀ {items u items' v}, Meeting f.lock previousOf x y items u items' v →
          ∃ x' y' rest rest', f.lock x = some x' ∧ f.lock y = some y' ∧
            Meeting f.lock previousOf x' y' rest u rest' v :=
        fun h => h.lower hf.graded hf.level hx hy hsame hne
      cases hlock : f.lock x with
      | none =>
        refine .inr ⟨⟨_, rfl⟩, ⟨[], x, .inl (.stay x), hlock⟩, fun items u items' v h => ?_⟩
        obtain ⟨_, _, _, _, hparent, -⟩ := hlower h
        rw [hlock] at hparent
        cases hparent
      | some x' =>
        cases hlock' : f.lock y with
        | none =>
          refine .inr ⟨⟨_, rfl⟩, ⟨[], y, .inr (.stay y), hlock'⟩, fun items u items' v h => ?_⟩
          obtain ⟨_, _, _, _, -, hparent, -⟩ := hlower h
          rw [hlock'] at hparent
          cases hparent
        | some y' =>
          have hdown := hf.graded.lower hx hlock
          have hdown' := hf.graded.lower hy hlock'
          have hstep : ∀ {items u items' v}, Meeting f.lock previousOf x y items u items' v →
              ∃ rest rest', Meeting f.lock previousOf x' y' rest u rest' v := by
            intro items u items' v h
            obtain ⟨x₂, y₂, rest, rest', hx₂, hy₂, hmeeting⟩ := hlower h
            rw [hlock] at hx₂
            rw [hlock'] at hy₂
            cases hx₂
            cases hy₂
            exact ⟨rest, rest', hmeeting⟩
          rcases ih (lock_mem hlock) (lock_mem hlock') (by omega) (by omega) with
              ⟨items, u, items', v, heq, hmeeting, hhighest⟩ |
              ⟨⟨text, heq⟩, ⟨items, z, hwalk, hnone⟩, hapart⟩
          · refine .inl ⟨x :: items, u, y :: items', v, ?_,
              ⟨.down hlock hmeeting.first, .down hlock' hmeeting.second, hmeeting.same⟩, ?_⟩
            · change (f.descendTogether steps x' y' >>= _) = _
              rw [heq]
              rfl
            · intro rest w rest' w' h
              obtain ⟨rest₂, rest₂', hrest⟩ := hstep h
              exact hhighest hrest
          · refine .inr ⟨⟨text, ?_⟩, ⟨?_, ?_⟩⟩
            · change (f.descendTogether steps x' y' >>= _) = _
              rw [heq]
              rfl
            · rcases hwalk with hwalk | hwalk
              · exact ⟨x :: items, z, .inl (.down hlock hwalk), hnone⟩
              · exact ⟨y :: items, z, .inr (.down hlock' hwalk), hnone⟩
            · intro items u items' v h
              obtain ⟨rest, rest', hrest⟩ := hstep h
              exact hapart _ _ _ _ hrest
    · rw [if_neg hne]
      have hlabel : previousOf x = previousOf y := not_not.mp hne
      refine .inl ⟨[], x, [], y, rfl, ⟨.stay x, .stay y, hlabel⟩, ?_⟩
      intro rest w rest' w' h
      have hlevels : x.num = w.num + rest.length := h.first.levels hf.graded hx
      change w.num ≤ x.num
      omega

/-- More steps than the height find nothing else. -/
theorem descendTogether_steps_eq {more : ℕ} (hx : x ∈ f.alive) (hy : y ∈ f.alive)
    (hsame : x.num = y.num) (hsteps : x.num ≤ steps) (hmore : x.num ≤ more) :
    f.descendTogether more x y = f.descendTogether steps x y := by
  induction steps generalizing x y more with
  | zero =>
    have hnum := hf.num_eq hx
    omega
  | succ steps ih =>
    have hnum := hf.num_eq hx
    cases more with
    | zero => omega
    | succ more =>
      unfold descendTogether
      by_cases hne : x.data.header.previous ≠ y.data.header.previous
      · rw [if_pos hne, if_pos hne]
        cases hlock : f.lock x with
        | none => rfl
        | some x' =>
          cases hlock' : f.lock y with
          | none => rfl
          | some y' =>
            have hdown := hf.graded.lower hx hlock
            have hdown' := hf.graded.lower hy hlock'
            change (f.descendTogether more x' y' >>= _) = (f.descendTogether steps x' y' >>= _)
            rw [ih (lock_mem hlock) (lock_mem hlock') (by omega) (by omega) (by omega)]
      · rw [if_neg hne, if_neg hne]

end Loops

section Search

/-- The parent of an item that is still held. -/
structure Parent (f : ForkDatabase) (x y : ForkItem) : Prop where
  lock : f.lock x = some y
  id : y.id = x.data.header.previous
  num : x.num = y.num + 1

/-- Two branches of the same length below their starts' levels: each leads from an item down
through parents, and both end on one level with the same previous block. -/
structure CommonBranches (f : ForkDatabase) (x y : ForkItem) (firsts seconds : List ForkItem) :
    Prop where
  first : firsts.head? = some x
  second : seconds.head? = some y
  firstDown : firsts.IsChain (Parent f)
  secondDown : seconds.IsChain (Parent f)
  ends : ∃ u v, firsts.getLast? = some u ∧ seconds.getLast? = some v ∧ u.num = v.num ∧
    u.data.header.previous = v.data.header.previous

/-- An ancestor of an item, as far as the items in between are held. -/
def Ancestor (f : ForkDatabase) (x : ForkItem) (id : BlockId) : Prop :=
  ∃ items u, Walk f.lock x items u ∧ u.data.header.previous = id

/-- The block of an item or one of its ancestors. -/
def InBranch (f : ForkDatabase) (x : ForkItem) (id : BlockId) : Prop := id = x.id ∨ Ancestor f x id

/-- The highest block that is an ancestor of both items. -/
structure NearestCommonAncestor (f : ForkDatabase) (x y : ForkItem) (id : BlockId) : Prop where
  first : Ancestor f x id
  second : Ancestor f y id
  highest : ∀ other, InBranch f x other → InBranch f y other →
    other.num < id.num ∨ other = id

/-- A walk begins at its first item. -/
theorem walk_head (h : Walk f.lock x items u) : (items ++ [u]).head? = some x := by
  cases h <;> rfl

/-- Branches are walks with their ends. -/
theorem chain_walk {l : List ForkItem} (hchain : l.IsChain (Parent f)) (hhead : l.head? = some x)
    (hlast : l.getLast? = some u) : ∃ items, l = items ++ [u] ∧ Walk f.lock x items u := by
  induction l generalizing x with
  | nil => cases hhead
  | cons a rest ih =>
    have ha : a = x := Option.some.inj hhead
    subst ha
    cases rest with
    | nil =>
      have hu : a = u := Option.some.inj hlast
      rw [← hu]
      exact ⟨[], rfl, .stay a⟩
    | cons c rest =>
      obtain ⟨hparent, hrest⟩ := List.isChain_cons_cons.mp hchain
      rw [List.getLast?_cons_cons] at hlast
      obtain ⟨items, heq, hwalk⟩ := ih hrest rfl hlast
      exact ⟨a :: items, by rw [heq]; rfl, .down hparent.lock hwalk⟩

/-- Two branches are the meeting of two walks. -/
theorem CommonBranches.meeting (h : CommonBranches f x y firsts seconds) :
    ∃ items u items' v, firsts = items ++ [u] ∧ seconds = items' ++ [v] ∧
      Meeting f.lock previousOf x y items u items' v := by
  obtain ⟨u, v, hu, hv, -, hsame⟩ := h.ends
  obtain ⟨items, hfirsts, hwalk⟩ := chain_walk h.firstDown h.first hu
  obtain ⟨items', hseconds, hwalk'⟩ := chain_walk h.secondDown h.second hv
  exact ⟨items, u, items', v, hfirsts, hseconds, hwalk, hwalk', hsame⟩

/-- `fetch_branch_from` with a bound of its own for the iterations of each loop. -/
def fetchBranchWithin (f : ForkDatabase) (steps : ℕ) (first second : BlockId) :
    Except Exc (List ForkItem × List ForkItem) := do
  let firstItem ← asserted (f.findById first) "first_branch_itr != _index.get<block_id>().end()"
  let secondItem ← asserted (f.findById second) "second_branch_itr != _index.get<block_id>().end()"
  let (firsts, firstLow) ← f.descendTo "first_branch" secondItem.num steps firstItem
  let (seconds, secondLow) ← f.descendTo "second_branch" firstLow.num steps secondItem
  let (firsts', seconds') ← f.descendTogether steps firstLow secondLow
  pure (firsts ++ firsts', seconds ++ seconds')

variable (hf : Linked env f)
include hf

/-- A locked item is the parent. -/
theorem Linked.lock_parent (hx : x ∈ f.alive) (h : f.lock x = some y) : Parent f x y :=
  ⟨h, hf.lock_id hx h, hf.graded.lower hx h⟩

/-- A walk goes from each item to its parent. -/
theorem Linked.walk_chain (h : Walk f.lock x items u) (hx : x ∈ f.alive) :
    (items ++ [u]).IsChain (Parent f) := by
  induction h with
  | stay x => exact List.isChain_singleton x
  | @down x y z items hlock hrest ih =>
    have hchain := ih (lock_mem hlock)
    cases hrest with
    | stay y => exact List.isChain_cons_cons.mpr ⟨hf.lock_parent hx hlock, hchain⟩
    | down hlock' hrest => exact List.isChain_cons_cons.mpr ⟨hf.lock_parent hx hlock, hchain⟩

/-- A meeting of two walks gives two branches. -/
theorem Linked.meeting_branches (hx : x ∈ f.alive) (hy : y ∈ f.alive)
    (h : Meeting f.lock previousOf x y items u items' v) :
    CommonBranches f x y (items ++ [u]) (items' ++ [v]) :=
  ⟨walk_head h.first, walk_head h.second, hf.walk_chain h.first hx, hf.walk_chain h.second hy,
    u, v, List.getLast?_concat, List.getLast?_concat,
    h.level hf.graded hf.level hx hy, h.same⟩

/-- What the search finds: the branches to the highest meeting, or a broken walk where there is
no meeting at all. -/
theorem fetchBranchFrom_spec {first second : BlockId} (hfirst : f.findById first = some x)
    (hsecond : f.findById second = some y) :
    (∃ items u items' v, f.fetchBranchFrom first second = .ok (items ++ [u], items' ++ [v]) ∧
      Meeting f.lock previousOf x y items u items' v ∧
      Highest f.lock (·.num) previousOf x y u) ∨
    (∃ text, f.fetchBranchFrom first second = .error (failed text)) ∧ Broken f x y ∧
      Apart f x y := by
  have hx : x ∈ f.alive := index_subset_alive (findById_mem hfirst)
  have hy : y ∈ f.alive := index_subset_alive (findById_mem hsecond)
  have hends : ∀ {items u items' v}, Meeting f.lock previousOf x y items u items' v →
      u.num = v.num ∧ u.num ≤ x.num ∧ v.num ≤ y.num := by
    intro items u items' v h
    have hsame : u.num = v.num := h.level hf.graded hf.level hx hy
    have hu : x.num = u.num + items.length := h.first.levels hf.graded hx
    have hv : y.num = v.num + items'.length := h.second.levels hf.graded hy
    exact ⟨hsame, by omega, by omega⟩
  unfold ForkDatabase.fetchBranchFrom
  rw [hfirst, hsecond]
  change (∃ items u items' v, (f.descendTo "first_branch" y.num x.num x >>= _) = _ ∧ _) ∨
    (∃ text, (f.descendTo "first_branch" y.num x.num x >>= _) = _) ∧ _
  rcases descendTo_spec hf "first_branch" hx (Nat.le_add_left x.num y.num) with
      ⟨before, low, heq, hwalk, hlow⟩ | ⟨before, z, heq, hwalk, hhigh, hnone⟩
  · have hlowMem : low ∈ f.alive := hwalk.inherits hf.graded hx
    rw [heq]
    change (∃ items u items' v, (f.descendTo "second_branch" low.num y.num y >>= _) = _ ∧ _) ∨
      (∃ text, (f.descendTo "second_branch" low.num y.num y >>= _) = _) ∧ _
    rcases descendTo_spec hf "second_branch" hy (Nat.le_add_left y.num low.num) with
        ⟨before', low', heq', hwalk', hlow'⟩ | ⟨before', z, heq', hwalk', hhigh, hnone⟩
    · have hlowMem' : low' ∈ f.alive := hwalk'.inherits hf.graded hy
      have hsame : low.num = low'.num := by omega
      have hbelow : ∀ {items u items' v}, Meeting f.lock previousOf x y items u items' v →
          ∃ rest rest', Meeting f.lock previousOf low low' rest u rest' v := by
        intro items u items' v h
        obtain ⟨hnums, hu, hv⟩ := hends h
        have hle : u.num ≤ low.num := by omega
        exact h.below hf.graded hf.level hwalk hwalk' hx hy hle hsame
      rw [heq']
      change (∃ items u items' v, (f.descendTogether low.num low low' >>= _) = _ ∧ _) ∨
        (∃ text, (f.descendTogether low.num low low' >>= _) = _) ∧ _
      rcases descendTogether_spec hf hlowMem hlowMem' hsame le_rfl with
          ⟨items, u, items', v, htogether, hmeeting, hhighest⟩ |
          ⟨⟨text, htogether⟩, ⟨rest, z, hbroken, hnone⟩, hapart⟩
      · refine .inl ⟨before ++ items, u, before' ++ items', v, ?_, hmeeting.extend hwalk hwalk', ?_⟩
        · rw [htogether, List.append_assoc, List.append_assoc]
          rfl
        · intro rest w rest' w' h
          obtain ⟨rest₂, rest₂', hrest⟩ := hbelow h
          exact hhighest hrest
      · refine .inr ⟨⟨text, by rw [htogether]; rfl⟩, ?_, fun items u items' v h => ?_⟩
        · rcases hbroken with hbroken | hbroken
          · exact ⟨before ++ rest, z, .inl (hwalk.trans hbroken), hnone⟩
          · exact ⟨before' ++ rest, z, .inr (hwalk'.trans hbroken), hnone⟩
        · obtain ⟨rest₂, rest₂', hrest⟩ := hbelow h
          exact hapart _ _ _ _ hrest
    · rw [heq']
      refine .inr ⟨⟨_, rfl⟩, ⟨before', z, .inr hwalk', hnone⟩, fun items u items' v h => ?_⟩
      obtain ⟨hnums, hu, hv⟩ := hends h
      have hstops : z.num ≤ v.num := hwalk'.stops hf.graded hnone h.second hy
      omega
  · rw [heq]
    refine .inr ⟨⟨_, rfl⟩, ⟨before, z, .inl hwalk, hnone⟩, fun items u items' v h => ?_⟩
    obtain ⟨hnums, hu, hv⟩ := hends h
    have hstops : z.num ≤ u.num := hwalk.stops hf.graded hnone h.first hx
    omega

/-- No loop takes more iterations than the heights of the blocks. -/
theorem fetchBranchWithin_eq {first second : BlockId} (hfirst : f.findById first = some x)
    (hsecond : f.findById second = some y) (hsteps : x.num ≤ steps) (hsteps' : y.num ≤ steps) :
    fetchBranchWithin f steps first second = f.fetchBranchFrom first second := by
  have hx : x ∈ f.alive := index_subset_alive (findById_mem hfirst)
  have hy : y ∈ f.alive := index_subset_alive (findById_mem hsecond)
  unfold fetchBranchWithin ForkDatabase.fetchBranchFrom
  rw [hfirst, hsecond]
  change (f.descendTo "first_branch" y.num steps x >>= _) =
    (f.descendTo "first_branch" y.num x.num x >>= _)
  rw [descendTo_steps_eq hf hx (Nat.le_add_left x.num y.num) (by omega)]
  rcases descendTo_spec hf "first_branch" hx (Nat.le_add_left x.num y.num) with
      ⟨before, low, heq, hwalk, hlow⟩ | ⟨before, z, heq, -⟩
  · rw [heq]
    change (f.descendTo "second_branch" low.num steps y >>= _) =
      (f.descendTo "second_branch" low.num y.num y >>= _)
    rw [descendTo_steps_eq hf hy (Nat.le_add_left y.num low.num) (by omega)]
    rcases descendTo_spec hf "second_branch" hy (Nat.le_add_left y.num low.num) with
        ⟨before', low', heq', hwalk', hlow'⟩ | ⟨before', z, heq', -⟩
    · rw [heq']
      change (f.descendTogether steps low low' >>= _) = (f.descendTogether low.num low low' >>= _)
      rw [descendTogether_steps_eq hf (hwalk.inherits hf.graded hx)
        (hwalk'.inherits hf.graded hy) (by omega) le_rfl (by omega)]
    · rw [heq']
      rfl
  · rw [heq]
    rfl

omit hf in
/-- An item of a branch is its start, or the parent of an item above it. -/
theorem walk_mem (h : Walk f.lock x items u) (hz : z ∈ items ++ [u]) :
    z = x ∨ ∃ above w, Walk f.lock x above w ∧ f.lock w = some z ∧
      ∃ rest, Walk f.lock z rest u := by
  obtain ⟨before, rest, hbefore, hrest⟩ : ∃ before rest, Walk f.lock x before z ∧
      Walk f.lock z rest u := by
    rcases List.mem_append.mp hz with hz | hz
    · obtain ⟨before, rest, -, hbefore, hrest⟩ := h.split hz
      exact ⟨before, _, hbefore, hrest⟩
    · rw [List.mem_singleton.mp hz]
      exact ⟨items, [], h, .stay u⟩
  rcases hbefore.last_step with ⟨-, hsame⟩ | ⟨above, w, -, hwalk, hlock⟩
  · exact .inl hsame
  · exact .inr ⟨above, w, hwalk, hlock, rest, hrest⟩

/-- If neither block is in the branch of the other, the highest meeting is above their nearest
common ancestor. -/
theorem nearest_of_highest (hx : x ∈ f.alive)
    (h : Meeting f.lock previousOf x y items u items' v)
    (hhighest : Highest f.lock (·.num) previousOf x y u) (hnot : ¬ InBranch f x y.id)
    (hnot' : ¬ InBranch f y x.id) : NearestCommonAncestor f x y u.data.header.previous := by
  refine ⟨⟨items, u, h.first, rfl⟩, ⟨items', v, h.second, h.same.symm⟩, fun other hfirst hsecond => ?_⟩
  rcases hfirst with rfl | ⟨above, w, hwalk, hw⟩
  · exact absurd hsecond hnot'
  rcases hsecond with rfl | ⟨above', w', hwalk', hw'⟩
  · exact absurd (.inr ⟨above, w, hwalk, hw⟩) hnot
  have hmeeting : Meeting f.lock previousOf x y above w above' w' :=
    ⟨hwalk, hwalk', hw.trans hw'.symm⟩
  have hle : w.num ≤ u.num := hhighest hmeeting
  have hnum := hf.num_eq (hwalk.inherits hf.graded hx)
  have hnum' := hf.num_eq (h.first.inherits hf.graded hx)
  unfold previousOf at hnum hnum'
  rw [hw] at hnum
  rcases Nat.lt_or_ge w.num u.num with hlt | hge
  · exact .inl (by omega)
  · have hlabel : previousOf u = previousOf w :=
      h.label_eq hf.graded hmeeting hx (Nat.le_antisymm hge hle)
    exact .inr (hw.symm.trans hlabel.symm)

/-- If neither block is in the branch of the other, the branches down to the highest meeting
have no block in common. -/
theorem disjoint_of_highest (hx : x ∈ f.alive) (hy : y ∈ f.alive)
    (h : Meeting f.lock previousOf x y items u items' v)
    (hhighest : Highest f.lock (·.num) previousOf x y u) (hnot : ¬ InBranch f x y.id)
    (hnot' : ¬ InBranch f y x.id) :
    ∀ a ∈ items ++ [u], ∀ c ∈ items' ++ [v], a.id ≠ c.id := by
  intro a ha c hc hsame
  rcases walk_mem h.first ha with rfl | ⟨above, w, hwalk, hlock, rest, hrest⟩
  · rcases walk_mem h.second hc with rfl | ⟨above', w', hwalk', hlock', -⟩
    · exact hnot (.inl hsame.symm)
    · have hprevious := hf.lock_id (hwalk'.inherits hf.graded hy) hlock'
      exact hnot' (.inr ⟨above', w', hwalk', (hsame.trans hprevious).symm⟩)
  · have hw : w ∈ f.alive := hwalk.inherits hf.graded hx
    have hprevious := hf.lock_id hw hlock
    rcases walk_mem h.second hc with rfl | ⟨above', w', hwalk', hlock', -⟩
    · exact hnot (.inr ⟨above, w, hwalk, hprevious.symm.trans hsame⟩)
    · have hprevious' := hf.lock_id (hwalk'.inherits hf.graded hy) hlock'
      have hle : w.num ≤ u.num :=
        hhighest ⟨hwalk, hwalk', hprevious.symm.trans (hsame.trans hprevious')⟩
      have hlower : w.num = a.num + 1 := hf.graded.lower hw hlock
      have hlevels : a.num = u.num + rest.length := hrest.levels hf.graded (lock_mem hlock)
      omega

end Search

section Result

/-- The result of the search for two blocks of the index. -/
structure Found (f : ForkDatabase) (x y : ForkItem) (firsts seconds : List ForkItem) : Prop where
  branches : CommonBranches f x y firsts seconds
  shortest : ∀ firsts' seconds', CommonBranches f x y firsts' seconds' →
    firsts.length ≤ firsts'.length ∧ seconds.length ≤ seconds'.length
  nearest : ¬ InBranch f x y.id → ¬ InBranch f y x.id →
    ∃ id, (∀ u ∈ firsts.getLast?, u.data.header.previous = id) ∧
      (∀ v ∈ seconds.getLast?, v.data.header.previous = id) ∧ NearestCommonAncestor f x y id
  disjoint : ¬ InBranch f x y.id → ¬ InBranch f y x.id →
    ∀ a ∈ firsts, ∀ c ∈ seconds, a.id ≠ c.id

/-- Why the search fails: a parent is gone, and so no two branches are held. -/
structure Lost (f : ForkDatabase) (x y : ForkItem) : Prop where
  broken : ∃ items z, (Walk f.lock x items z ∨ Walk f.lock y items z) ∧ f.lock z = none
  branches : ∀ firsts seconds, ¬ CommonBranches f x y firsts seconds

/-- A meeting at the highest level is what the search has to find. -/
theorem Linked.found (hf : Linked env f) (hx : x ∈ f.alive) (hy : y ∈ f.alive)
    (h : Meeting f.lock previousOf x y items u items' v)
    (hhighest : Highest f.lock (·.num) previousOf x y u) :
    Found f x y (items ++ [u]) (items' ++ [v]) := by
  refine ⟨hf.meeting_branches hx hy h, fun firsts' seconds' hother => ?_, fun hnot hnot' => ?_,
    disjoint_of_highest hf hx hy h hhighest⟩
  · obtain ⟨rest, w, rest', w', rfl, rfl, hmeeting⟩ := hother.meeting
    obtain ⟨hfirst, hsecond⟩ := h.shortest hf.graded hf.level hhighest hx hy hmeeting
    rw [List.length_append, List.length_append, List.length_append, List.length_append]
    exact ⟨Nat.add_le_add_right hfirst _, Nat.add_le_add_right hsecond _⟩
  · refine ⟨u.data.header.previous, fun z hz => ?_, fun z hz => ?_,
      nearest_of_highest hf hx h hhighest hnot hnot'⟩
    · rw [List.getLast?_concat] at hz
      rw [← Option.some.inj hz]
    · rw [List.getLast?_concat] at hz
      rw [← Option.some.inj hz]
      exact h.same.symm

/-- In every fork database, `fetch_branch_from` ends for any two blocks of the index. It fails
only if a parent that it needs is gone, and otherwise returns the shortest branches to a common
previous block. -/
theorem common_ancestor_search {env : Env} {f : ForkDatabase} (hf : Grown env f)
    {first second : BlockId} {x y : ForkItem} (hfirst : f.findById first = some x)
    (hsecond : f.findById second = some y) :
    (∀ steps, x.num ≤ steps → y.num ≤ steps →
      fetchBranchWithin f steps first second = f.fetchBranchFrom first second) ∧
    ((∃ firsts seconds, f.fetchBranchFrom first second = .ok (firsts, seconds) ∧
      Found f x y firsts seconds) ∨
    (∃ text, f.fetchBranchFrom first second = .error (failed text)) ∧ Lost f x y) := by
  have hlinked := hf.linked
  have hx : x ∈ f.alive := index_subset_alive (findById_mem hfirst)
  have hy : y ∈ f.alive := index_subset_alive (findById_mem hsecond)
  refine ⟨fun steps hsteps hsteps' =>
    fetchBranchWithin_eq hlinked hfirst hsecond hsteps hsteps', ?_⟩
  rcases fetchBranchFrom_spec hlinked hfirst hsecond with
      ⟨items, u, items', v, heq, hmeeting, hhighest⟩ | ⟨herror, hbroken, hapart⟩
  · exact .inl ⟨_, _, heq, hlinked.found hx hy hmeeting hhighest⟩
  · refine .inr ⟨herror, hbroken, fun firsts seconds hbranches => ?_⟩
    obtain ⟨items, u, items', v, -, -, hmeeting⟩ := hbranches.meeting
    exact hapart _ _ _ _ hmeeting

/-- The fork database after a block is pushed, if it is accepted. -/
def pushed (env : Env) (f : ForkDatabase) (b : SignedBlock) : ForkDatabase :=
  match f.pushBlock env b with
  | .ok (_, g) => g
  | .error _ => f

/-- A pushed block keeps the database grown. -/
theorem Grown.pushed (h : Grown env f) (b : SignedBlock) : Grown env (pushed env f b) := by
  unfold CommonAncestor.pushed
  split
  next heq => exact Relation.ReflTransGen.tail h (.push heq)
  · exact h

/-- Pushed blocks keep the database grown. -/
theorem grown_foldl (h : Grown env f) (blocks : List SignedBlock) :
    Grown env (blocks.foldl (pushed env) f) := by
  induction blocks generalizing f with
  | nil => exact h
  | cons b rest ih => exact ih (h.pushed b)

/-- A block on top of the first one of the sample chain, beside its second. -/
def sampleSide : SignedBlock :=
  ChainRun.sampleBlock ((ChainRun.sampleChain [] 0).id ChainRun.sampleEnv)
    (Config.wlsGenesisTime + 9) (Genesis.initMinerName 0) []

/-- Three blocks in a row, and one beside the second. -/
def sampleTree : ForkDatabase :=
  [ChainRun.sampleChain [] 0, ChainRun.sampleChain [] 1, ChainRun.sampleChain [] 2,
    sampleSide].foldl (pushed ChainRun.sampleEnv) {}

/-- In the small tree the search finds branches of two items and of one. -/
theorem common_ancestor_search_sampleTree :
    ∃ x y firsts seconds, Found sampleTree x y firsts seconds ∧ x.num = 3 ∧ y.num = 2 ∧
      firsts.length = 2 ∧ seconds.length = 1 := by
  have hfirst : (sampleTree.findById ((ChainRun.sampleChain [] 2).id ChainRun.sampleEnv)).map
      (·.num) = some 3 := by decide +kernel
  have hsecond : (sampleTree.findById (sampleSide.id ChainRun.sampleEnv)).map (·.num) =
      some 2 := by decide +kernel
  have hresult : (sampleTree.fetchBranchFrom ((ChainRun.sampleChain [] 2).id ChainRun.sampleEnv)
      (sampleSide.id ChainRun.sampleEnv)).toOption.map (fun r => (r.1.length, r.2.length)) =
      some (2, 1) := by decide +kernel
  obtain ⟨x, hx, hxnum⟩ := Option.map_eq_some_iff.mp hfirst
  obtain ⟨y, hy, hynum⟩ := Option.map_eq_some_iff.mp hsecond
  have hgrown : Grown ChainRun.sampleEnv sampleTree := grown_foldl .refl _
  obtain ⟨-, ⟨firsts, seconds, hok, hfound⟩ | ⟨⟨text, herror⟩, -⟩⟩ :=
    common_ancestor_search hgrown hx hy
  · rw [hok] at hresult
    have hlengths := Option.some.inj hresult
    exact ⟨x, y, firsts, seconds, hfound, hxnum, hynum, congrArg Prod.fst hlengths,
      congrArg Prod.snd hlengths⟩
  · rw [herror] at hresult
    cases hresult

end Result


end Whaleshares.CommonAncestor
