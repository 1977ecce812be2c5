import Mathlib

/-!
# Sums along a forest

Nodes with a parent each, or none. A node passes amounts on to its parent, one for every
level below it: its own amount at level zero, and at the next level the sum of what its
children pass on at this one. Up to a depth, level by level, these are the sums over the
nodes that stand exactly so many steps below.
-/

namespace Whaleshares.Forest

variable {N : Type}

section Climbing

/-- The node that stands a number of steps above a node. -/
def climb (parent : N → Option N) : ℕ → N → Option N
  | 0, n => some n
  | steps + 1, n => (parent n).bind (climb parent steps)

variable {parent parent' : N → Option N} {n x : N}

/-- A step more climbs to the parent. -/
theorem climb_succ (steps : ℕ) (n : N) :
    climb parent (steps + 1) n = (climb parent steps n).bind parent := by
  induction steps generalizing n with
  | zero =>
    change (parent n).bind some = parent n
    cases parent n <;> rfl
  | succ steps ih =>
    change (parent n).bind (climb parent (steps + 1)) = ((parent n).bind (climb parent steps)).bind parent
    cases parent n with
    | none => rfl
    | some m => exact ih m

/-- Every climb ends at a node without a parent. -/
def Grounded (parent : N → Option N) : Prop := ∀ n, ∃ steps, climb parent steps n = none

/-- A node does not stand above itself. -/
theorem Grounded.acyclic (h : Grounded parent) (n : N) (steps : ℕ) :
    climb parent (steps + 1) n ≠ some n := by
  obtain ⟨height, hheight⟩ := h n
  induction height generalizing n with
  | zero => cases hheight
  | succ height ih =>
    intro hcycle
    have hround : climb parent (steps + 2) n = parent n := by
      rw [climb_succ, hcycle]
      rfl
    cases hparent : parent n with
    | none =>
      have hnone : climb parent (steps + 1) n = none := by
        change (parent n).bind (climb parent steps) = none
        rw [hparent]
        rfl
      rw [hnone] at hcycle
      cases hcycle
    | some m =>
      refine ih m ?_ ?_
      · change (parent n).bind (climb parent height) = none at hheight
        rwa [hparent] at hheight
      · change (parent n).bind (climb parent (steps + 1)) = parent n at hround
        rwa [hparent] at hround

/-- A climb that does not leave from `x` takes the same way when the parent of `x` changes. -/
theorem climb_congr (hparent : ∀ m, m ≠ x → parent' m = parent m) {steps : ℕ}
    (hfree : ∀ lower < steps, climb parent lower n ≠ some x) :
    climb parent' steps n = climb parent steps n := by
  induction steps with
  | zero => rfl
  | succ steps ih =>
    have hsame := ih fun lower hlower => hfree lower (by omega)
    rw [climb_succ, climb_succ, hsame]
    cases hm : climb parent steps n with
    | none => rfl
    | some m =>
      refine hparent m fun hmx => hfree steps (by omega) ?_
      rw [hm, hmx]

/-- A change of one parent leaves all climbs finite if the climb from that node is. -/
theorem Grounded.update (h : Grounded parent) (hparent : ∀ m, m ≠ x → parent' m = parent m)
    (hx : ∃ steps, climb parent' steps x = none) : Grounded parent' := by
  intro n
  obtain ⟨height, hheight⟩ := h n
  induction height generalizing n with
  | zero => cases hheight
  | succ height ih =>
    by_cases hn : n = x
    · rw [hn]
      exact hx
    · change (parent n).bind (climb parent height) = none at hheight
      cases hm : parent n with
      | none =>
        refine ⟨1, ?_⟩
        change (parent' n).bind some = none
        rw [hparent n hn, hm]
        rfl
      | some m =>
        rw [hm] at hheight
        obtain ⟨steps, hsteps⟩ := ih m hheight
        refine ⟨steps + 1, ?_⟩
        change (parent' n).bind (climb parent' steps) = none
        rw [hparent n hn, hm]
        exact hsteps

/-- Parents are nodes. -/
def Closed (nodes : Finset N) (parent : N → Option N) : Prop :=
  ∀ n ∈ nodes, ∀ m, parent n = some m → m ∈ nodes

/-- A climb within closed nodes stays among them. -/
theorem Closed.climb {nodes : Finset N} (h : Closed nodes parent) {n m : N} {steps : ℕ} (hn : n ∈ nodes)
    (hm : Forest.climb parent steps n = some m) : m ∈ nodes := by
  induction steps generalizing n with
  | zero =>
    have hnm : n = m := Option.some.inj hm
    rwa [← hnm]
  | succ steps ih =>
    change (parent n).bind (Forest.climb parent steps) = some m at hm
    cases hp : parent n with
    | none =>
      rw [hp] at hm
      cases hm
    | some p =>
      rw [hp] at hm
      exact ih (h n hn p hp) hm

end Climbing

section Sums

variable [DecidableEq N]

/-- Up to a depth, what a node passes on at a level is the sum of what its children pass on
one level below. -/
def Collects (nodes : Finset N) (parent : N → Option N) (depth : ℕ) (passed : ℕ → N → ℤ) : Prop :=
  ∀ n ∈ nodes, ∀ level < depth,
    passed (level + 1) n = ∑ m ∈ nodes with parent m = some n, passed level m

variable {nodes : Finset N} {parent : N → Option N} {depth : ℕ} {passed : ℕ → N → ℤ}

/-- What a node passes on at a level is the sum over the nodes that stand so many steps
below it. -/
theorem Collects.level (h : Collects nodes parent depth passed) (hclosed : Closed nodes parent)
    {n : N} (hn : n ∈ nodes) {level : ℕ} (hlevel : level ≤ depth) :
    passed level n = ∑ m ∈ nodes with climb parent level m = some n, passed 0 m := by
  induction level generalizing n with
  | zero =>
    have honly : (nodes.filter fun m => climb parent 0 m = some n) = {n} := by
      ext m
      simp only [climb, Finset.mem_filter, Option.some.injEq, Finset.mem_singleton]
      constructor
      · exact fun hm => hm.2
      · intro hm
        rw [hm]
        exact ⟨hn, rfl⟩
    rw [honly, Finset.sum_singleton]
  | succ level ih =>
    have hbelow : ∀ m ∈ nodes, passed level m =
        ∑ l ∈ nodes, if climb parent level l = some m then passed 0 l else 0 := by
      intro m hm
      rw [ih hm (by omega), Finset.sum_filter]
    calc passed (level + 1) n
        = ∑ m ∈ nodes, if parent m = some n then passed level m else 0 := by
          rw [h n hn level (by omega), Finset.sum_filter]
      _ = ∑ m ∈ nodes, ∑ l ∈ nodes, if parent m = some n then
            if climb parent level l = some m then passed 0 l else 0 else 0 := by
          refine Finset.sum_congr rfl fun m hm => ?_
          split
          · exact hbelow m hm
          · rw [Finset.sum_const_zero]
      _ = ∑ l ∈ nodes, ∑ m ∈ nodes, if parent m = some n then
            if climb parent level l = some m then passed 0 l else 0 else 0 := Finset.sum_comm
      _ = ∑ l ∈ nodes, if climb parent (level + 1) l = some n then passed 0 l else 0 := by
          refine Finset.sum_congr rfl fun l hl => ?_
          rw [climb_succ]
          cases hm : climb parent level l with
          | none => simp
          | some m =>
            have hmem := hclosed.climb hl hm
            simp only [Option.some.injEq, Option.bind_some]
            rw [Finset.sum_eq_single_of_mem m hmem]
            · simp
            · intro k _ hk
              simp [Ne.symm hk]
      _ = ∑ m ∈ nodes with climb parent (level + 1) m = some n, passed 0 m := by
          rw [Finset.sum_filter]

/-- What the nodes with a parent pass on at a level arrives at the next one. -/
theorem Collects.arrives (h : Collects nodes parent depth passed) (hclosed : Closed nodes parent)
    {level : ℕ} (hlevel : level < depth) :
    ∑ m ∈ nodes with parent m ≠ none, passed level m = ∑ n ∈ nodes, passed (level + 1) n := by
  calc ∑ m ∈ nodes with parent m ≠ none, passed level m
      = ∑ m ∈ nodes, ∑ n ∈ nodes, if parent m = some n then passed level m else 0 := by
        rw [Finset.sum_filter]
        refine Finset.sum_congr rfl fun m hm => ?_
        cases hp : parent m with
        | none => simp
        | some p =>
          have hmem := hclosed m hm p hp
          simp [hmem]
    _ = ∑ n ∈ nodes, ∑ m ∈ nodes, if parent m = some n then passed level m else 0 :=
        Finset.sum_comm
    _ = ∑ n ∈ nodes, passed (level + 1) n := by
        refine Finset.sum_congr rfl fun n hn => ?_
        rw [h n hn level hlevel, Finset.sum_filter]

/-- Nothing is lost: the amounts of all nodes are what the roots hold on all levels, and
what the other nodes hold on the last one. -/
theorem Collects.total (h : Collects nodes parent depth passed) (hclosed : Closed nodes parent) :
    ∑ n ∈ nodes, passed 0 n =
      ∑ n ∈ nodes with parent n = none, ∑ level ∈ Finset.range (depth + 1), passed level n +
        ∑ n ∈ nodes with parent n ≠ none, passed depth n := by
  induction depth with
  | zero =>
    simp only [zero_add, Finset.sum_range_one]
    exact (Finset.sum_filter_add_sum_filter_not nodes _ _).symm
  | succ depth ih =>
    have hlower : Collects nodes parent depth passed := fun n hn level hlevel =>
      h n hn level (by omega)
    have hsplit := Finset.sum_filter_add_sum_filter_not nodes (fun n => parent n = none)
      (passed (depth + 1))
    rw [ih hlower, h.arrives hclosed (by omega), ← hsplit]
    simp only [Finset.sum_range_succ _ (depth + 1), Finset.sum_add_distrib]
    exact (add_assoc _ _ _).symm

end Sums

end Whaleshares.Forest
