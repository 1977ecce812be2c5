import Mathlib

/-!
# The first elements of a ranking

The first `n` elements of a pool in an order: they are in order, no other element of the pool
comes before one of them, and there are `n` of them if the pool has so many.
-/

namespace Whaleshares.Ranking

variable {α : Type} {lt : α → α → Prop} {n : ℕ} {pool pool' chosen : List α}

/-- The chosen elements are the first `n` of the pool. -/
structure Firsts (lt : α → α → Prop) (n : ℕ) (pool chosen : List α) : Prop where
  member : ∀ x ∈ chosen, x ∈ pool
  sorted : chosen.Pairwise lt
  size : chosen.length = min n pool.length
  ahead : ∀ x ∈ chosen, ∀ y ∈ pool, y ∉ chosen → lt x y

/-- The first elements do not depend on the order of the pool. -/
theorem Firsts.perm (h : Firsts lt n pool chosen) (hperm : pool.Perm pool') :
    Firsts lt n pool' chosen :=
  ⟨fun x hx => hperm.mem_iff.mp (h.member x hx), h.sorted, hperm.length_eq ▸ h.size,
    fun x hx y hy => h.ahead x hx y (hperm.mem_iff.mpr hy)⟩

/-- A list in order begins with its first elements. -/
theorem firsts_take (n : ℕ) (h : pool.Pairwise lt) : Firsts lt n pool (pool.take n) := by
  refine ⟨fun x hx => List.mem_of_mem_take hx, h.sublist (List.take_sublist _ _),
    List.length_take, fun x hx y hy hnot => ?_⟩
  rw [← List.take_append_drop n pool] at h hy
  have hdrop : y ∈ pool.drop n := (List.mem_append.mp hy).resolve_left hnot
  exact (List.pairwise_append.mp h).2.2 x hx y hdrop

/-- A list sorted by a total order is in the strict order if different elements differ in it. -/
theorem sorted_strict {le : α → α → Prop} (hsorted : pool.Pairwise le) (hnodup : pool.Nodup)
    (hstrict : ∀ x ∈ pool, ∀ y ∈ pool, le x y → x ≠ y → lt x y) : pool.Pairwise lt := by
  have hboth := hsorted.and hnodup
  exact hboth.imp_of_mem fun hx hy hxy => hstrict _ hx _ hy hxy.1 hxy.2

end Whaleshares.Ranking
