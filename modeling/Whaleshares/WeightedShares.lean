import Mathlib

/-!
# Weighted shares

A list of entries has shares and weights. If heavier entries have no larger shares, weighting the
shares and dividing by the mean weight does not pay more than the shares in total, and rounding
down pays less. A list that is visited in turn, once around, is visited in full.
-/

namespace Whaleshares.WeightedShares

variable {α : Type} {share weight : α → ℤ} {l : List α}

/-- Entries that weigh more have no larger shares. -/
def HeavierSmaller (share weight : α → ℤ) (l : List α) : Prop :=
  ∀ x ∈ l, ∀ y ∈ l, weight x < weight y → share y ≤ share x

/-- The sum inequality of oppositely ordered sequences, for the entries of a list. -/
theorem weighted_sum_le (h : HeavierSmaller share weight l) :
    (l.length : ℤ) * (l.map fun x => share x * weight x).sum ≤
      (l.map share).sum * (l.map weight).sum := by
  have hanti : Antivary (fun i : Fin l.length => share l[i]) fun i => weight l[i] :=
    fun i j hij => h _ (List.getElem_mem _) _ (List.getElem_mem _) hij
  have hsum := hanti.card_mul_sum_le_sum_mul_sum
  rw [Fintype.card_fin] at hsum
  have hprod : ∑ i : Fin l.length, share l[i] * weight l[i] =
      (l.map fun x => share x * weight x).sum := Fin.sum_univ_fun_getElem l fun x => share x * weight x
  have hshare : ∑ i : Fin l.length, share l[i] = (l.map share).sum :=
    Fin.sum_univ_fun_getElem l share
  have hweight : ∑ i : Fin l.length, weight l[i] = (l.map weight).sum :=
    Fin.sum_univ_fun_getElem l weight
  rwa [hprod, hshare, hweight] at hsum

/-- The weighted shares, divided by the mean weight and rounded down, are no more than the
shares in total. -/
theorem paid_sum_le {total : ℤ} (h : HeavierSmaller share weight l)
    (htotal : (l.map weight).sum = total) (hpos : 0 < total) :
    (l.map fun x => (share x * l.length * weight x) / total).sum ≤ (l.map share).sum := by
  have hfloor : (l.map fun x => (share x * l.length * weight x) / total * total).sum ≤
      (l.map fun x => share x * l.length * weight x).sum :=
    List.sum_le_sum fun x _ => Int.ediv_mul_le _ hpos.ne'
  have hpull : (l.map fun x => (share x * l.length * weight x) / total * total).sum =
      (l.map fun x => (share x * l.length * weight x) / total).sum * total :=
    List.sum_map_mul_right _ _ _
  have hlength : (l.map fun x => share x * l.length * weight x).sum =
      (l.length : ℤ) * (l.map fun x => share x * weight x).sum := by
    rw [← List.sum_map_mul_left]
    exact congrArg List.sum (List.map_congr_left fun x _ => by ring)
  have hsum := weighted_sum_le h
  rw [htotal] at hsum
  rw [hpull, hlength] at hfloor
  exact le_of_mul_le_mul_right (hfloor.trans hsum) hpos

/-- Once around a list, from anywhere in it. -/
theorem turn_eq_rotate (l : List α) (d : α) (start : ℕ) :
    ((List.range' start l.length).map fun i => l.getD (i % l.length) d) = l.rotate start := by
  refine List.ext_getElem (by simp) fun i hi _ => ?_
  rw [List.length_map, List.length_range'] at hi
  have hpos : 0 < l.length := Nat.lt_of_le_of_lt (Nat.zero_le i) hi
  have hmod : (start + i) % l.length < l.length := Nat.mod_lt _ hpos
  rw [List.getElem_map, List.getElem_range', List.getElem_rotate, Nat.one_mul,
    List.getD_eq_getElem _ _ hmod]
  exact getElem_congr_idx (by rw [Nat.add_comm])

/-- Over one turn of the list each element is counted once. -/
theorem turn_sum (l : List α) (d : α) (start : ℕ) (f : α → ℕ) :
    (((List.range' start l.length).map fun i => l.getD (i % l.length) d).map f).sum =
      (l.map f).sum := by
  rw [turn_eq_rotate]
  exact ((List.rotate_perm l start).map f).sum_eq

end Whaleshares.WeightedShares
