import Whaleshares.Table

/-!
# Totals of weights by key

The rows of a table have keys and weights. The total of a key is the sum of the weights of its
rows; it moves by a row's share when the row is added, replaced or removed.
-/

namespace Whaleshares.KeyTotals

section Totals

variable {α ι κ : Type} [DecidableEq ι] [DecidableEq κ] {id : α → ι} {key : α → κ} {w : α → ℤ}
  {rows : List α} {x : α} {k : κ}

/-- What a row adds to the total of a key. -/
def share (key : α → κ) (w : α → ℤ) (k : κ) (a : α) : ℤ := if key a = k then w a else 0

/-- The total of a weight over the rows with a key. -/
def total (key : α → κ) (w : α → ℤ) (rows : List α) (k : κ) : ℤ := (rows.map (share key w k)).sum

/-- A row of another key adds nothing. -/
theorem share_of_ne (h : key x ≠ k) : share key w k x = 0 := if_neg h

/-- A row of the key adds its weight. -/
theorem share_self : share key w (key x) x = w x := if_pos rfl

/-- A new row adds its share. -/
theorem total_append : total key w (rows ++ [x]) k = total key w rows k + share key w k x := by
  unfold total
  rw [List.map_append, List.sum_append, List.map_singleton, List.sum_singleton]

/-- A row that is replaced takes its share along. -/
theorem total_amend (hids : (rows.map id).Nodup) (hx : x ∈ rows) {y : α} (hy : id y = id x) :
    total key w (Table.amend id y rows) k =
      total key w rows k - share key w k x + share key w k y := by
  have hvalues : (Table.amend id y rows).map (share key w k) =
      rows.map fun a => if id a = id x then share key w k y else share key w k a := by
    refine Table.amend_map_congr (fun old _ hsame => ?_) fun old _ hother => ?_
    · rw [if_pos (hsame.trans hy)]
    · rw [if_neg fun h => hother (h.trans hy.symm)]
  unfold total
  rw [hvalues, Table.sum_map_replace (f := share key w k) id hids hx fun a _ ha => if_neg ha,
    if_pos rfl]
  omega

/-- A row that is removed takes its share along. -/
theorem total_remove (hids : (rows.map id).Nodup) (hx : x ∈ rows) :
    total key w (rows.filter fun a => !decide (id a = id x)) k =
      total key w rows k - share key w k x := by
  have hvalues : ((rows.filter fun a => !decide (id a = id x)).map (share key w k)).sum =
      (rows.map fun a => if id a = id x then 0 else share key w k a).sum := by
    clear hids hx
    induction rows with
    | nil => rfl
    | cons a rest ih =>
      by_cases ha : id a = id x
      · rw [List.filter_cons_of_neg (by simp [ha]), ih, List.map_cons, List.sum_cons, if_pos ha,
          Int.zero_add]
      · rw [List.filter_cons_of_pos (by simp [ha]), List.map_cons, List.sum_cons, ih, List.map_cons,
          List.sum_cons, if_neg ha]
  unfold total
  rw [hvalues, Table.sum_map_replace (f := share key w k) id hids hx fun a _ ha => if_neg ha,
    if_pos rfl]
  omega

/-- Without rows of the key there is no total. -/
theorem total_eq_zero (h : ∀ a ∈ rows, key a ≠ k) : total key w rows k = 0 := by
  unfold total
  refine List.sum_eq_zero fun z hz => ?_
  obtain ⟨a, ha, rfl⟩ := List.mem_map.mp hz
  exact share_of_ne (h a ha)

/-- The total of weights that are not negative is at least each of them. -/
theorem share_le_total (hw : ∀ a, 0 ≤ w a) (hx : x ∈ rows) :
    share key w k x ≤ total key w rows k := by
  unfold total
  refine List.single_le_sum (fun z hz => ?_) _ (List.mem_map_of_mem hx)
  obtain ⟨a, -, rfl⟩ := List.mem_map.mp hz
  unfold share
  split
  · exact hw a
  · exact le_rfl

/-- The total is the sum over the rows of the key. -/
theorem total_eq_sum :
    total key w rows k = ((rows.filter fun a => decide (key a = k)).map w).sum := by
  induction rows with
  | nil => rfl
  | cons a rest ih =>
    have hhead : total key w (a :: rest) k = share key w k a + total key w rest k := by
      unfold total
      rw [List.map_cons, List.sum_cons]
    rw [hhead, ih]
    by_cases ha : key a = k
    · rw [List.filter_cons_of_pos (by simp [ha]), List.map_cons, List.sum_cons]
      unfold share
      rw [if_pos ha]
    · rw [List.filter_cons_of_neg (by simp [ha]), share_of_ne ha, Int.zero_add]

/-- A total of ones is a number of rows. -/
theorem total_eq_countP {p : α → Bool} (hw : ∀ a, w a = if p a then 1 else 0) :
    total key w rows k = (rows.countP fun a => decide (key a = k) && p a : ℕ) := by
  induction rows with
  | nil => rfl
  | cons a rest ih =>
    have hhead : total key w (a :: rest) k = share key w k a + total key w rest k := by
      unfold total
      rw [List.map_cons, List.sum_cons]
    rw [hhead, ih, List.countP_cons]
    unfold share
    by_cases ha : key a = k
    · rw [if_pos ha, hw]
      by_cases hp : p a = true
      · simp [ha, hp]
        omega
      · simp [ha, hp]
    · rw [if_neg ha]
      simp [ha]

end Totals

end Whaleshares.KeyTotals
