import Whaleshares.Table

/-!
# Walks along an index

Rows of a table in the order of an index are walked through while they satisfy a condition. The
walk must come to a row that does not satisfy it, for nothing stops it at the end of the index.
If the condition can only fail from some row on, the walk collects exactly the rows that
satisfy it.
-/

namespace Whaleshares.IndexWalk

variable {α : Type} {p : α → Bool} {le : α → α → Bool} {rows : List α} {table : Table α}

section Select

/-- The selected rows are the rows that satisfy the condition. -/
theorem mem_select {a : α} : a ∈ table.select p le ↔ a ∈ table.rows ∧ p a = true := by
  unfold Table.select
  rw [(List.perm_insertionSort _ _).mem_iff, List.mem_filter]

/-- The rows come in the order of the index. -/
theorem pairwise_select (htotal : ∀ a b, le a b = true ∨ le b a = true)
    (htrans : ∀ a b c, le a b = true → le b c = true → le a c = true) :
    (table.select p le).Pairwise fun a b => le a b = true := by
  have _ : Std.Total fun a b => le a b = true := ⟨htotal⟩
  have _ : IsTrans α fun a b => le a b = true := ⟨htrans⟩
  exact List.pairwise_insertionSort _ _

end Select

section Walk

/-- The rows up to the first one that does not satisfy a condition, and that one. There is no
result where the walk would leave the index. -/
def walk (p : α → Bool) : List α → Option (List α × α)
  | [] => none
  | row :: rest => if p row then (walk p rest).map fun r => (row :: r.1, r.2) else some ([], row)

/-- A walk over a row that satisfies the condition goes on. -/
theorem walk_cons_of_pos {row : α} (h : p row = true) :
    walk p (row :: rows) = (walk p rows).map fun r => (row :: r.1, r.2) := if_pos h

/-- A walk stops at the first row that does not. -/
theorem walk_cons_of_neg {row : α} (h : p row = false) : walk p (row :: rows) = some ([], row) := by
  unfold walk
  rw [h]
  rfl

/-- A walk that meets a row without the condition stops; it has walked over a part of the rows
that satisfy it, and the row where it stops comes before all that are left. -/
theorem walk_stops (hsorted : rows.Pairwise fun a b => le a b = true) {last : α}
    (hlast : last ∈ rows) (hfails : p last = false) :
    ∃ walked stop, walk p rows = some (walked, stop) ∧ stop ∈ rows ∧ p stop = false ∧
      (∀ a ∈ walked, a ∈ rows ∧ p a = true) ∧
      ∀ a ∈ rows, a ∈ walked ∨ a = stop ∨ le stop a = true := by
  induction rows with
  | nil => cases hlast
  | cons row rest ih =>
    obtain ⟨hrow, hrest⟩ := List.pairwise_cons.mp hsorted
    cases hp : p row with
    | true =>
      have hmem : last ∈ rest := by
        obtain rfl | hmem := List.mem_cons.mp hlast
        · rw [hp] at hfails
          cases hfails
        · exact hmem
      obtain ⟨walked, stop, hwalk, hstop, hpstop, hwalked, hleft⟩ := ih hrest hmem
      refine ⟨row :: walked, stop, ?_, List.mem_cons_of_mem _ hstop, hpstop, fun a ha => ?_,
        fun a ha => ?_⟩
      · rw [walk_cons_of_pos hp, hwalk]
        rfl
      · obtain rfl | ha := List.mem_cons.mp ha
        · exact ⟨List.mem_cons_self, hp⟩
        · exact ⟨List.mem_cons_of_mem _ (hwalked a ha).1, (hwalked a ha).2⟩
      · obtain rfl | ha := List.mem_cons.mp ha
        · exact .inl List.mem_cons_self
        · exact (hleft a ha).imp_left (List.mem_cons_of_mem _)
    | false =>
      refine ⟨[], row, walk_cons_of_neg hp, List.mem_cons_self, hp, ?_, fun a ha => .inr ?_⟩
      · intro a ha
        cases ha
      · exact (List.mem_cons.mp ha).imp_right (hrow a)

/-- Where a row without the condition has none with it behind, the walk collects all rows that
satisfy it. -/
theorem walk_collects (hsorted : rows.Pairwise fun a b => le a b = true)
    (hupward : ∀ a ∈ rows, ∀ b ∈ rows, le a b = true → p a = false → p b = false) {last : α}
    (hlast : last ∈ rows) (hfails : p last = false) :
    ∃ walked stop, walk p rows = some (walked, stop) ∧
      ∀ a, a ∈ walked ↔ a ∈ rows ∧ p a = true := by
  obtain ⟨walked, stop, hwalk, hstop, hpstop, hwalked, hleft⟩ := walk_stops hsorted hlast hfails
  refine ⟨walked, stop, hwalk, fun a => ⟨hwalked a, fun ⟨ha, hpa⟩ => ?_⟩⟩
  obtain hmem | rfl | hle := hleft a ha
  · exact hmem
  · rw [hpstop] at hpa
    cases hpa
  · rw [hupward stop hstop a ha hle hpstop] at hpa
    cases hpa

end Walk

end Whaleshares.IndexWalk
