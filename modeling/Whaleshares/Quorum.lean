import Mathlib

/-!
# Quorums of a list

Two groups that together have more members than a list has elements share an element. So at most
one value is shared by a quorum of more than half of the elements, and the middle of a list in the
order of a key lies between any bounds that the keys of more than half of the elements keep.
-/

namespace Whaleshares.Quorum

variable {α β : Type} {l : List α}

/-- Two properties that together hold more often than there are elements hold of one together. -/
theorem exists_common {p q : α → Bool} (h : l.length < l.countP p + l.countP q) :
    ∃ x ∈ l, p x = true ∧ q x = true := by
  by_contra hnone
  have hle : l.countP p ≤ l.countP fun x => decide (¬ q x = true) := by
    refine List.countP_mono_left fun x hx hp => decide_eq_true fun hq => ?_
    exact hnone ⟨x, hx, hp, hq⟩
  have hlength := List.length_eq_countP_add_countP q (l := l)
  omega

/-- No two values have a quorum of more than half of the elements. -/
theorem eq_of_shared [DecidableEq β] {f : α → β} {a b : β} {required : ℕ}
    (hquorum : l.length < 2 * required) (ha : required ≤ l.countP (f · = a))
    (hb : required ≤ l.countP (f · = b)) : a = b := by
  obtain ⟨x, -, hxa, hxb⟩ := exists_common (l := l) (p := fun x => decide (f x = a))
    (q := fun x => decide (f x = b)) (by omega)
  exact (of_decide_eq_true hxa).symm.trans (of_decide_eq_true hxb)

section Middle

variable [LinearOrder β] {key : α → β} {i : ℕ} {x : α}

/-- In a sorted list at least the elements up to a position have at most its key. -/
theorem countP_upTo (hsorted : l.Pairwise fun a b => key a ≤ key b) (hx : l[i]? = some x) :
    i + 1 ≤ l.countP fun a => key a ≤ key x := by
  induction l generalizing i with
  | nil => cases hx
  | cons y rest ih =>
    obtain ⟨hfirst, hrest⟩ := List.pairwise_cons.mp hsorted
    rw [List.countP_cons]
    cases i with
    | zero =>
      have hy : y = x := Option.some.inj hx
      simp [hy]
    | succ i =>
      have hcount := ih hrest hx
      have hy : key y ≤ key x := hfirst x (List.mem_of_getElem? hx)
      simp only [hy, decide_true, if_true]
      omega

/-- In a sorted list at least the elements from a position on have at least its key. -/
theorem countP_from (hsorted : l.Pairwise fun a b => key a ≤ key b) (hx : l[i]? = some x) :
    l.length ≤ i + l.countP fun a => key x ≤ key a := by
  induction l generalizing i with
  | nil => cases hx
  | cons y rest ih =>
    obtain ⟨hfirst, hrest⟩ := List.pairwise_cons.mp hsorted
    rw [List.countP_cons, List.length_cons]
    cases i with
    | zero =>
      have hy : y = x := Option.some.inj hx
      have hall : rest.countP (fun a => key x ≤ key a) = rest.length :=
        List.countP_eq_length.mpr fun a ha => decide_eq_true (hy ▸ hfirst a ha)
      simp only [hall, hy, le_refl, decide_true, if_true]
      omega
    | succ i =>
      have hcount := ih hrest hx
      omega

/-- The middle of a list in the order of a key keeps the bounds of a majority. -/
theorem middle_between (hsorted : l.Pairwise fun a b => key a ≤ key b)
    (hx : l[l.length / 2]? = some x) {lo hi : β}
    (hmost : l.length < 2 * l.countP fun a => lo ≤ key a ∧ key a ≤ hi) :
    lo ≤ key x ∧ key x ≤ hi := by
  have hupTo := countP_upTo hsorted hx
  have hfrom := countP_from hsorted hx
  obtain ⟨low, -, hlow, hlowIn⟩ := exists_common (l := l)
    (p := fun a => decide (key a ≤ key x)) (q := fun a => decide (lo ≤ key a ∧ key a ≤ hi))
    (by omega)
  obtain ⟨high, -, hhigh, hhighIn⟩ := exists_common (l := l)
    (p := fun a => decide (key x ≤ key a)) (q := fun a => decide (lo ≤ key a ∧ key a ≤ hi))
    (by omega)
  exact ⟨(of_decide_eq_true hlowIn).1.trans (of_decide_eq_true hlow),
    (of_decide_eq_true hhigh).trans (of_decide_eq_true hhighIn).2⟩

end Middle

end Whaleshares.Quorum
