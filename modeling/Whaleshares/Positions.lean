import Mathlib

/-!
# Positions in a text

A text is a list and is read by positions: the first place of an element from a
position on, and the parts before and after it. The lemmas speak about a text that is
written as a front and a rest, with the reading starting where the rest starts.
-/

namespace Whaleshares.Positions

variable {α : Type*}

section First

variable [DecidableEq α]

/-- The first position of `c` in `text` from `start` on. -/
def findFrom (text : List α) (c : α) (start : ℕ) : Option ℕ :=
  ((text.drop start).findIdx? (· = c)).map (start + ·)

/-- A text has no `c`, or it is what stands before the first `c`, then `c`, then a rest. -/
theorem absent_or_split (c : α) (text : List α) :
    c ∉ text ∨ ∃ before rest, text = before ++ c :: rest ∧ c ∉ before := by
  by_cases h : c ∈ text
  · obtain ⟨before, rest, hsplit, habsent⟩ := List.eq_append_cons_of_mem h
    exact .inr ⟨before, rest, hsplit, habsent⟩
  · exact .inl h

/-- What does not occur has no position. -/
theorem findIdx?_absent {c : α} {text : List α} (h : c ∉ text) :
    text.findIdx? (· = c) = none := by
  rw [List.findIdx?_eq_none_iff]
  intro x hx
  have hne : x ≠ c := by
    rintro rfl
    exact h hx
  simp [hne]

/-- What occurs first behind a part stands at its length. -/
theorem findIdx?_first {c : α} {before : List α} (rest : List α) (h : c ∉ before) :
    (before ++ c :: rest).findIdx? (· = c) = some before.length := by
  rw [List.findIdx?_append, findIdx?_absent h]
  simp [List.findIdx?_cons]

/-- What does not occur from a position on is not found from there. -/
theorem findFrom_absent (front : List α) {c : α} {rest : List α} (h : c ∉ rest) :
    findFrom (front ++ rest) c front.length = none := by
  rw [findFrom, List.drop_left, findIdx?_absent h]
  rfl

/-- What occurs first from a position on is found there. -/
theorem findFrom_first (front : List α) {c : α} {before : List α} (rest : List α)
    (h : c ∉ before) :
    findFrom (front ++ (before ++ c :: rest)) c front.length =
      some (front.length + before.length) := by
  rw [findFrom, List.drop_left, findIdx?_first rest h]
  rfl

/-- From the start on, the first `c` is where the part without it ends. -/
theorem findFrom_start {c : α} {before : List α} (rest : List α) (h : c ∉ before) :
    findFrom (before ++ c :: rest) c 0 = some before.length := by
  have hfirst := findFrom_first [] rest h
  rwa [List.length_nil, Nat.zero_add, List.nil_append] at hfirst

/-- What is found lies in the text. -/
theorem findFrom_bounds {text : List α} {c : α} {start i : ℕ} (h : findFrom text c start = some i) :
    start ≤ i ∧ i < text.length := by
  rw [findFrom, Option.map_eq_some_iff] at h
  obtain ⟨j, hj, rfl⟩ := h
  obtain ⟨hlt, -⟩ := List.findIdx?_eq_some_iff_getElem.mp hj
  rw [List.length_drop] at hlt
  omega

/-- Two texts that are split at their first `c` are equal in both parts. -/
theorem split_unique {c : α} {before before' rest rest' : List α} (h : c ∉ before)
    (h' : c ∉ before') (heq : before ++ c :: rest = before' ++ c :: rest') :
    before = before' ∧ rest = rest' := by
  have hfirst := findIdx?_first rest h
  rw [heq, findIdx?_first rest' h'] at hfirst
  have hlength : before.length = before'.length := (Option.some.inj hfirst).symm
  obtain ⟨hbefore, htail⟩ := List.append_inj heq hlength
  exact ⟨hbefore, (List.cons.inj htail).2⟩

end First

/-- Two texts that are split where a property of the elements ends are equal in both
parts. -/
theorem leading_unique {p : α → Prop} {front front' rest rest' : List α}
    (hfront : ∀ b ∈ front, p b) (hfront' : ∀ b ∈ front', p b)
    (hrest : ∀ b ∈ rest.head?, ¬ p b) (hrest' : ∀ b ∈ rest'.head?, ¬ p b)
    (heq : front ++ rest = front' ++ rest') : front = front' ∧ rest = rest' := by
  induction front generalizing front' with
  | nil =>
    cases front' with
    | nil => exact ⟨rfl, heq⟩
    | cons b tail =>
      have hhead : b ∈ rest.head? := by
        rw [← List.nil_append rest, heq]
        rfl
      exact absurd (hfront' b (List.mem_cons_self ..)) (hrest b hhead)
  | cons a tail ih =>
    cases front' with
    | nil =>
      have hhead : a ∈ rest'.head? := by
        rw [← List.nil_append rest', ← heq]
        rfl
      exact absurd (hfront a (List.mem_cons_self ..)) (hrest' a hhead)
    | cons b tail' =>
      obtain ⟨hab, htails⟩ := List.cons.inj heq
      obtain ⟨hrec, hrests⟩ := ih (fun c hc => hfront c (List.mem_cons_of_mem _ hc))
        (fun c hc => hfront' c (List.mem_cons_of_mem _ hc)) htails
      exact ⟨by rw [hab, hrec], hrests⟩

/-- `substr( start, count )` -/
def substr (text : List α) (start count : ℕ) : List α := (text.drop start).take count

/-- The part between a front and a rest. -/
theorem substr_part (front part rest : List α) :
    substr (front ++ (part ++ rest)) front.length part.length = part := by
  rw [substr, List.drop_left, List.take_left]

/-- The element `i` places after the front is the element of the rest there. -/
theorem getD_front (front rest : List α) (i : ℕ) (d : α) :
    (front ++ rest).getD (front.length + i) d = rest.getD i d := by
  rw [List.getD_append_right _ _ _ _ (by omega)]
  congr 1
  omega

/-- A text without the elements of a kind at both its ends. -/
def trim (p : α → Bool) (text : List α) : List α := (text.dropWhile p).rdropWhile p

/-- What comes off is of the kind, and the ends of what stays are not. -/
theorem trim_spec (p : α → Bool) (text : List α) :
    ∃ left right, text = left ++ (trim p text ++ right) ∧
      (∀ b ∈ left, p b) ∧ (∀ b ∈ right, p b) ∧
      (∀ b ∈ (trim p text).head?, p b = false) ∧ (∀ b ∈ (trim p text).getLast?, p b = false) := by
  refine ⟨text.takeWhile p, (text.dropWhile p).rtakeWhile p, ?_, ?_, ?_, ?_, ?_⟩
  · rw [trim, List.rdropWhile_append_rtakeWhile, List.takeWhile_append_dropWhile]
  · intro b hb
    exact List.mem_takeWhile_imp hb
  · intro b hb
    exact List.mem_rtakeWhile_imp hb
  · intro b hb
    -- the head of what stays is the head of the text behind its front
    obtain ⟨rest, hrest⟩ := List.rdropWhile_prefix p (l := text.dropWhile p)
    have hhead : b ∈ (text.dropWhile p).head? := by
      rw [← hrest, List.head?_append]
      change b ∈ (trim p text).head?.or rest.head?
      rw [hb]
      rfl
    have hnot := List.head?_dropWhile_not p text
    rw [hhead] at hnot
    exact hnot
  · intro b hb
    have hne : (text.dropWhile p).rdropWhile p ≠ [] := by
      intro hnil
      rw [trim, hnil] at hb
      cases hb
    have hlast := List.rdropWhile_last_not p (text.dropWhile p) hne
    rw [trim, List.getLast?_eq_some_getLast hne] at hb
    cases hb
    simpa using hlast

end Whaleshares.Positions
