import Mathlib

/-!
# Ranges in an ordered map

Closed ranges are kept in a map from their first to their last value, in ascending order. The
lower bound of a value is the position of the first range that does not begin before it: a
range that begins at the value. A range that begins before the value and holds it stands one
position further in front, if the ranges do not overlap.
-/

namespace Whaleshares.RangeMap

variable {κ ρ : Type}

section Maps

variable (less : κ → κ → Bool)

/-- An entry is put in its place; an entry with its key stays. -/
def insert (entry : κ × κ) : List (κ × κ) → List (κ × κ)
  | [] => [entry]
  | first :: rest =>
    if less entry.1 first.1 then entry :: first :: rest
    else if less first.1 entry.1 then first :: insert entry rest
    else first :: rest

/-- The map with the given entries. -/
def ofEntries (entries : List (κ × κ)) : List (κ × κ) :=
  entries.foldl (fun m entry => insert less entry m) []

/-- The position of the first entry whose key is not less than a key. -/
def lowerBound (m : List (κ × κ)) (x : κ) : ℕ := (m.takeWhile fun r => less r.1 x).length

variable {less} {α : Type} {less' : α → α → Bool} {f : κ → α}

/-- Both ends of a range under another form of the keys. -/
def mapEnds (f : κ → α) (r : κ × κ) : α × α := (f r.1, f r.2)

/-- An insertion commutes with a map that keeps the order. -/
theorem insert_map (hf : ∀ a b, less' (f a) (f b) = less a b) (entry : κ × κ)
    (m : List (κ × κ)) :
    insert less' (mapEnds f entry) (m.map (mapEnds f)) = (insert less entry m).map (mapEnds f) := by
  induction m with
  | nil => rfl
  | cons first rest ih =>
    rw [List.map_cons, insert, insert]
    simp only [mapEnds, hf]
    split
    · rfl
    · split
      · rw [List.map_cons, ← ih]
        rfl
      · rfl

/-- Forms of the keys with one order have the same map. -/
theorem ofEntries_map (hf : ∀ a b, less' (f a) (f b) = less a b) (entries : List (κ × κ)) :
    ofEntries less' (entries.map (mapEnds f)) = (ofEntries less entries).map (mapEnds f) := by
  have hfold : ∀ m : List (κ × κ),
      (entries.map (mapEnds f)).foldl (fun m entry => insert less' entry m) (m.map (mapEnds f)) =
        (entries.foldl (fun m entry => insert less entry m) m).map (mapEnds f) := by
    induction entries with
    | nil => exact fun _ => rfl
    | cons entry rest ih =>
      intro m
      rw [List.map_cons, List.foldl_cons, List.foldl_cons, insert_map hf, ih]
  exact hfold []

/-- A lower bound commutes with a map that keeps the order. -/
theorem lowerBound_map (hf : ∀ a b, less' (f a) (f b) = less a b) (m : List (κ × κ)) (x : κ) :
    lowerBound less' (m.map (mapEnds f)) (f x) = lowerBound less m x := by
  unfold lowerBound
  rw [List.takeWhile_map, List.length_map]
  congr 2
  funext r
  exact hf r.1 x

end Maps

section Ranges

variable [LinearOrder ρ] (rank : κ → ρ)

/-- The order of keys by their ranks. -/
def byRank (a b : κ) : Bool := rank a < rank b

/-- A value lies in a range. -/
def Holds (r : κ × κ) (x : κ) : Prop := rank r.1 ≤ rank x ∧ rank x ≤ rank r.2

/-- The keys ascend. -/
def Ascending (m : List (κ × κ)) : Prop := m.Pairwise fun q r => rank q.1 < rank r.1

/-- No value lies in both ranges. -/
def Apart (q r : κ × κ) : Prop := ∀ x, ¬ (Holds rank q x ∧ Holds rank r x)

variable {rank} {m : List (κ × κ)} {entry : κ × κ} {x : κ}

/-- The order by rank compares the ranks. -/
theorem byRank_iff {a b : κ} : byRank rank a b = true ↔ rank a < rank b := decide_eq_true_iff

/-- An entry after an insertion is the new one or one from before. -/
theorem mem_insert {r : κ × κ} (h : r ∈ insert (byRank rank) entry m) : r = entry ∨ r ∈ m := by
  induction m with
  | nil => exact .inl (List.mem_singleton.mp h)
  | cons first rest ih =>
    unfold insert at h
    split at h
    · exact List.mem_cons.mp h
    · split at h
      · obtain rfl | h := List.mem_cons.mp h
        · exact .inr List.mem_cons_self
        · exact (ih h).imp id (List.mem_cons_of_mem _)
      · exact .inr h

/-- An entry with a key of its own is inserted, and the others stay. -/
theorem mem_insert_iff (hnew : ∀ q ∈ m, rank q.1 ≠ rank entry.1) (r : κ × κ) :
    r ∈ insert (byRank rank) entry m ↔ r = entry ∨ r ∈ m := by
  refine ⟨mem_insert, fun h => ?_⟩
  induction m with
  | nil => exact List.mem_singleton.mpr (h.resolve_right List.not_mem_nil)
  | cons first rest ih =>
    have hfirst : rank first.1 ≠ rank entry.1 := hnew first List.mem_cons_self
    have hrest : ∀ q ∈ rest, rank q.1 ≠ rank entry.1 := fun q hq =>
      hnew q (List.mem_cons_of_mem _ hq)
    unfold insert
    by_cases hbefore : rank entry.1 < rank first.1
    · rw [if_pos (byRank_iff.mpr hbefore)]
      exact List.mem_cons.mpr h
    · rw [if_neg (mt byRank_iff.mp hbefore)]
      have hafter : rank first.1 < rank entry.1 := lt_of_le_of_ne (not_lt.mp hbefore) hfirst
      rw [if_pos (byRank_iff.mpr hafter)]
      rcases h with h | h
      · exact List.mem_cons_of_mem _ (ih hrest (.inl h))
      · obtain rfl | h := List.mem_cons.mp h
        · exact List.mem_cons_self
        · exact List.mem_cons_of_mem _ (ih hrest (.inr h))

/-- An insertion keeps the map ascending. -/
theorem ascending_insert (h : Ascending rank m) (entry : κ × κ) :
    Ascending rank (insert (byRank rank) entry m) := by
  induction m with
  | nil => exact List.pairwise_singleton _ _
  | cons first rest ih =>
    obtain ⟨hfirst, hrest⟩ := List.pairwise_cons.mp h
    unfold insert
    by_cases hbefore : rank entry.1 < rank first.1
    · rw [if_pos (byRank_iff.mpr hbefore)]
      refine List.pairwise_cons.mpr ⟨fun r hr => ?_, h⟩
      obtain rfl | hr := List.mem_cons.mp hr
      · exact hbefore
      · exact hbefore.trans (hfirst r hr)
    · rw [if_neg (mt byRank_iff.mp hbefore)]
      by_cases hafter : rank first.1 < rank entry.1
      · rw [if_pos (byRank_iff.mpr hafter)]
        refine List.pairwise_cons.mpr ⟨fun r hr => ?_, ih hrest⟩
        obtain rfl | hr := mem_insert hr
        · exact hafter
        · exact hfirst r hr
      · rw [if_neg (mt byRank_iff.mp hafter)]
        exact h

/-- Ranges that hold their first value and do not overlap have keys of their own. -/
theorem Apart.key_ne {q r : κ × κ} (h : Apart rank q r) (hq : rank q.1 ≤ rank q.2)
    (hr : rank r.1 ≤ rank r.2) : rank q.1 ≠ rank r.1 := fun hsame =>
  h q.1 ⟨⟨le_refl _, hq⟩, ⟨hsame.symm.le, hsame.le.trans hr⟩⟩

/-- The map of ranges that do not overlap holds exactly these, in ascending order. -/
theorem ofEntries_spec {entries : List (κ × κ)} (hordered : ∀ r ∈ entries, rank r.1 ≤ rank r.2)
    (hapart : entries.Pairwise (Apart rank)) :
    Ascending rank (ofEntries (byRank rank) entries) ∧
      ∀ r, r ∈ ofEntries (byRank rank) entries ↔ r ∈ entries := by
  -- the entries inserted so far stand in front of those that are still to come
  have hfold : ∀ (todo done : List (κ × κ)) (m : List (κ × κ)), Ascending rank m →
      (∀ r, r ∈ m ↔ r ∈ done) → (∀ r ∈ done ++ todo, rank r.1 ≤ rank r.2) →
      (done ++ todo).Pairwise (Apart rank) →
      Ascending rank (todo.foldl (fun m entry => insert (byRank rank) entry m) m) ∧
        ∀ r, r ∈ todo.foldl (fun m entry => insert (byRank rank) entry m) m ↔
          r ∈ done ++ todo := by
    intro todo
    induction todo with
    | nil =>
      intro done m hm hmem _ _
      rw [List.append_nil]
      exact ⟨hm, hmem⟩
    | cons entry rest ih =>
      intro done m hm hmem hord hap
      have hnew : ∀ q ∈ m, rank q.1 ≠ rank entry.1 := by
        intro q hq
        have hdone := (hmem q).mp hq
        have happ := (List.pairwise_append.mp hap).2.2 q hdone entry List.mem_cons_self
        exact happ.key_ne (hord q (List.mem_append_left _ hdone))
          (hord entry (List.mem_append_right _ List.mem_cons_self))
      have hsplit : done ++ entry :: rest = (done ++ [entry]) ++ rest := by simp
      rw [hsplit] at hord hap ⊢
      refine ih (done ++ [entry]) _ (ascending_insert hm entry) (fun r => ?_) hord hap
      rw [mem_insert_iff hnew, hmem, List.mem_append, List.mem_singleton]
      exact or_comm
  exact hfold entries [] [] List.Pairwise.nil (fun _ => Iff.rfl) hordered hapart

instance : Std.Symm (Apart rank) := ⟨fun _ _ h x hx => h x ⟨hx.2, hx.1⟩⟩

/-- Ranges of a map that all come from ranges that do not overlap do not overlap. -/
theorem apart_of_mem {entries : List (κ × κ)} (h : Ascending rank m)
    (hmem : ∀ r ∈ m, r ∈ entries) (hapart : entries.Pairwise (Apart rank)) :
    m.Pairwise (Apart rank) := by
  refine h.imp_of_mem fun {q r} hq hr hlt => ?_
  have hne : q ≠ r := fun hsame => by
    rw [hsame] at hlt
    exact lt_irrefl _ hlt
  exact hapart.forall (hmem q hq) (hmem r hr) hne

/-- Behind the lower bound stand the ranges that do not begin before the value. -/
theorem lowerBound_split (h : Ascending rank m) (x : κ) : ∃ front back, m = front ++ back ∧
    lowerBound (byRank rank) m x = front.length ∧ (∀ r ∈ front, rank r.1 < rank x) ∧
    ∀ r ∈ back, rank x ≤ rank r.1 := by
  refine ⟨m.takeWhile fun r => byRank rank r.1 x, m.dropWhile fun r => byRank rank r.1 x,
    (List.takeWhile_append_dropWhile).symm, rfl, fun r hr => ?_, fun r hr => ?_⟩
  · have hless : byRank rank r.1 x = true :=
      List.mem_takeWhile_imp (p := fun r : κ × κ => byRank rank r.1 x) hr
    exact byRank_iff.mp hless
  · have hdrop : Ascending rank (m.dropWhile fun r => byRank rank r.1 x) :=
      List.Pairwise.sublist (List.dropWhile_sublist _) h
    cases hback : m.dropWhile fun r => byRank rank r.1 x with
    | nil =>
      rw [hback] at hr
      cases hr
    | cons first rest =>
      have hhead : ¬ byRank rank first.1 x = true := by
        have hnot := List.head_dropWhile_not (fun r => byRank rank r.1 x) (l := m)
          (by rw [hback]; exact List.cons_ne_nil _ _)
        simp only [hback, List.head_cons] at hnot
        simp [hnot]
      have hfirst : rank x ≤ rank first.1 := not_lt.mp fun hlt => hhead (byRank_iff.mpr hlt)
      rw [hback] at hr hdrop
      obtain rfl | hr := List.mem_cons.mp hr
      · exact hfirst
      · exact hfirst.trans ((List.pairwise_cons.mp hdrop).1 r hr).le

/-- A range that begins at the value stands at its lower bound. -/
theorem begins_at_lowerBound (h : Ascending rank m) (x : κ) :
    (∃ r, m[lowerBound (byRank rank) m x]? = some r ∧ rank r.1 = rank x) ↔
      ∃ r ∈ m, rank r.1 = rank x := by
  obtain ⟨front, back, rfl, hbound, hfront, hback⟩ := lowerBound_split h x
  rw [hbound, List.getElem?_append_right (Nat.le_refl _), Nat.sub_self]
  constructor
  · rintro ⟨r, hr, hsame⟩
    exact ⟨r, List.mem_append_right _ (List.mem_of_getElem? hr), hsame⟩
  · rintro ⟨r, hr, hsame⟩
    obtain hr | hr := List.mem_append.mp hr
    · exact absurd hsame (hfront r hr).ne
    · have hasc : Ascending rank back := (List.pairwise_append.mp h).2.1
      cases back with
      | nil => cases hr
      | cons first rest =>
        obtain rfl | hr := List.mem_cons.mp hr
        · exact ⟨r, rfl, hsame⟩
        · have hlt := (List.pairwise_cons.mp hasc).1 r hr
          have hge := hback first List.mem_cons_self
          exact absurd (hlt.trans_le hsame.le) (not_lt.mpr hge)

/-- The range at the lower bound holds the value exactly if some range begins at it. -/
theorem holds_at_lowerBound (h : Ascending rank m) (hordered : ∀ r ∈ m, rank r.1 ≤ rank r.2)
    (x : κ) : (∃ r, m[lowerBound (byRank rank) m x]? = some r ∧ Holds rank r x) ↔
      ∃ r ∈ m, rank r.1 = rank x := by
  rw [← begins_at_lowerBound h]
  refine exists_congr fun r => and_congr_right fun hr => ?_
  have hmem : r ∈ m := List.mem_of_getElem? hr
  constructor
  · intro hholds
    obtain ⟨front, back, rfl, hbound, -, hback⟩ := lowerBound_split h x
    rw [hbound, List.getElem?_append_right (Nat.le_refl _), Nat.sub_self] at hr
    exact le_antisymm hholds.1 (hback r (List.mem_of_getElem? hr))
  · intro hsame
    exact ⟨hsame.le, hsame.symm.le.trans (hordered r hmem)⟩

/-- Where no range begins at the value, the range in front of the lower bound holds it
exactly if some range does. -/
theorem holds_before_lowerBound (h : Ascending rank m) (hapart : m.Pairwise (Apart rank))
    (hordered : ∀ r ∈ m, rank r.1 ≤ rank r.2) (hnone : ∀ r ∈ m, rank r.1 ≠ rank x) :
    (∃ r, m[lowerBound (byRank rank) m x - 1]? = some r ∧ Holds rank r x) ↔
      ∃ r ∈ m, Holds rank r x := by
  obtain ⟨front, back, rfl, hbound, hfront, hback⟩ := lowerBound_split h x
  rw [hbound]
  constructor
  · rintro ⟨r, hr, hholds⟩
    exact ⟨r, List.mem_of_getElem? hr, hholds⟩
  · rintro ⟨r, hr, hholds⟩
    have hr : r ∈ front := by
      obtain hr | hr' := List.mem_append.mp hr
      · exact hr
      · exact absurd (le_antisymm hholds.1 (hback r hr')) (hnone r hr)
    have hne : front ≠ [] := List.ne_nil_of_mem hr
    refine ⟨r, ?_, hholds⟩
    obtain ⟨init, last, rfl⟩ : ∃ init last, front = init ++ [last] :=
      ⟨front.dropLast, front.getLast hne, (List.dropLast_append_getLast hne).symm⟩
    have hlast : rank last.1 < rank x := hfront last (by simp)
    have hplace : (init ++ [last] ++ back)[(init ++ [last]).length - 1]? = some last := by
      rw [List.append_assoc, List.length_append, List.length_singleton, Nat.add_sub_cancel,
        List.getElem?_append_right (Nat.le_refl _), Nat.sub_self]
      rfl
    rw [hplace]
    obtain hr | hr := List.mem_append.mp hr
    · -- a range further in front would overlap the last one
      have hasc : Ascending rank (init ++ [last]) := (List.pairwise_append.mp h).1
      have hbefore : rank r.1 < rank last.1 :=
        (List.pairwise_append.mp hasc).2.2 r hr last (List.mem_singleton.mpr rfl)
      have happ : Apart rank r last := (List.pairwise_append.mp
        (List.pairwise_append.mp hapart).1).2.2 r hr last (List.mem_singleton.mpr rfl)
      have hself : rank last.1 ≤ rank last.2 := hordered last (by simp)
      exact absurd ⟨⟨hbefore.le, hlast.le.trans hholds.2⟩, ⟨le_refl _, hself⟩⟩ (happ last.1)
    · rw [List.mem_singleton.mp hr]

end Ranges

end Whaleshares.RangeMap
