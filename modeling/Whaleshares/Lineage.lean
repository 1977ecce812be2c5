import Mathlib

/-!
# Lines of descent

Every element has at most one parent, one level lower. So the walks upwards from an element are
the initial parts of a single one, and there is at most one ancestor at each level. Two walks
meet where the ends have the same label; the highest meeting is the shortest one.
-/

namespace Whaleshares.Lineage

variable {α β : Type} {parent : α → Option α} {P : α → Prop} {height : α → ℕ} {label : α → β}
  {x y z w u v u' v' : α} {items items' rest rest' : List α}

/-- The way from an element through its ancestors to another one, which is not part of the
list. -/
inductive Walk (parent : α → Option α) : α → List α → α → Prop
  | stay (x : α) : Walk parent x [] x
  | down {x y z : α} {items : List α} (hparent : parent x = some y)
      (hrest : Walk parent y items z) : Walk parent x (x :: items) z

/-- Two walks make one. -/
theorem Walk.trans (h : Walk parent x items y) (h' : Walk parent y rest z) :
    Walk parent x (items ++ rest) z := by
  induction h with
  | stay x => exact h'
  | down hparent hrest ih => exact .down hparent (ih h')

/-- The shorter of two walks from an element is the beginning of the other. -/
theorem Walk.linear (h : Walk parent x items u) (h' : Walk parent x items' v)
    (hle : items.length ≤ items'.length) : ∃ rest, items' = items ++ rest ∧ Walk parent u rest v := by
  induction h generalizing items' with
  | stay x => exact ⟨items', rfl, h'⟩
  | down hparent hrest ih =>
    cases h' with
    | stay x => simp at hle
    | down hparent' hrest' =>
      have hsame := Option.some.inj (hparent.symm.trans hparent')
      subst hsame
      obtain ⟨rest, heq, hwalk⟩ := ih hrest' (by simpa using hle)
      exact ⟨rest, by rw [heq]; rfl, hwalk⟩

/-- The last step of a walk. -/
theorem Walk.last_step (h : Walk parent x items z) :
    items = [] ∧ z = x ∨
      ∃ before w, items = before ++ [w] ∧ Walk parent x before w ∧ parent w = some z := by
  induction h with
  | stay x => exact .inl ⟨rfl, rfl⟩
  | @down x y z items hparent hrest ih =>
    rcases ih with ⟨rfl, rfl⟩ | ⟨before, w, rfl, hwalk, hlast⟩
    · exact .inr ⟨[], x, rfl, .stay x, hparent⟩
    · exact .inr ⟨x :: before, w, rfl, .down hparent hwalk, hlast⟩

/-- The walk splits at each element of its list. -/
theorem Walk.split (h : Walk parent x items z) (hy : y ∈ items) :
    ∃ before rest, items = before ++ y :: rest ∧ Walk parent x before y ∧
      Walk parent y (y :: rest) z := by
  induction h with
  | stay x => cases hy
  | @down x w z items hparent hrest ih =>
    rcases List.mem_cons.mp hy with rfl | hy
    · exact ⟨[], items, rfl, .stay y, .down hparent hrest⟩
    · obtain ⟨before, rest, rfl, hwalk, htail⟩ := ih hy
      exact ⟨x :: before, rest, rfl, .down hparent hwalk, htail⟩

/-- Parents are one level lower, among the elements with a property that parents inherit. -/
structure Graded (parent : α → Option α) (P : α → Prop) (height : α → ℕ) : Prop where
  inherited : ∀ {x y}, P x → parent x = some y → P y
  lower : ∀ {x y}, P x → parent x = some y → height x = height y + 1

section Graded

variable (hgraded : Graded parent P height)
include hgraded

/-- What is inherited along a walk holds at its end. -/
theorem Walk.inherits (h : Walk parent x items z) (hx : P x) : P z := by
  induction h with
  | stay x => exact hx
  | down hparent hrest ih => exact ih (hgraded.inherited hx hparent)

/-- The length of a walk is the difference of the levels. -/
theorem Walk.levels (h : Walk parent x items z) (hx : P x) :
    height x = height z + items.length := by
  induction h with
  | stay x => rfl
  | down hparent hrest ih =>
    have hlower := hgraded.lower hx hparent
    have hrest := ih (hgraded.inherited hx hparent)
    rw [List.length_cons]
    omega

/-- There is one ancestor at each level, and one walk to it. -/
theorem Walk.unique (h : Walk parent x items u) (h' : Walk parent x items' v) (hx : P x)
    (hlevel : height u = height v) : u = v ∧ items = items' := by
  have hlength := h.levels hgraded hx
  have hlength' := h'.levels hgraded hx
  obtain ⟨rest, heq, hwalk⟩ := h.linear h' (by omega)
  have hnil : rest = [] := by
    rw [heq, List.length_append] at hlength'
    exact List.length_eq_zero_iff.mp (by omega)
  rw [hnil] at heq hwalk
  cases hwalk with
  | stay x => exact ⟨rfl, by rw [heq, List.append_nil]⟩

/-- No walk goes past an element without a parent. -/
theorem Walk.stops (h : Walk parent x items z) (hz : parent z = none)
    (h' : Walk parent x items' u) (hx : P x) : height z ≤ height u := by
  have hlength := h.levels hgraded hx
  have hlength' := h'.levels hgraded hx
  by_contra hlt
  obtain ⟨rest, heq, hwalk⟩ := h.linear h' (by omega)
  cases hwalk with
  | stay x => exact hlt (Nat.le_refl _)
  | down hparent hrest =>
    rw [hz] at hparent
    cases hparent

end Graded

/-- Two walks whose ends have the same label. -/
structure Meeting (parent : α → Option α) (label : α → β) (x y : α) (items : List α) (u : α)
    (items' : List α) (v : α) : Prop where
  first : Walk parent x items u
  second : Walk parent y items' v
  same : label u = label v

/-- Labels are on one level. -/
def Level (P : α → Prop) (height : α → ℕ) (label : α → β) : Prop :=
  ∀ {u v}, P u → P v → label u = label v → height u = height v

/-- No other two walks from these elements meet on a higher level. -/
def Highest (parent : α → Option α) (height : α → ℕ) (label : α → β) (x y u : α) : Prop :=
  ∀ {items w items' w'}, Meeting parent label x y items w items' w' → height w ≤ height u

/-- A meeting after two walks is a meeting from their starts. -/
theorem Meeting.extend (h : Meeting parent label u v items z items' w) (hfirst : Walk parent x rest u)
    (hsecond : Walk parent y rest' v) :
    Meeting parent label x y (rest ++ items) z (rest' ++ items') w :=
  ⟨hfirst.trans h.first, hsecond.trans h.second, h.same⟩

section Meetings

variable (hgraded : Graded parent P height) (hlevel : Level P height label)
include hgraded

/-- A meeting on the level of another one has the same label. -/
theorem Meeting.label_eq (h : Meeting parent label x y items u items' v)
    (h' : Meeting parent label x y rest u' rest' v') (hx : P x) (hsame : height u = height u') :
    label u = label u' := by
  rw [(h.first.unique hgraded h'.first hx hsame).1]

include hlevel

/-- The ends of walks that meet are on the same level. -/
theorem Meeting.level (h : Meeting parent label x y items u items' v) (hx : P x) (hy : P y) :
    height u = height v :=
  hlevel (h.first.inherits hgraded hx) (h.second.inherits hgraded hy) h.same

/-- The highest meeting is the shortest one. -/
theorem Meeting.shortest (h : Meeting parent label x y items u items' v)
    (hhighest : Highest parent height label x y u) (hx : P x) (hy : P y)
    (h' : Meeting parent label x y rest u' rest' v') :
    items.length ≤ rest.length ∧ items'.length ≤ rest'.length := by
  have hle := hhighest h'
  have hsame := h.level hgraded hlevel hx hy
  have hsame' := h'.level hgraded hlevel hx hy
  have hfirst := h.first.levels hgraded hx
  have hsecond := h.second.levels hgraded hy
  have hfirst' := h'.first.levels hgraded hx
  have hsecond' := h'.second.levels hgraded hy
  omega

/-- A meeting below two ancestors of one level is a meeting of these. -/
theorem Meeting.below (h : Meeting parent label x y items u items' v)
    (hfirst : Walk parent x rest z) (hsecond : Walk parent y rest' w) (hx : P x) (hy : P y)
    (hlow : height u ≤ height z) (hsame : height z = height w) :
    ∃ items₂ items₂', Meeting parent label z w items₂ u items₂' v := by
  have hends := h.level hgraded hlevel hx hy
  have hlength := hfirst.levels hgraded hx
  have hlength' := hsecond.levels hgraded hy
  have hu := h.first.levels hgraded hx
  have hv := h.second.levels hgraded hy
  obtain ⟨items₂, -, hwalk⟩ := hfirst.linear h.first (by omega)
  obtain ⟨items₂', -, hwalk'⟩ := hsecond.linear h.second (by omega)
  exact ⟨items₂, items₂', hwalk, hwalk', h.same⟩

/-- Two elements of one level with different labels meet lower. -/
theorem Meeting.lower (h : Meeting parent label x y items u items' v) (hx : P x) (hy : P y)
    (hsame : height x = height y) (hne : label x ≠ label y) :
    ∃ x' y' rest rest', parent x = some x' ∧ parent y = some y' ∧
      Meeting parent label x' y' rest u rest' v := by
  have hends := h.level hgraded hlevel hx hy
  have hu := h.first.levels hgraded hx
  have hv := h.second.levels hgraded hy
  obtain ⟨hfirst, hsecond, hlabel⟩ := h
  cases hfirst with
  | stay x =>
    cases hsecond with
    | stay y => exact absurd hlabel hne
    | down hparent hrest =>
      rw [List.length_nil] at hu
      rw [List.length_cons] at hv
      omega
  | down hparent hrest =>
    cases hsecond with
    | stay y =>
      rw [List.length_cons] at hu
      rw [List.length_nil] at hv
      omega
    | down hparent' hrest' => exact ⟨_, _, _, _, hparent, hparent', hrest, hrest', hlabel⟩

end Meetings

end Whaleshares.Lineage
