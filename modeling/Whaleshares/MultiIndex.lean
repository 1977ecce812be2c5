import Whaleshares.KeyedFold

/-!
# The container under an index

`chainbase` keeps the objects of one type in a Boost multi-index container: an
ordered map by object id, with further unique indices on keys computed from the
object. This module states the part of the container's contract on which
`generic_index` relies. An insertion that meets an occupied key changes
nothing. A modification that meets an occupied key erases the modified element
and reports failure.

The unique secondary keys are a list of extractors into one key type, so a
container with the id as its only unique key has the empty list.
-/

namespace Whaleshares.MultiIndex

universe u v

variable {α : Type u} {κ : Type v}

/-- The stored objects, by id; the entry list is in ascending order of id. -/
abbrev Objects (α : Type u) := Std.ExtTreeMap ℕ α

/-- Two objects share the value of some unique secondary key. -/
def Clash (keys : List (α → κ)) (a b : α) : Prop := ∃ key ∈ keys, key a = key b

instance [DecidableEq κ] (keys : List (α → κ)) (a b : α) : Decidable (Clash keys a b) :=
  inferInstanceAs (Decidable (∃ key ∈ keys, key a = key b))

/-- Values clash in both directions. -/
theorem Clash.symm {keys : List (α → κ)} {a b : α} (h : Clash keys a b) : Clash keys b a := by
  obtain ⟨key, hmem, heq⟩ := h
  exact ⟨key, hmem, heq.symm⟩

/-- With the id as the only unique key no two objects clash. -/
@[simp] theorem not_clash_nil (a b : α) : ¬ Clash ([] : List (α → κ)) a b := by
  rintro ⟨key, hmem, -⟩
  simp at hmem

/-- Some object other than `id` already holds a unique key of `value`. -/
def Occupied (keys : List (α → κ)) (objects : Objects α) (id : ℕ) (value : α) : Prop :=
  ∃ e ∈ objects.toList, e.1 ≠ id ∧ Clash keys value e.2

instance [DecidableEq κ] (keys : List (α → κ)) (objects : Objects α) (id : ℕ) (value : α) :
    Decidable (Occupied keys objects id value) :=
  inferInstanceAs (Decidable (∃ e ∈ objects.toList, e.1 ≠ id ∧ Clash keys value e.2))

/-- A key is occupied if the value clashes with that of another id. -/
theorem occupied_iff {keys : List (α → κ)} {objects : Objects α} {id : ℕ} {value : α} :
    Occupied keys objects id value ↔
      ∃ k b, k ≠ id ∧ objects[k]? = some b ∧ Clash keys value b := by
  constructor
  · rintro ⟨⟨k, b⟩, hmem, hne, hclash⟩
    exact ⟨k, b, hne, Std.ExtTreeMap.mem_toList_iff_getElem?_eq_some.mp hmem, hclash⟩
  · rintro ⟨k, b, hne, hget, hclash⟩
    exact ⟨(k, b), Std.ExtTreeMap.mem_toList_iff_getElem?_eq_some.mpr hget, hne, hclash⟩

/-- No two stored objects share a unique secondary key. -/
def Unique (keys : List (α → κ)) (objects : Objects α) : Prop :=
  ∀ (i j : ℕ) (a b : α), i ≠ j → objects[i]? = some a → objects[j]? = some b → ¬ Clash keys a b

/-- In a unique index no stored value has an occupied key. -/
theorem Unique.not_occupied {keys : List (α → κ)} {objects : Objects α}
    (h : Unique keys objects) {id : ℕ} {value : α} (hget : objects[id]? = some value) :
    ¬ Occupied keys objects id value := by
  rw [occupied_iff]
  rintro ⟨k, b, hne, hk, hclash⟩
  exact h id k value b hne.symm hget hk hclash

/-- An empty index is unique. -/
theorem unique_empty (keys : List (α → κ)) : Unique keys (∅ : Objects α) := by
  intro i j a b _ hi
  simp at hi

/-- Storing a value whose keys are free keeps the stored keys unique. -/
theorem Unique.insert {keys : List (α → κ)} {objects : Objects α} (h : Unique keys objects)
    {id : ℕ} {value : α} (hfree : ¬ Occupied keys objects id value) :
    Unique keys (objects.insert id value) := by
  rw [occupied_iff] at hfree
  push Not at hfree
  intro i j a b hij hi hj hclash
  rw [Std.ExtTreeMap.getElem?_insert] at hi hj
  simp only [Nat.compare_eq_eq] at hi hj
  split_ifs at hi hj with hidi hidj hidj
  · exact hij (hidi.symm.trans hidj)
  · cases hi
    exact hfree j b (fun heq => hidj heq.symm) hj hclash
  · cases hj
    exact hfree i a (fun heq => hidi heq.symm) hi hclash.symm
  · exact h i j a b hij hi hj hclash

/-- A removal keeps the index unique. -/
theorem Unique.erase {keys : List (α → κ)} {objects : Objects α} (h : Unique keys objects)
    (id : ℕ) : Unique keys (objects.erase id) := by
  intro i j a b hij hi hj
  rw [Std.ExtTreeMap.getElem?_erase] at hi hj
  simp only [Nat.compare_eq_eq] at hi hj
  split_ifs at hi hj
  exact h i j a b hij hi hj

section Operations

variable [DecidableEq κ] (keys : List (α → κ))

/-- `emplace` of a value under `id`: refused when the id or a unique key is taken. -/
def emplace (objects : Objects α) (id : ℕ) (value : α) : Option (Objects α) :=
  if id ∈ objects ∨ Occupied keys objects id value then none
  else some (objects.insert id value)

/-- `modify` of the element `id` to `value`: on a key collision the element is
erased and the answer is `false`. -/
def modify (objects : Objects α) (id : ℕ) (value : α) : Objects α × Bool :=
  if Occupied keys objects id value then (objects.erase id, false)
  else (objects.insert id value, true)

end Operations

/-- A value that is inserted had a free id and free keys. -/
theorem emplace_eq_some [DecidableEq κ] {keys : List (α → κ)} {objects after : Objects α}
    {id : ℕ} {value : α} (h : emplace keys objects id value = some after) :
    id ∉ objects ∧ ¬ Occupied keys objects id value ∧ after = objects.insert id value := by
  unfold emplace at h
  split_ifs at h with htaken
  push Not at htaken
  exact ⟨htaken.1, htaken.2, (Option.some.inj h).symm⟩

end Whaleshares.MultiIndex
