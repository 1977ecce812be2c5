import Mathlib

/-!
# Folds that touch one key at a time

A loop over the entries of an ordered map often changes, at each entry, only
what a state holds at that entry's key. The result of such a loop is then
known key by key. This module states that once, for an arbitrary state with an
entry at every key, together with the two readings of an ordered map that the
loops use: its ascending list of entries, and a lookup in that list.

Nothing here is specific to one container or one program.
-/

namespace Whaleshares.KeyedFold

universe u v w x

variable {κ : Type u} {β : Type v} {σ : Type w} {ε : Type x}

/-- The entries of a list, with every key at most once. -/
def DistinctKeys (entries : List (κ × β)) : Prop :=
  entries.Pairwise fun a b => a.1 ≠ b.1

/-- The first key is different from the others, and these from each other. -/
theorem distinctKeys_cons {head : κ × β} {tail : List (κ × β)} :
    DistinctKeys (head :: tail) ↔ (∀ e ∈ tail, head.1 ≠ e.1) ∧ DistinctKeys tail :=
  List.pairwise_cons

/-- Entries in strictly ascending order of their keys. -/
def Ascending [LT κ] (entries : List (κ × β)) : Prop :=
  entries.Pairwise fun a b => a.1 < b.1

/-- The first key is below the others, and these ascend. -/
theorem ascending_cons [LT κ] {head : κ × β} {tail : List (κ × β)} :
    Ascending (head :: tail) ↔ (∀ e ∈ tail, head.1 < e.1) ∧ Ascending tail :=
  List.pairwise_cons

/-- Ascending keys are distinct. -/
theorem Ascending.distinctKeys [Preorder κ] {entries : List (κ × β)}
    (h : Ascending entries) : DistinctKeys entries :=
  h.imp fun hlt => ne_of_lt hlt

section Lookup

variable [DecidableEq κ]

/-- A key that no entry has is not found. -/
theorem lookup_eq_none_of_forall_ne {entries : List (κ × β)} {k : κ}
    (h : ∀ e ∈ entries, e.1 ≠ k) : entries.lookup k = none := by
  induction entries with
  | nil => rfl
  | cons head tail ih =>
    obtain ⟨key, value⟩ := head
    have hne : k ≠ key := fun heq => h (key, value) (List.mem_cons_self ..) heq.symm
    have htail := ih fun e he => h e (List.mem_cons_of_mem _ he)
    simpa [List.lookup, beq_false_of_ne hne] using htail

/-- With distinct keys a value is found exactly if its entry is there. -/
theorem lookup_eq_some_iff {entries : List (κ × β)} (hd : DistinctKeys entries)
    {k : κ} {v : β} : entries.lookup k = some v ↔ (k, v) ∈ entries := by
  induction entries with
  | nil => simp
  | cons head tail ih =>
    obtain ⟨key, value⟩ := head
    rw [distinctKeys_cons] at hd
    obtain ⟨hhead, htail⟩ := hd
    by_cases hk : k = key
    · subst hk
      have hnot : (k, v) ∉ tail := fun hmem => hhead _ hmem rfl
      simp [List.lookup, hnot, eq_comm]
    · have hne : (k == key) = false := beq_false_of_ne hk
      simp [List.lookup, hne, hk, ih htail]

/-- A fold whose steps each change the state at their own key only gives, at
every key, what the step of that key's entry makes of it. -/
theorem foldl_entry (entry : σ → κ → ε) (step : σ → κ × β → σ) (change : κ → β → ε → ε)
    (frame : ∀ s e k, k ≠ e.1 → entry (step s e) k = entry s k)
    (here : ∀ s e, entry (step s e) e.1 = change e.1 e.2 (entry s e.1))
    {entries : List (κ × β)} (hd : DistinctKeys entries) (s : σ) (k : κ) :
    entry (entries.foldl step s) k =
      match entries.lookup k with
      | none => entry s k
      | some v => change k v (entry s k) := by
  induction entries generalizing s with
  | nil => rfl
  | cons head tail ih =>
    obtain ⟨key, value⟩ := head
    rw [distinctKeys_cons] at hd
    obtain ⟨hhead, htail⟩ := hd
    rw [List.foldl_cons, ih htail]
    by_cases hk : k = key
    · subst hk
      have hnone : tail.lookup k = none :=
        lookup_eq_none_of_forall_ne fun e he heq => hhead e he heq.symm
      simp [List.lookup, hnone, here s (k, value)]
    · have hne : (k == key) = false := beq_false_of_ne hk
      simp only [List.lookup, hne]
      rw [frame s (key, value) k hk]

end Lookup

section OrderedMap

variable [Ord κ] [Std.TransOrd κ] [Std.LawfulEqOrd κ]

/-- The ascending entry list of an ordered map has no repeated key. -/
theorem distinctKeys_toList (m : Std.ExtTreeMap κ β) : DistinctKeys m.toList := by
  have h := Std.ExtTreeMap.distinct_keys_toList (t := m)
  exact h.imp fun hne heq => hne (by rw [heq]; exact Std.ReflCmp.compare_self)

/-- Looking a key up in the entry list is looking it up in the map. -/
theorem lookup_toList [DecidableEq κ] (m : Std.ExtTreeMap κ β) (k : κ) :
    m.toList.lookup k = m[k]? := by
  refine Option.ext fun v => ?_
  rw [lookup_eq_some_iff (distinctKeys_toList m)]
  exact Std.ExtTreeMap.mem_toList_iff_getElem?_eq_some

end OrderedMap

/-- On natural-number keys the entry list of an ordered map is ascending. -/
theorem ascending_toList (m : Std.ExtTreeMap ℕ β) : Ascending m.toList := by
  have h := Std.ExtTreeMap.ordered_keys_toList (t := m)
  exact h.imp fun hlt => Nat.compare_eq_lt.mp hlt

end Whaleshares.KeyedFold
