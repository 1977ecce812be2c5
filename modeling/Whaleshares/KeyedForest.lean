import Mathlib

/-!
# Forests of keyed nodes

The nodes of a list have keys, and some name the key of their parent. In a forest the keys are
different and every parent that is named is there, with a lower rank than its child. A leaf can
be added to a forest or taken out; all that changes is that the nodes above it have one
descendant more or less.
-/

namespace Whaleshares.KeyedForest

/-- How nodes are keyed and name their parents. -/
structure Shape (N K : Type) where
  /-- The key of a node. -/
  key : N → K
  /-- The key of the parent that a node names. -/
  up : N → Option K
  /-- A number that is lower for the parent of a node. -/
  rank : N → ℕ

namespace Shape

variable {N K : Type} (S : Shape N K)

/-- A node of the list is the parent of a node. -/
def Parent (nodes : List N) (d p : N) : Prop := p ∈ nodes ∧ S.up d = some (S.key p)

/-- A node stands somewhere below another. -/
def Below (nodes : List N) : N → N → Prop := Relation.TransGen (S.Parent nodes)

open Classical in
/-- The number of the nodes below a node. -/
noncomputable def descendants (nodes : List N) (c : N) : ℕ :=
  nodes.countP fun d => decide (S.Below nodes d c)

/-- The nodes have different keys, and the parents that they name are there. -/
structure Forest (nodes : List N) : Prop where
  keys : (nodes.map S.key).Nodup
  parents : ∀ d ∈ nodes, ∀ k, S.up d = some k → ∃ p ∈ nodes, S.key p = k ∧ S.rank p < S.rank d

variable {S} {nodes before after : List N} {c d p q x : N}

section Climbing

/-- Nodes with one key are one node. -/
theorem Forest.eq_of_key (h : S.Forest nodes) (hp : p ∈ nodes) (hq : q ∈ nodes)
    (hkey : S.key p = S.key q) : p = q :=
  List.inj_on_of_nodup_map h.keys hp hq hkey

/-- A node has at most one parent. -/
theorem Forest.parent_unique (h : S.Forest nodes) (hp : S.Parent nodes d p)
    (hq : S.Parent nodes d q) : p = q :=
  h.eq_of_key hp.1 hq.1 (Option.some.inj (hp.2.symm.trans hq.2))

/-- A parent has a lower rank. -/
theorem Forest.parent_rank (h : S.Forest nodes) (hd : d ∈ nodes) (hp : S.Parent nodes d p) :
    S.rank p < S.rank d := by
  obtain ⟨q, hq, hkey, hrank⟩ := h.parents d hd _ hp.2
  rwa [h.eq_of_key hq hp.1 hkey] at hrank

/-- Whatever has something below it is a node. -/
theorem Below.mem (h : S.Below nodes d c) : c ∈ nodes := by
  cases h with
  | single hp => exact hp.1
  | tail _ hp => exact hp.1

/-- Above a node is its parent and what stands above that. -/
theorem Forest.below_iff (h : S.Forest nodes) (hp : S.Parent nodes d p) :
    S.Below nodes d c ↔ c = p ∨ S.Below nodes p c := by
  constructor
  · intro hbelow
    rcases Relation.TransGen.head'_iff.mp hbelow with ⟨q, hq, hrest⟩
    rw [h.parent_unique hq hp] at hrest
    exact (Relation.reflTransGen_iff_eq_or_transGen.mp hrest)
  · rintro (rfl | hbelow)
    · exact .single hp
    · exact .head hp hbelow

/-- Nothing stands above a node that names no parent. -/
theorem not_below_of_root (hroot : S.up d = none) : ¬ S.Below nodes d c := by
  intro hbelow
  rcases Relation.TransGen.head'_iff.mp hbelow with ⟨q, hq, -⟩
  have hup := hq.2
  rw [hroot] at hup
  cases hup

/-- What lies below has a higher rank. -/
theorem Forest.below_rank (h : S.Forest nodes) (hd : d ∈ nodes) (hbelow : S.Below nodes d c) :
    S.rank c < S.rank d := by
  induction hbelow with
  | single hp => exact h.parent_rank hd hp
  | tail hrest hp ih =>
    have hlast := h.parent_rank (Below.mem hrest) hp
    omega

/-- No node lies below itself. -/
theorem Forest.not_below_self (h : S.Forest nodes) (hd : d ∈ nodes) : ¬ S.Below nodes d d :=
  fun hbelow => Nat.lt_irrefl _ (h.below_rank hd hbelow)

end Climbing

section Leaves

/-- No node of the list names a node as its parent. -/
def Leaf (S : Shape N K) (nodes : List N) (x : N) : Prop := ∀ d ∈ nodes, S.up d ≠ some (S.key x)

/-- A middle element is itself or among the others. -/
theorem mem_middle : c ∈ before ++ x :: after ↔ c = x ∨ c ∈ before ++ after := by
  simp only [List.mem_append, List.mem_cons]
  tauto

/-- The parents of the nodes are the same without a leaf. -/
theorem Leaf.parent_iff (h : S.Leaf (before ++ x :: after) x) (hd : d ∈ before ++ x :: after) :
    S.Parent (before ++ x :: after) d p ↔ S.Parent (before ++ after) d p := by
  constructor
  · rintro ⟨hp, hup⟩
    rcases mem_middle.mp hp with rfl | hp
    · exact absurd hup (h d hd)
    · exact ⟨hp, hup⟩
  · rintro ⟨hp, hup⟩
    exact ⟨mem_middle.mpr (.inr hp), hup⟩

/-- What stands below a node is the same without a leaf. -/
theorem Leaf.below_iff (h : S.Leaf (before ++ x :: after) x) (hd : d ∈ before ++ x :: after) :
    S.Below (before ++ x :: after) d c ↔ S.Below (before ++ after) d c := by
  constructor
  · intro hbelow
    induction hbelow with
    | single hp => exact .single ((h.parent_iff hd).mp hp)
    | tail hrest hp ih => exact .tail ih ((h.parent_iff (Below.mem hrest)).mp hp)
  · intro hbelow
    induction hbelow with
    | single hp => exact .single ((h.parent_iff hd).mpr hp)
    | tail hrest hp ih => exact .tail ih ((h.parent_iff (Below.mem ih)).mpr hp)

/-- A leaf taken out leaves a forest. -/
theorem Forest.remove (h : S.Forest (before ++ x :: after)) (hleaf : S.Leaf (before ++ x :: after) x) :
    S.Forest (before ++ after) := by
  constructor
  · have hkeys := h.keys
    rw [List.map_append, List.map_cons] at hkeys
    rw [List.map_append]
    exact (List.nodup_middle.mp hkeys).of_cons
  · intro d hd k hup
    have hd : d ∈ before ++ x :: after := mem_middle.mpr (.inr hd)
    obtain ⟨p, hp, hkey, hrank⟩ := h.parents d hd k hup
    rcases mem_middle.mp hp with rfl | hp
    · exact absurd (hkey ▸ hup) (hleaf d hd)
    · exact ⟨p, hp, hkey, hrank⟩

/-- A new node with a key of its own makes a forest. -/
theorem Forest.add (h : S.Forest nodes) (hkey : S.key x ∉ nodes.map S.key)
    (hparent : ∀ k, S.up x = some k → ∃ p ∈ nodes, S.key p = k ∧ S.rank p < S.rank x) :
    S.Forest (nodes ++ [x]) ∧ S.Leaf (nodes ++ [x]) x := by
  have hleaf : S.Leaf (nodes ++ [x]) x := by
    intro d hd hup
    have hnamed : ∃ p ∈ nodes, S.key p = S.key x := by
      rcases List.mem_append.mp hd with hd | hd
      · obtain ⟨p, hp, hkey, -⟩ := h.parents d hd _ hup
        exact ⟨p, hp, hkey⟩
      · rw [List.mem_singleton.mp hd] at hup
        obtain ⟨p, hp, hkey, -⟩ := hparent _ hup
        exact ⟨p, hp, hkey⟩
    obtain ⟨p, hp, hsame⟩ := hnamed
    exact hkey (hsame ▸ List.mem_map_of_mem hp)
  refine ⟨⟨?_, ?_⟩, hleaf⟩
  · rw [List.map_append, List.map_singleton]
    refine List.Nodup.append h.keys (List.nodup_singleton _) fun k hk hlast => ?_
    rw [List.mem_singleton.mp hlast] at hk
    exact hkey hk
  · intro d hd k hup
    have hnamed : ∃ p ∈ nodes, S.key p = k ∧ S.rank p < S.rank d := by
      rcases List.mem_append.mp hd with hd | hd
      · exact h.parents d hd k hup
      · rw [List.mem_singleton.mp hd] at hup ⊢
        exact hparent k hup
    obtain ⟨p, hp, hkey, hrank⟩ := hnamed
    exact ⟨p, List.mem_append_left _ hp, hkey, hrank⟩

open Classical in
/-- A leaf counts for every node above it. -/
theorem Leaf.descendants_eq (h : S.Leaf (before ++ x :: after) x) (c : N) :
    S.descendants (before ++ x :: after) c =
      S.descendants (before ++ after) c + if S.Below (before ++ after) x c then 1 else 0 := by
  unfold descendants
  have hsame : ∀ d ∈ before ++ x :: after,
      decide (S.Below (before ++ x :: after) d c) = decide (S.Below (before ++ after) d c) :=
    fun d hd => decide_eq_decide.mpr (h.below_iff hd)
  rw [List.countP_congr fun d hd => by rw [hsame d hd], List.countP_append, List.countP_append,
    List.countP_cons]
  simp only [decide_eq_true_eq]
  omega

/-- Nothing stands below a leaf. -/
theorem Leaf.not_below (h : S.Leaf nodes x) (hd : d ∈ nodes) : ¬ S.Below nodes d x := by
  intro hbelow
  cases hbelow with
  | single hp => exact h d hd hp.2
  | tail hrest hp => exact h _ (Below.mem hrest) hp.2

open Classical in
/-- A leaf has no descendants. -/
theorem Leaf.descendants_zero (h : S.Leaf nodes x) : S.descendants nodes x = 0 := by
  unfold descendants
  rw [List.countP_eq_zero]
  intro d hd
  simpa using h.not_below hd

open Classical in
/-- A node without descendants is a leaf. -/
theorem leaf_of_descendants_zero (hx : x ∈ nodes) (h : S.descendants nodes x = 0) :
    S.Leaf nodes x := by
  intro d hd hup
  unfold descendants at h
  rw [List.countP_eq_zero] at h
  have hnot := h d hd
  simp only [decide_eq_true_eq] at hnot
  exact hnot (.single ⟨hx, hup⟩)

end Leaves

end Shape

end Whaleshares.KeyedForest
