import Mathlib

/-!
# Trees that are built in pairs

A list of nodes is put together level by level: consecutive nodes become the children of a new
one, and an odd last node goes up as it is. The tree that remains has the nodes of the list as
its leaves, in order. Where digests of pairs are injective and differ from those of the leaves,
the digest of a tree determines the tree, so that the digest of the tree of a list determines
the list, whatever the lengths are.
-/

namespace Whaleshares.PairTree

/-- A binary tree with values at its leaves. -/
inductive Tree (D : Type) where
  | leaf (d : D)
  | node (l r : Tree D)

namespace Tree

variable {D : Type}

/-- The digest of a tree: that of its leaf, or of the digests of its two children. -/
def digest (hash : D → D → D) : Tree D → D
  | leaf d => d
  | node l r => hash (digest hash l) (digest hash r)

/-- The values at the leaves, from left to right. -/
def leaves : Tree D → List D
  | leaf d => [d]
  | node l r => leaves l ++ leaves r

/-- The digest determines a tree. -/
theorem digest_inj {hash : D → D → D} {P : D → Prop}
    (hpair : ∀ a b c d, hash a b = hash c d → a = c ∧ b = d)
    (hapart : ∀ d, P d → ∀ a b, d ≠ hash a b) {t u : Tree D} (ht : ∀ d ∈ t.leaves, P d)
    (hu : ∀ d ∈ u.leaves, P d) (h : t.digest hash = u.digest hash) : t = u := by
  induction t generalizing u with
  | leaf d =>
    cases u with
    | leaf d' => exact congrArg leaf h
    | node l r => exact absurd h (hapart d (ht d List.mem_cons_self) _ _)
  | node l r ihl ihr =>
    cases u with
    | leaf d' => exact absurd h.symm (hapart d' (hu d' List.mem_cons_self) _ _)
    | node l' r' =>
      obtain ⟨hl, hr⟩ := hpair _ _ _ _ h
      have hleft := ihl (fun d hd => ht d (List.mem_append_left _ hd))
        (fun d hd => hu d (List.mem_append_left _ hd)) hl
      have hright := ihr (fun d hd => ht d (List.mem_append_right _ hd))
        (fun d hd => hu d (List.mem_append_right _ hd)) hr
      rw [hleft, hright]

end Tree

section Levels

variable {D : Type}

/-- One level: consecutive elements are put together, an odd last one stays. -/
def pairUp (pair : D → D → D) : List D → List D
  | a :: b :: rest => pair a b :: pairUp pair rest
  | rest => rest

/-- The first two elements are paired first. -/
theorem pairUp_cons (pair : D → D → D) (a b : D) (rest : List D) :
    pairUp pair (a :: b :: rest) = pair a b :: pairUp pair rest :=
  rfl

/-- An even number of elements is put together apart from the rest. -/
theorem pairUp_append (pair : D → D → D) {p : ℕ} {l r : List D} (hl : l.length = 2 * p) :
    pairUp pair (l ++ r) = pairUp pair l ++ pairUp pair r := by
  induction p generalizing l with
  | zero =>
    rw [List.length_eq_zero_iff.mp hl]
    rfl
  | succ p ih =>
    match l, hl with
    | a :: b :: rest, hl =>
      have hrest : rest.length = 2 * p := by
        simp only [List.length_cons] at hl
        omega
      rw [List.cons_append, List.cons_append, pairUp_cons, pairUp_cons, ih hrest, List.cons_append]

/-- The length of the next level. -/
theorem length_pairUp (pair : D → D → D) (l : List D) :
    (pairUp pair l).length = (l.length + 1) / 2 := by
  induction l using pairUp.induct with
  | case1 a b rest ih =>
    unfold pairUp
    simp only [List.length_cons, ih]
    omega
  | case2 l h =>
    have hshort : l.length ≤ 1 := by
      match l, h with
      | [], _ => exact Nat.zero_le _
      | [_], _ => exact Nat.le_refl _
      | a :: b :: rest, h => exact absurd rfl (h a b rest)
    have hsame : pairUp pair l = l := by
      unfold pairUp
      split
      · exact absurd rfl (h _ _ _)
      · rfl
    rw [hsame]
    omega

/-- The levels until one element is left. -/
def gather (pair : D → D → D) : ℕ → List D → List D
  | 0, l => l
  | rounds + 1, l => if 1 < l.length then gather pair rounds (pairUp pair l) else l

/-- As many rounds as there are elements leave one. -/
theorem length_gather (pair : D → D → D) {rounds : ℕ} {l : List D} (hl : l ≠ [])
    (hrounds : l.length ≤ rounds + 1) : (gather pair rounds l).length = 1 := by
  have hpos : 0 < l.length := List.length_pos_iff.mpr hl
  induction rounds generalizing l with
  | zero =>
    unfold gather
    omega
  | succ rounds ih =>
    unfold gather
    by_cases hmore : 1 < l.length
    · have hlength := length_pairUp pair l
      rw [if_pos hmore]
      refine ih (fun hnil => ?_) (by omega) (by omega)
      rw [hnil, List.length_nil] at hlength
      omega
    · rw [if_neg hmore]
      omega

/-- The levels commute with a map that respects pairs. -/
theorem pairUp_map {E : Type} {pair : D → D → D} {pair' : E → E → E} {f : D → E}
    (hf : ∀ a b, f (pair a b) = pair' (f a) (f b)) (l : List D) :
    (pairUp pair l).map f = pairUp pair' (l.map f) := by
  induction l using pairUp.induct with
  | case1 a b rest ih =>
    unfold pairUp
    rw [List.map_cons, hf, ih]
    rfl
  | case2 l h =>
    match l, h with
    | [], _ => rfl
    | [_], _ => rfl
    | a :: b :: rest, h => exact absurd rfl (h a b rest)

/-- The rounds commute with a map that keeps pairs. -/
theorem gather_map {E : Type} {pair : D → D → D} {pair' : E → E → E} {f : D → E}
    (hf : ∀ a b, f (pair a b) = pair' (f a) (f b)) (rounds : ℕ) (l : List D) :
    (gather pair rounds l).map f = gather pair' rounds (l.map f) := by
  induction rounds generalizing l with
  | zero => rfl
  | succ rounds ih =>
    unfold gather
    rw [List.length_map]
    split
    · rw [ih, pairUp_map hf]
    · rfl

/-- Pairing trees keeps their leaves. -/
theorem leaves_pairUp (l : List (Tree D)) :
    (pairUp .node l).flatMap Tree.leaves = l.flatMap Tree.leaves := by
  induction l using pairUp.induct with
  | case1 a b rest ih =>
    unfold pairUp
    rw [List.flatMap_cons, List.flatMap_cons, List.flatMap_cons, ih, ← List.append_assoc]
    rfl
  | case2 l h =>
    match l, h with
    | [], _ => rfl
    | [_], _ => rfl
    | a :: b :: rest, h => exact absurd rfl (h a b rest)

/-- The levels keep the leaves, in order. -/
theorem leaves_gather (rounds : ℕ) (l : List (Tree D)) :
    (gather .node rounds l).flatMap Tree.leaves = l.flatMap Tree.leaves := by
  induction rounds generalizing l with
  | zero => rfl
  | succ rounds ih =>
    unfold gather
    split
    · rw [ih, leaves_pairUp]
    · rfl

/-- The tree of a list, if it is not empty. -/
def treeOf (l : List D) : Option (Tree D) := (gather .node l.length (l.map .leaf)).head?

/-- The rounds over a list with elements end in one tree. -/
theorem treeOf_gather {l : List D} (hl : l ≠ []) :
    ∃ t, treeOf l = some t ∧ gather .node l.length (l.map .leaf) = [t] := by
  have hone : (gather Tree.node l.length (l.map .leaf)).length = 1 :=
    length_gather Tree.node (by simpa using hl) (by simp)
  obtain ⟨t, ht⟩ := List.length_eq_one_iff.mp hone
  refine ⟨t, ?_, ht⟩
  unfold treeOf
  rw [ht]
  rfl

/-- The leaves of the tree of a list are the list. -/
theorem leaves_treeOf {l : List D} {t : Tree D} (h : treeOf l = some t) : t.leaves = l := by
  by_cases hl : l = []
  · rw [hl] at h
    cases h
  obtain ⟨t', ht', hgather⟩ := treeOf_gather hl
  have hsame : t' = t := Option.some.inj (ht'.symm.trans h)
  have hleaves := leaves_gather l.length (l.map Tree.leaf)
  rw [hgather, hsame, List.flatMap_singleton, List.flatMap_map] at hleaves
  rw [hleaves]
  exact List.flatMap_singleton' l

/-- The digests, level by level, end with that of the tree. -/
theorem gather_digest (hash : D → D → D) {l : List D} {t : Tree D} (h : treeOf l = some t) :
    gather hash l.length l = [t.digest hash] := by
  have hl : l ≠ [] := by
    rintro rfl
    cases h
  obtain ⟨t', ht', hgather⟩ := treeOf_gather hl
  have hsame : t' = t := Option.some.inj (ht'.symm.trans h)
  have hmap : (gather Tree.node l.length (l.map Tree.leaf)).map (Tree.digest hash) =
      gather hash l.length ((l.map Tree.leaf).map (Tree.digest hash)) :=
    gather_map (fun _ _ => rfl) l.length (l.map Tree.leaf)
  have hback : (l.map Tree.leaf).map (Tree.digest hash) = l := by
    rw [List.map_map]
    exact List.map_id l
  rw [hgather, hsame, hback] at hmap
  exact hmap.symm

end Levels

end Whaleshares.PairTree
