import Mathlib

/-!
# Tallies of signed shares, and weights along a curve

Shares for and against are tallied by their sum, by how many more are positive than negative,
and by the sum of the positive ones. Those who join a growing stake get weights along a curve:
each at most what the curve grows by. The weights then fit into the total, and the total under
the curve, also when some of them are given up.
-/

namespace Whaleshares.SignedTally

section Shares

variable {before after xs ys : List ℤ} {old new x : ℤ}

/-- How many more shares are positive than negative. -/
def score (shares : List ℤ) : ℤ := (shares.countP (0 < ·) : ℤ) - shares.countP (· < 0)

/-- The sum of the positive shares. -/
def support (shares : List ℤ) : ℤ := (shares.map (max · 0)).sum

/-- The score of two lists is the sum of both. -/
theorem score_append : score (xs ++ ys) = score xs + score ys := by
  unfold score
  rw [List.countP_append, List.countP_append]
  omega

/-- The score of one number is its sign. -/
theorem score_singleton (x : ℤ) : score [x] = x.sign := by
  unfold score
  rcases Int.lt_trichotomy x 0 with h | rfl | h
  · rw [Int.sign_eq_neg_one_of_neg h, List.countP_singleton, List.countP_singleton]
    simp [h, h.le]
  · rfl
  · rw [Int.sign_eq_one_of_pos h, List.countP_singleton, List.countP_singleton]
    simp [h, h.le]

/-- One share more. -/
theorem score_concat : score (xs ++ [x]) = score xs + x.sign := by
  rw [score_append, score_singleton]

/-- One share for another. -/
theorem score_replace :
    score (before ++ new :: after) = score (before ++ old :: after) + (new.sign - old.sign) := by
  have hsplit : ∀ y, score (before ++ y :: after) = score before + y.sign + score after := by
    intro y
    rw [List.append_cons, score_append, score_concat]
  rw [hsplit, hsplit]
  omega

/-- A replaced number changes the sum by the difference. -/
theorem sum_replace (old new : ℤ) :
    (before ++ new :: after).sum = (before ++ old :: after).sum + (new - old) := by
  simp only [List.sum_append, List.sum_cons]
  omega

/-- A further number supports as much as it is positive. -/
theorem support_concat : support (xs ++ [x]) = support xs + max x 0 := by
  unfold support
  rw [List.map_append, List.sum_append, List.map_singleton, List.sum_singleton]

/-- Positive shares do not grow where one is exchanged for a share that is no larger. -/
theorem support_replace (before after : List ℤ) (h : max new 0 ≤ max old 0) :
    support (before ++ new :: after) ≤ support (before ++ old :: after) := by
  unfold support
  simp only [List.map_append, List.map_cons, List.sum_append, List.sum_cons]
  omega

end Shares

section Curve

variable {curve : ℕ → ℕ} {stake stake' total weight : ℕ} {weights before after : List ℕ}

/-- The weights fit into the total, and the total under the curve. -/
structure Backed (curve : ℕ → ℕ) (stake total : ℕ) (weights : List ℕ) : Prop where
  covers : weights.sum ≤ total
  bounded : total ≤ curve stake

/-- Without weights every stake backs them. -/
theorem Backed.empty : Backed curve stake 0 [] := ⟨Nat.le_refl _, Nat.zero_le _⟩

/-- One that joins the stake gets at most what the curve grows by. -/
theorem Backed.join (h : Backed curve stake total weights) (hle : curve stake ≤ curve stake')
    (hweight : weight ≤ curve stake' - curve stake) :
    Backed curve stake' (total + (curve stake' - curve stake)) (weights ++ [weight]) := by
  have hcovers := h.covers
  have hbounded := h.bounded
  constructor
  · rw [List.sum_append, List.sum_singleton]
    omega
  · omega

/-- One that joins gets no weight. -/
theorem Backed.sit (h : Backed curve stake total weights) (hle : curve stake ≤ curve stake') :
    Backed curve stake' total (weights ++ [0]) := by
  constructor
  · rw [List.sum_append, List.sum_singleton]
    exact h.covers
  · exact Nat.le_trans h.bounded hle

/-- A weight is part of the total. -/
theorem Backed.le_total (h : Backed curve stake total weights) (hmem : weight ∈ weights) :
    weight ≤ total := by
  obtain ⟨before, after, rfl⟩ := List.append_of_mem hmem
  have hcovers := h.covers
  rw [List.sum_append, List.sum_cons] at hcovers
  omega

/-- A weight is given up. -/
theorem Backed.leave (h : Backed curve stake total (before ++ weight :: after)) :
    Backed curve stake (total - weight) (before ++ 0 :: after) := by
  have hcovers := h.covers
  have hbounded := h.bounded
  rw [List.sum_append, List.sum_cons] at hcovers
  constructor
  · rw [List.sum_append, List.sum_cons]
    omega
  · omega

end Curve

end Whaleshares.SignedTally
