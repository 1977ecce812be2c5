import Mathlib

/-!
# Removal of one element after another

A loop tries to remove the elements of a list. A removal that is refused for an expected reason
is taken back, and any other refusal ends the loop. If less never is accepted where more is
refused, and removals from accepted lists are refused for expected reasons only, the loop ends
with an accepted list that cannot lose another element.
-/

namespace Whaleshares.GreedyRemoval

variable {α ε : Type} [DecidableEq α] {verify : List α → Except ε Unit} {expected : ε → Bool}
  {candidates kept result l m : List α}

/-- Removes each candidate that can be missed. -/
def removeEach (verify : List α → Except ε Unit) (expected : ε → Bool) :
    List α → List α → Except ε (List α)
  | [], kept => .ok kept
  | a :: rest, kept =>
    match verify (kept.erase a) with
    | .ok () => removeEach verify expected rest (kept.erase a)
    | .error e => if expected e then removeEach verify expected rest kept else .error e

/-- The list is refused for an expected reason. -/
def Refused (verify : List α → Except ε Unit) (expected : ε → Bool) (l : List α) : Prop :=
  ∃ e, verify l = .error e ∧ expected e = true

/-- What the loop ends with is accepted, and contains nothing new. -/
theorem removeEach_accepted (hkept : verify kept = .ok ())
    (h : removeEach verify expected candidates kept = .ok result) :
    result.Sublist kept ∧ verify result = .ok () := by
  induction candidates generalizing kept with
  | nil =>
    rw [← Except.ok.inj h]
    exact ⟨.refl kept, hkept⟩
  | cons a rest ih =>
    unfold removeEach at h
    split at h
    next hless =>
      obtain ⟨hsub, hresult⟩ := ih hless h
      exact ⟨hsub.trans List.erase_sublist, hresult⟩
    next e _ =>
      split at h
      · exact ih hkept h
      · cases h

/-- Removals are refused for expected reasons only, and what is refused stays refused. -/
structure Orderly (verify : List α → Except ε Unit) (expected : ε → Bool) : Prop where
  /-- What is left of an accepted list is accepted or refused for an expected reason. -/
  less : ∀ l m : List α, m.Sublist l → verify l = .ok () →
    verify m = .ok () ∨ Refused verify expected m
  /-- What is left of a refused list is not accepted. -/
  refused : ∀ l m : List α, m.Sublist l → Refused verify expected l → verify m ≠ .ok ()

/-- The loop ends, and none of the candidates that are left can be missed. -/
theorem Orderly.removeEach_minimal (horderly : Orderly verify expected) (candidates : List α)
    (hnodup : kept.Nodup) (hkept : verify kept = .ok ()) :
    ∃ result, removeEach verify expected candidates kept = .ok result ∧ result.Sublist kept ∧
      ∀ a ∈ candidates, a ∈ result → verify (result.erase a) ≠ .ok () := by
  induction candidates generalizing kept with
  | nil => exact ⟨kept, rfl, .refl kept, fun a ha => absurd ha List.not_mem_nil⟩
  | cons a rest ih =>
    rcases horderly.less kept (kept.erase a) List.erase_sublist hkept with hless | hrefused
    · obtain ⟨result, hresult, hsub, hneeded⟩ := ih (hnodup.erase a) hless
      refine ⟨result, ?_, hsub.trans List.erase_sublist, fun b hb hmem => ?_⟩
      · unfold removeEach
        rw [hless]
        exact hresult
      · rcases List.mem_cons.mp hb with rfl | hb
        · exact absurd (hsub.subset hmem) hnodup.not_mem_erase
        · exact hneeded b hb hmem
    · obtain ⟨result, hresult, hsub, hneeded⟩ := ih hnodup hkept
      refine ⟨result, ?_, hsub, fun b hb hmem => ?_⟩
      · obtain ⟨e, he, hexpected⟩ := hrefused
        unfold removeEach
        rw [he]
        simp only [hexpected, if_true]
        exact hresult
      · rcases List.mem_cons.mp hb with rfl | hb
        · exact horderly.refused (kept.erase b) (result.erase b) (hsub.erase b) hrefused
        · exact hneeded b hb hmem

end Whaleshares.GreedyRemoval
