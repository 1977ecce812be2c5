import Mathlib

/-!
# A stack of snapshots

The abstract purpose of an undo log: a current state, the revision of the newest
session, and for every open session the state at its start. Undoing returns to
the newest snapshot, squashing forgets the newest one, committing forgets the
oldest ones. Nothing here depends on what the states are.
-/

namespace Whaleshares

universe u

variable {σ : Type u}

/-- A state with the snapshots of its open sessions. -/
@[ext] structure SnapshotStack (σ : Type u) where
  /-- The present state. -/
  current : σ
  /-- Revision of the newest session. -/
  revision : ℤ
  /-- Revision and first state of every open session, the newest first. -/
  saved : List (ℤ × σ)
  deriving DecidableEq

namespace SnapshotStack

/-- Change the present state. -/
def write (s : SnapshotStack σ) (state : σ) : SnapshotStack σ := { s with current := state }

/-- Open a session. -/
def start (s : SnapshotStack σ) : SnapshotStack σ :=
  ⟨s.current, s.revision + 1, (s.revision + 1, s.current) :: s.saved⟩

/-- Return to the start of the newest session. -/
def undo (s : SnapshotStack σ) : SnapshotStack σ :=
  match s.saved with
  | [] => s
  | (_, first) :: rest => ⟨first, s.revision - 1, rest⟩

/-- Make the two newest sessions one; a session on its own is closed. -/
def squash (s : SnapshotStack σ) : SnapshotStack σ :=
  match s.saved with
  | [] => s
  | [_] => { s with saved := [] }
  | _ :: older :: rest => ⟨s.current, s.revision - 1, older :: rest⟩

/-- Close the oldest sessions, up to a revision. -/
def commit (s : SnapshotStack σ) (revision : ℤ) : SnapshotStack σ :=
  { s with saved := s.saved.rdropWhile fun session => session.1 ≤ revision }

/-- The state that is written is the current one. -/
@[simp] theorem write_current (s : SnapshotStack σ) (state : σ) :
    (s.write state).current = state := rfl

/-- Writing keeps the revision. -/
@[simp] theorem write_revision (s : SnapshotStack σ) (state : σ) :
    (s.write state).revision = s.revision := rfl

/-- Writing keeps the saved states. -/
@[simp] theorem write_saved (s : SnapshotStack σ) (state : σ) :
    (s.write state).saved = s.saved := rfl

/-- A new session keeps the state. -/
@[simp] theorem start_current (s : SnapshotStack σ) : s.start.current = s.current := rfl

/-- A commit keeps the state. -/
@[simp] theorem commit_current (s : SnapshotStack σ) (revision : ℤ) :
    (s.commit revision).current = s.current := rfl

/-- A commit keeps the revision. -/
@[simp] theorem commit_revision (s : SnapshotStack σ) (revision : ℤ) :
    (s.commit revision).revision = s.revision := rfl

/-- Dropping from the right, seen from the left. -/
theorem rdropWhile_cons {β : Type*} (p : β → Bool) (b : β) (l : List β) :
    (b :: l).rdropWhile p =
      if l.rdropWhile p = [] then (if p b then [] else [b]) else b :: l.rdropWhile p := by
  unfold List.rdropWhile
  rw [List.reverse_cons, List.dropWhile_append]
  by_cases h : (l.reverse.dropWhile p).isEmpty
  · have hnil : l.reverse.dropWhile p = [] := List.isEmpty_iff.mp h
    rw [if_pos h, hnil]
    by_cases hb : p b <;> simp [hb]
  · have hne : ¬ (l.reverse.dropWhile p).reverse = [] := by
      simpa [List.isEmpty_iff] using h
    rw [if_neg h, if_neg hne]
    simp

/-- Where the revisions descend, a commit closes exactly the sessions up to its revision. -/
theorem rdropWhile_eq_filter {saved : List (ℤ × σ)} (h : saved.Pairwise fun a b => b.1 < a.1)
    (revision : ℤ) : saved.rdropWhile (fun session => session.1 ≤ revision) =
      saved.filter fun session => revision < session.1 := by
  induction saved with
  | nil => rfl
  | cons first rest ih =>
    obtain ⟨hfirst, hrest⟩ := List.pairwise_cons.mp h
    rw [rdropWhile_cons, ih hrest]
    by_cases hclosed : first.1 ≤ revision
    · have hnone : rest.filter (fun session => revision < session.1) = [] := by
        refine List.filter_eq_nil_iff.mpr fun session hsession => ?_
        have hlt := hfirst session hsession
        simp only [decide_eq_true_eq]
        omega
      have hnot : ¬ revision < first.1 := by omega
      simp [hnone, hclosed, hnot]
    · have hlt : revision < first.1 := by omega
      split
      next hnone => simp [hnone, hclosed, hlt]
      next => simp [hlt]

/-- Whatever a session writes, undoing it returns to its start. -/
@[simp] theorem undo_write_start (s : SnapshotStack σ) (state : σ) :
    (s.start.write state).undo = s := by
  simp [start, write, undo]

/-- Undoing a session that a commit has left open returns to the committed stack. -/
theorem undo_commit_write_start (s : SnapshotStack σ) (state : σ) {revision : ℤ}
    (hopen : revision ≤ s.revision) :
    ((s.start.write state).commit revision).undo = s.commit revision := by
  have hkept : ((s.revision + 1, s.current) :: s.saved).rdropWhile
      (fun session => session.1 ≤ revision) =
      (s.revision + 1, s.current) :: s.saved.rdropWhile fun session => session.1 ≤ revision := by
    rw [rdropWhile_cons]
    have hnot : ¬ s.revision + 1 ≤ revision := by omega
    split
    next hnil => simp [hnot, hnil]
    next => rfl
  simp [commit, start, write, undo, hkept]

/-- A session within a session is merged into it. -/
theorem squash_write_start (s : SnapshotStack σ) (first second : σ) :
    ((s.start.write first).start.write second).squash = s.start.write second := by
  simp [start, write, squash]

end SnapshotStack

end Whaleshares
