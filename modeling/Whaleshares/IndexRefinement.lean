import Whaleshares.SnapshotStack
import Whaleshares.UndoSquash

/-!
# The undo log refines the snapshot stack

Rewinding the stored objects through the records of the open sessions, one after
the other, gives the state at the start of each. This reads an index as a stack
of snapshots of its objects and next id. Along every history whose modifications
do not collide, each operation of the index is the operation of that stack. The
fork switching of the block database relies on this reading alone.
-/

namespace Whaleshares.IndexRefinement

open MultiIndex Chainbase UndoRestore UndoSession UndoCollisions UndoSquash

universe u v

variable {α : Type u} {κ : Type v}

/-- The snapshots that the records of a stack stand for. -/
def snapshots : List (UndoState α) → Objects α → List (ℤ × (Objects α × ℕ))
  | [], _ => []
  | head :: rest, objects =>
    (head.revision, (rewind head objects, head.oldNextId)) ::
      snapshots rest (rewind head objects)

/-- An index as a stack of snapshots. -/
def abstraction (idx : GenericIndex α) : SnapshotStack (Objects α × ℕ) :=
  ⟨(idx.indices, idx.nextId), idx.revision, snapshots idx.stack idx.indices⟩

/-- Every record of the stack fits the objects it is about. -/
def StackTracks : List (UndoState α) → Objects α → Prop
  | [], _ => True
  | head :: rest, objects => Tracks head objects ∧ StackTracks rest (rewind head objects)

/-- The operation of the snapshot stack that an operation of the index is; a call
writes the objects and the next id it leaves. -/
def abstractStep (op : Op α) (written : Objects α × ℕ) (s : SnapshotStack (Objects α × ℕ)) :
    SnapshotStack (Objects α × ℕ) :=
  match op with
  | .call _ => s.write written
  | .startUndoSession => s.start
  | .undo => s.undo
  | .squash => s.squash
  | .commit revision => s.commit revision
  | .setRevision revision => { s with revision := revision }

/-- The modification an operation makes does not collide on a unique key. -/
def Clean [DecidableEq κ] (keys : List (α → κ)) (idx : GenericIndex α) : Op α → Prop
  | .call c => (idx.call keys c).2 ≠ .keyCollision
  | _ => True

/-- No call changes the revision of the newest record. -/
theorem Effect.revision_eq {keys : List (α → κ)} {head head' : UndoState α}
    {nextId nextId' : ℕ} {objects objects' : Objects α} {c : Call α} {o : Outcome}
    (h : Effect keys head nextId objects c head' nextId' objects' o) :
    head'.revision = head.revision := by
  cases h with
  | absent _ _ => rfl
  | notCreated _ => rfl
  | created _ _ _ => rfl
  | written _ _ _ _ =>
    unfold UndoState.onModify
    split_ifs <;> rfl
  | lost _ _ =>
    unfold UndoState.onModify
    split_ifs <;> rfl
  | @removed id a here =>
    unfold UndoState.onRemove
    split_ifs
    · rfl
    · cases head.oldValues[id]? <;> rfl
    · cases head.oldValues[id]? <;> rfl

/-- A commit drops the lowest snapshots. -/
theorem snapshots_commit (stack : List (UndoState α)) (objects : Objects α) (revision : ℤ) :
    snapshots (stack.rdropWhile fun state => state.revision ≤ revision) objects =
      (snapshots stack objects).rdropWhile fun session => session.1 ≤ revision := by
  induction stack generalizing objects with
  | nil => rfl
  | cons head rest ih =>
    have hrec := ih (rewind head objects)
    rw [snapshots, SnapshotStack.rdropWhile_cons, SnapshotStack.rdropWhile_cons, ← hrec]
    cases hrest : rest.rdropWhile fun state => decide (state.revision ≤ revision) with
    | nil =>
      by_cases hle : head.revision ≤ revision <;> simp [snapshots, hle]
    | cons next others => simp [snapshots]

/-- The newer records of a stack that tracks objects track them. -/
theorem stackTracks_of_append {kept dropped : List (UndoState α)} {objects : Objects α}
    (h : StackTracks (kept ++ dropped) objects) : StackTracks kept objects := by
  induction kept generalizing objects with
  | nil => trivial
  | cons head rest ih => exact ⟨h.1, ih h.2⟩

variable [DecidableEq κ]

/-- One operation without a collision keeps every record fitting, and is the
operation of the snapshot stack. -/
theorem abstraction_perform {keys : List (α → κ)} {idx next : GenericIndex α} {op : Op α}
    (hord : StackOrdered (Stored idx.indices) idx.nextId idx.stack)
    (ht : StackTracks idx.stack idx.indices) (hclean : Clean keys idx op)
    (h : perform keys idx op = some next) :
    StackTracks next.stack next.indices ∧
      abstraction next = abstractStep op (next.indices, next.nextId) (abstraction idx) := by
  obtain ⟨stack, rev, nextId, objects⟩ := idx
  cases op with
  | call c =>
    obtain ⟨note, nextId', objects', o, hcall, heff⟩ :=
      call_effect keys stack rev nextId objects c
    simp only [Clean, hcall] at hclean
    simp only [perform, hcall, Option.some.injEq] at h
    subst h
    cases stack with
    | nil => exact ⟨trivial, rfl⟩
    | cons head rest =>
      obtain ⟨ht', hrew⟩ := (heff head).tracks hclean ht.1
      refine ⟨⟨ht', by rw [hrew]; exact ht.2⟩, ?_⟩
      simp only [abstraction, abstractStep, SnapshotStack.write, List.modifyHead_cons, snapshots,
        hrew, (heff head).oldNextId_eq, Effect.revision_eq (heff head)]
  | startUndoSession =>
    cases h
    refine ⟨⟨tracks_start _ _ _, ?_⟩, ?_⟩
    · rw [rewind_start]
      exact ht
    · simp only [abstraction, abstractStep, SnapshotStack.start, GenericIndex.startUndoSession,
        snapshots, rewind_start]
      rfl
  | undo =>
    cases stack with
    | nil =>
      cases h
      exact ⟨trivial, rfl⟩
    | cons head rest =>
      cases hundo : GenericIndex.undo keys ⟨head :: rest, rev, nextId, objects⟩ with
      | error err => simp [perform, hundo, Except.toOption] at h
      | ok r =>
        simp only [perform, hundo, Except.toOption, Option.some.injEq] at h
        subst h
        obtain ⟨restored, hrestore, rfl⟩ := undo_cons_eq_ok.mp hundo
        obtain ⟨-, -, rfl⟩ := ht.1.restore_eq_ok.mp hrestore
        exact ⟨ht.2, rfl⟩
  | squash =>
    cases h
    cases stack with
    | nil => exact ⟨trivial, rfl⟩
    | cons newer tail =>
      cases tail with
      | nil => exact ⟨trivial, rfl⟩
      | cons older rest =>
        obtain ⟨hn, ho, -⟩ : StackOrdered (Stored objects) nextId (newer :: older :: rest) := hord
        obtain ⟨htn, hto, hrest⟩ : StackTracks (newer :: older :: rest) objects := ht
        obtain ⟨hmerge, hrew⟩ := merge_of_tracks hn ho htn hto
        refine ⟨⟨hmerge, ?_⟩, ?_⟩
        · change StackTracks rest (rewind (older.merge newer) objects)
          rw [hrew]
          exact hrest
        simp only [abstraction, abstractStep, SnapshotStack.squash, GenericIndex.squash, snapshots,
          hrew, (merge_oldNextId older newer).1, (merge_oldNextId older newer).2]
  | commit revision =>
    cases h
    constructor
    · obtain ⟨dropped, hdropped⟩ :=
        List.rdropWhile_prefix (fun state : UndoState α => state.revision ≤ revision) stack
      have hall : StackTracks stack objects := ht
      rw [← hdropped] at hall
      exact stackTracks_of_append hall
    · simp only [abstraction, abstractStep, SnapshotStack.commit, GenericIndex.commit,
        snapshots_commit]
  | setRevision revision =>
    cases stack with
    | nil =>
      cases h
      exact ⟨trivial, rfl⟩
    | cons head rest => cases h

/-- A history in which no modification collides, read on the snapshot stack. -/
inductive CleanRun (keys : List (α → κ)) :
    GenericIndex α → SnapshotStack (Objects α × ℕ) → Prop
  | empty : CleanRun keys empty (abstraction empty)
  | step {idx next : GenericIndex α} {s : SnapshotStack (Objects α × ℕ)} (op : Op α)
      (before : CleanRun keys idx s) (clean : Clean keys idx op)
      (performed : perform keys idx op = some next) :
      CleanRun keys next (abstractStep op (next.indices, next.nextId) s)

/-- Along every clean history the index stands for exactly the snapshot stack that
the same operations build. -/
theorem CleanRun.abstraction_eq {keys : List (α → κ)} {idx : GenericIndex α}
    {s : SnapshotStack (Objects α × ℕ)} (h : CleanRun keys idx s) :
    abstraction idx = s ∧ StackTracks idx.stack idx.indices ∧ Reachable keys idx := by
  induction h with
  | empty => exact ⟨rfl, trivial, .empty⟩
  | step op _ clean performed ih =>
    obtain ⟨heq, ht, hreach⟩ := ih
    obtain ⟨ht', habs⟩ := abstraction_perform hreach.stackOrdered ht clean performed
    exact ⟨by rw [habs, heq], ht', .step op hreach performed⟩

end Whaleshares.IndexRefinement
