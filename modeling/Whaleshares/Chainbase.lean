import Mathlib
import Whaleshares.MultiIndex

/-!
# The undo log of one index

`chainbase::generic_index` stores the objects of one type together with a stack
of undo states. An undo state records, for the session it belongs to, the first
value of every modified object, the value of every removed object and the ids of
the created ones. `undo` replays the newest state backwards, `squash` merges the
two newest states, and `commit` discards the oldest ones.

The model follows `chainbase.hpp` operation by operation. Every call reports how
it ended, and its effects up to that point stay, as they do when the C++ call
throws. `undo` looks elements up without checking that they were found; using
the end iterator is undefined behaviour there and an error here. The id of an
object is the key under which it is stored, so no constructor or modifier can
change it. The undo stack is listed with its newest state first.
-/

namespace Whaleshares.Chainbase

open MultiIndex

universe u v

variable {α : Type u} {κ : Type v}

/-- What one session has recorded (`undo_state`). -/
structure UndoState (α : Type u) where
  /-- Value at the session's start of every object modified in it. -/
  oldValues : Objects α
  /-- Value at the session's start of every object removed in it. -/
  removedValues : Objects α
  /-- Ids created in the session and still present. -/
  newIds : Std.ExtTreeSet ℕ
  /-- Next free id at the session's start. -/
  oldNextId : ℕ
  /-- Revision the session was given. -/
  revision : ℤ

/-- An index: its objects, the next free id, the revision and the undo stack. -/
structure GenericIndex (α : Type u) where
  /-- Undo states, the newest first. -/
  stack : List (UndoState α)
  /-- Revision number of the newest session. -/
  revision : ℤ
  /-- Id the next created object gets. -/
  nextId : ℕ
  /-- The stored objects. -/
  indices : Objects α

/-- The index as it is constructed: no objects, no sessions. -/
def empty : GenericIndex α := ⟨[], 0, 0, ∅⟩

/-- How a modifier ends, with the value it leaves in the element. -/
inductive Edit (α : Type u) where
  /-- The modifier returns. -/
  | finishes (value : α)
  /-- The modifier throws after having written `value`. -/
  | throws (value : α)

/-- One call on the index. -/
inductive Call (α : Type u) where
  /-- `emplace`; the constructor sees the new id and may throw. -/
  | create (constructor : ℕ → Option α)
  /-- `modify` of the object with this id. -/
  | modify (id : ℕ) (modifier : α → Edit α)
  /-- `remove` of the object with this id. -/
  | remove (id : ℕ)

/-- How a call ends. -/
inductive Outcome where
  /-- The call returns. -/
  | done
  /-- There is no object to call it with; the lookup of the caller fails. -/
  | noSuchObject
  /-- The constructor threw. -/
  | constructorThrew
  /-- "could not insert object, most likely a uniqueness constraint was violated" -/
  | insertRefused
  /-- The modifier threw. -/
  | modifierThrew
  /-- "Could not modify object, most likely a uniqueness constraint was violated" -/
  | keyCollision
  deriving DecidableEq

/-- How `undo` fails. -/
inductive UndoError where
  /-- A recorded id is not stored: the end iterator is modified or erased. -/
  | endIterator
  /-- "Could not modify object, most likely a uniqueness constraint was violated" -/
  | couldNotModify
  /-- "Could not restore object, most likely a uniqueness constraint was violated" -/
  | couldNotRestore
  deriving DecidableEq

section Records

/-- The state a new session starts with. -/
def UndoState.start (nextId : ℕ) (revision : ℤ) : UndoState α :=
  ⟨∅, ∅, ∅, nextId, revision⟩

/-- `on_modify`: keep the first value of an object that the session did not create. -/
def UndoState.onModify (head : UndoState α) (id : ℕ) (v : α) : UndoState α :=
  if id ∈ head.newIds then head
  else if id ∈ head.oldValues then head
  else { head with oldValues := head.oldValues.insertIfNew id v }

/-- `on_remove`: forget a created object, else keep its first value. -/
def UndoState.onRemove (head : UndoState α) (id : ℕ) (v : α) : UndoState α :=
  if id ∈ head.newIds then { head with newIds := head.newIds.erase id }
  else
    match head.oldValues[id]? with
    | some was =>
      { head with
        removedValues := head.removedValues.insertIfNew id was
        oldValues := head.oldValues.erase id }
    | none =>
      if id ∈ head.removedValues then head
      else { head with removedValues := head.removedValues.insertIfNew id v }

/-- `on_create`. -/
def UndoState.onCreate (head : UndoState α) (id : ℕ) : UndoState α :=
  { head with newIds := head.newIds.insert id }

/-- Change the newest undo state, if there is one. -/
def GenericIndex.withHead (idx : GenericIndex α) (f : UndoState α → UndoState α) :
    GenericIndex α :=
  { idx with stack := idx.stack.modifyHead f }

end Records

section Calls

variable [DecidableEq κ] (keys : List (α → κ))

/-- `emplace`: the next id is taken and recorded only when the insertion succeeds. -/
def GenericIndex.emplace (idx : GenericIndex α) (constructor : ℕ → Option α) :
    GenericIndex α × Outcome :=
  match constructor idx.nextId with
  | none => (idx, .constructorThrew)
  | some value =>
    match MultiIndex.emplace keys idx.indices idx.nextId value with
    | none => (idx, .insertRefused)
    | some indices =>
      ({ idx with indices := indices, nextId := idx.nextId + 1 }.withHead
        (·.onCreate idx.nextId), .done)

/-- `modify`: the old value is recorded before the container is asked. -/
def GenericIndex.modify (idx : GenericIndex α) (id : ℕ) (modifier : α → Edit α) :
    GenericIndex α × Outcome :=
  match idx.indices[id]? with
  | none => (idx, .noSuchObject)
  | some obj =>
    let recorded := idx.withHead (·.onModify id obj)
    match modifier obj with
    | .throws value => ({ recorded with indices := idx.indices.insert id value }, .modifierThrew)
    | .finishes value =>
      match MultiIndex.modify keys idx.indices id value with
      | (indices, true) => ({ recorded with indices := indices }, .done)
      | (indices, false) => ({ recorded with indices := indices }, .keyCollision)

/-- `remove`. -/
def GenericIndex.remove (idx : GenericIndex α) (id : ℕ) : GenericIndex α × Outcome :=
  match idx.indices[id]? with
  | none => (idx, .noSuchObject)
  | some obj =>
    ({ idx.withHead (·.onRemove id obj) with indices := idx.indices.erase id }, .done)

/-- Make one call. -/
def GenericIndex.call (idx : GenericIndex α) : Call α → GenericIndex α × Outcome
  | .create constructor => idx.emplace keys constructor
  | .modify id modifier => idx.modify keys id modifier
  | .remove id => idx.remove id

/-- Make the calls in order, each whatever the ones before it ended with. -/
def GenericIndex.calls (idx : GenericIndex α) : List (Call α) → GenericIndex α × List Outcome
  | [] => (idx, [])
  | first :: rest =>
    let (next, outcome) := idx.call keys first
    let (last, outcomes) := next.calls rest
    (last, outcome :: outcomes)

end Calls

section Sessions

/-- `start_undo_session( true )`. -/
def GenericIndex.startUndoSession (idx : GenericIndex α) : GenericIndex α :=
  { idx with
    stack := UndoState.start idx.nextId (idx.revision + 1) :: idx.stack
    revision := idx.revision + 1 }

variable [DecidableEq κ] (keys : List (α → κ))

/-- The first loop of `undo`: write one recorded value back. -/
def restoreOld (objects : Objects α) (item : ℕ × α) : Except UndoError (Objects α) :=
  if item.1 ∈ objects then
    match MultiIndex.modify keys objects item.1 item.2 with
    | (restored, true) => .ok restored
    | (_, false) => .error .couldNotModify
  else .error .endIterator

/-- The second loop of `undo`: erase one created object. -/
def eraseNew (objects : Objects α) (id : ℕ) : Except UndoError (Objects α) :=
  if id ∈ objects then .ok (objects.erase id) else .error .endIterator

/-- The third loop of `undo`: insert one removed object again. -/
def restoreRemoved (objects : Objects α) (item : ℕ × α) : Except UndoError (Objects α) :=
  match MultiIndex.emplace keys objects item.1 item.2 with
  | some restored => .ok restored
  | none => .error .couldNotRestore

/-- The three loops of `undo` on the stored objects. -/
def UndoState.restore (head : UndoState α) (objects : Objects α) :
    Except UndoError (Objects α) := do
  let modified ← head.oldValues.toList.foldlM (restoreOld keys) objects
  let erased ← head.newIds.toList.foldlM eraseNew modified
  head.removedValues.toList.foldlM (restoreRemoved keys) erased

/-- `undo`. -/
def GenericIndex.undo (idx : GenericIndex α) : Except UndoError (GenericIndex α) :=
  match idx.stack with
  | [] => .ok idx
  | head :: rest => do
    let indices ← head.restore keys idx.indices
    pure ⟨rest, idx.revision - 1, head.oldNextId, indices⟩

/-- First loop of `squash`: an update of the newer session. -/
def UndoState.mergeOld (prev : UndoState α) (item : ℕ × α) : UndoState α :=
  if item.1 ∈ prev.newIds then prev
  else if item.1 ∈ prev.oldValues then prev
  else { prev with oldValues := prev.oldValues.insertIfNew item.1 item.2 }

/-- Second loop of `squash`: a creation of the newer session. -/
def UndoState.mergeNew (prev : UndoState α) (id : ℕ) : UndoState α :=
  { prev with newIds := prev.newIds.insert id }

/-- Third loop of `squash`: a removal of the newer session. -/
def UndoState.mergeRemoved (prev : UndoState α) (item : ℕ × α) : UndoState α :=
  if item.1 ∈ prev.newIds then { prev with newIds := prev.newIds.erase item.1 }
  else
    match prev.oldValues[item.1]? with
    | some was =>
      { prev with
        removedValues := prev.removedValues.insertIfNew item.1 was
        oldValues := prev.oldValues.erase item.1 }
    | none => { prev with removedValues := prev.removedValues.insertIfNew item.1 item.2 }

/-- The change set of two successive sessions as one, in the older state. -/
def UndoState.merge (prev state : UndoState α) : UndoState α :=
  state.removedValues.toList.foldl UndoState.mergeRemoved
    (state.newIds.toList.foldl UndoState.mergeNew
      (state.oldValues.toList.foldl UndoState.mergeOld prev))

/-- `squash`. -/
def GenericIndex.squash (idx : GenericIndex α) : GenericIndex α :=
  match idx.stack with
  | [] => idx
  | [_] => { idx with stack := [] }
  | state :: prev :: rest =>
    { idx with stack := prev.merge state :: rest, revision := idx.revision - 1 }

/-- `commit( revision )`: drop the oldest states up to this revision. -/
def GenericIndex.commit (idx : GenericIndex α) (revision : ℤ) : GenericIndex α :=
  { idx with stack := idx.stack.rdropWhile fun state => state.revision ≤ revision }

/-- `set_revision`, refused while there is an undo stack. -/
def GenericIndex.setRevision (idx : GenericIndex α) (revision : ℤ) :
    Option (GenericIndex α) :=
  match idx.stack with
  | [] => some { idx with revision := revision }
  | _ :: _ => none

end Sessions

end Whaleshares.Chainbase
