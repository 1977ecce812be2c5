import Mathlib
import Whaleshares.IndexCalls
import Whaleshares.Objects
import Whaleshares.Protocol

/-!
# Custom operations

A plugin registers an interpreter for the custom operations with its id. The interpreter of
`generic_custom_operation_interpreter.hpp` decodes inner operations from the data of the outer
one, validates them, compares the accounts that they require with those of the outer operation,
and applies them in order in an undo session of its own. The evaluators of the outer operations
swallow what the interpreter throws, unless the node is producing a block.

The JSON and the binary format of a plugin's operations, their checks and their evaluators are
given by the plugin. An evaluator is a program that calls the indexes; every alternative of a
plugin's operation type has one. A session is opened on all indexes with a positive revision, so
that its destructor undoes it. Where `undo` throws in that destructor the process ends.
-/

namespace Whaleshares.CustomOperations

open Fc Protocol Objects Chainbase IndexCalls

variable {ι : Type} {α κ : ι → Type} {CustomOp : Type}

/-- A parsed JSON value, as far as the interpreter looks at it. -/
inductive Variant where
  | array (elements : List Variant)
  | other (text : Bytes)

/-- `is_array()` -/
def Variant.isArray : Variant → Bool
  | array _ => true
  | other _ => false

/-- What a plugin registers under its id. -/
structure Interpreter (α : ι → Type) (CustomOp : Type) where
  /-- `operation_validate( inner_o )` -/
  validate : CustomOp → Except Exc Unit
  /-- `operation_get_required_authorities( inner_o, .. )` -/
  requiredAuthorities : CustomOp → RequiredAuthorities
  /-- `get_evaluator( inner_o ).apply( inner_o )` -/
  evaluator : CustomOp → Script α Exc Unit
  /-- `fc::json::from_string` -/
  fromString : Bytes → Except Exc Variant
  /-- `from_variant` for one operation. -/
  fromVariant : Variant → Except Exc CustomOp
  /-- `fc::raw::unpack< vector< CustomOperationType > >` -/
  unpackVector : Bytes → Except Exc (List CustomOp)
  /-- `fc::raw::unpack< CustomOperationType >` -/
  unpack : Bytes → Except Exc CustomOp

/-- The indexes in the order of `_index_list`. -/
structure IndexList (ι : Type) where
  list : List ι
  /-- No index is listed twice. -/
  nodup : list.Nodup
  /-- Every index is listed. -/
  complete : ∀ i, i ∈ list

/-- How an operation fails. -/
inductive Failure where
  /-- An exception is thrown. -/
  | thrown (e : Exc)
  /-- `undo` throws in the destructor of a session, which ends the process. -/
  | terminated (e : UndoError)
  deriving DecidableEq

section Sessions

/-- `start_undo_session( true )` on all indexes. -/
def startUndoSession (db : Db α) : Db α := fun i => (db i).startUndoSession

/-- `squash` of a session on all indexes. -/
def squash (db : Db α) : Db α := fun i => (db i).squash

variable [DecidableEq ι] [∀ i, DecidableEq (κ i)] (keys : ∀ i, List (α i → κ i))

/-- `undo` of a session, one index after the other. -/
def undo (indexes : List ι) (db : Db α) : Except UndoError (Db α) :=
  indexes.foldlM (fun db i => do
    let idx ← (db i).undo (keys i)
    pure (Function.update db i idx)) db

/-- `undo` is exact for a session with these calls. -/
def UndoExact (db : Db α) (made : List (Σ i, Call (α i))) : Prop :=
  ∀ i, ((db i).startUndoSession.calls (keys i) (callsOf i made)).1.undo (keys i) = .ok (db i)

variable {keys}

/-- Undoing all indexes gives what undoing each of them gives. -/
theorem undo_eq_ok {indexes : List ι} {db before : Db α} (hnodup : indexes.Nodup)
    (hlisted : ∀ i ∈ indexes, (db i).undo (keys i) = .ok (before i))
    (hothers : ∀ i, i ∉ indexes → db i = before i) : undo keys indexes db = .ok before := by
  induction indexes generalizing db with
  | nil => exact congrArg Except.ok (funext fun i => hothers i List.not_mem_nil)
  | cons j rest ih =>
    obtain ⟨hj, hrest⟩ := List.nodup_cons.mp hnodup
    have hstep : undo keys (j :: rest) db =
        undo keys rest (Function.update db j (before j)) := by
      unfold undo
      rw [List.foldlM_cons, hlisted j List.mem_cons_self]
      rfl
    rw [hstep]
    refine ih hrest (fun i hi => ?_) fun i hi => ?_
    · have hne : i ≠ j := fun h => hj (h ▸ hi)
      rw [Function.update_of_ne hne]
      exact hlisted i (List.mem_cons_of_mem _ hi)
    · by_cases hij : i = j
      · subst hij
        rw [Function.update_self]
      · rw [Function.update_of_ne hij]
        exact hothers i fun h => (List.mem_cons.mp h).elim hij hi

/-- Where `undo` is exact, undoing the session of a program returns to its start. -/
theorem undo_run {ε β : Type} (indexes : IndexList ι) {db : Db α} {s : Script α ε β}
    (h : UndoExact keys db (s.made keys (startUndoSession db))) :
    undo keys indexes.list (s.run keys (startUndoSession db)).2 = .ok db := by
  refine undo_eq_ok indexes.nodup (fun i _ => ?_) fun i hi => absurd (indexes.complete i) hi
  rw [s.run_index]
  exact h i

omit [DecidableEq ι] in
/-- Starting sessions keeps the contents. -/
theorem startUndoSession_sameContents (db : Db α) : SameContents (startUndoSession db) db :=
  fun _ => ⟨rfl, rfl⟩

omit [DecidableEq ι] in
/-- Squashing keeps the contents. -/
theorem squash_sameContents (db : Db α) : SameContents (squash db) db := by
  intro i
  unfold squash GenericIndex.squash
  split
  · exact ⟨rfl, rfl⟩
  · exact ⟨rfl, rfl⟩
  · exact ⟨rfl, rfl⟩

omit [DecidableEq ι] in
/-- A session that is squashed is closed, whether there is a session below it or not. -/
theorem squash_stack_length (db : Db α) (i : ι) :
    (squash db i).stack.length = (db i).stack.length - 1 := by
  unfold squash GenericIndex.squash
  split
  next h => simp [h]
  next h => simp [h]
  next h => simp [h]

end Sessions

section Interpretation

variable (eval : Interpreter α CustomOp)

/-- The accounts that some operations require, as a set. -/
def accounts (part : RequiredAuthorities → List AccountName) (ops : List CustomOp) :
    Finset AccountName :=
  (ops.flatMap fun op => part (eval.requiredAuthorities op)).toFinset

/-- What `apply_operations` does between the opening and the squash of its session. -/
def applyInner (ops : List CustomOp) (outer : RequiredAuthorities) : Script α Exc Unit := do
  Script.ofExcept (ops.forM eval.validate)
  Script.ofExcept (fcAssert (accounts eval (·.owner) ops = outer.owner.toFinset)
    "inner_owner == outer_owner")
  Script.ofExcept (fcAssert (accounts eval (·.active) ops = outer.active.toFinset)
    "inner_active == outer_active")
  Script.ofExcept (fcAssert (accounts eval (·.posting) ops = outer.posting.toFinset)
    "inner_posting == outer_posting")
  Script.ofExcept (fcAssert
    (ops.flatMap (fun op => (eval.requiredAuthorities op).other) = outer.other)
    "inner_other == outer_other")
  Script.each eval.evaluator ops

variable [DecidableEq ι] [∀ i, DecidableEq (κ i)] (keys : ∀ i, List (α i → κ i))
  (indexes : IndexList ι)

/-- `apply_operations` -/
def applyOperations (ops : List CustomOp) (outer : RequiredAuthorities) :
    Process (Db α) Failure Unit := fun db =>
  match (applyInner eval ops outer).run keys (startUndoSession db) with
  | (.ok _, t) => (.ok (), squash t)
  | (.error e, t) =>
    match undo keys indexes.list t with
    | .ok restored => (.error (.thrown e), restored)
    | .error e' => (.error (.terminated e'), t)

/-- The inner operations of a `custom_json_operation`. -/
def decodeJson (json : Bytes) : Except Exc (List CustomOp) := do
  let v ← eval.fromString json
  match v with
  | .array (first :: rest) =>
    if first.isArray then
      -- it looks like a list
      (first :: rest).mapM eval.fromVariant
    else
      let op ← eval.fromVariant v
      pure [op]
  | _ =>
    let op ← eval.fromVariant v
    pure [op]

/-- The inner operations of a `custom_binary_operation`. -/
def decodeBinary (data : Bytes) : Except Exc (List CustomOp) :=
  match eval.unpackVector data with
  | .ok ops => .ok ops
  | .error _ => do
    let op ← eval.unpack data
    pure [op]

/-- The operations that an interpreter applies. -/
inductive OuterOperation where
  | json (o : CustomJsonOperation)
  | binary (o : CustomBinaryOperation)

/-- The id of the interpreter. -/
def OuterOperation.id : OuterOperation → Bytes
  | json o => o.id
  | binary o => o.id

/-- `operation( outer_o )` -/
def OuterOperation.operation : OuterOperation → Operation
  | json o => .customJson o
  | binary o => .customBinary o

/-- The inner operations. -/
def decode : OuterOperation → Except Exc (List CustomOp)
  | .json o => decodeJson eval o.json
  | .binary o => decodeBinary eval o.data

/-- `apply` of the interpreter, for both kinds of operations. -/
def apply (o : OuterOperation) : Process (Db α) Failure Unit := do
  let ops ← Process.ofExcept ((decode eval o).mapError .thrown)
  applyOperations eval keys indexes ops o.operation.requiredAuthorities

/-- The body of the evaluators of custom operations. -/
def doApply (interpreters : Bytes → Option (Interpreter α CustomOp)) (producing : Bool)
    (o : OuterOperation) : Process (Db α) Failure Unit := fun db =>
  match interpreters o.id with
  | none => (.ok (), db)
  | some eval =>
    match apply eval keys indexes o db with
    | (.error (.thrown e), t) => (if producing then .error (.thrown e) else .ok (), t)
    | outcome => outcome

/-- `custom_json_evaluator::do_apply` -/
def customJsonDoApply (interpreters : Bytes → Option (Interpreter α CustomOp)) (producing : Bool)
    (o : CustomJsonOperation) : Process (Db α) Failure Unit :=
  doApply keys indexes interpreters producing (.json o)

/-- `custom_binary_evaluator::do_apply` -/
def customBinaryDoApply (interpreters : Bytes → Option (Interpreter α CustomOp))
    (producing : Bool) (o : CustomBinaryOperation) : Process (Db α) Failure Unit :=
  doApply keys indexes interpreters producing (.binary o)

end Interpretation

section AllOrNothing

variable [DecidableEq ι] [∀ i, DecidableEq (κ i)] {keys : ∀ i, List (α i → κ i)}
  {eval : Interpreter α CustomOp} {ops : List CustomOp}
  {outer : RequiredAuthorities} {db : Db α}

variable (keys) in
/-- The inner operations were applied in order, and require the accounts that the outer operation
requires. -/
structure Applied (eval : Interpreter α CustomOp) (ops : List CustomOp)
    (outer : RequiredAuthorities) (db after : Db α) : Prop where
  active : accounts eval (·.active) ops = outer.active.toFinset
  owner : accounts eval (·.owner) ops = outer.owner.toFinset
  posting : accounts eval (·.posting) ops = outer.posting.toFinset
  /-- The objects are those that the evaluators leave, one after another and without a session. -/
  inOrder : ∃ t, Process.each (fun op => (eval.evaluator op).run keys) ops db = (.ok (), t) ∧
    SameContents after t
  /-- No session stays open. -/
  closed : ∀ i, (after i).stack.length = (db i).stack.length

/-- A check in front of a program that returns. -/
theorem ok_of_ofExcept_bind {r : Except Exc Unit} {s : Script α Exc Unit} {db t : Db α}
    (h : (Script.ofExcept r >>= fun _ => s).run keys db = (.ok (), t)) :
    r = .ok () ∧ s.run keys db = (.ok (), t) := by
  rw [Script.run_bind, Script.run_ofExcept] at h
  obtain ⟨u, t', hr, hs⟩ := Process.ok_of_bind h
  obtain ⟨hok, rfl⟩ := Process.ok_of_ofExcept hr
  exact ⟨hok, hs⟩

/-- If the inner operations are applied in the session, they are applied in order. -/
theorem applied_of_ok {u : Unit} {t : Db α}
    (h : (applyInner eval ops outer).run keys (startUndoSession db) = (.ok u, t)) :
    Applied keys eval ops outer db (squash t) := by
  have hlength : ∀ i, (t i).stack.length = (db i).stack.length + 1 := by
    intro i
    have hrun := (applyInner eval ops outer).run_stack_length keys (startUndoSession db) i
    rw [h] at hrun
    exact hrun
  obtain ⟨-, h⟩ := ok_of_ofExcept_bind h
  obtain ⟨howner, h⟩ := ok_of_ofExcept_bind h
  obtain ⟨hactive, h⟩ := ok_of_ofExcept_bind h
  obtain ⟨hposting, h⟩ := ok_of_ofExcept_bind h
  obtain ⟨-, h⟩ := ok_of_ofExcept_bind h
  obtain ⟨houtcome, hcontents⟩ := (Script.each eval.evaluator ops).run_sameContents keys
    (startUndoSession_sameContents db)
  rw [h] at houtcome hcontents
  refine ⟨of_decide_eq_true (fcAssert_eq_ok hactive), of_decide_eq_true (fcAssert_eq_ok howner),
    of_decide_eq_true (fcAssert_eq_ok hposting),
    ⟨((Script.each eval.evaluator ops).run keys db).2, ?_, fun i => ?_⟩, fun i => ?_⟩
  · rw [← Script.run_each]
    exact Prod.ext houtcome.symm rfl
  · obtain ⟨hobjects, hid⟩ := squash_sameContents t i
    exact ⟨hobjects.trans (hcontents i).1, hid.trans (hcontents i).2⟩
  · rw [squash_stack_length, hlength]
    rfl

/-- Where `undo` is exact, `apply_operations` applies all operations or throws and leaves the
database as it was. -/
theorem applyOperations_cases (indexes : IndexList ι)
    (hundo : UndoExact keys db ((applyInner eval ops outer).made keys (startUndoSession db))) :
    (∃ after, applyOperations eval keys indexes ops outer db = (.ok (), after) ∧
        Applied keys eval ops outer db after) ∨
      ∃ e, applyOperations eval keys indexes ops outer db = (.error (.thrown e), db) := by
  unfold applyOperations
  cases hrun : (applyInner eval ops outer).run keys (startUndoSession db) with
  | mk outcome t =>
    cases outcome with
    | ok u => exact .inl ⟨squash t, rfl, applied_of_ok hrun⟩
    | error e =>
      have hrestored : undo keys indexes.list t = .ok db := by
        have hsession := undo_run indexes hundo
        rw [hrun] at hsession
        exact hsession
      refine .inr ⟨e, ?_⟩
      simp only [hrestored]

/-- On a node that does not produce, the evaluator of a custom operation never throws, and all
inner operations are applied in order or the database is exactly what it was before. The undo
stacks of the indexes may be empty or have any depth. -/
theorem custom_operation_all_or_nothing (keys : ∀ i, List (α i → κ i)) (indexes : IndexList ι)
    (interpreters : Bytes → Option (Interpreter α CustomOp)) (eval : Interpreter α CustomOp)
    (o : OuterOperation) (db : Db α) (hregistered : interpreters o.id = some eval)
    (hundo : ∀ ops, decode eval o = .ok ops → UndoExact keys db
      ((applyInner eval ops o.operation.requiredAuthorities).made keys (startUndoSession db))) :
    ∃ after, doApply keys indexes interpreters false o db = (.ok (), after) ∧
      ((∃ ops, decode eval o = .ok ops ∧
          Applied keys eval ops o.operation.requiredAuthorities db after) ∨ after = db) := by
  have hcases : (∃ ops after, decode eval o = .ok ops ∧
      apply eval keys indexes o db = (.ok (), after) ∧
      Applied keys eval ops o.operation.requiredAuthorities db after) ∨
      ∃ e, apply eval keys indexes o db = (.error (.thrown e), db) := by
    unfold apply
    cases hdecode : decode eval o with
    | error e => exact .inr ⟨e, rfl⟩
    | ok ops =>
      obtain ⟨after, hafter, happlied⟩ | ⟨e, he⟩ :=
        applyOperations_cases indexes (hundo ops hdecode)
      · exact .inl ⟨ops, after, rfl, hafter, happlied⟩
      · exact .inr ⟨e, he⟩
  unfold doApply
  rw [hregistered]
  obtain ⟨ops, after, hdecode, happly, happlied⟩ | ⟨e, he⟩ := hcases
  · simp only [happly]
    exact ⟨after, rfl, .inl ⟨ops, hdecode, happlied⟩⟩
  · simp only [he]
    exact ⟨db, rfl, .inr rfl⟩

/-- Two indexes with one object each. -/
def twoIndexes : Db (fun _ : Bool => ℕ) :=
  fun _ => ⟨[], 7, 1, (∅ : MultiIndex.Objects ℕ).insert 0 10⟩

/-- Both indexes. -/
def bothIndexes : IndexList Bool := ⟨[false, true], by decide, by decide⟩

/-- The value of an object is its unique key. -/
def valueKeys : Bool → List (ℕ → ℕ) := fun _ => [fun v => v]

/-- A plugin with two operations, which both change both indexes; the second one then fails. -/
def counterPlugin : Interpreter (fun _ : Bool => ℕ) Bool where
  validate _ := .ok ()
  requiredAuthorities _ := { posting := [nameOf "alice"] }
  evaluator succeeds :=
    .calls false (.modify 0 fun v => .finishes (v + 1)) fun _ =>
      .calls true (.modify 0 fun v => .finishes (v + 1)) fun _ =>
        if succeeds then .done () else .throws (failed "second operation")
  fromString json := .ok (.other json)
  fromVariant _ := .ok true
  unpackVector data := .ok (data.map (· = 1))
  unpack _ := .ok true

/-- The two operations of the plugin, one after the other. -/
def counterOperation : OuterOperation := .binary
  { requiredOwnerAuths := [], requiredActiveAuths := [], requiredPostingAuths := [nameOf "alice"]
    requiredAuths := [], id := [], data := [1, 0] }

/-- The second operation fails after the first one has changed both indexes. -/
theorem custom_operation_all_or_nothing_counterPlugin :
    ∃ after, doApply valueKeys bothIndexes (fun _ => some counterPlugin) false counterOperation
        twoIndexes = (.ok (), after) ∧
      ((∃ ops, decode counterPlugin counterOperation = .ok ops ∧
          Applied valueKeys counterPlugin ops counterOperation.operation.requiredAuthorities
            twoIndexes after) ∨
        after = twoIndexes) := by
  refine custom_operation_all_or_nothing valueKeys bothIndexes (fun _ => some counterPlugin)
    counterPlugin counterOperation twoIndexes rfl fun ops hops => ?_
  have hdecode : decode counterPlugin counterOperation = .ok [true, false] := rfl
  rw [hdecode] at hops
  rw [← Except.ok.inj hops]
  intro i
  have hcalls : callsOf i ((applyInner counterPlugin [true, false]
      counterOperation.operation.requiredAuthorities).made valueKeys
        (startUndoSession twoIndexes)) =
      [.modify 0 fun v => .finishes (v + 1), .modify 0 fun v => .finishes (v + 1)] := by
    cases i <;> rfl
  rw [hcalls]
  cases i <;> rfl

end AllOrNothing

end Whaleshares.CustomOperations
