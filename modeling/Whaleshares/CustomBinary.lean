import Whaleshares.CustomOperations
import Whaleshares.Program
import Whaleshares.RawFormat

/-!
# Custom binary operations

The data of a `custom_binary_operation` is read as a list of operations first, and as a single
operation where that throws. The tag of a single operation is then taken for the length of a
list: the first alternative of a plugin's operations always reads as the empty list, and a later
one reads as a list whenever its value starts with as many operations as the tag says.
-/

namespace Whaleshares.CustomBinary

open Fc Protocol Objects Program Chainbase IndexCalls CustomOperations RawFormat

variable {n : ℕ} {Value : Fin n → Type} {ι : Type} {α κ : ι → Type}

section Format

/-- `fc::raw::unpack` from a vector of bytes, which ignores the bytes that follow. -/
def unpackFrom {β : Type} (c : Codec β) (data : Bytes) : Except Exc β :=
  match c.unpack data with
  | some front => .ok front.1
  | none => .error ⟨.outOfRange, ""⟩

/-- A plugin whose operations are one of several alternatives, in the format of `fc::raw`. -/
def withRaw (alternative : ∀ t, Codec (Value t)) (eval : Interpreter α (Σ t, Value t)) :
    Interpreter α (Σ t, Value t) :=
  { eval with
    unpackVector := unpackFrom (.vector (.variant alternative))
    unpack := unpackFrom (.variant alternative) }

variable (alternative : ∀ t, Codec (Value t)) (o : CustomBinaryOperation) (op : Σ t, Value t)

/-- The outer operation with a packed operation. -/
def single : CustomBinaryOperation := { o with data := (Codec.variant alternative).pack op }

/-- The outer operation with a packed list of one operation. -/
def listed : CustomBinaryOperation :=
  { o with data := (Codec.vector (Codec.variant alternative)).pack [op] }

/-- Packing an operation alone has the effect of packing it in a list, on every state and whatever
else the plugin does with its operations. -/
def SameEffect : Prop :=
  ∀ (ι : Type) (_ : DecidableEq ι) (α κ : ι → Type) (_ : ∀ i, DecidableEq (κ i))
    (keys : ∀ i, List (α i → κ i)) (indexes : IndexList ι) (eval : Interpreter α (Σ t, Value t))
    (producing : Bool) (o : CustomBinaryOperation) (db : Db α),
    customBinaryDoApply keys indexes (fun _ => some (withRaw alternative eval)) producing
        (single alternative o op) db =
      customBinaryDoApply keys indexes (fun _ => some (withRaw alternative eval)) producing
        (listed alternative o op) db

/-- The value of the operation starts with as many operations as its tag says, and they are not
the operation itself. -/
def Misread : Prop :=
  ∃ ops rest, readMany (Codec.variant alternative).unpack op.1 ((alternative op.1).pack op.2) =
    some (ops, rest) ∧ ops ≠ [(Codec.variant alternative).restored op]

end Format

section Decoding

variable {alternative : ∀ t, Codec (Value t)} {o : CustomBinaryOperation} {op : Σ t, Value t}
  {eval : Interpreter α (Σ t, Value t)}

/-- A listed alternative is decoded as it is restored. -/
theorem decode_listed : decode (withRaw alternative eval) (.binary (listed alternative o op)) =
    .ok [(Codec.variant alternative).restored op] := by
  have hunpack := (Codec.vector (Codec.variant alternative)).unpack_pack [op] []
  rw [List.append_nil] at hunpack
  change decodeBinary (withRaw alternative eval)
    ((Codec.vector (Codec.variant alternative)).pack [op]) = _
  unfold decodeBinary withRaw unpackFrom
  simp only [hunpack]
  rfl

/-- A packed operation is decoded as the list that its value starts with. -/
theorem decode_single_of_some {ops : List (Σ t, Value t)} {rest : List UInt8}
    (h : readMany (Codec.variant alternative).unpack op.1 ((alternative op.1).pack op.2) =
      some (ops, rest)) :
    decode (withRaw alternative eval) (.binary (single alternative o op)) = .ok ops := by
  change decodeBinary (withRaw alternative eval) ((Codec.variant alternative).pack op) = _
  unfold decodeBinary withRaw unpackFrom
  simp only [vector_unpack_variant, h]

/-- A packed operation is decoded as itself where its value starts with no such list. -/
theorem decode_single_of_none
    (h : readMany (Codec.variant alternative).unpack op.1 ((alternative op.1).pack op.2) = none) :
    decode (withRaw alternative eval) (.binary (single alternative o op)) =
      .ok [(Codec.variant alternative).restored op] := by
  have hunpack := (Codec.variant alternative).unpack_pack op []
  rw [List.append_nil] at hunpack
  change decodeBinary (withRaw alternative eval) ((Codec.variant alternative).pack op) = _
  unfold decodeBinary withRaw unpackFrom
  simp only [vector_unpack_variant, h, hunpack]
  rfl

variable [DecidableEq ι] [∀ i, DecidableEq (κ i)] {keys : ∀ i, List (α i → κ i)}
  {indexes : IndexList ι}

/-- The effect of an operation depends on what its data decodes to. -/
theorem doApply_congr {CustomOp : Type} {eval : Interpreter α CustomOp} {o o' : OuterOperation}
    (producing : Bool) (db : Db α) (hdecode : decode eval o = decode eval o')
    (hauthorities : o.operation.requiredAuthorities = o'.operation.requiredAuthorities) :
    doApply keys indexes (fun _ => some eval) producing o db =
      doApply keys indexes (fun _ => some eval) producing o' db := by
  have happly : apply eval keys indexes o db = apply eval keys indexes o' db := by
    unfold apply
    rw [hdecode, hauthorities]
  unfold doApply
  simp only [happly]

end Decoding

section Distinguishing

variable [DecidableEq ι] [∀ i, DecidableEq (κ i)] {keys : ∀ i, List (α i → κ i)} {db : Db α}
  {r : Except Exc Unit} {s : Script α Exc Unit}

/-- A check that passes leaves the script. -/
theorem run_check_ok (h : r = .ok ()) :
    (Script.ofExcept r >>= fun _ => s).run keys db = s.run keys db := by
  rw [h]
  rfl

/-- A program that fails before it has changed anything. -/
def Refused (keys : ∀ i, List (α i → κ i)) (s : Script α Exc Unit) (db : Db α) : Prop :=
  ∃ e, s.run keys db = (.error e, db)

/-- A check that fails refuses. -/
theorem Refused.of_check (h : ∃ e, r = .error e) :
    Refused keys (Script.ofExcept r >>= fun _ => s) db := by
  obtain ⟨e, rfl⟩ := h
  exact ⟨e, rfl⟩

/-- What is refused after a check is refused. -/
theorem Refused.after_check (h : Refused keys s db) :
    Refused keys (Script.ofExcept r >>= fun _ => s) db := by
  cases r with
  | ok u => exact h
  | error e => exact ⟨e, rfl⟩

variable {CustomOp : Type} {eval : Interpreter α CustomOp} {o : OuterOperation}
  {ops : List CustomOp}

/-- Undoing a session in which nothing was done returns to its start. -/
theorem undo_startUndoSession (keys : ∀ i, List (α i → κ i)) (indexes : IndexList ι) (db : Db α) :
    undo keys indexes.list (startUndoSession db) = .ok db := by
  refine undo_eq_ok indexes.nodup (fun i _ => ?_) fun i hi => absurd (indexes.complete i) hi
  change Except.ok (⟨(db i).stack, (db i).revision + 1 - 1, (db i).nextId, (db i).indices⟩ :
    GenericIndex (α i)) = .ok (db i)
  rw [Int.add_sub_cancel]

/-- Inner operations that are refused before they have changed anything have no effect. -/
theorem doApply_refused (indexes : IndexList ι) (hdecode : decode eval o = .ok ops)
    (hrefused : Refused keys (applyInner eval ops o.operation.requiredAuthorities)
      (startUndoSession db)) :
    doApply keys indexes (fun _ => some eval) false o db = (.ok (), db) := by
  obtain ⟨e, he⟩ := hrefused
  have happly : apply eval keys indexes o db = (.error (.thrown e), db) := by
    unfold apply
    rw [hdecode]
    change applyOperations eval keys indexes ops o.operation.requiredAuthorities db = _
    unfold applyOperations
    simp only [he, undo_startUndoSession]
  unfold doApply
  simp only [happly]
  rfl

/-- Inner operations that are applied leave the objects that they leave in their session. -/
theorem doApply_applied (indexes : IndexList ι) (hdecode : decode eval o = .ok ops)
    (hok : ((applyInner eval ops o.operation.requiredAuthorities).run keys
      (startUndoSession db)).1 = .ok ()) :
    SameContents (doApply keys indexes (fun _ => some eval) false o db).2
      ((applyInner eval ops o.operation.requiredAuthorities).run keys (startUndoSession db)).2 := by
  cases hrun : (applyInner eval ops o.operation.requiredAuthorities).run keys
      (startUndoSession db) with
  | mk outcome after =>
    rw [hrun] at hok
    have happly : apply eval keys indexes o db = (.ok (), squash after) := by
      unfold apply
      rw [hdecode]
      change applyOperations eval keys indexes ops o.operation.requiredAuthorities db = _
      unfold applyOperations
      rw [hrun, show outcome = .ok () from hok]
    unfold doApply
    simp only [happly]
    exact squash_sameContents after

end Distinguishing

section Creator

/-- An authority that every operation of the plugin below requires once. -/
def oneAuthority : Authority := ⟨1, [], []⟩

/-- A plugin that validates some operations, each of which creates an object. -/
def creator {CustomOp : Type} (accepts : CustomOp → Bool) :
    Interpreter (fun _ : Unit => Unit) CustomOp where
  validate x := fcAssert (accepts x) ""
  requiredAuthorities _ := { other := [oneAuthority] }
  evaluator _ := .calls () (.create fun _ => some ()) fun _ => .done ()
  fromString _ := .error (failed "")
  fromVariant _ := .error (failed "")
  unpackVector _ := .error (failed "")
  unpack _ := .error (failed "")

/-- A database with one index, which is empty. -/
def oneEmpty : Db fun _ : Unit => Unit := fun _ => empty

/-- Its index. -/
def oneIndex : IndexList Unit := ⟨[()], by decide, fun _ => List.mem_singleton.mpr rfl⟩

/-- No other unique key than the id. -/
def onlyId : Unit → List (Unit → Unit) := fun _ => []

/-- The outer operation that requires the authority once. -/
def requiresOne : CustomBinaryOperation :=
  { requiredOwnerAuths := [], requiredActiveAuths := [], requiredPostingAuths := []
    requiredAuths := [oneAuthority], id := [], data := [] }

variable {CustomOp : Type} {accepts : CustomOp → Bool} {x : CustomOp} {ops : List CustomOp}

/-- A creator applies what it accepts. -/
theorem creator_applies (h : accepts x = true) :
    ((applyInner (creator accepts) [x] { other := [oneAuthority] }).run onlyId
      (startUndoSession oneEmpty)).1 = .ok () ∧
    (((applyInner (creator accepts) [x] { other := [oneAuthority] }).run onlyId
      (startUndoSession oneEmpty)).2 ()).nextId = 1 := by
  have hvalid : [x].forM (creator accepts).validate = Except.ok () := by
    change (fcAssert (accepts x) "" >>= fun _ => _) = _
    rw [h]
    rfl
  unfold applyInner
  rw [run_check_ok hvalid]
  exact ⟨rfl, rfl⟩

/-- A creator refuses everything else. -/
theorem creator_refuses (h : ops ≠ [x]) (haccepts : ∀ y, accepts y = true → y = x) (db : Db _) :
    Refused onlyId (applyInner (creator accepts) ops { other := [oneAuthority] }) db := by
  cases hvalid : ops.forM (creator accepts).validate with
  | error e => exact .of_check ⟨e, hvalid⟩
  | ok u =>
    refine .after_check (.after_check (.after_check (.after_check (.of_check ?_))))
    have hother : ops.flatMap (fun op => ((creator accepts).requiredAuthorities op).other) ≠
        [oneAuthority] := by
      intro heq
      match ops, h, hvalid, heq with
      | [], _, _, heq => cases heq
      | [y], h, hvalid, _ =>
        have hy := forM_eq_ok hvalid y List.mem_cons_self
        exact h (congrArg (fun z => [z]) (haccepts y (fcAssert_eq_ok hy)))
      | _ :: _ :: _, _, _, heq => cases heq
    have hcondition : decide (ops.flatMap (fun op =>
        ((creator accepts).requiredAuthorities op).other) = [oneAuthority]) = false :=
      decide_eq_false hother
    rw [fcAssert, hcondition]
    exact ⟨_, rfl⟩

end Creator

section Ambiguity

variable (alternative : ∀ t, Codec (Value t)) (op : Σ t, Value t)

/-- A packed operation has the effect of a packed list of it exactly where its value does not
start with another list of operations, as many as its tag says. -/
theorem custom_binary_same_effect_iff :
    SameEffect alternative op ↔ ¬ Misread alternative op := by
  constructor
  · rintro hsame ⟨ops, rest, hread, hother⟩
    classical
    let restored := (Codec.variant alternative).restored op
    let eval := withRaw alternative (creator fun y : Σ t, Value t => decide (y = restored))
    have heffect := hsame Unit inferInstance (fun _ => Unit) (fun _ => Unit) inferInstance onlyId
      oneIndex (creator fun y => decide (y = restored)) false requiresOne oneEmpty
    have haccepted : (fun y : Σ t, Value t => decide (y = restored)) restored = true :=
      decide_eq_true rfl
    obtain ⟨hok, hid⟩ := creator_applies haccepted
    have hlisted : ((customBinaryDoApply onlyId oneIndex (fun _ => some eval) false
        (listed alternative requiresOne op) oneEmpty).2 ()).nextId = 1 :=
      (doApply_applied oneIndex decode_listed hok ()).2.trans hid
    have hsingle : customBinaryDoApply onlyId oneIndex (fun _ => some eval) false
        (single alternative requiresOne op) oneEmpty = (.ok (), oneEmpty) :=
      doApply_refused oneIndex (decode_single_of_some hread)
        (creator_refuses hother (fun y hy => of_decide_eq_true hy) _)
    rw [← heffect, hsingle] at hlisted
    cases hlisted
  · intro hclear ι _ α κ _ keys indexes eval producing o db
    refine doApply_congr producing db ?_ rfl
    rw [decode_listed]
    cases hread : readMany (Codec.variant alternative).unpack op.1
        ((alternative op.1).pack op.2) with
    | none => exact decode_single_of_none hread
    | some front =>
      rw [decode_single_of_some hread]
      by_contra hother
      exact hclear ⟨front.1, front.2, hread, fun heq => hother (congrArg Except.ok heq)⟩

end Ambiguity

section WitnessPlugin

/-- `enable_content_editing_operation` -/
structure EnableContentEditingOperation where
  account : AccountName
  relockTime : TimePointSec

/-- `content_edit_lock_object` -/
structure ContentEditLockObject where
  account : AccountName
  lockTime : TimePointSec

/-- `by_account` is a unique key. -/
def contentEditLockKeys : Unit → List (ContentEditLockObject → AccountName) :=
  fun _ => [ContentEditLockObject.account]

/-- The format of the operations of the witness plugin, of which there is one kind. -/
def witnessPluginOperation : ∀ _ : Fin 1, Codec EnableContentEditingOperation := fun _ =>
  (Codec.pair Codec.bytes (Codec.fixed 4)).via (fun o => (o.account.toBytes, o.relockTime))
    fun p => ⟨.ofBytes p.1, p.2⟩

/-- `enable_content_editing_evaluator::do_apply` -/
def enableContentEditing (o : EnableContentEditingOperation) :
    Script (fun _ : Unit => ContentEditLockObject) Exc Unit :=
  let finish : Outcome → Script (fun _ : Unit => ContentEditLockObject) Exc Unit
    | .done => .done ()
    | _ => .throws ⟨.logicError, ""⟩
  .reads fun objects =>
    match (objects ()).toList.find? fun item => item.2.account = o.account with
    | none => .calls () (.create fun _ => some ⟨o.account, o.relockTime⟩) finish
    | some item =>
      .calls () (.modify item.1 fun lock => .finishes { lock with lockTime := o.relockTime }) finish

/-- The interpreter of the witness plugin, without the JSON format. -/
def witnessPlugin : Interpreter (fun _ : Unit => ContentEditLockObject)
    (Σ _ : Fin 1, EnableContentEditingOperation) :=
  withRaw witnessPluginOperation
    { validate := fun op => validateAccountName op.2.account
      requiredAuthorities := fun op => { active := [op.2.account] }
      evaluator := fun op => enableContentEditing op.2
      fromString := fun _ => .error (failed "")
      fromVariant := fun _ => .error (failed "")
      unpackVector := fun _ => .error (failed "")
      unpack := fun _ => .error (failed "") }

/-- A database without locks. -/
def noLocks : Db fun _ : Unit => ContentEditLockObject := fun _ => empty

/-- Enable editing for one account. -/
def enableAlice : Σ _ : Fin 1, EnableContentEditingOperation := ⟨0, nameOf "alice", 100⟩

/-- The outer operation, with the authority that the inner one requires. -/
def signedByAlice : CustomBinaryOperation :=
  { requiredOwnerAuths := [], requiredActiveAuths := [nameOf "alice"], requiredPostingAuths := []
    requiredAuths := [], id := bytesOf "witness", data := [] }

/-- Packed alone, the operation has no effect. -/
theorem enableAlice_single :
    customBinaryDoApply contentEditLockKeys oneIndex (fun _ => some witnessPlugin) false
      (single witnessPluginOperation signedByAlice enableAlice) noLocks = (.ok (), noLocks) := by
  have hrefused : Refused contentEditLockKeys (applyInner witnessPlugin []
      (Operation.customBinary signedByAlice).requiredAuthorities) (startUndoSession noLocks) :=
    .after_check (.after_check (.of_check ⟨_, rfl⟩))
  exact doApply_refused oneIndex (decode_single_of_some rfl) hrefused

/-- Packed in a list, the operation creates a lock. -/
theorem enableAlice_listed :
    ((customBinaryDoApply contentEditLockKeys oneIndex (fun _ => some witnessPlugin) false
      (listed witnessPluginOperation signedByAlice enableAlice) noLocks).2 ()).nextId = 1 := by
  have hname : AccountName.ofBytes (nameOf "alice").toBytes = nameOf "alice" := by decide +kernel
  have hrestored : (Codec.variant witnessPluginOperation).restored enableAlice = enableAlice := by
    change (⟨0, AccountName.ofBytes (nameOf "alice").toBytes, 100 % 256 ^ 4⟩ :
      Σ _ : Fin 1, EnableContentEditingOperation) = enableAlice
    rw [hname]
    rfl
  have hdecode : decode witnessPlugin (.binary (listed witnessPluginOperation signedByAlice
      enableAlice)) = .ok [enableAlice] := decode_listed.trans (by rw [hrestored])
  exact (doApply_applied oneIndex hdecode rfl ()).2.trans rfl

/-- On a valid outer operation, packing the operation alone is not packing it in a list. -/
theorem enableAlice_not_same_effect :
    (single witnessPluginOperation signedByAlice enableAlice).validate = .ok () ∧
      customBinaryDoApply contentEditLockKeys oneIndex (fun _ => some witnessPlugin) false
          (single witnessPluginOperation signedByAlice enableAlice) noLocks ≠
        customBinaryDoApply contentEditLockKeys oneIndex (fun _ => some witnessPlugin) false
          (listed witnessPluginOperation signedByAlice enableAlice) noLocks := by
  refine ⟨rfl, fun heq => ?_⟩
  have hlisted := enableAlice_listed
  rw [← heq, enableAlice_single] at hlisted
  cases hlisted

end WitnessPlugin

end Whaleshares.CustomBinary
