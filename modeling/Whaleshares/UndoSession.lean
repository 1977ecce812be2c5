import Whaleshares.UndoRestore

/-!
# Undoing one session

A session starts with an empty undo state and makes any sequence of calls. One
relation says what a call can do to the newest undo state, the next id and the
stored objects. From it two facts follow for every sequence of calls in which no
modification collides on a unique key: rewinding the objects through the record
always gives the objects of the session's start, and the record fits the stored
objects.

With the id as the only unique key `undo` therefore restores the index exactly.
With secondary unique keys the modified objects are written back in ascending
order of id, before the created ones are erased, and a key that a greater id has
taken over in between is still occupied at that moment. A modification that
collides loses its object while the record keeps it.
-/

namespace Whaleshares.UndoSession

open MultiIndex Chainbase UndoRestore

universe u v

variable {α : Type u} {κ : Type v}

section EntryLaws

/-- The record about one id fits the value stored under it. -/
structure Fits (e : Entry α) (now : Option α) : Prop where
  /-- A modified object is stored. -/
  old_live : e.old.isSome → now.isSome
  /-- A created object is stored. -/
  created_live : e.created → now.isSome
  /-- A created object is not recorded as modified. -/
  old_not_created : e.old.isSome → e.created = false
  /-- A removed object is not stored, unless its id was created again. -/
  removed_gone : e.removed.isSome → now.isSome → e.created

/-- A note of a modification fits the modified object. -/
theorem fits_noteModify {e : Entry α} {a : α} (h : Fits e (some a)) (b : α) :
    Fits (e.noteModify a) (some b) := by
  obtain ⟨created, old, removed⟩ := e
  obtain ⟨-, -, hnot, hgone⟩ := h
  cases created with
  | true => exact ⟨fun _ => rfl, fun _ => rfl, by simpa [Entry.noteModify] using hnot, fun _ _ => rfl⟩
  | false =>
    refine ⟨fun _ => rfl, fun _ => rfl, fun _ => rfl, ?_⟩
    simpa [Entry.noteModify] using hgone

/-- A note of a creation fits the new object. -/
theorem fits_noteCreate {e : Entry α} (h : Fits e none) (b : α) :
    Fits e.noteCreate (some b) := by
  refine ⟨fun _ => rfl, fun _ => rfl, ?_, fun _ _ => rfl⟩
  intro hold
  exact absurd (h.old_live hold) (by simp)

/-- A note of a removal fits where the object is gone. -/
theorem fits_noteRemove {e : Entry α} {a : α} (h : Fits e (some a)) :
    Fits (e.noteRemove a) none := by
  obtain ⟨created, old, removed⟩ := e
  obtain ⟨-, -, hnot, -⟩ := h
  cases created with
  | true =>
    cases old with
    | none => constructor <;> simp [Entry.noteRemove]
    | some v => simp at hnot
  | false => constructor <;> simp [Entry.noteRemove]

/-- Recording a modification keeps the rewound value, whatever is written. -/
theorem rewind_noteModify (e : Entry α) (a : α) (now : Option α) :
    (e.noteModify a).rewind now = e.rewind (some a) := by
  obtain ⟨created, old, removed⟩ := e
  cases created <;> cases old <;> simp [Entry.noteModify, Entry.rewind]

/-- Rewinding a creation goes back to before it. -/
theorem rewind_noteCreate {e : Entry α} (h : e.old = none) (now : Option α) :
    e.noteCreate.rewind now = e.rewind none := by
  obtain ⟨created, old, removed⟩ := e
  cases h
  cases created <;> simp [Entry.noteCreate, Entry.rewind]

/-- Rewinding a removal goes back to the object. -/
theorem rewind_noteRemove {e : Entry α} (h : e.old.isSome → e.created = false) (a : α) :
    (e.noteRemove a).rewind none = e.rewind (some a) := by
  obtain ⟨created, old, removed⟩ := e
  cases created <;> cases old <;> cases removed <;>
    simp_all [Entry.noteRemove, Entry.rewind]

end EntryLaws

section Effects

/-- What one call does to the newest undo state, the next id and the objects. -/
inductive Effect (keys : List (α → κ)) (head : UndoState α) (nextId : ℕ)
    (objects : Objects α) : Call α → UndoState α → ℕ → Objects α → Outcome → Prop
  | absent {id : ℕ} {c : Call α} (missing : objects[id]? = none)
      (named : c = .remove id ∨ ∃ m, c = .modify id m) :
      Effect keys head nextId objects c head nextId objects .noSuchObject
  | notCreated {f : ℕ → Option α} {o : Outcome}
      (why : o = .constructorThrew ∨ o = .insertRefused) :
      Effect keys head nextId objects (.create f) head nextId objects o
  | created {f : ℕ → Option α} (v : α) (fresh : nextId ∉ objects)
      (free : ¬ Occupied keys objects nextId v) :
      Effect keys head nextId objects (.create f) (head.onCreate nextId) (nextId + 1)
        (objects.insert nextId v) .done
  | written {id : ℕ} {m : α → Edit α} {o : Outcome} (a b : α)
      (here : objects[id]? = some a)
      (ends : o = .done ∧ ¬ Occupied keys objects id b ∨ o = .modifierThrew) :
      Effect keys head nextId objects (.modify id m) (head.onModify id a) nextId
        (objects.insert id b) o
  | lost {id : ℕ} {m : α → Edit α} (a : α) (here : objects[id]? = some a) :
      Effect keys head nextId objects (.modify id m) (head.onModify id a) nextId
        (objects.erase id) .keyCollision
  | removed {id : ℕ} (a : α) (here : objects[id]? = some a) :
      Effect keys head nextId objects (.remove id) (head.onRemove id a) nextId
        (objects.erase id) .done

section Bookkeeping

variable (head : UndoState α) (id : ℕ) (v : α)

/-- A modification keeps the noted next id. -/
@[simp] theorem onModify_oldNextId : (head.onModify id v).oldNextId = head.oldNextId := by
  unfold UndoState.onModify
  split_ifs <;> rfl

/-- A removal keeps the noted next id. -/
@[simp] theorem onRemove_oldNextId : (head.onRemove id v).oldNextId = head.oldNextId := by
  unfold UndoState.onRemove
  split_ifs
  · rfl
  · cases head.oldValues[id]? <;> rfl
  · cases head.oldValues[id]? <;> rfl

/-- A creation keeps the noted next id. -/
@[simp] theorem onCreate_oldNextId : (head.onCreate id).oldNextId = head.oldNextId := rfl

end Bookkeeping

/-- No call changes the noted next id. -/
theorem Effect.oldNextId_eq {keys : List (α → κ)} {head head' : UndoState α}
    {nextId nextId' : ℕ} {objects objects' : Objects α} {c : Call α} {o : Outcome}
    (h : Effect keys head nextId objects c head' nextId' objects' o) :
    head'.oldNextId = head.oldNextId := by
  cases h <;> simp

/-- The record fits the stored objects at every id. -/
def Tracks (head : UndoState α) (objects : Objects α) : Prop :=
  ∀ k : ℕ, Fits (entry head k) objects[k]?

/-- A new session tracks the objects. -/
theorem tracks_start (nextId : ℕ) (rev : ℤ) (objects : Objects α) :
    Tracks (UndoState.start nextId rev) objects := by
  intro k
  constructor <;> simp [entry, UndoState.start]

/-- Rewinding a new session changes nothing. -/
theorem rewind_start (nextId : ℕ) (rev : ℤ) (objects : Objects α) :
    rewind (UndoState.start nextId rev) objects = objects := by
  refine Std.ExtTreeMap.ext_getElem? fun k => ?_
  rw [rewind_getElem?]
  simp [entry, UndoState.start, Entry.rewind]

/-- Unless a modification collides, a call keeps the record fitting and the
objects of the session's start recoverable from it. -/
theorem Effect.tracks {keys : List (α → κ)} {head head' : UndoState α}
    {nextId nextId' : ℕ} {objects objects' : Objects α} {c : Call α} {o : Outcome}
    (h : Effect keys head nextId objects c head' nextId' objects' o)
    (ho : o ≠ .keyCollision) (ht : Tracks head objects) :
    Tracks head' objects' ∧ rewind head' objects' = rewind head objects := by
  cases h with
  | absent _ _ => exact ⟨ht, rfl⟩
  | notCreated _ => exact ⟨ht, rfl⟩
  | lost a here => exact absurd rfl ho
  | created v fresh free =>
    have hnone : objects[nextId]? = none := Std.ExtTreeMap.getElem?_eq_none fresh
    constructor
    · intro k
      rw [entry_onCreate, getElem?_insert_nat]
      by_cases hk : k = nextId
      · subst hk
        have hfit := ht k
        rw [hnone] at hfit
        simpa using fits_noteCreate hfit v
      · rw [if_neg hk, if_neg (Ne.symm hk)]
        exact ht k
    · refine Std.ExtTreeMap.ext_getElem? fun k => ?_
      rw [rewind_getElem?, rewind_getElem?, entry_onCreate, getElem?_insert_nat]
      by_cases hk : k = nextId
      · subst hk
        have hfit := ht k
        rw [hnone] at hfit
        have hold : (entry head k).old = none := by
          cases hcase : (entry head k).old with
          | none => rfl
          | some w => exact absurd (hfit.old_live (by rw [hcase]; rfl)) (by simp)
        rw [if_pos rfl, if_pos rfl, hnone, rewind_noteCreate hold]
      · rw [if_neg hk, if_neg (Ne.symm hk)]
  | written a b here ends =>
    rename_i id m
    constructor
    · intro k
      rw [entry_onModify, getElem?_insert_nat]
      by_cases hk : k = id
      · subst hk
        have hfit := ht k
        rw [here] at hfit
        simpa using fits_noteModify hfit b
      · rw [if_neg hk, if_neg (Ne.symm hk)]
        exact ht k
    · refine Std.ExtTreeMap.ext_getElem? fun k => ?_
      rw [rewind_getElem?, rewind_getElem?, entry_onModify, getElem?_insert_nat]
      by_cases hk : k = id
      · subst hk
        rw [if_pos rfl, if_pos rfl, here, rewind_noteModify]
      · rw [if_neg hk, if_neg (Ne.symm hk)]
  | removed a here =>
    rename_i id
    constructor
    · intro k
      rw [entry_onRemove, getElem?_erase_nat]
      by_cases hk : k = id
      · subst hk
        have hfit := ht k
        rw [here] at hfit
        simpa using fits_noteRemove hfit
      · rw [if_neg hk, if_neg (Ne.symm hk)]
        exact ht k
    · refine Std.ExtTreeMap.ext_getElem? fun k => ?_
      rw [rewind_getElem?, rewind_getElem?, entry_onRemove, getElem?_erase_nat]
      by_cases hk : k = id
      · subst hk
        rw [if_pos rfl, if_pos rfl, here, rewind_noteRemove (ht k).old_not_created]
      · rw [if_neg hk, if_neg (Ne.symm hk)]

variable [DecidableEq κ]

/-- Every call has one of these effects, on the newest state only if there is one. -/
theorem call_effect (keys : List (α → κ)) (stack : List (UndoState α)) (rev : ℤ)
    (nextId : ℕ) (objects : Objects α) (c : Call α) :
    ∃ note nextId' objects' o,
      GenericIndex.call keys ⟨stack, rev, nextId, objects⟩ c =
        (⟨stack.modifyHead note, rev, nextId', objects'⟩, o) ∧
      ∀ head, Effect keys head nextId objects c (note head) nextId' objects' o := by
  have hsame : stack.modifyHead (fun head => head) = stack := by cases stack <;> rfl
  cases c with
  | create f =>
    cases hf : f nextId with
    | none =>
      exact ⟨fun head => head, nextId, objects, .constructorThrew,
        by simp [GenericIndex.call, GenericIndex.emplace, hf, hsame],
        fun _ => .notCreated (.inl rfl)⟩
    | some v =>
      cases hins : MultiIndex.emplace keys objects nextId v with
      | none =>
        exact ⟨fun head => head, nextId, objects, .insertRefused,
          by simp [GenericIndex.call, GenericIndex.emplace, hf, hins, hsame],
          fun _ => .notCreated (.inr rfl)⟩
      | some after =>
        obtain ⟨hfresh, hfree, rfl⟩ := emplace_eq_some hins
        exact ⟨(·.onCreate nextId), nextId + 1, objects.insert nextId v, .done,
          by simp [GenericIndex.call, GenericIndex.emplace, hf, hins, GenericIndex.withHead],
          fun _ => .created v hfresh hfree⟩
  | modify id m =>
    cases hget : objects[id]? with
    | none =>
      exact ⟨fun head => head, nextId, objects, .noSuchObject,
        by simp only [GenericIndex.call, GenericIndex.modify, hget, hsame],
        fun _ => .absent hget (.inr ⟨m, rfl⟩)⟩
    | some a =>
      cases hm : m a with
      | throws b =>
        exact ⟨(·.onModify id a), nextId, objects.insert id b, .modifierThrew,
          by simp only [GenericIndex.call, GenericIndex.modify, hget, hm,
            GenericIndex.withHead],
          fun _ => .written a b hget (.inr rfl)⟩
      | finishes b =>
        by_cases hocc : Occupied keys objects id b
        · exact ⟨(·.onModify id a), nextId, objects.erase id, .keyCollision,
            by simp only [GenericIndex.call, GenericIndex.modify, hget, hm,
              GenericIndex.withHead, MultiIndex.modify, hocc, if_true],
            fun _ => .lost a hget⟩
        · exact ⟨(·.onModify id a), nextId, objects.insert id b, .done,
            by simp only [GenericIndex.call, GenericIndex.modify, hget, hm,
              GenericIndex.withHead, MultiIndex.modify, hocc, if_false],
            fun _ => .written a b hget (.inl ⟨rfl, hocc⟩)⟩
  | remove id =>
    cases hget : objects[id]? with
    | none =>
      exact ⟨fun head => head, nextId, objects, .noSuchObject,
        by simp only [GenericIndex.call, GenericIndex.remove, hget, hsame],
        fun _ => .absent hget (.inl rfl)⟩
    | some a =>
      exact ⟨(·.onRemove id a), nextId, objects.erase id, .done,
        by simp only [GenericIndex.call, GenericIndex.remove, hget, GenericIndex.withHead],
        fun _ => .removed a hget⟩

/-- Induction over the calls of a session: what every effect with an allowed
outcome keeps holds after all of them. -/
theorem calls_induction (keys : List (α → κ)) (allowed : Outcome → Prop)
    (P : List (Call α) → UndoState α → ℕ → Objects α → Prop)
    (step : ∀ made head nextId objects c head' nextId' objects' o,
      Effect keys head nextId objects c head' nextId' objects' o → allowed o →
        P made head nextId objects → P (made ++ [c]) head' nextId' objects')
    (rest : List (UndoState α)) (rev : ℤ) (script made : List (Call α))
    (head : UndoState α) (nextId : ℕ) (objects : Objects α)
    (hall : ∀ o ∈ (GenericIndex.calls keys ⟨head :: rest, rev, nextId, objects⟩ script).2,
      allowed o)
    (hstart : P made head nextId objects) :
    ∃ head' nextId' objects',
      (GenericIndex.calls keys ⟨head :: rest, rev, nextId, objects⟩ script).1 =
        ⟨head' :: rest, rev, nextId', objects'⟩ ∧
      P (made ++ script) head' nextId' objects' := by
  induction script generalizing made head nextId objects with
  | nil => exact ⟨head, nextId, objects, rfl, by simpa using hstart⟩
  | cons c script ih =>
    obtain ⟨note, nextId₁, objects₁, o, hcall, heff⟩ :=
      call_effect keys (head :: rest) rev nextId objects c
    simp only [GenericIndex.calls, hcall, List.modifyHead_cons] at hall ⊢
    have hnext := step made head nextId objects c (note head) nextId₁ objects₁ o (heff head)
      (hall o (List.mem_cons_self ..)) hstart
    obtain ⟨head', nextId', objects', hrun, hend⟩ :=
      ih (made ++ [c]) (note head) nextId₁ objects₁
        (fun o' ho' => hall o' (List.mem_cons_of_mem _ ho')) hnext
    exact ⟨head', nextId', objects', hrun, by simpa using hend⟩

end Effects

section Undo

variable [DecidableEq κ]

/-- `undo` succeeds exactly if the newest record can be taken back, and drops it. -/
theorem undo_cons_eq_ok {keys : List (α → κ)} {head : UndoState α}
    {rest : List (UndoState α)} {rev : ℤ} {nextId : ℕ} {objects : Objects α}
    {r : GenericIndex α} :
    GenericIndex.undo keys ⟨head :: rest, rev, nextId, objects⟩ = .ok r ↔
      ∃ restored, head.restore keys objects = .ok restored ∧
        r = ⟨rest, rev - 1, head.oldNextId, restored⟩ := by
  simp only [GenericIndex.undo]
  cases head.restore keys objects with
  | error err => simp [bind, Except.bind]
  | ok restored => simp [bind, Except.bind, pure, Except.pure, eq_comm]

/-- With a fitting record `undo` can fail only on an occupied key. -/
theorem Tracks.restore_eq_ok {keys : List (α → κ)} {head : UndoState α}
    {objects restored : Objects α} (ht : Tracks head objects) :
    head.restore keys objects = .ok restored ↔
      NoTakeover keys head.oldValues.toList objects ∧
        (∀ k v, head.removedValues[k]? = some v →
          ¬ Occupied keys (rewind head objects) k v) ∧
        restored = rewind head objects := by
  have hlive : ∀ k ∈ head.oldValues, k ∈ objects := by
    intro k hk
    rw [Std.ExtTreeMap.mem_iff_isSome_getElem?] at hk ⊢
    exact (ht k).old_live hk
  have hnew : ∀ k ∈ head.newIds, k ∈ objects := by
    intro k hk
    rw [Std.ExtTreeMap.mem_iff_isSome_getElem?]
    exact (ht k).created_live (by simpa [entry] using hk)
  have hgone : ∀ k v, head.removedValues[k]? = some v → k ∉ cleared head objects := by
    intro k v hv hin
    rw [Std.ExtTreeMap.mem_iff_isSome_getElem?, cleared_getElem?] at hin
    by_cases hk : k ∈ head.newIds
    · simp [hk] at hin
    · rw [if_neg hk] at hin
      have hsome : objects[k]?.isSome := by
        cases hold : head.oldValues[k]? with
        | none => simpa [hold] using hin
        | some w => exact (ht k).old_live (by simp [entry, hold])
      have hcreated := (ht k).removed_gone (by simp [entry, hv]) hsome
      exact hk (by simpa [entry] using hcreated)
  rw [UndoRestore.restore_eq_ok]
  have hsettled : Settled keys head.removedValues.toList (cleared head objects) ↔
      ∀ k v, head.removedValues[k]? = some v →
        ¬ Occupied keys (rewind head objects) k v := by
    constructor
    · intro h k v hv hocc
      obtain ⟨j, b, hne, hj, hclash⟩ := occupied_iff.mp hocc
      exact (h (k, v) (Std.ExtTreeMap.mem_toList_iff_getElem?_eq_some.mpr hv)).2 j b hne hj
        hclash
    · rintro h ⟨k, v⟩ he
      have hv := Std.ExtTreeMap.mem_toList_iff_getElem?_eq_some.mp he
      refine ⟨hgone k v hv, fun j b hne hj hclash => ?_⟩
      exact h k v hv (occupied_iff.mpr ⟨j, b, hne, hj, hclash⟩)
  rw [hsettled]
  constructor
  · rintro ⟨-, -, hno, hrem, hres⟩
    exact ⟨hno, hrem, hres⟩
  · rintro ⟨hno, hrem, hres⟩
    exact ⟨hlive, hnew, hno, hrem, hres⟩

/-- After the calls of a session none of which collides, the record fits and
leads back to the objects of the session's start. -/
theorem session_tracks (keys : List (α → κ)) (idx : GenericIndex α) (script : List (Call α))
    (hno : ∀ o ∈ (idx.startUndoSession.calls keys script).2, o ≠ .keyCollision) :
    ∃ head nextId objects,
      (idx.startUndoSession.calls keys script).1 =
        ⟨head :: idx.stack, idx.revision + 1, nextId, objects⟩ ∧
      head.oldNextId = idx.nextId ∧ Tracks head objects ∧
        rewind head objects = idx.indices := by
  have h := calls_induction keys (· ≠ .keyCollision)
    (fun _ head _ objects => head.oldNextId = idx.nextId ∧ Tracks head objects ∧
      rewind head objects = idx.indices)
    (fun _ _ _ _ _ _ _ _ _ heff ho hP => by
      obtain ⟨hid, ht, hrew⟩ := hP
      obtain ⟨ht', hrew'⟩ := heff.tracks ho ht
      exact ⟨heff.oldNextId_eq.trans hid, ht', hrew'.trans hrew⟩)
    idx.stack (idx.revision + 1) script [] (UndoState.start idx.nextId (idx.revision + 1))
    idx.nextId idx.indices hno ⟨rfl, tracks_start _ _ _, rewind_start _ _ _⟩
  exact h

/-- With the id as the only unique key, `undo` restores the objects, the next id,
the revision and the undo stack of the session's start, whatever the session did. -/
theorem undo_session_exact (idx : GenericIndex α) (script : List (Call α))
    (hdone : ∀ o ∈ (idx.startUndoSession.calls ([] : List (α → κ)) script).2, o = .done) :
    (idx.startUndoSession.calls ([] : List (α → κ)) script).1.undo ([] : List (α → κ)) =
      .ok idx := by
  obtain ⟨head, nextId, objects, hrun, hid, ht, hrew⟩ :=
    session_tracks ([] : List (α → κ)) idx script
      fun o ho hcol => by rw [hdone o ho] at hcol; cases hcol
  rw [hrun, undo_cons_eq_ok]
  refine ⟨idx.indices, ?_, ?_⟩
  · rw [ht.restore_eq_ok, hrew]
    refine ⟨⟨?_, ?_⟩, ?_, rfl⟩
    · exact fun _ _ _ _ _ _ => not_clash_nil _ _
    · exact fun _ _ _ _ _ _ => not_clash_nil _ _
    · intro k v _ hocc
      obtain ⟨_, _, _, _, hclash⟩ := occupied_iff.mp hocc
      exact not_clash_nil _ _ hclash
  · rw [hid, Int.add_sub_cancel]

/-- Two objects, the ids 0 and 1, and no session. -/
def twoObjects : GenericIndex ℕ := ⟨[], 7, 2, ((∅ : Objects ℕ).insert 0 10).insert 1 20⟩

/-- Modify an object twice and remove it, create one, modify it and remove it,
create another and modify the object that stays. -/
def busyScript : List (Call ℕ) :=
  [.modify 0 fun v => .finishes (v + 1), .modify 0 fun v => .finishes (v + 1), .remove 0,
    .create fun id => some (100 + id), .modify 2 fun v => .finishes (v + 1), .remove 2,
    .create fun id => some (100 + id), .modify 1 fun v => .finishes (v + 1)]

/-- The session of the busy script is undone exactly. -/
theorem undo_session_exact_busyScript :
    (twoObjects.startUndoSession.calls ([] : List (ℕ → ℕ)) busyScript).1.undo
      ([] : List (ℕ → ℕ)) = .ok twoObjects :=
  undo_session_exact twoObjects busyScript (by decide)

end Undo

section FreshIds

/-- The ids under which objects are stored. -/
def Stored (objects : Objects α) : ℕ → Prop := fun k => objects[k]?.isSome

/-- The ids a session meets: those it creates start at its first free id, those
it records as modified or removed lie below. -/
structure Ordered (head : UndoState α) (nextId : ℕ) (live : ℕ → Prop) : Prop where
  /-- The first free id of the session never exceeds the present one. -/
  start_le : head.oldNextId ≤ nextId
  /-- Live ids lie below the next free one. -/
  live_lt : ∀ k : ℕ, live k → k < nextId
  /-- A live id from the session's first free id on was created in it. -/
  live_created : ∀ k : ℕ, live k → head.oldNextId ≤ k → (entry head k).created
  /-- A created id is at least the session's first free id. -/
  created_ge : ∀ k : ℕ, (entry head k).created → head.oldNextId ≤ k ∧ k < nextId
  /-- A recorded value belongs to an object from before the session. -/
  recorded_lt : ∀ k : ℕ, (entry head k).old.isSome ∨ (entry head k).removed.isSome →
    k < head.oldNextId
  /-- A removed object never lives again. -/
  removed_dead : ∀ k : ℕ, (entry head k).removed.isSome → ¬ live k

/-- A new session is ordered. -/
theorem ordered_start {nextId : ℕ} {live : ℕ → Prop} (rev : ℤ)
    (hfresh : ∀ k : ℕ, live k → k < nextId) :
    Ordered (UndoState.start nextId rev : UndoState α) nextId live := by
  refine ⟨le_rfl, hfresh, ?_, ?_, ?_, ?_⟩
  · intro k hk hle
    exact absurd (hfresh k hk) (Nat.not_lt.mpr hle)
  · intro k hk
    simp [entry, UndoState.start] at hk
  · intro k hk
    simp [entry, UndoState.start] at hk
  · intro k hk
    simp [entry, UndoState.start] at hk

section Ranges

variable {head : UndoState α} {nextId : ℕ} {live : ℕ → Prop} {k : ℕ}

/-- An id of this session has no old value. -/
theorem Ordered.old_eq_none (h : Ordered head nextId live) (hk : head.oldNextId ≤ k) :
    (entry head k).old = none := by
  cases hold : (entry head k).old with
  | none => rfl
  | some v =>
    exact absurd (h.recorded_lt k (.inl (by rw [hold]; rfl))) (Nat.not_lt.mpr hk)

/-- An id of this session is not noted as removed. -/
theorem Ordered.removed_eq_none (h : Ordered head nextId live) (hk : head.oldNextId ≤ k) :
    (entry head k).removed = none := by
  cases hrem : (entry head k).removed with
  | none => rfl
  | some v =>
    exact absurd (h.recorded_lt k (.inr (by rw [hrem]; rfl))) (Nat.not_lt.mpr hk)

/-- An id from before this session is not noted as created. -/
theorem Ordered.created_eq_false (h : Ordered head nextId live) (hk : k < head.oldNextId) :
    (entry head k).created = false := by
  by_contra hc
  exact absurd (h.created_ge k (by simpa using hc)).1 (Nat.not_le.mpr hk)

end Ranges

/-- A recorded change of the object `id`, which may end its life. -/
theorem Ordered.change {head head' : UndoState α} {nextId : ℕ} {live live' : ℕ → Prop}
    (h : Ordered head nextId live) (id : ℕ) (hlive : live id)
    (hid : head'.oldNextId = head.oldNextId)
    (hother : ∀ k, k ≠ id → entry head' k = entry head k)
    (hobj : ∀ k, k ≠ id → live' k → live k)
    (hcreated : (entry head' id).created → (entry head id).created)
    (hkept : live' id → (entry head id).created → (entry head' id).created)
    (hold : (entry head' id).old.isSome → (entry head id).created →
      (entry head id).old.isSome)
    (hrem : (entry head' id).removed.isSome → (entry head id).created →
      (entry head id).removed.isSome)
    (hdead : live' id → (entry head' id).removed.isSome → (entry head id).removed.isSome) :
    Ordered head' nextId live' := by
  refine ⟨by rw [hid]; exact h.start_le, ?_, ?_, ?_, ?_, ?_⟩
  · intro k hk
    by_cases hne : k = id
    · exact hne ▸ h.live_lt id hlive
    · exact h.live_lt k (hobj k hne hk)
  · intro k hk hle
    rw [hid] at hle
    by_cases hne : k = id
    · subst hne
      exact hkept hk (h.live_created k hlive hle)
    · rw [hother k hne]
      exact h.live_created k (hobj k hne hk) hle
  · intro k hk
    rw [hid]
    by_cases hne : k = id
    · subst hne
      exact h.created_ge k (hcreated hk)
    · rw [hother k hne] at hk
      exact h.created_ge k hk
  · intro k hk
    rw [hid]
    by_cases hne : k = id
    · subst hne
      by_contra hge
      have hc := h.live_created k hlive (Nat.le_of_not_lt hge)
      have hrec : (entry head k).old.isSome ∨ (entry head k).removed.isSome :=
        hk.imp (fun ho => hold ho hc) (fun hr => hrem hr hc)
      exact hge (h.recorded_lt k hrec)
    · rw [hother k hne] at hk
      exact h.recorded_lt k hk
  · intro k hk hlive'
    by_cases hne : k = id
    · subst hne
      exact h.removed_dead k (hdead hlive' hk) hlive
    · rw [hother k hne] at hk
      exact h.removed_dead k hk (hobj k hne hlive')

/-- Every call keeps the ids in order, however it ends. -/
theorem Effect.ordered {keys : List (α → κ)} {head head' : UndoState α}
    {nextId nextId' : ℕ} {objects objects' : Objects α} {c : Call α} {o : Outcome}
    (h : Effect keys head nextId objects c head' nextId' objects' o)
    (hord : Ordered head nextId (Stored objects)) : Ordered head' nextId' (Stored objects') := by
  cases h with
  | absent _ _ => exact hord
  | notCreated _ => exact hord
  | created v fresh free =>
    have hstored : ∀ k, k ≠ nextId → Stored (objects.insert nextId v) k → Stored objects k := by
      intro k hne hk
      rw [Stored, getElem?_insert_nat, if_neg (Ne.symm hne)] at hk
      exact hk
    refine ⟨Nat.le_succ_of_le hord.start_le, ?_, ?_, ?_, ?_, ?_⟩
    · intro k hk
      by_cases hne : k = nextId
      · omega
      · exact Nat.lt_succ_of_lt (hord.live_lt k (hstored k hne hk))
    · intro k hk hle
      rw [entry_onCreate]
      by_cases hne : k = nextId
      · simp [hne, Entry.noteCreate]
      · rw [if_neg hne]
        exact hord.live_created k (hstored k hne hk) hle
    · intro k hk
      rw [entry_onCreate] at hk
      by_cases hne : k = nextId
      · subst hne
        exact ⟨hord.start_le, Nat.lt_succ_self k⟩
      · rw [if_neg hne] at hk
        obtain ⟨hge, hlt⟩ := hord.created_ge k hk
        exact ⟨hge, Nat.lt_succ_of_lt hlt⟩
    · intro k hk
      rw [entry_onCreate] at hk
      by_cases hne : k = nextId
      · rw [if_pos hne] at hk
        exact hord.recorded_lt k hk
      · rw [if_neg hne] at hk
        exact hord.recorded_lt k hk
    · intro k hk hlive
      rw [entry_onCreate] at hk
      by_cases hne : k = nextId
      · rw [if_pos hne] at hk
        have hlt := hord.recorded_lt k (.inr hk)
        exact absurd hord.start_le (by omega)
      · rw [if_neg hne] at hk
        exact hord.removed_dead k hk (hstored k hne hlive)
  | written a b here ends =>
    rename_i id m
    refine hord.change id (by rw [Stored, here]; rfl) (onModify_oldNextId ..) ?_ ?_ ?_ ?_ ?_ ?_ ?_
    · intro k hk
      rw [entry_onModify, if_neg hk]
    · intro k hk hlive
      rw [Stored, getElem?_insert_nat, if_neg (Ne.symm hk)] at hlive
      exact hlive
    all_goals rw [entry_onModify, if_pos rfl]
    all_goals cases hc : (entry head id).created <;> simp [Entry.noteModify, hc]
  | lost a here =>
    rename_i id m
    refine hord.change id (by rw [Stored, here]; rfl) (onModify_oldNextId ..) ?_ ?_ ?_ ?_ ?_ ?_ ?_
    · intro k hk
      rw [entry_onModify, if_neg hk]
    · intro k hk hlive
      rw [Stored, getElem?_erase_nat, if_neg (Ne.symm hk)] at hlive
      exact hlive
    all_goals rw [entry_onModify, if_pos rfl]
    all_goals cases hc : (entry head id).created <;> simp [Entry.noteModify, hc]
  | removed a here =>
    rename_i id
    have hgone : ¬ Stored (objects.erase id) id := by
      rw [Stored, getElem?_erase_nat, if_pos rfl]
      simp
    refine hord.change id (by rw [Stored, here]; rfl) (onRemove_oldNextId ..) ?_ ?_ ?_ ?_ ?_ ?_
      (fun hlive => absurd hlive hgone)
    · intro k hk
      rw [entry_onRemove, if_neg hk]
    · intro k hk hlive
      rw [Stored, getElem?_erase_nat, if_neg (Ne.symm hk)] at hlive
      exact hlive
    · rw [entry_onRemove, if_pos rfl]
      cases hc : (entry head id).created <;> simp [Entry.noteRemove, hc]
    · exact fun hlive => absurd hlive hgone
    · rw [entry_onRemove, if_pos rfl]
      cases hc : (entry head id).created <;> simp [Entry.noteRemove, hc]
    · rw [entry_onRemove, if_pos rfl]
      cases hc : (entry head id).created <;> simp [Entry.noteRemove, hc]

end FreshIds

end Whaleshares.UndoSession
