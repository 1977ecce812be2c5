import Whaleshares.UndoSession

/-!
# Undo with unique secondary keys

`undo` writes the modified objects back while the objects created in the session
are still stored, and it does so one object at a time in ascending order of id. A
key that a session gave to a greater id is therefore still occupied when its
former holder is written back, and `undo` throws, although the objects of the
session's start had no clash.

A modification that collides has been recorded before the container erased the
object. The record then names an element that is gone, and `undo` uses the end
iterator. Both conditions are exact: without them `undo` restores the index.
-/

namespace Whaleshares.UndoCollisions

open MultiIndex Chainbase UndoRestore UndoSession

universe u v

variable {α : Type u} {κ : Type v}

/-- What the container and the id counter guarantee between sessions: stored ids
lie below the next free one and no two objects share a unique key. -/
structure WellFormed (keys : List (α → κ)) (idx : GenericIndex α) : Prop where
  /-- Stored ids lie below the next free one. -/
  fresh : ∀ k : ℕ, Stored idx.indices k → k < idx.nextId
  /-- No two stored objects share a unique key. -/
  unique : Unique keys idx.indices

/-- An object kept since before `before` has lost its key to a greater id. -/
def TakenOver (keys : List (α → κ)) (before now : Objects α) : Prop :=
  ∃ (x z : ℕ) (a b : α), x < z ∧ before[x]? = some a ∧ x ∈ now ∧ now[z]? = some b ∧ Clash keys a b

/-- An object recorded as modified finds its old key held by a greater id. -/
def RecordedTakeover (keys : List (α → κ)) (head : UndoState α) (now : Objects α) : Prop :=
  ∃ (x z : ℕ) (a b : α), x < z ∧ head.oldValues[x]? = some a ∧ now[z]? = some b ∧ Clash keys a b

section Recorded

variable {keys : List (α → κ)} {head : UndoState α} {nextId : ℕ} {objects : Objects α}

/-- An object from before the session that is still stored is rewound to its
recorded value, or kept when there is none. -/
theorem rewind_of_live (hord : Ordered head nextId (Stored objects)) {k : ℕ}
    (hk : k < head.oldNextId) (hlive : Stored objects k) :
    (rewind head objects)[k]? = head.oldValues[k]?.or objects[k]? := by
  have hremoved : (entry head k).removed = none := by
    cases hrem : (entry head k).removed with
    | none => rfl
    | some v => exact absurd hlive (hord.removed_dead k (by rw [hrem]; rfl))
  rw [rewind_getElem?, Entry.rewind, hord.created_eq_false hk, hremoved]
  rfl

/-- Rewinding gives the old value where one is recorded. -/
theorem rewind_of_old (ht : Tracks head objects) (hord : Ordered head nextId (Stored objects))
    {k : ℕ} {v : α} (hv : head.oldValues[k]? = some v) :
    (rewind head objects)[k]? = some v := by
  have hold : (entry head k).old.isSome := by simp [entry, hv]
  rw [rewind_of_live hord (hord.recorded_lt k (.inl hold)) ((ht k).old_live hold), hv]
  rfl

/-- A removed object is rewound to its recorded value. -/
theorem rewind_of_removed {k : ℕ} {v : α} (hv : head.removedValues[k]? = some v) :
    (rewind head objects)[k]? = some v := by
  rw [rewind_getElem?, Entry.rewind]
  simp [entry, hv]

/-- The record holds a value for the object. -/
def Touched (head : UndoState α) (k : ℕ) : Prop :=
  (entry head k).old.isSome ∨ (entry head k).removed.isSome

/-- Among the rewound objects no touched one shares a key with another. -/
def ClashFree (keys : List (α → κ)) (head : UndoState α) (objects : Objects α) : Prop :=
  ∀ x a, Touched head x → (rewind head objects)[x]? = some a →
    ¬ Occupied keys (rewind head objects) x a

/-- Without clashes at the start no restored value meets another. -/
theorem clashFree_of_unique (h : Unique keys (rewind head objects)) :
    ClashFree keys head objects :=
  fun _ _ _ hx => h.not_occupied hx

variable [DecidableEq κ]

/-- Where the touched objects of the session's start shared no key with another,
`undo` fails exactly on a recorded takeover. -/
theorem restore_eq_ok_iff (ht : Tracks head objects)
    (hord : Ordered head nextId (Stored objects)) (hfree : ClashFree keys head objects)
    {restored : Objects α} :
    head.restore keys objects = .ok restored ↔
      ¬ RecordedTakeover keys head objects ∧ restored = rewind head objects := by
  rw [ht.restore_eq_ok]
  have hrem : ∀ k v, head.removedValues[k]? = some v →
      ¬ Occupied keys (rewind head objects) k v :=
    fun k v hv => hfree k v (.inr (by simp [entry, hv])) (rewind_of_removed hv)
  have hsmall : ∀ e ∈ head.oldValues.toList, ∀ k b, k < e.1 →
      (overlay head.oldValues.toList objects)[k]? = some b → ¬ Clash keys e.2 b := by
    rintro ⟨x, a⟩ he k b hk hget hclash
    have ha := Std.ExtTreeMap.mem_toList_iff_getElem?_eq_some.mp he
    have hx : x < head.oldNextId := hord.recorded_lt x (.inl (by simp [entry, ha]))
    rw [overlay_getElem? (KeyedFold.distinctKeys_toList _), KeyedFold.lookup_toList] at hget
    have hlive : Stored objects k := by
      cases hold : head.oldValues[k]? with
      | none =>
        rw [hold] at hget
        change objects[k]? = some b at hget
        rw [Stored, hget]
        rfl
      | some w => exact (ht k).old_live (by simp [entry, hold])
    have hb : (rewind head objects)[k]? = some b := by
      rw [rewind_of_live hord (lt_trans hk hx) hlive, hget]
    exact hfree x a (.inl (by simp [entry, ha])) (rewind_of_old ht hord ha)
      (occupied_iff.mpr ⟨k, b, Nat.ne_of_lt hk, hb, hclash⟩)
  have hgreat : (∀ e ∈ head.oldValues.toList, ∀ k b, e.1 < k → objects[k]? = some b →
      ¬ Clash keys e.2 b) ↔ ¬ RecordedTakeover keys head objects := by
    constructor
    · rintro h ⟨x, z, a, b, hlt, ha, hb, hclash⟩
      exact h (x, a) (Std.ExtTreeMap.mem_toList_iff_getElem?_eq_some.mpr ha) z b hlt hb hclash
    · rintro h ⟨x, a⟩ he z b hlt hb hclash
      exact h ⟨x, z, a, b, hlt, Std.ExtTreeMap.mem_toList_iff_getElem?_eq_some.mp he, hb,
        hclash⟩
  constructor
  · rintro ⟨⟨-, hno⟩, -, hres⟩
    exact ⟨hgreat.mp hno, hres⟩
  · rintro ⟨hno, hres⟩
    exact ⟨⟨hsmall, hgreat.mpr hno⟩, hrem, hres⟩

end Recorded

section Successful

variable {keys : List (α → κ)} {head : UndoState α} {nextId : ℕ} {objects : Objects α}

/-- While the stored keys stay unique, a takeover between the two ends of the
session is one that the record shows. -/
theorem takenOver_iff_recorded (ht : Tracks head objects) (hord : Ordered head nextId (Stored objects))
    (hbefore : ∀ k : ℕ, Stored (rewind head objects) k → k < head.oldNextId)
    (hnow : Unique keys objects) :
    TakenOver keys (rewind head objects) objects ↔ RecordedTakeover keys head objects := by
  constructor
  · rintro ⟨x, z, a, b, hlt, ha, hx, hb, hclash⟩
    rw [Std.ExtTreeMap.mem_iff_isSome_getElem?] at hx
    refine ⟨x, z, a, b, hlt, ?_, hb, hclash⟩
    rw [rewind_of_live hord (hbefore x (by rw [Stored, ha]; rfl)) hx] at ha
    cases hold : head.oldValues[x]? with
    | none =>
      rw [hold] at ha
      exact absurd hclash (hnow x z a b (Nat.ne_of_lt hlt) ha hb)
    | some w =>
      rw [hold] at ha
      exact ha
  · rintro ⟨x, z, a, b, hlt, ha, hb, hclash⟩
    refine ⟨x, z, a, b, hlt, rewind_of_old ht hord ha, ?_, hb, hclash⟩
    rw [Std.ExtTreeMap.mem_iff_isSome_getElem?]
    exact (ht x).old_live (by simp [entry, ha])

/-- A call that succeeds keeps the stored keys unique. -/
theorem Effect.unique {head' : UndoState α} {nextId' : ℕ} {objects' : Objects α} {c : Call α}
    (h : Effect keys head nextId objects c head' nextId' objects' .done)
    (hu : Unique keys objects) : Unique keys objects' := by
  cases h with
  | notCreated why => rcases why with h | h <;> cases h
  | created v fresh free => exact hu.insert free
  | written a b here ends =>
    rcases ends with ⟨-, free⟩ | h
    · exact hu.insert free
    · cases h
  | removed a here => exact hu.erase _

variable [DecidableEq κ]

/-- For a session whose calls all succeed, `undo` restores the objects of the
session's start exactly when no key has passed to a greater id. -/
theorem undo_restores_iff_not_takenOver (keys : List (α → κ)) (idx : GenericIndex α)
    (hwf : WellFormed keys idx) (script : List (Call α))
    (hdone : ∀ o ∈ (idx.startUndoSession.calls keys script).2, o = .done) :
    (∃ r, (idx.startUndoSession.calls keys script).1.undo keys = .ok r ∧
        r.indices = idx.indices) ↔
      ¬ TakenOver keys idx.indices (idx.startUndoSession.calls keys script).1.indices := by
  obtain ⟨head, nextId, objects, hrun, hid, ht, hrew, hord, hunique⟩ := calls_induction keys
    (· = .done)
    (fun _ head nextId objects => head.oldNextId = idx.nextId ∧ Tracks head objects ∧
      rewind head objects = idx.indices ∧ Ordered head nextId (Stored objects) ∧ Unique keys objects)
    (fun _ _ _ _ _ _ _ _ _ heff ho hP => by
      obtain ⟨hid, ht, hrew, hord, hu⟩ := hP
      subst ho
      obtain ⟨ht', hrew'⟩ := heff.tracks (by simp) ht
      exact ⟨heff.oldNextId_eq.trans hid, ht', hrew'.trans hrew, heff.ordered hord,
        Effect.unique heff hu⟩)
    idx.stack (idx.revision + 1) script [] (UndoState.start idx.nextId (idx.revision + 1))
    idx.nextId idx.indices hdone
    ⟨rfl, tracks_start _ _ _, rewind_start _ _ _, ordered_start _ hwf.fresh, hwf.unique⟩
  change (idx.startUndoSession.calls keys script).1 = _ at hrun
  have hbefore : ∀ k : ℕ, Stored (rewind head objects) k → k < head.oldNextId := by
    rw [hrew, hid]
    exact hwf.fresh
  rw [hrun, ← hrew, takenOver_iff_recorded ht hord hbefore hunique]
  constructor
  · rintro ⟨r, hundo, -⟩
    obtain ⟨restored, hrestore, -⟩ := undo_cons_eq_ok.mp hundo
    exact ((restore_eq_ok_iff ht hord (clashFree_of_unique (hrew ▸ hwf.unique))).mp hrestore).1
  · intro hno
    refine ⟨_, undo_cons_eq_ok.mpr ⟨rewind head objects, ?_, rfl⟩, rfl⟩
    exact (restore_eq_ok_iff ht hord (clashFree_of_unique (hrew ▸ hwf.unique))).mpr ⟨hno, rfl⟩

/-- One object, whose value is its own unique key. -/
def oneObject : GenericIndex ℕ := ⟨[], 0, 1, (∅ : Objects ℕ).insert 0 10⟩

/-- The value of an object as its unique key. -/
def valueKey : List (ℕ → ℕ) := [fun v => v]

/-- The index of one object is well formed. -/
theorem wellFormed_oneObject : WellFormed valueKey oneObject := by
  refine ⟨?_, ?_⟩
  · intro k hk
    simp only [Stored, oneObject, getElem?_insert_nat] at hk ⊢
    split_ifs at hk with hzero
    · omega
    · simp at hk
  · refine Unique.insert (unique_empty valueKey) ?_
    rw [occupied_iff]
    rintro ⟨k, b, -, hk, -⟩
    simp at hk

/-- Give the object another key and its old key to a new object. -/
def handOverScript : List (Call ℕ) :=
  [.modify 0 fun _ => .finishes 20, .create fun _ => some 10]

/-- A session that hands a key over is not undone. -/
theorem undo_session_handOver_throws :
    WellFormed valueKey oneObject ∧
      (∀ o ∈ (oneObject.startUndoSession.calls valueKey handOverScript).2, o = .done) ∧
      (oneObject.startUndoSession.calls valueKey handOverScript).1.undo valueKey =
        .error .couldNotModify :=
  ⟨wellFormed_oneObject, by decide, rfl⟩

/-- Where a session takes a free key, `undo` restores the objects exactly if no key was taken over.
-/
theorem undo_restores_iff_not_takenOver_freeKey :
    (∃ r, (oneObject.startUndoSession.calls valueKey
        [.modify 0 fun _ => .finishes 20, .create fun _ => some 30]).1.undo valueKey = .ok r ∧
          r.indices = oneObject.indices) ↔
      ¬ TakenOver valueKey oneObject.indices (oneObject.startUndoSession.calls valueKey
        [.modify 0 fun _ => .finishes 20, .create fun _ => some 30]).1.indices :=
  undo_restores_iff_not_takenOver valueKey oneObject wellFormed_oneObject _ (by decide)

end Successful

section Failing

variable {keys : List (α → κ)} {head head' : UndoState α} {nextId nextId' : ℕ}
  {objects objects' : Objects α} {c : Call α} {o : Outcome}

/-- The record names an object that is gone and whose id is never given again. -/
def Lost (head : UndoState α) (nextId : ℕ) (objects : Objects α) : Prop :=
  ∃ x : ℕ, x < nextId ∧ objects[x]? = none ∧
    ((entry head x).old.isSome ∨ (entry head x).created)

/-- A call on a stored object leaves the record of a lost one as it is. -/
theorem ne_of_stored {id x : ℕ} {a : α} (here : objects[id]? = some a)
    (gone : objects[x]? = none) : x ≠ id := by
  rintro rfl
  rw [here] at gone
  cases gone

/-- A lost object stays lost in the session. -/
theorem Effect.lost (h : Effect keys head nextId objects c head' nextId' objects' o)
    (hl : Lost head nextId objects) : Lost head' nextId' objects' := by
  obtain ⟨x, hx, hgone, hrec⟩ := hl
  cases h with
  | absent _ _ => exact ⟨x, hx, hgone, hrec⟩
  | notCreated _ => exact ⟨x, hx, hgone, hrec⟩
  | created v fresh free =>
    have hne : x ≠ nextId := Nat.ne_of_lt hx
    refine ⟨x, Nat.lt_succ_of_lt hx, ?_, ?_⟩
    · rw [getElem?_insert_nat, if_neg hne.symm, hgone]
    · rw [entry_onCreate, if_neg hne]
      exact hrec
  | written a b here ends =>
    have hne := ne_of_stored here hgone
    refine ⟨x, hx, ?_, ?_⟩
    · rw [getElem?_insert_nat, if_neg hne.symm, hgone]
    · rw [entry_onModify, if_neg hne]
      exact hrec
  | lost a here =>
    have hne := ne_of_stored here hgone
    refine ⟨x, hx, ?_, ?_⟩
    · rw [getElem?_erase_nat, if_neg hne.symm, hgone]
    · rw [entry_onModify, if_neg hne]
      exact hrec
  | removed a here =>
    have hne := ne_of_stored here hgone
    refine ⟨x, hx, ?_, ?_⟩
    · rw [getElem?_erase_nat, if_neg hne.symm, hgone]
    · rw [entry_onRemove, if_neg hne]
      exact hrec

/-- A colliding modification loses its object: it was recorded, then erased. -/
theorem Effect.lost_of_keyCollision
    (h : Effect keys head nextId objects c head' nextId' objects' .keyCollision)
    (hord : Ordered head nextId (Stored objects)) : Lost head' nextId' objects' := by
  cases h with
  | notCreated why => rcases why with h | h <;> cases h
  | written a b here ends => rcases ends with ⟨h, -⟩ | h <;> cases h
  | lost a here =>
    rename_i id m
    refine ⟨id, hord.live_lt id (by rw [Stored, here]; rfl), ?_, ?_⟩
    · rw [getElem?_erase_nat, if_pos rfl]
    · rw [entry_onModify, if_pos rfl]
      cases hc : (entry head id).created <;> simp [Entry.noteModify, hc]

/-- While no modification collides, the objects recorded as modified are those
from before the session that are still stored and that a call has modified. -/
def RecordsModified (made : List (Call α)) (head : UndoState α) (objects : Objects α) : Prop :=
  ∀ k : ℕ, (entry head k).old.isSome ↔
    objects[k]?.isSome ∧ k < head.oldNextId ∧ ∃ m, Call.modify k m ∈ made

/-- A call without collision keeps the modified ids among the recorded ones. -/
theorem Effect.recordsModified {made : List (Call α)}
    (h : Effect keys head nextId objects c head' nextId' objects' o)
    (ho : o ≠ .keyCollision) (hord : Ordered head nextId (Stored objects))
    (hm : RecordsModified made head objects) :
    RecordsModified (made ++ [c]) head' objects' := by
  intro k
  have hk := hm k
  rw [h.oldNextId_eq]
  cases h with
  | lost a here => exact absurd rfl ho
  | absent missing named =>
    rename_i id
    by_cases hne : k = id
    · subst hne
      rw [missing] at hk ⊢
      simpa using hk
    · rcases named with rfl | ⟨m, rfl⟩ <;> simpa [hne] using hk
  | notCreated _ => simpa using hk
  | created v fresh free =>
    rw [entry_onCreate, getElem?_insert_nat]
    by_cases hne : k = nextId
    · subst hne
      have hge : ¬ k < head.oldNextId := Nat.not_lt.mpr hord.start_le
      simp [Entry.noteCreate, hord.old_eq_none hord.start_le, hge]
    · rw [if_neg hne, if_neg (Ne.symm hne)]
      simpa using hk
  | written a b here ends =>
    rename_i id m
    rw [entry_onModify, getElem?_insert_nat]
    by_cases hne : k = id
    · subst hne
      have hlive : Stored objects k := by rw [Stored, here]; rfl
      cases hc : (entry head k).created with
      | true =>
        have hge := (hord.created_ge k hc).1
        simp [Entry.noteModify, hc, hord.old_eq_none hge, Nat.not_lt.mpr hge]
      | false =>
        have hlt : k < head.oldNextId := by
          by_contra hge
          have := hord.live_created k hlive (Nat.le_of_not_lt hge)
          rw [hc] at this
          cases this
        simp only [Entry.noteModify, hc, if_pos]
        simp only [Bool.false_eq_true, if_false, Option.isSome_or, Option.isSome_some,
          Bool.or_true, true_iff, true_and]
        exact ⟨hlt, m, by simp⟩
    · rw [if_neg hne, if_neg (Ne.symm hne)]
      simpa [hne] using hk
  | removed a here =>
    rename_i id
    rw [entry_onRemove, getElem?_erase_nat]
    by_cases hne : k = id
    · subst hne
      cases hc : (entry head k).created with
      | true => simp [Entry.noteRemove, hc, hord.old_eq_none (hord.created_ge k hc).1]
      | false => simp [Entry.noteRemove, hc]
    · rw [if_neg hne, if_neg (Ne.symm hne)]
      simpa using hk

variable [DecidableEq κ]

/-- `undo` does not complete once an object is lost. -/
theorem Lost.undo_ne_ok (hl : Lost head nextId objects) (keys : List (α → κ))
    (rest : List (UndoState α)) (rev : ℤ) (r : GenericIndex α) :
    GenericIndex.undo keys ⟨head :: rest, rev, nextId, objects⟩ ≠ .ok r := by
  intro h
  obtain ⟨restored, hrestore, -⟩ := undo_cons_eq_ok.mp h
  obtain ⟨hold, hnew, -⟩ := restore_eq_ok.mp hrestore
  obtain ⟨x, -, hgone, hrec⟩ := hl
  have hnot : x ∉ objects := by
    rw [Std.ExtTreeMap.mem_iff_isSome_getElem?, hgone]
    simp
  rcases hrec with hrec | hrec
  · exact hnot (hold x (Std.ExtTreeMap.mem_iff_isSome_getElem?.mpr hrec))
  · exact hnot (hnew x (by simpa [entry] using hrec))

/-- A collision anywhere in a session leaves a lost object at its end. -/
theorem calls_lost (keys : List (α → κ)) (rest : List (UndoState α)) (rev : ℤ)
    (script : List (Call α)) (head : UndoState α) (nextId : ℕ) (objects : Objects α)
    (hord : Ordered head nextId (Stored objects))
    (hcol : .keyCollision ∈
      (GenericIndex.calls keys ⟨head :: rest, rev, nextId, objects⟩ script).2) :
    ∃ head' nextId' objects',
      (GenericIndex.calls keys ⟨head :: rest, rev, nextId, objects⟩ script).1 =
        ⟨head' :: rest, rev, nextId', objects'⟩ ∧ Lost head' nextId' objects' := by
  induction script generalizing head nextId objects with
  | nil => simp [GenericIndex.calls] at hcol
  | cons c script ih =>
    obtain ⟨note, nextId₁, objects₁, o, hcall, heff⟩ :=
      call_effect keys (head :: rest) rev nextId objects c
    simp only [GenericIndex.calls, hcall, List.modifyHead_cons] at hcol ⊢
    rcases List.mem_cons.mp hcol with rfl | hlater
    · exact calls_induction keys (fun _ => True) (fun _ h n m => Lost h n m)
        (fun _ _ _ _ _ _ _ _ _ heff' _ hl => Effect.lost heff' hl) rest rev script []
        (note head) nextId₁ objects₁ (fun _ _ => trivial)
        (Effect.lost_of_keyCollision (heff head) hord)
    · exact ih (note head) nextId₁ objects₁ ((heff head).ordered hord) hlater

/-- An object that the session modified finds its old key held by a greater id. -/
def ModifiedTakenOver (keys : List (α → κ)) (script : List (Call α))
    (before now : Objects α) : Prop :=
  ∃ (x z : ℕ) (a b : α), x < z ∧ (∃ m, Call.modify x m ∈ script) ∧ before[x]? = some a ∧
    x ∈ now ∧ now[z]? = some b ∧ Clash keys a b

/-- However the calls of a session end, `undo` restores the index exactly when no
modification collided and no modified object has lost its key to a greater id. -/
theorem undo_restores_iff_no_collision (keys : List (α → κ)) (idx : GenericIndex α)
    (hwf : WellFormed keys idx) (script : List (Call α)) :
    (idx.startUndoSession.calls keys script).1.undo keys = .ok idx ↔
      (∀ o ∈ (idx.startUndoSession.calls keys script).2, o ≠ .keyCollision) ∧
        ¬ ModifiedTakenOver keys script idx.indices
          (idx.startUndoSession.calls keys script).1.indices := by
  have hstart := ordered_start (α := α) (idx.revision + 1) hwf.fresh
  by_cases hno : ∀ o ∈ (idx.startUndoSession.calls keys script).2, o ≠ .keyCollision
  · obtain ⟨head, nextId, objects, hrun, hid, ht, hrew, hord, hmod⟩ := calls_induction keys
      (· ≠ .keyCollision)
      (fun made head nextId objects => head.oldNextId = idx.nextId ∧ Tracks head objects ∧
        rewind head objects = idx.indices ∧ Ordered head nextId (Stored objects) ∧
          RecordsModified made head objects)
      (fun _ _ _ _ _ _ _ _ _ heff ho hP => by
        obtain ⟨hid, ht, hrew, hord, hmod⟩ := hP
        obtain ⟨ht', hrew'⟩ := heff.tracks ho ht
        exact ⟨heff.oldNextId_eq.trans hid, ht', hrew'.trans hrew, heff.ordered hord,
          Effect.recordsModified heff ho hord hmod⟩)
      idx.stack (idx.revision + 1) script [] (UndoState.start idx.nextId (idx.revision + 1))
      idx.nextId idx.indices hno
      ⟨rfl, tracks_start _ _ _, rewind_start _ _ _, hstart,
        fun k => by simp [entry, UndoState.start]⟩
    change (idx.startUndoSession.calls keys script).1 = _ at hrun
    have htaken : ModifiedTakenOver keys script idx.indices objects ↔
        RecordedTakeover keys head objects := by
      rw [← hrew]
      constructor
      · rintro ⟨x, z, a, b, hlt, hcall, ha, hx, hb, hclash⟩
        refine ⟨x, z, a, b, hlt, ?_, hb, hclash⟩
        rw [Std.ExtTreeMap.mem_iff_isSome_getElem?] at hx
        have hbefore : x < head.oldNextId := by
          rw [hid]
          exact hwf.fresh x (by rw [Stored, ← hrew, ha]; rfl)
        have hold := (hmod x).mpr ⟨hx, hbefore, hcall⟩
        obtain ⟨w, hw⟩ := Option.isSome_iff_exists.mp hold
        have hrewx := rewind_of_old ht hord (show head.oldValues[x]? = some w from hw)
        rw [ha] at hrewx
        cases hrewx
        exact hw
      · rintro ⟨x, z, a, b, hlt, ha, hb, hclash⟩
        have hold : (entry head x).old.isSome := by simp [entry, ha]
        obtain ⟨hlive, -, hcall⟩ := (hmod x).mp hold
        exact ⟨x, z, a, b, hlt, hcall, rewind_of_old ht hord ha,
          Std.ExtTreeMap.mem_iff_isSome_getElem?.mpr hlive, hb, hclash⟩
    rw [hrun, htaken, undo_cons_eq_ok]
    constructor
    · rintro ⟨restored, hrestore, -⟩
      exact ⟨hno, ((restore_eq_ok_iff ht hord (clashFree_of_unique (hrew ▸ hwf.unique))).mp hrestore).1⟩
    · rintro ⟨-, hfree⟩
      refine ⟨rewind head objects, ?_, ?_⟩
      · exact (restore_eq_ok_iff ht hord (clashFree_of_unique (hrew ▸ hwf.unique))).mpr ⟨hfree, rfl⟩
      · rw [hrew, hid, Int.add_sub_cancel]
  · push Not at hno
    obtain ⟨o, ho, rfl⟩ := hno
    obtain ⟨head, nextId, objects, hrun, hlost⟩ := calls_lost keys idx.stack
      (idx.revision + 1) script (UndoState.start idx.nextId (idx.revision + 1)) idx.nextId
      idx.indices hstart ho
    change (idx.startUndoSession.calls keys script).1 = _ at hrun
    constructor
    · intro hundo
      rw [hrun] at hundo
      exact absurd hundo (hlost.undo_ne_ok keys idx.stack (idx.revision + 1) idx)
    · rintro ⟨hall, -⟩
      exact absurd rfl (hall _ ho)

/-- Create a second object and modify it to the key of the first. -/
def collidingScript : List (Call ℕ) :=
  [.create fun _ => some 20, .modify 1 fun _ => .finishes 10]

/-- A session with a collision is not undone. -/
theorem undo_session_collision_fails :
    WellFormed valueKey oneObject ∧
      (oneObject.startUndoSession.calls valueKey collidingScript).2 =
        [.done, .keyCollision] ∧
      (oneObject.startUndoSession.calls valueKey collidingScript).1.undo valueKey =
        .error .endIterator :=
  ⟨wellFormed_oneObject, by decide, rfl⟩

/-- A refused creation and a modifier that throws half-way. -/
def failingScript : List (Call ℕ) :=
  [.create fun _ => some 10, .modify 0 fun _ => .throws 15, .create fun _ => some 20]

/-- A session with a failing call is undone exactly if no call collided and no key was taken over.
-/
theorem undo_restores_iff_no_collision_failing :
    (oneObject.startUndoSession.calls valueKey failingScript).1.undo valueKey =
        .ok oneObject ↔
      (∀ o ∈ (oneObject.startUndoSession.calls valueKey failingScript).2,
        o ≠ .keyCollision) ∧
        ¬ ModifiedTakenOver valueKey failingScript oneObject.indices
          (oneObject.startUndoSession.calls valueKey failingScript).1.indices :=
  undo_restores_iff_no_collision valueKey oneObject wellFormed_oneObject failingScript

end Failing

end Whaleshares.UndoCollisions
