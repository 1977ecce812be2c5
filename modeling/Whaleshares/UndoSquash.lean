import Whaleshares.UndoCollisions

/-!
# Squashing two sessions

`squash` merges the records of the two newest sessions object by object. The
loops of the merge replay the newer record on the older one with the same three
notes that the calls of a session make, so rewinding through the merged record is
rewinding through the newer one and then through the older one.

Two things keep the merged session from behaving like the two. With a single
state on the stack the state is dropped without lowering the revision. And the
merged record writes objects back against keys that the newer session's own undo
would already have released.
-/

namespace Whaleshares.UndoSquash

open KeyedFold MultiIndex Chainbase UndoRestore UndoSession UndoCollisions

universe u v

variable {α : Type u} {κ : Type v}

section Merge

/-- The newer session's entry replayed on the older session's entry. -/
def mergeEntry (older newer : Entry α) : Entry α :=
  let updated := match newer.old with
    | some v => older.noteModify v
    | none => older
  let created := if newer.created then updated.noteCreate else updated
  match newer.removed with
  | some v => created.noteRemove v
  | none => created

/-- The loop over the old values notes a modification for each of them. -/
theorem foldl_mergeOld_entry (prev : UndoState α) (values : Objects α) (k : ℕ) :
    entry (values.toList.foldl UndoState.mergeOld prev) k =
      match values[k]? with
      | some v => (entry prev k).noteModify v
      | none => entry prev k := by
  have h := foldl_entry entry (UndoState.mergeOld (α := α)) (fun _ v e => e.noteModify v)
    (fun s e j hj => by
      change entry (s.onModify e.1 e.2) j = _
      rw [entry_onModify, if_neg hj])
    (fun s e => by
      change entry (s.onModify e.1 e.2) e.1 = _
      rw [entry_onModify, if_pos rfl])
    (distinctKeys_toList values) prev k
  rw [h, lookup_toList]
  cases values[k]? <;> rfl

/-- The loop over the removed values notes a removal for each of them. -/
theorem foldl_mergeRemoved_entry (prev : UndoState α) (values : Objects α) (k : ℕ) :
    entry (values.toList.foldl UndoState.mergeRemoved prev) k =
      match values[k]? with
      | some v => (entry prev k).noteRemove v
      | none => entry prev k := by
  have h := foldl_entry entry (UndoState.mergeRemoved (α := α)) (fun _ v e => e.noteRemove v)
    (fun s e j hj => by rw [entry_mergeRemoved, if_neg hj])
    (fun s e => by rw [entry_mergeRemoved, if_pos rfl])
    (distinctKeys_toList values) prev k
  rw [h, lookup_toList]
  cases values[k]? <;> rfl

/-- The loop over the new ids notes a creation for each of them. -/
theorem foldl_mergeNew_entry (ids : List ℕ) (prev : UndoState α) (k : ℕ) :
    entry (ids.foldl UndoState.mergeNew prev) k =
      if k ∈ ids then (entry prev k).noteCreate else entry prev k := by
  induction ids generalizing prev with
  | nil => simp
  | cons id ids ih =>
    rw [List.foldl_cons, ih]
    change (if k ∈ ids then (entry (prev.onCreate id) k).noteCreate
      else entry (prev.onCreate id) k) = _
    rw [entry_onCreate]
    by_cases hk : k = id
    · subst hk
      simp [Entry.noteCreate]
    · simp [hk]

/-- `squash` merges entry by entry. -/
theorem entry_merge (prev state : UndoState α) (k : ℕ) :
    entry (prev.merge state) k = mergeEntry (entry prev k) (entry state k) := by
  unfold UndoState.merge mergeEntry
  rw [foldl_mergeRemoved_entry, foldl_mergeNew_entry, foldl_mergeOld_entry]
  simp only [Std.ExtTreeSet.mem_toList]
  by_cases hnew : k ∈ state.newIds <;> simp [entry, hnew]

/-- Merging an old value keeps the noted next id and the revision. -/
theorem mergeOld_oldNextId (prev : UndoState α) (e : ℕ × α) :
    (prev.mergeOld e).oldNextId = prev.oldNextId ∧
      (prev.mergeOld e).revision = prev.revision := by
  unfold UndoState.mergeOld
  split_ifs <;> exact ⟨rfl, rfl⟩

/-- Merging a removed value keeps the noted next id and the revision. -/
theorem mergeRemoved_oldNextId (prev : UndoState α) (e : ℕ × α) :
    (prev.mergeRemoved e).oldNextId = prev.oldNextId ∧
      (prev.mergeRemoved e).revision = prev.revision := by
  unfold UndoState.mergeRemoved
  split_ifs
  · exact ⟨rfl, rfl⟩
  · cases prev.oldValues[e.1]? <;> exact ⟨rfl, rfl⟩

/-- A field that every step of a loop keeps is kept by the loop. -/
theorem foldl_keeps {β σ γ : Type*} (field : σ → γ) (step : σ → β → σ)
    (hstep : ∀ s b, field (step s b) = field s) (items : List β) (s : σ) :
    field (items.foldl step s) = field s := by
  induction items generalizing s with
  | nil => rfl
  | cons b items ih => rw [List.foldl_cons, ih, hstep]

/-- The merged state keeps the first free id and the revision of the older one. -/
theorem merge_oldNextId (prev state : UndoState α) :
    (prev.merge state).oldNextId = prev.oldNextId ∧
      (prev.merge state).revision = prev.revision := by
  unfold UndoState.merge
  constructor
  · rw [foldl_keeps UndoState.oldNextId _ fun s e => (mergeRemoved_oldNextId s e).1,
      foldl_keeps UndoState.oldNextId UndoState.mergeNew fun _ _ => rfl,
      foldl_keeps UndoState.oldNextId _ fun s e => (mergeOld_oldNextId s e).1]
  · rw [foldl_keeps UndoState.revision _ fun s e => (mergeRemoved_oldNextId s e).2,
      foldl_keeps UndoState.revision UndoState.mergeNew fun _ _ => rfl,
      foldl_keeps UndoState.revision _ fun s e => (mergeOld_oldNextId s e).2]

end Merge

section EntryMerge

/-- How the entries of two successive sessions about one id can stand together:
an id is created at most once and has no recorded value in the session that
creates it. -/
structure Successive (older newer : Entry α) : Prop where
  /-- The older session has no record of an id that the newer one creates. -/
  newer_created : newer.created → older = ⟨false, none, none⟩ ∧ newer = ⟨true, none, none⟩
  /-- A created id has no recorded value. -/
  older_created : older.created → older = ⟨true, none, none⟩
  /-- An object removed in the older session is unknown to the newer one. -/
  older_removed : older.removed.isSome → newer = ⟨false, none, none⟩

/-- Rewinding through the merged entry is rewinding through both. -/
theorem rewind_mergeEntry {older newer : Entry α} (hs : Successive older newer)
    {now : Option α} (hn : Fits newer now) :
    (mergeEntry older newer).rewind now = older.rewind (newer.rewind now) := by
  obtain ⟨oc, oo, or⟩ := older
  obtain ⟨nc, no, nr⟩ := newer
  obtain ⟨h1, h2, h3⟩ := hs
  obtain ⟨n1, n2, n3, n4⟩ := hn
  cases oc <;> cases nc <;> cases oo <;> cases or <;> cases no <;> cases nr <;> cases now <;>
    simp_all [mergeEntry, Entry.rewind, Entry.noteModify, Entry.noteRemove, Entry.noteCreate]

/-- The merged entry fits what the two entries fit. -/
theorem fits_mergeEntry {older newer : Entry α} (hs : Successive older newer)
    {now : Option α} (hn : Fits newer now) (ho : Fits older (newer.rewind now)) :
    Fits (mergeEntry older newer) now := by
  obtain ⟨oc, oo, or⟩ := older
  obtain ⟨nc, no, nr⟩ := newer
  obtain ⟨h1, h2, h3⟩ := hs
  obtain ⟨n1, n2, n3, n4⟩ := hn
  obtain ⟨o1, o2, o3, o4⟩ := ho
  cases oc <;> cases nc <;> cases oo <;> cases or <;> cases no <;> cases nr <;> cases now <;>
    constructor <;>
    simp_all [mergeEntry, Entry.rewind, Entry.noteModify, Entry.noteRemove, Entry.noteCreate]

/-- An object still stored keeps, in the merged record, the value the older
session recorded, and the newer session's where the older one has none. -/
theorem mergeEntry_old {older newer : Entry α} (hs : Successive older newer)
    (hrem : newer.removed = none) :
    (mergeEntry older newer).old =
      if older.created then none else older.old.or newer.old := by
  obtain ⟨oc, oo, or⟩ := older
  obtain ⟨nc, no, nr⟩ := newer
  obtain ⟨h1, h2, -⟩ := hs
  cases hrem
  cases oc <;> cases nc <;> cases no <;>
    simp_all [mergeEntry, Entry.noteModify, Entry.noteCreate]

/-- A value in the merged entry stems from one of the two entries; from the newer
one only when the older session did not create the object. -/
theorem mergeEntry_recorded {older newer : Entry α} (hs : Successive older newer)
    (h : (mergeEntry older newer).old.isSome ∨ (mergeEntry older newer).removed.isSome) :
    (older.old.isSome ∨ older.removed.isSome) ∨
      ((newer.old.isSome ∨ newer.removed.isSome) ∧ older.created = false) := by
  obtain ⟨oc, oo, or⟩ := older
  obtain ⟨nc, no, nr⟩ := newer
  obtain ⟨h1, h2, -⟩ := hs
  cases oc <;> cases nc <;> cases no <;> cases nr <;>
    simp_all [mergeEntry, Entry.noteModify, Entry.noteRemove, Entry.noteCreate]

/-- A merged id is noted as created by the newer session, or by the older one and not removed
since. -/
theorem mergeEntry_created {older newer : Entry α} (hs : Successive older newer) :
    (mergeEntry older newer).created =
      (newer.created || (older.created && newer.removed.isNone)) := by
  obtain ⟨oc, oo, or⟩ := older
  obtain ⟨nc, no, nr⟩ := newer
  obtain ⟨h1, h2, -⟩ := hs
  cases oc <;> cases nc <;> cases no <;> cases nr <;>
    simp_all [mergeEntry, Entry.noteModify, Entry.noteRemove, Entry.noteCreate]

/-- A merged id is noted as removed by one of the sessions. -/
theorem mergeEntry_removed {older newer : Entry α} (hs : Successive older newer)
    (h : (mergeEntry older newer).removed.isSome) :
    older.removed.isSome ∨ newer.removed.isSome := by
  obtain ⟨oc, oo, or⟩ := older
  obtain ⟨nc, no, nr⟩ := newer
  obtain ⟨h1, h2, -⟩ := hs
  cases oc <;> cases nc <;> cases no <;> cases nr <;>
    simp_all [mergeEntry, Entry.noteModify, Entry.noteRemove, Entry.noteCreate]

end EntryMerge

section StackOrder

/-- The ids live before a session, from those live after it and its record. -/
def LiveBefore (head : UndoState α) (live : ℕ → Prop) : ℕ → Prop := fun k =>
  (live k ∧ (entry head k).created = false) ∨ Touched head k

/-- Every session of the stack meets its ids in order. -/
def StackOrdered (live : ℕ → Prop) (nextId : ℕ) : List (UndoState α) → Prop
  | [] => ∀ k, live k → k < nextId
  | head :: rest =>
    Ordered head nextId live ∧ StackOrdered (LiveBefore head live) head.oldNextId rest

/-- Fewer live ids are still in order. -/
theorem Ordered.mono {head : UndoState α} {nextId : ℕ} {live live' : ℕ → Prop}
    (h : Ordered head nextId live) (hsub : ∀ k, live' k → live k) :
    Ordered head nextId live' :=
  ⟨h.start_le, fun k hk => h.live_lt k (hsub k hk),
    fun k hk => h.live_created k (hsub k hk), h.created_ge, h.recorded_lt,
    fun k hk hlive => h.removed_dead k hk (hsub k hlive)⟩

/-- With fewer live ids the stack is still in order. -/
theorem StackOrdered.mono {live live' : ℕ → Prop} {nextId : ℕ} {stack : List (UndoState α)}
    (h : StackOrdered live nextId stack) (hsub : ∀ k, live' k → live k) :
    StackOrdered live' nextId stack := by
  induction stack generalizing live live' nextId with
  | nil => exact fun k hk => h k (hsub k hk)
  | cons head rest ih =>
    refine ⟨Ordered.mono h.1 hsub, ih h.2 ?_⟩
    rintro k (⟨hk, hc⟩ | htouched)
    · exact .inl ⟨hsub k hk, hc⟩
    · exact .inr htouched

/-- A live id lies below the next id. -/
theorem StackOrdered.live_lt {live : ℕ → Prop} {nextId : ℕ} {stack : List (UndoState α)}
    (h : StackOrdered live nextId stack) {k : ℕ} (hk : live k) : k < nextId := by
  cases stack with
  | nil => exact h k hk
  | cons head rest => exact h.1.live_lt k hk

/-- Dropping the oldest states keeps the order of the others. -/
theorem StackOrdered.of_append {live : ℕ → Prop} {nextId : ℕ}
    {kept dropped : List (UndoState α)} (h : StackOrdered live nextId (kept ++ dropped)) :
    StackOrdered live nextId kept := by
  induction kept generalizing live nextId with
  | nil => exact fun k hk => h.live_lt hk
  | cons head rest ih => exact ⟨h.1, ih h.2⟩

/-- What is stored after rewinding was live before the session. -/
theorem liveBefore_of_rewind (head : UndoState α) (objects : Objects α) (k : ℕ)
    (h : Stored (rewind head objects) k) : LiveBefore head (Stored objects) k := by
  rw [Stored, rewind_getElem?, Entry.rewind] at h
  unfold LiveBefore Touched Stored
  cases hc : (entry head k).created <;> cases ho : (entry head k).old <;>
    cases hr : (entry head k).removed <;> simp_all

/-- A call changes what was live before its session in no way. -/
theorem Effect.liveBefore {keys : List (α → κ)} {head head' : UndoState α}
    {nextId nextId' : ℕ} {objects objects' : Objects α} {c : Call α} {o : Outcome}
    (h : Effect keys head nextId objects c head' nextId' objects' o)
    (hord : Ordered head nextId (Stored objects)) (k : ℕ)
    (hk : LiveBefore head' (Stored objects') k) : LiveBefore head (Stored objects) k := by
  unfold LiveBefore Touched Stored at hk ⊢
  cases h with
  | absent _ _ => exact hk
  | notCreated _ => exact hk
  | created v fresh free =>
    rw [entry_onCreate, getElem?_insert_nat] at hk
    by_cases hne : k = nextId
    · subst hne
      simp [Entry.noteCreate, hord.old_eq_none hord.start_le,
        hord.removed_eq_none hord.start_le] at hk
    · rw [if_neg hne, if_neg (Ne.symm hne)] at hk
      exact hk
  | written a b here ends =>
    rename_i id m
    rw [entry_onModify, getElem?_insert_nat] at hk
    by_cases hne : k = id
    · subst hne
      rw [here]
      cases hc : (entry head k).created with
      | true => simpa [Entry.noteModify, hc] using hk
      | false => exact .inl ⟨rfl, rfl⟩
    · rw [if_neg hne, if_neg (Ne.symm hne)] at hk
      exact hk
  | lost a here =>
    rename_i id m
    rw [entry_onModify, getElem?_erase_nat] at hk
    by_cases hne : k = id
    · subst hne
      rw [here]
      cases hc : (entry head k).created with
      | true => simpa [Entry.noteModify, hc] using hk
      | false => exact .inl ⟨rfl, rfl⟩
    · rw [if_neg hne, if_neg (Ne.symm hne)] at hk
      exact hk
  | removed a here =>
    rename_i id
    rw [entry_onRemove, getElem?_erase_nat] at hk
    by_cases hne : k = id
    · subst hne
      rw [here]
      cases hc : (entry head k).created with
      | true => simpa [Entry.noteRemove, hc] using hk
      | false => exact .inl ⟨rfl, rfl⟩
    · rw [if_neg hne, if_neg (Ne.symm hne)] at hk
      exact hk

/-- Entries of two successive ordered sessions can stand together. -/
theorem successive_entries {older newer : UndoState α} {nextId : ℕ} {live : ℕ → Prop}
    (hn : Ordered newer nextId live)
    (ho : Ordered older newer.oldNextId (LiveBefore newer live)) (k : ℕ) :
    Successive (entry older k) (entry newer k) := by
  have hfalse : ∀ {h : UndoState α}, ¬ (entry h k).created → (entry h k).created = false :=
    fun hc => by simpa using hc
  refine ⟨?_, ?_, ?_⟩
  · intro hc
    have hge := (hn.created_ge k hc).1
    have hle := ho.start_le
    refine ⟨?_, ?_⟩
    · ext1
      · exact hfalse fun hoc => absurd (ho.created_ge k hoc).2 (Nat.not_lt.mpr hge)
      · exact ho.old_eq_none (le_trans hle hge)
      · exact ho.removed_eq_none (le_trans hle hge)
    · ext1
      · exact hc
      · exact hn.old_eq_none hge
      · exact hn.removed_eq_none hge
  · intro hc
    have hge := (ho.created_ge k hc).1
    ext1
    · exact hc
    · exact ho.old_eq_none hge
    · exact ho.removed_eq_none hge
  · intro hr
    have hdead := ho.removed_dead k hr
    have hlt := lt_of_lt_of_le (ho.recorded_lt k (.inr hr)) ho.start_le
    ext1
    · exact hn.created_eq_false hlt
    · cases hold : (entry newer k).old with
      | none => rfl
      | some v => exact absurd (.inr (.inl (by rw [hold]; rfl))) hdead
    · cases hrem : (entry newer k).removed with
      | none => rfl
      | some v => exact absurd (.inr (.inr (by rw [hrem]; rfl))) hdead

/-- The merge of two sessions in order is in order. -/
theorem ordered_merge {older newer : UndoState α} {nextId : ℕ} {live : ℕ → Prop}
    (hn : Ordered newer nextId live)
    (ho : Ordered older newer.oldNextId (LiveBefore newer live)) :
    Ordered (older.merge newer) nextId live := by
  have hs := successive_entries hn ho
  have hid := (merge_oldNextId older newer).1
  refine ⟨by rw [hid]; exact le_trans ho.start_le hn.start_le, hn.live_lt, ?_, ?_, ?_, ?_⟩
  · intro k hk hle
    rw [hid] at hle
    rw [entry_merge, mergeEntry_created (hs k)]
    cases hc : (entry newer k).created with
    | true => rfl
    | false =>
      have hrem : (entry newer k).removed = none := by
        cases hr : (entry newer k).removed with
        | none => rfl
        | some v => exact absurd hk (hn.removed_dead k (by rw [hr]; rfl))
      simp [hrem, ho.live_created k (.inl ⟨hk, hc⟩) hle]
  · intro k hk
    rw [entry_merge, mergeEntry_created (hs k)] at hk
    rw [hid]
    rcases Bool.or_eq_true_iff.mp hk with hc | hc
    · obtain ⟨hge, hlt⟩ := hn.created_ge k hc
      exact ⟨le_trans ho.start_le hge, hlt⟩
    · obtain ⟨hge, hlt⟩ := ho.created_ge k (Bool.and_eq_true_iff.mp hc).1
      exact ⟨hge, lt_of_lt_of_le hlt hn.start_le⟩
  · intro k hk
    rw [entry_merge] at hk
    rw [hid]
    rcases mergeEntry_recorded (hs k) hk with hrec | ⟨hrec, hc⟩
    · exact ho.recorded_lt k hrec
    · by_contra hge
      have := ho.live_created k (.inr hrec) (Nat.le_of_not_lt hge)
      rw [hc] at this
      cases this
  · intro k hk hlive
    rw [entry_merge] at hk
    rcases mergeEntry_removed (hs k) hk with hrem | hrem
    · have hlt := lt_of_lt_of_le (ho.recorded_lt k (.inr hrem)) ho.start_le
      exact ho.removed_dead k hrem (.inl ⟨hlive, hn.created_eq_false hlt⟩)
    · exact hn.removed_dead k hrem hlive

/-- What was live before both sessions was live before the older one. -/
theorem liveBefore_merge {older newer : UndoState α} {nextId : ℕ} {live : ℕ → Prop}
    (hn : Ordered newer nextId live)
    (ho : Ordered older newer.oldNextId (LiveBefore newer live)) (k : ℕ)
    (h : LiveBefore (older.merge newer) live k) :
    LiveBefore older (LiveBefore newer live) k := by
  have hs := successive_entries hn ho k
  unfold LiveBefore Touched at h
  rw [entry_merge, mergeEntry_created hs] at h
  rcases h with ⟨hlive, hc⟩ | hrec
  · obtain ⟨hnc, hoc⟩ := Bool.or_eq_false_iff.mp hc
    have hrem : (entry newer k).removed.isNone := by
      cases hr : (entry newer k).removed with
      | none => rfl
      | some v => exact absurd hlive (hn.removed_dead k (by rw [hr]; rfl))
    rw [hrem, Bool.and_true] at hoc
    exact .inl ⟨.inl ⟨hlive, hnc⟩, hoc⟩
  · rcases mergeEntry_recorded hs hrec with hrec | ⟨hrec, hoc⟩
    · exact .inr hrec
    · exact .inl ⟨.inr hrec, hoc⟩

end StackOrder

section Histories

/-- One operation on an index. -/
inductive Op (α : Type u) where
  /-- A call on the objects, whatever it ends with. -/
  | call (c : Call α)
  /-- Start an undo session. -/
  | startUndoSession
  /-- Undo the newest session. -/
  | undo
  /-- Merge the two newest sessions. -/
  | squash
  /-- Discard the sessions up to a revision. -/
  | commit (revision : ℤ)
  /-- Set the revision of an index without sessions. -/
  | setRevision (revision : ℤ)

variable [DecidableEq κ]

/-- Perform one operation; there is no next state when `undo` or `setRevision` throws. -/
def perform (keys : List (α → κ)) (idx : GenericIndex α) : Op α → Option (GenericIndex α)
  | .call c => some (idx.call keys c).1
  | .startUndoSession => some idx.startUndoSession
  | .undo => (idx.undo keys).toOption
  | .squash => some idx.squash
  | .commit revision => some (idx.commit revision)
  | .setRevision revision => idx.setRevision revision

/-- The states of an index that some history of operations leads to. -/
inductive Reachable (keys : List (α → κ)) : GenericIndex α → Prop
  | empty : Reachable keys empty
  | step {idx next : GenericIndex α} (op : Op α) (before : Reachable keys idx)
      (performed : perform keys idx op = some next) : Reachable keys next

/-- Whatever its history, an index meets the ids of all its sessions in order. -/
theorem Reachable.stackOrdered {keys : List (α → κ)} {idx : GenericIndex α}
    (h : Reachable keys idx) : StackOrdered (Stored idx.indices) idx.nextId idx.stack := by
  induction h with
  | empty =>
    intro k hk
    simp [Stored, Chainbase.empty] at hk
  | @step idx next op _ performed ih =>
    obtain ⟨stack, rev, nextId, objects⟩ := idx
    cases op with
    | call c =>
      obtain ⟨note, nextId', objects', o, hcall, heff⟩ :=
        call_effect keys stack rev nextId objects c
      simp only [perform, hcall, Option.some.injEq] at performed
      subst performed
      cases stack with
      | nil =>
        have hord := (heff (UndoState.start nextId rev)).ordered (ordered_start rev ih)
        exact hord.live_lt
      | cons head rest =>
        refine ⟨(heff head).ordered ih.1, ?_⟩
        rw [(heff head).oldNextId_eq]
        exact ih.2.mono fun k hk => Effect.liveBefore (heff head) ih.1 k hk
    | startUndoSession =>
      cases performed
      refine ⟨ordered_start _ fun k hk => ih.live_lt hk, ih.mono ?_⟩
      rintro k (⟨hk, -⟩ | htouched)
      · exact hk
      · simp [Touched, entry, UndoState.start] at htouched
    | undo =>
      cases stack with
      | nil =>
        cases performed
        exact ih
      | cons head rest =>
        cases hundo : GenericIndex.undo keys ⟨head :: rest, rev, nextId, objects⟩ with
        | error err => simp [perform, hundo, Except.toOption] at performed
        | ok r =>
          simp only [perform, hundo, Except.toOption, Option.some.injEq] at performed
          subst performed
          obtain ⟨restored, hrestore, rfl⟩ := undo_cons_eq_ok.mp hundo
          obtain ⟨-, -, -, -, rfl⟩ := restore_eq_ok.mp hrestore
          exact ih.2.mono fun k hk => liveBefore_of_rewind head objects k hk
    | squash =>
      cases performed
      cases stack with
      | nil => exact ih
      | cons newer tail =>
        cases tail with
        | nil => exact fun k hk => ih.1.live_lt k hk
        | cons older rest =>
          obtain ⟨hn, ho, hrest⟩ := ih
          refine ⟨ordered_merge hn ho, ?_⟩
          rw [(merge_oldNextId older newer).1]
          exact hrest.mono fun k hk => liveBefore_merge hn ho k hk
    | commit revision =>
      cases performed
      obtain ⟨dropped, hdropped⟩ :=
        List.rdropWhile_prefix (fun state : UndoState α => state.revision ≤ revision) stack
      change StackOrdered (Stored objects) nextId
        (stack.rdropWhile fun state => state.revision ≤ revision)
      have hih : StackOrdered (Stored objects) nextId stack := ih
      rw [← hdropped] at hih
      exact hih.of_append
    | setRevision revision =>
      cases stack with
      | nil =>
        cases performed
        exact ih
      | cons head rest => cases performed

end Histories

section Law

/-- Undoing through a merged record, when both records fit. -/
theorem merge_of_tracks {newer older : UndoState α} {nextId : ℕ} {objects : Objects α}
    (hn : Ordered newer nextId (Stored objects))
    (ho : Ordered older newer.oldNextId (LiveBefore newer (Stored objects)))
    (htn : Tracks newer objects) (hto : Tracks older (rewind newer objects)) :
    Tracks (older.merge newer) objects ∧
      rewind (older.merge newer) objects = rewind older (rewind newer objects) := by
  have hs := successive_entries hn ho
  constructor
  · intro k
    have hok := hto k
    rw [rewind_getElem?] at hok
    rw [entry_merge]
    exact fits_mergeEntry (hs k) (htn k) hok
  · refine Std.ExtTreeMap.ext_getElem? fun k => ?_
    rw [rewind_getElem?, rewind_getElem?, rewind_getElem?, entry_merge,
      rewind_mergeEntry (hs k) (htn k)]

variable [DecidableEq κ]

/-- When `undo` completes, the record fitted the stored objects. -/
theorem tracks_of_restore {keys : List (α → κ)} {head : UndoState α} {nextId : ℕ}
    {objects restored : Objects α} (hord : Ordered head nextId (Stored objects))
    (h : head.restore keys objects = .ok restored) : Tracks head objects := by
  obtain ⟨hold, hnew, -⟩ := restore_eq_ok.mp h
  intro k
  refine ⟨?_, ?_, ?_, ?_⟩
  · intro ho
    exact Std.ExtTreeMap.mem_iff_isSome_getElem?.mp
      (hold k (Std.ExtTreeMap.mem_iff_isSome_getElem?.mpr ho))
  · intro hc
    exact Std.ExtTreeMap.mem_iff_isSome_getElem?.mp (hnew k (by simpa [entry] using hc))
  · intro ho
    exact hord.created_eq_false (hord.recorded_lt k (.inl ho))
  · intro hr hlive
    exact absurd hlive (hord.removed_dead k hr)

/-- When `undo` completes, the objects it wrote back share no key with another. -/
theorem clashFree_of_restore {keys : List (α → κ)} {head : UndoState α} {nextId : ℕ}
    {objects restored : Objects α} (hord : Ordered head nextId (Stored objects))
    (h : head.restore keys objects = .ok restored) : ClashFree keys head objects := by
  have ht := tracks_of_restore hord h
  obtain ⟨⟨hsmall, hgreat⟩, hrem, -⟩ := ht.restore_eq_ok.mp h
  have hold : ∀ (x : ℕ) (a : α), head.oldValues[x]? = some a → (x, a) ∈ head.oldValues.toList :=
    fun x a ha => Std.ExtTreeMap.mem_toList_iff_getElem?_eq_some.mpr ha
  have hoverlay : ∀ k : ℕ, (overlay head.oldValues.toList objects)[k]? =
      head.oldValues[k]?.or objects[k]? := fun k => by
    rw [overlay_getElem? (distinctKeys_toList _), lookup_toList]
  have hwritten : ∀ (x : ℕ) (a : α) (k : ℕ) (b : α), head.oldValues[x]? = some a → k ≠ x →
      (rewind head objects)[k]? = some b → ¬ Clash keys a b := by
    intro x a k b ha hne hb hclash
    have hx : (rewind head objects)[x]? = some a := rewind_of_old ht hord ha
    cases hr : head.removedValues[k]? with
    | some v =>
      rw [rewind_of_removed hr] at hb
      cases hb
      exact hrem k b hr (occupied_iff.mpr ⟨x, a, hne.symm, hx, hclash.symm⟩)
    | none =>
      have hkb : head.oldValues[k]?.or objects[k]? = some b := by
        rw [rewind_getElem?, Entry.rewind] at hb
        cases hc : (entry head k).created with
        | true => simp [entry, hr] at hb; simp_all [entry]
        | false => simpa [entry, hr, show ¬ k ∈ head.newIds by simpa [entry] using hc] using hb
      rcases Nat.lt_or_gt_of_ne hne with hlt | hlt
      · exact hsmall (x, a) (hold x a ha) k b hlt (by rw [hoverlay, hkb]) hclash
      · cases hko : head.oldValues[k]? with
        | some w =>
          rw [hko] at hkb
          cases hkb
          exact hsmall (k, b) (hold k b hko) x a hlt (by rw [hoverlay, ha]; rfl) hclash.symm
        | none =>
          rw [hko] at hkb
          exact hgreat (x, a) (hold x a ha) k b hlt hkb hclash
  rintro x a htouched ha hocc
  obtain ⟨k, b, hne, hb, hclash⟩ := occupied_iff.mp hocc
  rcases htouched with ho | hr
  · obtain ⟨w, hw⟩ := Option.isSome_iff_exists.mp ho
    have hw' : head.oldValues[x]? = some w := hw
    rw [rewind_of_old ht hord hw'] at ha
    cases ha
    exact hwritten x a k b hw' hne hb hclash
  · obtain ⟨w, hw⟩ := Option.isSome_iff_exists.mp hr
    have hw' : head.removedValues[x]? = some w := hw
    rw [rewind_of_removed hw'] at ha
    cases ha
    exact hrem x a hw' hocc

/-- What `squash` promises: the objects stay, one undo state goes, the revision
falls by one, and undoing the merged session is undoing both. -/
def SquashLaw (keys : List (α → κ)) (idx : GenericIndex α) : Prop :=
  idx.squash.indices = idx.indices ∧
    idx.squash.stack.length + 1 = idx.stack.length ∧
    idx.squash.revision = idx.revision - 1 ∧
    (2 ≤ idx.stack.length → ∀ s t, idx.undo keys = .ok s → s.undo keys = .ok t →
      idx.squash.undo keys = .ok t)

/-- Two successive `undo` calls complete. -/
def TwiceUndoable (keys : List (α → κ)) (idx : GenericIndex α) : Prop :=
  ∃ s t, idx.undo keys = .ok s ∧ s.undo keys = .ok t

/-- A stored object that the two newest sessions modified, and that neither
created, finds its first recorded key held by a greater id. -/
def KeyHeld (keys : List (α → κ)) (idx : GenericIndex α) : Prop :=
  ∃ newer older rest, idx.stack = newer :: older :: rest ∧
    ∃ (x z : ℕ) (a b : α), x < z ∧ x ∈ idx.indices ∧ x ∉ older.newIds ∧
      older.oldValues[x]?.or newer.oldValues[x]? = some a ∧
        idx.indices[z]? = some b ∧ Clash keys a b

/-- On the two newest sessions of an index the merged record fits, and it is free
of clashes where undoing both sessions completes. -/
theorem merge_of_undo_undo {keys : List (α → κ)} {newer older : UndoState α} {nextId : ℕ}
    {objects middle first : Objects α} (hn : Ordered newer nextId (Stored objects))
    (ho : Ordered older newer.oldNextId (LiveBefore newer (Stored objects)))
    (hnewer : newer.restore keys objects = .ok middle)
    (holder : older.restore keys middle = .ok first) :
    Tracks (older.merge newer) objects ∧ rewind (older.merge newer) objects = first ∧
      ClashFree keys (older.merge newer) objects := by
  have hs := successive_entries hn ho
  have htn := tracks_of_restore hn hnewer
  have hfn := clashFree_of_restore hn hnewer
  obtain ⟨-, -, rfl⟩ := htn.restore_eq_ok.mp hnewer
  have ho' : Ordered older newer.oldNextId (Stored (rewind newer objects)) :=
    Ordered.mono ho fun k hk => liveBefore_of_rewind newer objects k hk
  have hto := tracks_of_restore ho' holder
  have hfo := clashFree_of_restore ho' holder
  obtain ⟨-, -, rfl⟩ := hto.restore_eq_ok.mp holder
  obtain ⟨hmerge, hrew⟩ := merge_of_tracks hn ho htn hto
  refine ⟨hmerge, hrew, ?_⟩
  · have huntouched : ∀ (k : ℕ) (b : α), ¬ Touched older k →
        (rewind older (rewind newer objects))[k]? = some b →
          (rewind newer objects)[k]? = some b := by
      intro k b hk hb
      rw [rewind_getElem?, Entry.rewind] at hb
      have hold : (entry older k).old = none := by
        by_contra hne
        exact hk (.inl (Option.isSome_iff_ne_none.mpr hne))
      have hrem : (entry older k).removed = none := by
        by_contra hne
        exact hk (.inr (Option.isSome_iff_ne_none.mpr hne))
      rw [hold, hrem] at hb
      cases hc : (entry older k).created with
      | true => simp [hc] at hb
      | false => simpa [hc] using hb
    intro x a hx ha hocc
    rw [hrew] at ha hocc
    by_cases hxo : Touched older x
    · exact hfo x a hxo ha hocc
    · have hxn : Touched newer x := by
        have hx' : (entry (older.merge newer) x).old.isSome ∨
          (entry (older.merge newer) x).removed.isSome := hx
        rw [entry_merge] at hx'
        rcases mergeEntry_recorded (hs x) hx' with h | ⟨h, -⟩
        · exact absurd h hxo
        · exact h
      obtain ⟨k, b, hne, hb, hclash⟩ := occupied_iff.mp hocc
      by_cases hko : Touched older k
      · exact hfo k b hko hb (occupied_iff.mpr ⟨x, a, hne.symm, ha, hclash.symm⟩)
      · exact hfn x a hxn (huntouched x a hxo ha)
          (occupied_iff.mpr ⟨k, b, hne, huntouched k b hko hb, hclash⟩)

omit [DecidableEq κ] in
/-- The records that collide in the merged session. -/
theorem recordedTakeover_merge_iff {keys : List (α → κ)} {newer older : UndoState α}
    {nextId : ℕ} {objects : Objects α} (hn : Ordered newer nextId (Stored objects))
    (ho : Ordered older newer.oldNextId (LiveBefore newer (Stored objects)))
    (ht : Tracks (older.merge newer) objects) (rest : List (UndoState α)) (rev : ℤ) :
    RecordedTakeover keys (older.merge newer) objects ↔
      KeyHeld keys ⟨newer :: older :: rest, rev, nextId, objects⟩ := by
  have hs := successive_entries hn ho
  have hold : ∀ x : ℕ, Stored objects x → (older.merge newer).oldValues[x]? =
      if x ∈ older.newIds then none else older.oldValues[x]?.or newer.oldValues[x]? := by
    intro x hx
    have hrem : (entry newer x).removed = none := by
      cases hr : (entry newer x).removed with
      | none => rfl
      | some v => exact absurd hx (hn.removed_dead x (by rw [hr]; rfl))
    change (entry (older.merge newer) x).old = _
    rw [entry_merge, mergeEntry_old (hs x) hrem]
    simp [entry]
  constructor
  · rintro ⟨x, z, a, b, hlt, ha, hb, hclash⟩
    have hx : Stored objects x := (ht x).old_live (by simp [entry, ha])
    rw [hold x hx] at ha
    by_cases hnew : x ∈ older.newIds
    · rw [if_pos hnew] at ha
      cases ha
    · rw [if_neg hnew] at ha
      exact ⟨newer, older, rest, rfl, x, z, a, b, hlt,
        Std.ExtTreeMap.mem_iff_isSome_getElem?.mpr hx, hnew, ha, hb, hclash⟩
  · rintro ⟨_, _, _, hstack, x, z, a, b, hlt, hx, hnew, ha, hb, hclash⟩
    cases hstack
    refine ⟨x, z, a, b, hlt, ?_, hb, hclash⟩
    rw [hold x (Std.ExtTreeMap.mem_iff_isSome_getElem?.mp hx), if_neg hnew, ha]

/-- On every index with an undo stack, whatever its history, `squash` keeps its
promise exactly when it merges two states whose merged record meets no key held by
a greater id. -/
theorem squashLaw_iff {keys : List (α → κ)} {idx : GenericIndex α}
    (hreach : Reachable keys idx) (hne : idx.stack ≠ []) :
    SquashLaw keys idx ↔
      2 ≤ idx.stack.length ∧ ¬ (TwiceUndoable keys idx ∧ KeyHeld keys idx) := by
  have hstack := hreach.stackOrdered
  obtain ⟨stack, rev, nextId, objects⟩ := idx
  match stack, hne, hstack with
  | [_], _, _ =>
    constructor
    · rintro ⟨-, -, hrev, -⟩
      change rev = rev - 1 at hrev
      omega
    · rintro ⟨hlen, -⟩
      change 2 ≤ 1 at hlen
      omega
  | newer :: older :: rest, _, hstack =>
    obtain ⟨hn, ho, -⟩ := hstack
    have hboth : ∀ s t, GenericIndex.undo keys ⟨newer :: older :: rest, rev, nextId, objects⟩ =
        .ok s → s.undo keys = .ok t →
        (GenericIndex.undo keys (GenericIndex.squash
          ⟨newer :: older :: rest, rev, nextId, objects⟩) = .ok t ↔
          ¬ KeyHeld keys ⟨newer :: older :: rest, rev, nextId, objects⟩) := by
      intro s t hs ht
      obtain ⟨middle, hnewer, rfl⟩ := undo_cons_eq_ok.mp hs
      obtain ⟨first, holder, rfl⟩ := undo_cons_eq_ok.mp ht
      obtain ⟨htracks, hrew, hfree⟩ := merge_of_undo_undo hn ho hnewer holder
      rw [← recordedTakeover_merge_iff hn ho htracks rest rev]
      change GenericIndex.undo keys
        ⟨older.merge newer :: rest, rev - 1, nextId, objects⟩ = _ ↔ _
      rw [undo_cons_eq_ok, (merge_oldNextId older newer).1]
      constructor
      · rintro ⟨restored, hrestore, -⟩
        exact ((restore_eq_ok_iff htracks (ordered_merge hn ho) hfree).mp hrestore).1
      · intro hno
        exact ⟨first, (restore_eq_ok_iff htracks (ordered_merge hn ho) hfree).mpr
          ⟨hno, hrew.symm⟩, rfl⟩
    constructor
    · rintro ⟨-, -, -, hundo⟩
      refine ⟨by simp, ?_⟩
      rintro ⟨⟨s, t, hs, ht⟩, hheld⟩
      exact (hboth s t hs ht).mp (hundo (by simp) s t hs ht) hheld
    · rintro ⟨-, hno⟩
      refine ⟨rfl, by simp [GenericIndex.squash], rfl, ?_⟩
      intro _ s t hs ht
      exact (hboth s t hs ht).mpr fun hheld => hno ⟨⟨s, t, hs, ht⟩, hheld⟩

/-- Squashing a single session leaves the revision. -/
theorem squash_single_keeps_revision :
    Reachable ([] : List (ℕ → ℕ)) (empty : GenericIndex ℕ).startUndoSession ∧
      (empty : GenericIndex ℕ).startUndoSession.squash.revision =
        (empty : GenericIndex ℕ).startUndoSession.revision ∧
      ¬ SquashLaw ([] : List (ℕ → ℕ)) (empty : GenericIndex ℕ).startUndoSession := by
  refine ⟨.step .startUndoSession .empty rfl, rfl, ?_⟩
  rintro ⟨-, -, hrev, -⟩
  exact absurd hrev (by decide)

omit [DecidableEq κ] in
/-- No key is held where none of the stored objects clashes with a recorded value. -/
theorem not_keyHeld {keys : List (α → κ)} {newer older : UndoState α} {rest : List (UndoState α)}
    {rev : ℤ} {nextId : ℕ} {objects : Objects α}
    (h : ∀ x ∈ objects.toList, ∀ a ∈ older.oldValues[x.1]?.or newer.oldValues[x.1]?,
      ∀ z ∈ objects.toList, ¬ Clash keys a z.2) :
    ¬ KeyHeld keys ⟨newer :: older :: rest, rev, nextId, objects⟩ := by
  rintro ⟨_, _, _, hstack, x, z, a, b, -, hx, -, ha, hb, hclash⟩
  cases hstack
  obtain ⟨v, hv⟩ := Option.isSome_iff_exists.mp (Std.ExtTreeMap.mem_iff_isSome_getElem?.mp hx)
  exact h (x, v) (Std.ExtTreeMap.mem_toList_iff_getElem?_eq_some.mpr hv) a ha (z, b)
    (Std.ExtTreeMap.mem_toList_iff_getElem?_eq_some.mpr hb) hclash

/-- Calls lead from one reachable index to another. -/
theorem Reachable.calls {keys : List (α → κ)} {idx : GenericIndex α} (h : Reachable keys idx)
    (made : List (Call α)) : Reachable keys (idx.calls keys made).1 := by
  induction made generalizing idx with
  | nil => exact h
  | cons first rest ih => exact ih (.step (.call first) h rfl)

/-- Three objects, and two sessions that each modify, remove and create some. -/
def busySessions : GenericIndex ℕ :=
  let stored := ((empty : GenericIndex ℕ).calls valueKey
    [.create fun _ => some 10, .create fun _ => some 20, .create fun _ => some 30]).1
  let older := (stored.startUndoSession.calls valueKey
    [.modify 0 fun v => .finishes (v + 1), .remove 1, .create fun _ => some 40]).1
  (older.startUndoSession.calls valueKey
    [.modify 0 fun v => .finishes (v + 1), .modify 2 fun v => .finishes (v + 1), .remove 3,
      .create fun _ => some 20]).1

/-- An object that gets another key in one session, whose old key a new object gets in the next. -/
def handedOver : GenericIndex ℕ :=
  let stored := ((empty : GenericIndex ℕ).calls valueKey [.create fun _ => some 10]).1
  let older := (stored.startUndoSession.calls valueKey [.modify 0 fun _ => .finishes 20]).1
  (older.startUndoSession.calls valueKey [.create fun _ => some 10]).1

/-- Squashing two busy sessions keeps the law, and undoing the merged session gives the three
objects that were stored before; squashing the sessions that hand a key over does not. -/
theorem squashLaw_iff_two_sessions :
    SquashLaw valueKey busySessions ∧
      (∃ t, busySessions.squash.undo valueKey = .ok t ∧
        t.indices.toList = [(0, 10), (1, 20), (2, 30)]) ∧
      ¬ SquashLaw valueKey handedOver := by
  have hbusy : Reachable valueKey busySessions :=
    .calls (.step .startUndoSession (.calls (.step .startUndoSession (.calls .empty _) rfl) _) rfl) _
  have hhanded : Reachable valueKey handedOver :=
    .calls (.step .startUndoSession (.calls (.step .startUndoSession (.calls .empty _) rfl) _) rfl) _
  refine ⟨(squashLaw_iff hbusy (by decide)).mpr ⟨by decide, fun ⟨_, hheld⟩ => ?_⟩,
    ⟨_, rfl, by decide⟩, (squashLaw_iff hhanded (by decide)).not.mpr fun ⟨_, hnone⟩ => ?_⟩
  · exact not_keyHeld (by decide) hheld
  · refine hnone ⟨⟨_, _, rfl, rfl⟩, _, _, _, rfl, 0, 1, 10, 10, ?_⟩
    exact ⟨by decide, by decide, by decide, by decide, by decide, by decide⟩

end Law

end Whaleshares.UndoSquash
