import Whaleshares.Chainbase

/-!
# What `undo` restores, and when it completes

The three loops of `undo` are described by one equivalence: they complete
exactly when every recorded id is stored, no recorded value meets an occupied
key while the modified objects are written back, and no removed object meets one
when it is inserted again. The result is then known id by id.

The record of a session about one id is an `Entry`. The calls of a session and
the loops of `squash` change entries in the same three ways.
-/

namespace Whaleshares.UndoRestore

open KeyedFold MultiIndex Chainbase

universe u v

variable {α : Type u} {κ : Type v}

section Loops

/-- The objects with some entries written over them. -/
def overlay (entries : List (ℕ × α)) (objects : Objects α) : Objects α :=
  entries.foldl (fun m e => m.insert e.1 e.2) objects

/-- Writing entries writes the first, then the others. -/
theorem overlay_cons (head : ℕ × α) (tail : List (ℕ × α)) (objects : Objects α) :
    overlay (head :: tail) objects = overlay tail (objects.insert head.1 head.2) := rfl

/-- An insertion changes one id. -/
theorem getElem?_insert_nat (objects : Objects α) (id : ℕ) (v : α) (k : ℕ) :
    (objects.insert id v)[k]? = if id = k then some v else objects[k]? := by
  rw [Std.ExtTreeMap.getElem?_insert]
  simp only [Nat.compare_eq_eq]

/-- A removal changes one id. -/
theorem getElem?_erase_nat (objects : Objects α) (id k : ℕ) :
    (objects.erase id)[k]? = if id = k then none else objects[k]? := by
  rw [Std.ExtTreeMap.getElem?_erase]
  simp only [Nat.compare_eq_eq]

/-- After writing the entries each id has its entry or what it had. -/
theorem overlay_getElem? {entries : List (ℕ × α)} (hd : DistinctKeys entries)
    (objects : Objects α) (k : ℕ) :
    (overlay entries objects)[k]? = (entries.lookup k).or objects[k]? := by
  have h := foldl_entry (fun (m : Objects α) (k : ℕ) => m[k]?)
    (fun m (e : ℕ × α) => m.insert e.1 e.2) (fun _ v _ => some v)
    (fun m e k hk => by rw [getElem?_insert_nat, if_neg (Ne.symm hk)])
    (fun m e => by rw [getElem?_insert_nat, if_pos rfl]) hd objects k
  rw [overlay, h]
  cases entries.lookup k <;> rfl

/-- Below the first entry of an ascending list nothing is overwritten. -/
theorem overlay_getElem?_of_lt {entries : List (ℕ × α)} (ha : Ascending entries)
    (objects : Objects α) {k : ℕ} (h : ∀ e ∈ entries, k < e.1) :
    (overlay entries objects)[k]? = objects[k]? := by
  rw [overlay_getElem? ha.distinctKeys,
    lookup_eq_none_of_forall_ne fun e he heq => absurd (h e he) (by omega)]
  rfl

/-- No entry written back meets an occupied key: the smaller ids already hold
their overlaid value, the greater ones still hold theirs. -/
def NoTakeover (keys : List (α → κ)) (entries : List (ℕ × α)) (objects : Objects α) : Prop :=
  (∀ e ∈ entries, ∀ k b, k < e.1 → (overlay entries objects)[k]? = some b →
    ¬ Clash keys e.2 b) ∧
  (∀ e ∈ entries, ∀ k b, e.1 < k → objects[k]? = some b → ¬ Clash keys e.2 b)

/-- The first entry takes no key over, and the others none after it. -/
theorem noTakeover_cons {keys : List (α → κ)} {head : ℕ × α} {tail : List (ℕ × α)}
    (ha : Ascending (head :: tail)) (objects : Objects α) :
    NoTakeover keys (head :: tail) objects ↔
      ¬ Occupied keys objects head.1 head.2 ∧
        NoTakeover keys tail (objects.insert head.1 head.2) := by
  obtain ⟨id, v⟩ := head
  obtain ⟨hlt, htail⟩ := ascending_cons.mp ha
  have hbelow : ∀ k : ℕ, k < id →
      (overlay tail (objects.insert id v))[k]? = objects[k]? := by
    intro k hk
    rw [overlay_getElem?_of_lt htail _ fun e he => lt_trans hk (hlt e he),
      getElem?_insert_nat, if_neg (by omega)]
  have habove : ∀ e ∈ tail, ∀ k : ℕ, e.1 < k → (objects.insert id v)[k]? = objects[k]? := by
    intro e he k hk
    have hid := hlt e he
    rw [getElem?_insert_nat, if_neg (by simp only at hid; omega)]
  rw [occupied_iff]
  constructor
  · rintro ⟨hsmall, hgreat⟩
    refine ⟨?_, ?_, ?_⟩
    · rintro ⟨k, b, hne, hk, hclash⟩
      rcases Nat.lt_or_gt_of_ne hne with hkid | hkid
      · have hk' : (overlay ((id, v) :: tail) objects)[k]? = some b := by
          rw [overlay_cons, hbelow k hkid, hk]
        exact hsmall (id, v) (List.mem_cons_self ..) k b hkid hk' hclash
      · exact hgreat (id, v) (List.mem_cons_self ..) k b hkid hk hclash
    · intro e he k b hk hget
      exact hsmall e (List.mem_cons_of_mem _ he) k b hk hget
    · intro e he k b hk hget
      rw [habove e he k hk] at hget
      exact hgreat e (List.mem_cons_of_mem _ he) k b hk hget
  · rintro ⟨hfree, hsmall, hgreat⟩
    constructor
    · intro e he k b hk hget
      rcases List.mem_cons.mp he with rfl | hmem
      · rw [overlay_cons, hbelow k hk] at hget
        exact fun hclash => hfree ⟨k, b, by simp only at hk ⊢; omega, hget, hclash⟩
      · exact hsmall e hmem k b hk hget
    · intro e he k b hk hget
      rcases List.mem_cons.mp he with rfl | hmem
      · exact fun hclash => hfree ⟨k, b, by simp only at hk ⊢; omega, hget, hclash⟩
      · rw [← habove e hmem k hk] at hget
        exact hgreat e hmem k b hk hget

variable [DecidableEq κ]

/-- An old value is restored if its id is stored and its keys are free. -/
theorem restoreOld_eq_ok {keys : List (α → κ)} {objects restored : Objects α} {e : ℕ × α} :
    restoreOld keys objects e = .ok restored ↔
      e.1 ∈ objects ∧ ¬ Occupied keys objects e.1 e.2 ∧
        restored = objects.insert e.1 e.2 := by
  unfold restoreOld MultiIndex.modify
  by_cases hmem : e.1 ∈ objects
  · by_cases hocc : Occupied keys objects e.1 e.2
    · simp [hmem, hocc]
    · simp [hmem, hocc, eq_comm]
  · simp [hmem]

/-- The first loop of `undo` over an ascending list. -/
theorem foldlM_restoreOld_eq_ok {keys : List (α → κ)} {entries : List (ℕ × α)}
    (ha : Ascending entries) {objects restored : Objects α} :
    entries.foldlM (restoreOld keys) objects = .ok restored ↔
      (∀ e ∈ entries, e.1 ∈ objects) ∧ NoTakeover keys entries objects ∧
        restored = overlay entries objects := by
  induction entries generalizing objects with
  | nil => simp [NoTakeover, overlay, pure, Except.pure, eq_comm]
  | cons head tail ih =>
    rw [noTakeover_cons ha]
    obtain ⟨hlt, htail⟩ := ascending_cons.mp ha
    have hmem : ∀ e ∈ tail, (e.1 ∈ objects.insert head.1 head.2 ↔ e.1 ∈ objects) := by
      intro e he
      have hne := Nat.ne_of_lt (hlt e he)
      rw [Std.ExtTreeMap.mem_insert, Nat.compare_eq_eq]
      simp [hne]
    rw [List.foldlM_cons]
    constructor
    · intro h
      cases hstep : restoreOld keys objects head with
      | error err => rw [hstep] at h; cases h
      | ok mid =>
        rw [hstep] at h
        obtain ⟨hin, hfree, rfl⟩ := restoreOld_eq_ok.mp hstep
        obtain ⟨hall, hno, hres⟩ := (ih htail).mp h
        refine ⟨?_, ⟨hfree, hno⟩, hres⟩
        intro e he
        rcases List.mem_cons.mp he with rfl | he
        · exact hin
        · exact (hmem e he).mp (hall e he)
    · rintro ⟨hall, ⟨hfree, hno⟩, hres⟩
      have hstep : restoreOld keys objects head = .ok (objects.insert head.1 head.2) :=
        restoreOld_eq_ok.mpr ⟨hall head (List.mem_cons_self ..), hfree, rfl⟩
      rw [hstep]
      exact (ih htail).mpr
        ⟨fun e he => (hmem e he).mpr (hall e (List.mem_cons_of_mem _ he)), hno, hres⟩

/-- The second loop of `undo`. -/
theorem foldlM_eraseNew_eq_ok {ids : List ℕ} (hd : ids.Nodup)
    {objects erased : Objects α} :
    ids.foldlM eraseNew objects = .ok erased ↔
      (∀ id ∈ ids, id ∈ objects) ∧ erased = ids.foldl (fun m id => m.erase id) objects := by
  induction ids generalizing objects with
  | nil => simp [pure, Except.pure, eq_comm]
  | cons head tail ih =>
    obtain ⟨hhead, htail⟩ := List.nodup_cons.mp hd
    have hmem : ∀ id ∈ tail, (id ∈ objects.erase head ↔ id ∈ objects) := by
      intro id hid
      have hne : head ≠ id := fun heq => hhead (heq ▸ hid)
      rw [Std.ExtTreeMap.mem_erase]
      simp [hne]
    rw [List.foldlM_cons]
    by_cases hin : head ∈ objects
    · have hstep : eraseNew objects head = .ok (objects.erase head) := by
        simp [eraseNew, hin]
      rw [hstep]
      change tail.foldlM eraseNew (objects.erase head) = .ok erased ↔ _
      rw [ih htail]
      simp only [List.mem_cons, forall_eq_or_imp, List.foldl_cons]
      constructor
      · rintro ⟨hall, hres⟩
        exact ⟨⟨hin, fun id hid => (hmem id hid).mp (hall id hid)⟩, hres⟩
      · rintro ⟨⟨-, hall⟩, hres⟩
        exact ⟨fun id hid => (hmem id hid).mpr (hall id hid), hres⟩
    · have hstep : eraseNew objects head = .error .endIterator := by
        simp [eraseNew, hin]
      rw [hstep]
      simp [hin, bind, Except.bind]

/-- After removing ids these are gone and the others stay. -/
theorem foldl_erase_getElem? (ids : List ℕ) (objects : Objects α) (k : ℕ) :
    (ids.foldl (fun m id => m.erase id) objects)[k]? =
      if k ∈ ids then none else objects[k]? := by
  induction ids generalizing objects with
  | nil => simp
  | cons head tail ih =>
    rw [List.foldl_cons, ih, getElem?_erase_nat]
    by_cases hk : k = head
    · subst hk
      simp
    · simp [hk, Ne.symm hk]

/-- Every entry inserted again finds its id free and meets no occupied key. -/
def Settled (keys : List (α → κ)) (entries : List (ℕ × α)) (objects : Objects α) : Prop :=
  ∀ e ∈ entries, e.1 ∉ objects ∧
    ∀ k b, k ≠ e.1 → (overlay entries objects)[k]? = some b → ¬ Clash keys e.2 b

omit [DecidableEq κ] in
/-- The first entry settles, and the others after it. -/
theorem settled_cons {keys : List (α → κ)} {head : ℕ × α} {tail : List (ℕ × α)}
    (hd : DistinctKeys (head :: tail)) (objects : Objects α) :
    Settled keys (head :: tail) objects ↔
      (head.1 ∉ objects ∧ ¬ Occupied keys objects head.1 head.2) ∧
        Settled keys tail (objects.insert head.1 head.2) := by
  obtain ⟨id, v⟩ := head
  obtain ⟨hne, htail⟩ := distinctKeys_cons.mp hd
  have hid : (overlay tail (objects.insert id v))[id]? = some v := by
    rw [overlay_getElem? htail, lookup_eq_none_of_forall_ne fun e he => (hne e he).symm,
      getElem?_insert_nat, if_pos rfl]
    rfl
  have hmem : ∀ e ∈ tail, (e.1 ∉ objects.insert id v ↔ e.1 ∉ objects) := by
    intro e he
    have hneq : id ≠ e.1 := hne e he
    rw [Std.ExtTreeMap.mem_insert, Nat.compare_eq_eq]
    simp [hneq]
  rw [occupied_iff]
  constructor
  · intro h
    refine ⟨⟨(h _ (List.mem_cons_self ..)).1, ?_⟩, ?_⟩
    · rintro ⟨k, b, hkid, hk, hclash⟩
      have hnone : tail.lookup k = none := by
        refine lookup_eq_none_of_forall_ne fun e he heq => ?_
        refine (h e (List.mem_cons_of_mem _ he)).1 ?_
        rw [heq, Std.ExtTreeMap.mem_iff_isSome_getElem?, hk]
        rfl
      have hget : (overlay ((id, v) :: tail) objects)[k]? = some b := by
        rw [overlay_cons, overlay_getElem? htail, hnone, getElem?_insert_nat,
          if_neg (Ne.symm hkid), hk]
        rfl
      exact (h _ (List.mem_cons_self ..)).2 k b hkid hget hclash
    · intro e he
      obtain ⟨hnot, hfree⟩ := h e (List.mem_cons_of_mem _ he)
      exact ⟨(hmem e he).mpr hnot, hfree⟩
  · rintro ⟨⟨hnot, hfree⟩, hrest⟩ e he
    rcases List.mem_cons.mp he with rfl | he
    · refine ⟨hnot, fun k b hk hget hclash => ?_⟩
      rw [overlay_cons] at hget
      by_cases hlook : (k, b) ∈ tail
      · exact (hrest _ hlook).2 id v hk.symm hid hclash.symm
      · rw [overlay_getElem? htail, getElem?_insert_nat, if_neg (Ne.symm hk)] at hget
        cases hl : tail.lookup k with
        | none =>
          rw [hl] at hget
          exact hfree ⟨k, b, hk, hget, hclash⟩
        | some w =>
          rw [hl] at hget
          cases hget
          exact hlook ((lookup_eq_some_iff htail).mp hl)
    · obtain ⟨hnot', hfree'⟩ := hrest e he
      exact ⟨(hmem e he).mp hnot', hfree'⟩

/-- A removed value is restored if its id and its keys are free. -/
theorem restoreRemoved_eq_ok {keys : List (α → κ)} {objects restored : Objects α}
    {e : ℕ × α} :
    restoreRemoved keys objects e = .ok restored ↔
      (e.1 ∉ objects ∧ ¬ Occupied keys objects e.1 e.2) ∧
        restored = objects.insert e.1 e.2 := by
  unfold restoreRemoved MultiIndex.emplace
  by_cases hmem : e.1 ∈ objects
  · simp [hmem]
  · by_cases hocc : Occupied keys objects e.1 e.2
    · simp [hmem, hocc]
    · simp [hmem, hocc, eq_comm]

/-- The third loop of `undo`. -/
theorem foldlM_restoreRemoved_eq_ok {keys : List (α → κ)} {entries : List (ℕ × α)}
    (hd : DistinctKeys entries) {objects restored : Objects α} :
    entries.foldlM (restoreRemoved keys) objects = .ok restored ↔
      Settled keys entries objects ∧ restored = overlay entries objects := by
  induction entries generalizing objects with
  | nil => simp [Settled, overlay, pure, Except.pure, eq_comm]
  | cons head tail ih =>
    rw [settled_cons hd]
    have htail := (distinctKeys_cons.mp hd).2
    rw [List.foldlM_cons]
    constructor
    · intro h
      cases hstep : restoreRemoved keys objects head with
      | error err => rw [hstep] at h; cases h
      | ok mid =>
        rw [hstep] at h
        obtain ⟨hfree, rfl⟩ := restoreRemoved_eq_ok.mp hstep
        obtain ⟨hset, hres⟩ := (ih htail).mp h
        exact ⟨⟨hfree, hset⟩, hres⟩
    · rintro ⟨⟨hfree, hset⟩, hres⟩
      rw [restoreRemoved_eq_ok.mpr ⟨hfree, rfl⟩]
      exact (ih htail).mpr ⟨hset, hres⟩

end Loops

section Entries

/-- What a session has recorded about one id. -/
@[ext] structure Entry (α : Type u) where
  /-- The id was created in the session. -/
  created : Bool
  /-- The value recorded when the object was modified. -/
  old : Option α
  /-- The value recorded when the object was removed. -/
  removed : Option α

/-- The record about the id `k`. -/
def entry (head : UndoState α) (k : ℕ) : Entry α :=
  ⟨decide (k ∈ head.newIds), head.oldValues[k]?, head.removedValues[k]?⟩

/-- The value that undoing an entry leaves under its id. -/
def Entry.rewind (e : Entry α) (now : Option α) : Option α :=
  e.removed.or (if e.created then none else e.old.or now)

/-- The objects with the modified ones written back and the created ones erased. -/
def cleared (head : UndoState α) (objects : Objects α) : Objects α :=
  head.newIds.toList.foldl (fun m id => m.erase id)
    (overlay head.oldValues.toList objects)

/-- The objects that `undo` leaves when it completes. -/
def rewind (head : UndoState α) (objects : Objects α) : Objects α :=
  overlay head.removedValues.toList (cleared head objects)

/-- After the new ids are removed the others have their old values. -/
theorem cleared_getElem? (head : UndoState α) (objects : Objects α) (k : ℕ) :
    (cleared head objects)[k]? =
      if k ∈ head.newIds then none else head.oldValues[k]?.or objects[k]? := by
  rw [cleared, foldl_erase_getElem?, overlay_getElem? (distinctKeys_toList _), lookup_toList]
  simp only [Std.ExtTreeSet.mem_toList]

/-- Rewinding goes back by the entry of each id. -/
theorem rewind_getElem? (head : UndoState α) (objects : Objects α) (k : ℕ) :
    (rewind head objects)[k]? = (entry head k).rewind objects[k]? := by
  rw [rewind, overlay_getElem? (distinctKeys_toList _), lookup_toList, cleared_getElem?]
  simp [entry, Entry.rewind]

/-- A modification of an object holding `v` is recorded once, unless it was created here. -/
def Entry.noteModify (e : Entry α) (v : α) : Entry α :=
  if e.created then e else { e with old := e.old.or (some v) }

/-- A removal forgets a creation, else keeps the first recorded value. -/
def Entry.noteRemove (e : Entry α) (v : α) : Entry α :=
  if e.created then { e with created := false }
  else { e with old := none, removed := e.removed.or (e.old.or (some v)) }

/-- A creation. -/
def Entry.noteCreate (e : Entry α) : Entry α := { e with created := true }

/-- An insertion of a new id leaves the ids that are there. -/
theorem getElem?_insertIfNew_nat (objects : Objects α) (id : ℕ) (v : α) (k : ℕ) :
    (objects.insertIfNew id v)[k]? =
      if k = id then objects[k]?.or (some v) else objects[k]? := by
  rw [Std.ExtTreeMap.getElem?_insertIfNew]
  simp only [Nat.compare_eq_eq]
  by_cases hk : k = id
  · subst hk
    by_cases hmem : k ∈ objects
    · simp [hmem]
    · simp [hmem]
  · simp [hk, Ne.symm hk]

/-- A modification is noted in the entry of its id. -/
theorem entry_onModify (head : UndoState α) (id : ℕ) (v : α) (k : ℕ) :
    entry (head.onModify id v) k =
      if k = id then (entry head k).noteModify v else entry head k := by
  unfold UndoState.onModify
  by_cases hnew : id ∈ head.newIds
  · by_cases hk : k = id
    · subst hk
      simp [hnew, entry, Entry.noteModify]
    · simp [hnew, hk]
  · by_cases hold : id ∈ head.oldValues
    · by_cases hk : k = id
      · subst hk
        simp [hnew, hold, entry, Entry.noteModify]
      · simp [hnew, hold, hk]
    · simp only [hnew, hold, if_false]
      by_cases hk : k = id
      · subst hk
        simp only [entry, Entry.noteModify, getElem?_insertIfNew_nat, if_true]
        simp [hnew]
      · simp [entry, getElem?_insertIfNew_nat, hk]

/-- A creation is noted in the entry of its id. -/
theorem entry_onCreate (head : UndoState α) (id k : ℕ) :
    entry (head.onCreate id) k =
      if k = id then (entry head k).noteCreate else entry head k := by
  unfold UndoState.onCreate
  by_cases hk : k = id
  · subst hk
    simp [entry, Entry.noteCreate]
  · simp [entry, hk, Ne.symm hk]

/-- A merged removal is noted in the entry of its id. -/
theorem entry_mergeRemoved (head : UndoState α) (e : ℕ × α) (k : ℕ) :
    entry (head.mergeRemoved e) k =
      if k = e.1 then (entry head k).noteRemove e.2 else entry head k := by
  obtain ⟨id, v⟩ := e
  unfold UndoState.mergeRemoved
  by_cases hnew : id ∈ head.newIds
  · by_cases hk : k = id
    · subst hk
      simp [hnew, entry, Entry.noteRemove]
    · simp [hnew, entry, hk, Ne.symm hk]
  · cases hold : head.oldValues[id]? with
    | some was =>
      by_cases hk : k = id
      · subst hk
        simp only [hnew, if_false, entry, Entry.noteRemove, getElem?_insertIfNew_nat, if_true]
        simp [hold]
      · simp [hnew, entry, hk, getElem?_insertIfNew_nat, getElem?_erase_nat, Ne.symm hk]
    | none =>
      by_cases hk : k = id
      · subst hk
        simp only [hnew, if_false, entry, Entry.noteRemove, getElem?_insertIfNew_nat, if_true]
        simp [hold]
      · simp [hnew, entry, hk, getElem?_insertIfNew_nat]

/-- `on_remove` returns early on a removed object, where `emplace` would change nothing. -/
theorem entry_onRemove (head : UndoState α) (id : ℕ) (v : α) (k : ℕ) :
    entry (head.onRemove id v) k =
      if k = id then (entry head k).noteRemove v else entry head k := by
  rw [← entry_mergeRemoved head (id, v) k]
  unfold UndoState.onRemove UndoState.mergeRemoved
  by_cases hnew : id ∈ head.newIds
  · simp [hnew]
  · cases hold : head.oldValues[id]? with
    | some was => simp [hnew]
    | none =>
      by_cases hrem : id ∈ head.removedValues
      · by_cases hk : k = id
        · subst hk
          simp only [hnew, hrem, if_false, if_true, entry, getElem?_insertIfNew_nat]
          simp [hrem]
        · simp [hnew, hrem, entry, getElem?_insertIfNew_nat, hk]
      · simp [hnew, hrem]

variable [DecidableEq κ]

/-- `undo` completes exactly when the recorded ids are stored and neither the
modified nor the removed objects meet an occupied key. -/
theorem restore_eq_ok {keys : List (α → κ)} {head : UndoState α}
    {objects restored : Objects α} :
    head.restore keys objects = .ok restored ↔
      (∀ k ∈ head.oldValues, k ∈ objects) ∧ (∀ k ∈ head.newIds, k ∈ objects) ∧
        NoTakeover keys head.oldValues.toList objects ∧
          Settled keys head.removedValues.toList (cleared head objects) ∧
            restored = rewind head objects := by
  have hold : (∀ e ∈ head.oldValues.toList, e.1 ∈ objects) ↔
      ∀ k ∈ head.oldValues, k ∈ objects := by
    constructor
    · intro h k hk
      obtain ⟨v, hv⟩ := Option.isSome_iff_exists.mp
        (Std.ExtTreeMap.mem_iff_isSome_getElem?.mp hk)
      exact h (k, v) (Std.ExtTreeMap.mem_toList_iff_getElem?_eq_some.mpr hv)
    · intro h e he
      refine h e.1 ?_
      rw [Std.ExtTreeMap.mem_iff_isSome_getElem?,
        Std.ExtTreeMap.mem_toList_iff_getElem?_eq_some.mp he]
      rfl
  have hnodup : head.newIds.toList.Nodup :=
    (Std.ExtTreeSet.distinct_toList (t := head.newIds)).imp
      fun hne heq => hne (by rw [heq]; exact Std.ReflCmp.compare_self)
  unfold UndoState.restore
  constructor
  · intro h
    cases hfirst : head.oldValues.toList.foldlM (restoreOld keys) objects with
    | error err => rw [hfirst] at h; cases h
    | ok modified =>
      rw [hfirst] at h
      cases hsecond : head.newIds.toList.foldlM eraseNew modified with
      | error err =>
        simp only [bind, Except.bind] at h
        rw [hsecond] at h
        cases h
      | ok erased =>
        simp only [bind, Except.bind] at h
        rw [hsecond] at h
        obtain ⟨hall, hno, rfl⟩ := (foldlM_restoreOld_eq_ok (ascending_toList _)).mp hfirst
        obtain ⟨hnew, rfl⟩ := (foldlM_eraseNew_eq_ok hnodup).mp hsecond
        obtain ⟨hset, hres⟩ := (foldlM_restoreRemoved_eq_ok (distinctKeys_toList _)).mp h
        refine ⟨hold.mp hall, ?_, hno, hset, hres⟩
        intro k hk
        have hin := hnew k (Std.ExtTreeSet.mem_toList.mpr hk)
        rw [Std.ExtTreeMap.mem_iff_isSome_getElem?,
          overlay_getElem? (distinctKeys_toList _), lookup_toList] at hin
        by_cases hko : k ∈ head.oldValues
        · exact hold.mp hall k hko
        · rw [Std.ExtTreeMap.getElem?_eq_none hko] at hin
          exact Std.ExtTreeMap.mem_iff_isSome_getElem?.mpr hin
  · rintro ⟨hall, hnew, hno, hset, hres⟩
    rw [(foldlM_restoreOld_eq_ok (ascending_toList _)).mpr ⟨hold.mpr hall, hno, rfl⟩]
    have hnew' : ∀ id ∈ head.newIds.toList, id ∈ overlay head.oldValues.toList objects := by
      intro id hid
      have hin := hnew id (Std.ExtTreeSet.mem_toList.mp hid)
      rw [Std.ExtTreeMap.mem_iff_isSome_getElem?] at hin ⊢
      rw [overlay_getElem? (distinctKeys_toList _), Option.isSome_or, hin, Bool.or_true]
    simp only [bind, Except.bind]
    rw [(foldlM_eraseNew_eq_ok hnodup).mpr ⟨hnew', rfl⟩]
    exact (foldlM_restoreRemoved_eq_ok (distinctKeys_toList _)).mpr ⟨hset, hres⟩

end Entries

end Whaleshares.UndoRestore
