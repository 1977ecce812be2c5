import Whaleshares.Chainbase
import Whaleshares.Process

/-!
# Programs that call the indexes of a database

A database has several indexes, each with objects of its own type and its own undo stack. A
program reads the objects and makes calls; it sees how every call ends, but neither the undo
stacks nor the revisions. Its run is therefore the same above any sessions, and what it does to
one index are the calls that it makes on that index.
-/

namespace Whaleshares.IndexCalls

open MultiIndex Chainbase

variable {ι : Type} {α κ : ι → Type} {ε β γ : Type}

/-- The indexes of a database. -/
abbrev Db (α : ι → Type) := ∀ i, GenericIndex (α i)

/-- A program that reads the objects and calls the indexes. -/
inductive Script (α : ι → Type) (ε β : Type) where
  /-- The program returns. -/
  | done (b : β)
  /-- The program throws. -/
  | throws (e : ε)
  /-- The program goes on with the objects of all indexes. -/
  | reads (next : (∀ i, Objects (α i)) → Script α ε β)
  /-- The program calls an index and goes on with how the call ended. -/
  | calls (i : ι) (c : Call (α i)) (next : Outcome → Script α ε β)

namespace Script

/-- One program after another. -/
def andThen : Script α ε β → (β → Script α ε γ) → Script α ε γ
  | done b, k => k b
  | throws e, _ => throws e
  | reads next, k => reads fun objects => (next objects).andThen k
  | calls i c next, k => calls i c fun o => (next o).andThen k

instance : Monad (Script α ε) where
  pure := done
  bind := andThen

/-- A computation that does not look at the database. -/
def ofExcept : Except ε β → Script α ε β
  | .ok b => done b
  | .error e => throws e

/-- A program for every element of a list, in order. -/
def each {δ : Type} (f : δ → Script α ε Unit) : List δ → Script α ε Unit
  | [] => done ()
  | x :: rest => do
    f x
    each f rest

variable [DecidableEq ι] [∀ i, DecidableEq (κ i)] (keys : ∀ i, List (α i → κ i))

/-- Run the program on a database. -/
def run : Script α ε β → Process (Db α) ε β
  | done b => .done b
  | throws e => .ofExcept (.error e)
  | reads next => fun db => (next fun i => (db i).indices).run db
  | calls i c next => fun db =>
    let (idx, outcome) := (db i).call (keys i) c
    (next outcome).run (Function.update db i idx)

/-- The calls that the program makes on a database. -/
def made : Script α ε β → Db α → List (Σ i, Call (α i))
  | done _, _ => []
  | throws _, _ => []
  | reads next, db => (next fun i => (db i).indices).made db
  | calls i c next, db =>
    let (idx, outcome) := (db i).call (keys i) c
    ⟨i, c⟩ :: (next outcome).made (Function.update db i idx)

end Script

section OneIndex

variable [DecidableEq ι] [∀ i, DecidableEq (κ i)] {keys : ∀ i, List (α i → κ i)}

/-- The calls on one index. -/
def callsOf (i : ι) : List (Σ j, Call (α j)) → List (Call (α i))
  | [] => []
  | ⟨j, c⟩ :: rest => if h : j = i then (h ▸ c) :: callsOf i rest else callsOf i rest

/-- A call on an index is the first of its calls. -/
@[simp] theorem callsOf_cons_self (i : ι) (c : Call (α i)) (rest : List (Σ j, Call (α j))) :
    callsOf i (⟨i, c⟩ :: rest) = c :: callsOf i rest := by
  rw [callsOf, dif_pos rfl]

/-- A call on another index is not among them. -/
theorem callsOf_cons_ne {i j : ι} (h : j ≠ i) (c : Call (α j)) (rest : List (Σ j, Call (α j))) :
    callsOf i (⟨j, c⟩ :: rest) = callsOf i rest := by
  rw [callsOf, dif_neg h]

/-- A program leaves in an index what its calls on that index leave. -/
theorem Script.run_index (s : Script α ε β) (db : Db α) (i : ι) :
    (s.run keys db).2 i = ((db i).calls (keys i) (callsOf i (s.made keys db))).1 := by
  induction s generalizing db with
  | done b => rfl
  | throws e => rfl
  | reads next ih => exact ih _ db
  | calls j c next ih =>
    have hrest := ih ((db j).call (keys j) c).2 (Function.update db j ((db j).call (keys j) c).1)
    change ((next ((db j).call (keys j) c).2).run keys
        (Function.update db j ((db j).call (keys j) c).1)).2 i =
      ((db i).calls (keys i) (callsOf i (⟨j, c⟩ :: (next ((db j).call (keys j) c).2).made keys
        (Function.update db j ((db j).call (keys j) c).1)))).1
    rw [hrest]
    by_cases hj : j = i
    · subst hj
      rw [callsOf_cons_self, Function.update_self]
      rfl
    · rw [callsOf_cons_ne hj, Function.update_of_ne (Ne.symm hj)]

end OneIndex

section Sequences

variable [DecidableEq ι] [∀ i, DecidableEq (κ i)] (keys : ∀ i, List (α i → κ i))

/-- A bind runs the two parts in turn. -/
theorem Script.run_bind (s : Script α ε β) (k : β → Script α ε γ) :
    (s >>= k).run keys = s.run keys >>= fun b => (k b).run keys := by
  induction s with
  | done b => rfl
  | throws e => rfl
  | reads next ih =>
    funext db
    exact congrFun (ih fun i => (db i).indices) db
  | calls i c next ih =>
    funext db
    exact congrFun (ih ((db i).call (keys i) c).2)
      (Function.update db i ((db i).call (keys i) c).1)

/-- A result that is there runs without calls. -/
theorem Script.run_ofExcept (r : Except ε β) :
    (Script.ofExcept r : Script α ε β).run keys = Process.ofExcept r := by
  cases r <;> rfl

/-- A loop runs its parts in turn. -/
theorem Script.run_each {δ : Type} (f : δ → Script α ε Unit) (xs : List δ) :
    (Script.each f xs).run keys = Process.each (fun x => (f x).run keys) xs := by
  induction xs with
  | nil => rfl
  | cons x rest ih =>
    change (f x >>= fun _ => Script.each f rest).run keys = _
    rw [run_bind, ih]
    rfl

end Sequences

section Contents

/-- The indexes store the same objects and give the same ids. -/
def SameContents (a b : Db α) : Prop :=
  ∀ i, (a i).indices = (b i).indices ∧ (a i).nextId = (b i).nextId

/-- A change of the newest record keeps the next id. -/
@[simp] theorem withHead_nextId {δ : Type} (idx : GenericIndex δ)
    (f : UndoState δ → UndoState δ) : (idx.withHead f).nextId = idx.nextId := rfl

/-- A change of the newest record keeps the number of the records. -/
@[simp] theorem withHead_stack_length {δ : Type} (idx : GenericIndex δ)
    (f : UndoState δ → UndoState δ) : (idx.withHead f).stack.length = idx.stack.length := by
  unfold GenericIndex.withHead
  exact List.length_modifyHead

/-- A call ends in the same way above any sessions. -/
theorem call_sameContents {δ η : Type} [DecidableEq η] (keys : List (δ → η))
    {a b : GenericIndex δ} (hobjects : a.indices = b.indices) (hid : a.nextId = b.nextId)
    (c : Call δ) :
    (a.call keys c).2 = (b.call keys c).2 ∧
      (a.call keys c).1.indices = (b.call keys c).1.indices ∧
        (a.call keys c).1.nextId = (b.call keys c).1.nextId := by
  obtain ⟨stack, revision, nextId, objects⟩ := a
  obtain ⟨stack', revision', nextId', objects'⟩ := b
  cases hobjects
  cases hid
  cases c with
  | create f =>
    cases hf : f nextId with
    | none => simp [GenericIndex.call, GenericIndex.emplace, hf]
    | some v =>
      cases hins : MultiIndex.emplace keys objects nextId v with
      | none => simp [GenericIndex.call, GenericIndex.emplace, hf, hins]
      | some after =>
        simp [GenericIndex.call, GenericIndex.emplace, hf, hins, GenericIndex.withHead]
  | modify id m =>
    cases hget : objects[id]? with
    | none => simp [GenericIndex.call, GenericIndex.modify, hget]
    | some v =>
      cases hm : m v with
      | throws w => simp [GenericIndex.call, GenericIndex.modify, hget, hm]
      | finishes w =>
        cases hmod : MultiIndex.modify keys objects id w with
        | mk after ok => cases ok <;> simp [GenericIndex.call, GenericIndex.modify, hget, hm, hmod]
  | remove id =>
    cases hget : objects[id]? with
    | none => simp [GenericIndex.call, GenericIndex.remove, hget]
    | some v => simp [GenericIndex.call, GenericIndex.remove, hget, GenericIndex.withHead]

/-- A call changes at most the newest undo state. -/
theorem call_stack_length {δ η : Type} [DecidableEq η] (keys : List (δ → η)) (idx : GenericIndex δ)
    (c : Call δ) : (idx.call keys c).1.stack.length = idx.stack.length := by
  cases c with
  | create f =>
    simp only [GenericIndex.call, GenericIndex.emplace]
    split
    · rfl
    · split
      · rfl
      · exact withHead_stack_length _ _
  | modify id m =>
    simp only [GenericIndex.call, GenericIndex.modify]
    split
    · rfl
    · split
      · exact withHead_stack_length _ _
      · split
        · exact withHead_stack_length _ _
        · exact withHead_stack_length _ _
  | remove id =>
    simp only [GenericIndex.call, GenericIndex.remove]
    split
    · rfl
    · exact withHead_stack_length _ _

variable [DecidableEq ι] [∀ i, DecidableEq (κ i)] (keys : ∀ i, List (α i → κ i))

/-- A program does the same above any sessions. -/
theorem Script.run_sameContents (s : Script α ε β) {a b : Db α} (h : SameContents a b) :
    (s.run keys a).1 = (s.run keys b).1 ∧ SameContents (s.run keys a).2 (s.run keys b).2 := by
  induction s generalizing a b with
  | done _ => exact ⟨rfl, h⟩
  | throws e => exact ⟨rfl, h⟩
  | reads next ih =>
    have hobjects : (fun i => (a i).indices) = fun i => (b i).indices := funext fun i => (h i).1
    change ((next fun i => (a i).indices).run keys a).1 =
        ((next fun i => (b i).indices).run keys b).1 ∧
      SameContents ((next fun i => (a i).indices).run keys a).2
        ((next fun i => (b i).indices).run keys b).2
    rw [hobjects]
    exact ih _ h
  | calls i c next ih =>
    obtain ⟨houtcome, hindices, hnext⟩ := call_sameContents (keys i) (h i).1 (h i).2 c
    have hafter : SameContents (Function.update a i ((a i).call (keys i) c).1)
        (Function.update b i ((b i).call (keys i) c).1) := by
      intro j
      by_cases hj : j = i
      · subst hj
        rw [Function.update_self, Function.update_self]
        exact ⟨hindices, hnext⟩
      · rw [Function.update_of_ne hj, Function.update_of_ne hj]
        exact h j
    change ((next ((a i).call (keys i) c).2).run keys _).1 =
        ((next ((b i).call (keys i) c).2).run keys _).1 ∧
      SameContents ((next ((a i).call (keys i) c).2).run keys _).2
        ((next ((b i).call (keys i) c).2).run keys _).2
    rw [houtcome]
    exact ih _ hafter

/-- A program keeps the number of the open sessions. -/
theorem Script.run_stack_length (s : Script α ε β) (db : Db α) (i : ι) :
    ((s.run keys db).2 i).stack.length = (db i).stack.length := by
  induction s generalizing db with
  | done _ => rfl
  | throws e => rfl
  | reads next ih => exact ih _ db
  | calls j c next ih =>
    have hrest := ih ((db j).call (keys j) c).2 (Function.update db j ((db j).call (keys j) c).1)
    refine hrest.trans ?_
    by_cases hj : i = j
    · subst hj
      rw [Function.update_self, call_stack_length]
    · rw [Function.update_of_ne hj]

end Contents

end Whaleshares.IndexCalls
