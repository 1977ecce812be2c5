import Whaleshares.Program
import Whaleshares.Protocol

/-!
# The fork database

`chain/fork_database.cpp`: the tree of recent blocks. An item refers to its parent by a
weak pointer, which yields the parent only as long as something owns it: the index, the
head pointer, or a local variable of the code that runs. Items have a number of their own
here, which plays the part of their address, and `pinned` holds the items that local
variables own. The cache of unlinked blocks is never filled, and no block is ever marked
as invalid.
-/

namespace Whaleshares

open Fc Protocol Program

/-- `fork_item` -/
structure ForkItem where
  /-- The address of the item. -/
  uid : ℕ
  /-- The address that the weak pointer to the parent holds. -/
  prev : Option ℕ
  num : ℕ
  id : BlockId
  data : SignedBlock
  deriving DecidableEq

/-- `fork_database` -/
structure ForkDatabase where
  /-- `_index`, in the order of insertion; ids are unique. -/
  index : List ForkItem := []
  /-- `_head` -/
  head : Option ForkItem := none
  /-- `_max_size` -/
  maxSize : ℕ := 1024
  /-- The items that local variables own. -/
  pinned : List ForkItem := []
  /-- The address of the next item. -/
  nextUid : ℕ := 0
  deriving DecidableEq

namespace ForkDatabase

variable (f : ForkDatabase)

/-- The items that something owns. -/
def alive : List ForkItem := f.index ++ f.head.toList ++ f.pinned

/-- `prev.lock()` -/
def lock (item : ForkItem) : Option ForkItem :=
  item.prev.bind fun uid => f.alive.find? fun x => x.uid = uid

/-- The item of an id in `_index`. -/
def findById (id : BlockId) : Option ForkItem := f.index.find? fun x => x.id = id

/-- `pop_block` -/
def popBlock : Except Exc ForkDatabase :=
  match f.head with
  | none => .error (failed "cannot pop an empty fork database")
  | some head =>
    match f.lock head with
    | none => .error (failed "popping head block would leave fork DB empty")
    | some prev => .ok { f with head := some prev }

/-- The smallest number of a block that is cached, `std::max<int64_t>( 0, head - max_size )`. -/
def cacheStart (head : ForkItem) : ℕ := head.num - f.maxSize

/-- The parent of a new block: none for the first block, or for a block with a null
previous id. -/
def parentOf (b : SignedBlock) : Except Exc (Option ForkItem) :=
  if f.head.isSome ∧ b.header.previous ≠ .null then
    match f.findById b.header.previous with
    | some parent => .ok (some parent)
    | none => .error ⟨.unlinkableBlock, "block does not link to known chain"⟩
  else .ok none

/-- Whether a block is within the range that is cached. -/
def checkRange (b : SignedBlock) : Except Exc Unit :=
  match f.head with
  | none => .ok ()
  | some head =>
    fcAssert (f.cacheStart head < b.blockNum) "attempting to push a block that is too old"

/-- `_index.insert( item )`, which refuses an id that is there. -/
def insert (item : ForkItem) : List ForkItem :=
  if (f.findById item.id).isSome then f.index else f.index ++ [item]

/-- The head after a push: a new item takes over if it is higher. -/
def higher (item : ForkItem) : ForkItem :=
  match f.head with
  | none => item
  | some head => if head.num < item.num then item else head

/-- The item that `push_block` makes of a block. -/
def newItem (env : Env) (b : SignedBlock) (parent : Option ForkItem) : ForkItem :=
  ⟨f.nextUid, parent.map (·.uid), b.blockNum, b.id env, b⟩

/-- `push_block`; returns the head. -/
def pushBlock (env : Env) (b : SignedBlock) : Except Exc (ForkItem × ForkDatabase) := do
  f.checkRange b
  let parent ← f.parentOf b
  let item := f.newItem env b parent
  pure (f.higher item,
    { f with
      index := f.insert item
      head := some (f.higher item)
      nextUid := f.nextUid + 1 })

/-- `reset` -/
def reset : ForkDatabase := { f with index := [], head := none }

/-- `start_block`: the block has no parent. -/
def startBlock (env : Env) (b : SignedBlock) : ForkDatabase :=
  { f with
    index := f.insert (f.newItem env b none)
    head := some (f.newItem env b none)
    nextUid := f.nextUid + 1 }

/-- `set_max_size` -/
def setMaxSize (size : ℕ) : ForkDatabase :=
  match f.head with
  | none => { f with maxSize := size }
  | some head =>
    { f with maxSize := size, index := f.index.filter fun x => head.num - size ≤ x.num }

/-- `fetch_block` -/
def fetchBlock (id : BlockId) : Option ForkItem := f.findById id

/-- `fetch_block_by_number` -/
def fetchBlockByNumber (num : ℕ) : List ForkItem := f.index.filter fun x => x.num = num

/-- The walk from an item to its ancestor of some number; a parent is one block lower. -/
def walkTo (num : ℕ) : ℕ → ForkItem → Option ForkItem
  | 0, item => if num < item.num then none else some item
  | steps + 1, item =>
    if num < item.num then (f.lock item).bind (walkTo num steps) else some item

/-- `walk_main_branch_to_num` -/
def walkMainBranchToNum (num : ℕ) : Option ForkItem :=
  f.head.bind fun head => if head.num < num then none else f.walkTo num head.num head

/-- `fetch_block_on_main_branch_by_number` -/
def fetchBlockOnMainBranchByNumber (num : ℕ) : Option ForkItem :=
  match f.fetchBlockByNumber num with
  | [] => none
  | [item] => some item
  | _ => f.walkMainBranchToNum num

/-- `set_head` -/
def setHead (item : ForkItem) : ForkDatabase := { f with head := some item }

/-- `remove` -/
def remove (id : BlockId) : ForkDatabase :=
  { f with index := f.index.filter fun x => x.id ≠ id }

/-- The exception of an assertion without a text. -/
def asserted {α : Type} (value : Option α) (text : String) : Except Exc α :=
  match value with
  | some a => .ok a
  | none => .error (failed text)

/-- The first two loops of `fetch_branch_from`: the items from `item` down to those above
`num`, and the item after them. -/
def descendTo (text : String) (num : ℕ) :
    ℕ → ForkItem → Except Exc (List ForkItem × ForkItem)
  | 0, item => if num < item.num then .error (failed text) else .ok ([], item)
  | steps + 1, item =>
    if num < item.num then do
      let prev ← asserted (f.lock item) text
      let (items, last) ← descendTo text num steps prev
      pure (item :: items, last)
    else .ok ([], item)

/-- The last loop of `fetch_branch_from`: both branches down to the same previous block. -/
def descendTogether : ℕ → ForkItem → ForkItem → Except Exc (List ForkItem × List ForkItem)
  | 0, first, second =>
    if first.data.header.previous ≠ second.data.header.previous then
      .error (failed "first_branch")
    else .ok ([first], [second])
  | steps + 1, first, second =>
    if first.data.header.previous ≠ second.data.header.previous then do
      let firstPrev ← asserted (f.lock first) "first_branch"
      let secondPrev ← asserted (f.lock second) "second_branch"
      let (firsts, seconds) ← descendTogether steps firstPrev secondPrev
      pure (first :: firsts, second :: seconds)
    else .ok ([first], [second])

/-- `fetch_branch_from`: the branches from two blocks down to their common ancestor,
which is not part of them. -/
def fetchBranchFrom (first second : BlockId) : Except Exc (List ForkItem × List ForkItem) := do
  let firstItem ← asserted (f.findById first) "first_branch_itr != _index.get<block_id>().end()"
  let secondItem ← asserted (f.findById second) "second_branch_itr != _index.get<block_id>().end()"
  let (firsts, firstLow) ← f.descendTo "first_branch" secondItem.num firstItem.num firstItem
  let (seconds, secondLow) ← f.descendTo "second_branch" firstLow.num secondItem.num secondItem
  let (firsts', seconds') ← f.descendTogether firstLow.num firstLow secondLow
  pure (firsts ++ firsts', seconds ++ seconds')

section Ownership

variable {f g : ForkDatabase} {env : Env} {b : SignedBlock} {item x : ForkItem}

/-- A value that is asserted is there. -/
theorem asserted_eq_ok {α : Type} {value : Option α} {text : String} {a : α}
    (h : asserted value text = .ok a) : value = some a := by
  cases value with
  | none => cases h
  | some v => rw [Except.ok.inj h]

/-- An item that is locked is alive. -/
theorem lock_mem (h : f.lock item = some x) : x ∈ f.alive := by
  unfold lock at h
  cases hprev : item.prev with
  | none =>
    rw [hprev] at h
    cases h
  | some uid =>
    rw [hprev] at h
    exact List.mem_of_find?_eq_some h

/-- An item that is found is in the index. -/
theorem findById_mem {id : BlockId} (h : f.findById id = some x) : x ∈ f.index :=
  List.mem_of_find?_eq_some h

/-- An item that is found by an id has it. -/
theorem findById_id {id : BlockId} (h : f.findById id = some x) : x.id = id := by
  simpa using List.find?_some h

/-- The items of the index are alive. -/
theorem index_subset_alive (h : x ∈ f.index) : x ∈ f.alive :=
  List.mem_append_left _ (List.mem_append_left _ h)

/-- The head is alive. -/
theorem head_mem_alive (h : f.head = some x) : x ∈ f.alive := by
  refine List.mem_append_left _ (List.mem_append_right _ ?_)
  simp [h]

/-- What a smaller database owns. -/
theorem alive_of_subset (hindex : ∀ x ∈ g.index, x ∈ f.alive) (hhead : ∀ x ∈ g.head, x ∈ f.alive)
    (hpinned : ∀ x ∈ g.pinned, x ∈ f.alive) : ∀ x ∈ g.alive, x ∈ f.alive := by
  intro x hx
  rcases List.mem_append.mp hx with hx | hx
  · rcases List.mem_append.mp hx with hx | hx
    · exact hindex x hx
    · exact hhead x (by simpa using hx)
  · exact hpinned x hx

/-- The pinned items are alive. -/
theorem pinned_subset_alive (h : x ∈ f.pinned) : x ∈ f.alive := List.mem_append_right _ h

/-- A smaller size keeps the head. -/
@[simp] theorem setMaxSize_head (size : ℕ) : (f.setMaxSize size).head = f.head := by
  unfold setMaxSize
  split <;> rfl

/-- A smaller size keeps the pinned items. -/
@[simp] theorem setMaxSize_pinned (size : ℕ) : (f.setMaxSize size).pinned = f.pinned := by
  unfold setMaxSize
  split <;> rfl

/-- A smaller size keeps the next identity. -/
@[simp] theorem setMaxSize_nextUid (size : ℕ) : (f.setMaxSize size).nextUid = f.nextUid := by
  unfold setMaxSize
  split <;> rfl

/-- The items that are kept are those that are not too old. -/
theorem mem_setMaxSize_index {size : ℕ} :
    x ∈ (f.setMaxSize size).index ↔
      x ∈ f.index ∧ ∀ head, f.head = some head → head.num - size ≤ x.num := by
  unfold setMaxSize
  split
  next hhead => simp [hhead]
  next head hhead => simp [hhead]

/-- A smaller size brings no item to life. -/
theorem setMaxSize_alive {size : ℕ} : ∀ x ∈ (f.setMaxSize size).alive, x ∈ f.alive := by
  refine alive_of_subset (fun x hx => ?_) (fun x hx => ?_) fun x hx => ?_
  · exact index_subset_alive (mem_setMaxSize_index.mp hx).1
  · rw [setMaxSize_head] at hx
    exact head_mem_alive hx
  · rw [setMaxSize_pinned] at hx
    exact pinned_subset_alive hx

/-- A block that is pushed passes the checks and is filed behind its parent. -/
theorem pushBlock_eq_ok {head : ForkItem} (h : f.pushBlock env b = .ok (head, g)) :
    f.checkRange b = .ok () ∧ ∃ parent, f.parentOf b = .ok parent ∧
      head = f.higher (f.newItem env b parent) ∧
      g = { f with
        index := f.insert (f.newItem env b parent)
        head := some (f.higher (f.newItem env b parent))
        nextUid := f.nextUid + 1 } := by
  unfold pushBlock at h
  cases hrange : f.checkRange b with
  | error e =>
    rw [hrange] at h
    cases h
  | ok u =>
    cases hparent : f.parentOf b with
    | error e =>
      rw [hrange, hparent] at h
      cases h
    | ok parent =>
      rw [hrange, hparent] at h
      have hpair := Except.ok.inj h
      exact ⟨rfl, parent, rfl, (congrArg Prod.fst hpair).symm, (congrArg Prod.snd hpair).symm⟩

/-- An insertion adds the item and no other. -/
theorem insert_mem (h : x ∈ f.insert item) : x ∈ f.index ∨ x = item := by
  unfold insert at h
  split at h
  · exact .inl h
  · rcases List.mem_append.mp h with h | h
    · exact .inl h
    · exact .inr (by simpa using h)

/-- The higher of the item and the head is one of them. -/
theorem higher_eq (item : ForkItem) : f.higher item = item ∨ f.head = some (f.higher item) := by
  unfold higher
  cases hhead : f.head with
  | none => exact .inl rfl
  | some head =>
    by_cases hnum : head.num < item.num
    · exact .inl (if_pos hnum)
    · refine .inr ?_
      simp [hnum]

/-- After a push nothing is owned besides what was, and the new item. -/
theorem pushBlock_alive {head : ForkItem} (h : f.pushBlock env b = .ok (head, g)) :
    ∃ parent, f.parentOf b = .ok parent ∧
      ∀ x ∈ g.alive, x ∈ f.alive ∨ x = f.newItem env b parent := by
  obtain ⟨-, parent, hparent, -, rfl⟩ := pushBlock_eq_ok h
  refine ⟨parent, hparent, fun x hx => ?_⟩
  rcases List.mem_append.mp hx with hx | hx
  · rcases List.mem_append.mp hx with hx | hx
    · rcases insert_mem hx with hx | hx
      · exact .inl (index_subset_alive hx)
      · exact .inr hx
    · have hx : x = f.higher (f.newItem env b parent) := by simpa using hx
      rcases higher_eq (f := f) (f.newItem env b parent) with hnew | hold
      · exact .inr (hx.trans hnew)
      · rw [← hx] at hold
        exact .inl (head_mem_alive hold)
  · exact .inl (pinned_subset_alive hx)

end Ownership

section Branches

/-- The way from an item through its ancestors to another one, which is not part of the
list. -/
inductive Steps (f : ForkDatabase) : ForkItem → List ForkItem → ForkItem → Prop
  | stay (x : ForkItem) : Steps f x [] x
  | down {x y z : ForkItem} {items : List ForkItem} (hlock : f.lock x = some y)
      (hrest : Steps f y items z) : Steps f x (x :: items) z

variable {f : ForkDatabase} {x y z : ForkItem} {items items' : List ForkItem}

/-- Two walks of steps make one. -/
theorem Steps.trans (h : Steps f x items y) (h' : Steps f y items' z) :
    Steps f x (items ++ items') z := by
  induction h with
  | stay x => exact h'
  | down hlock hrest ih => exact .down hlock (ih h')

/-- Every item of a walk of steps is alive. -/
theorem Steps.mem (h : Steps f x items z) (hx : x ∈ f.alive) :
    (∀ y ∈ items, y ∈ f.alive) ∧ z ∈ f.alive := by
  induction h with
  | stay x => exact ⟨by simp, hx⟩
  | down hlock hrest ih =>
    obtain ⟨hitems, hz⟩ := ih (lock_mem hlock)
    refine ⟨fun y hy => ?_, hz⟩
    rcases List.mem_cons.mp hy with hy | hy
    · rw [hy]
      exact hx
    · exact hitems y hy

/-- The descent to a number takes steps. -/
theorem descendTo_steps {text : String} {num steps : ℕ}
    (h : f.descendTo text num steps x = .ok (items, z)) : Steps f x items z := by
  induction steps generalizing x items with
  | zero =>
    unfold descendTo at h
    split at h
    · cases h
    · have hpair : (([] : List ForkItem), x) = (items, z) := Except.ok.inj h
      cases hpair
      exact .stay _
  | succ steps ih =>
    unfold descendTo at h
    split at h
    · obtain ⟨prev, hprev, h⟩ := bind_eq_ok h
      obtain ⟨pair, hrest, h⟩ := bind_eq_ok h
      have hpair : (x :: pair.1, pair.2) = (items, z) := Except.ok.inj h
      cases hpair
      exact .down (asserted_eq_ok hprev) (ih hrest)
    · have hpair : (([] : List ForkItem), x) = (items, z) := Except.ok.inj h
      cases hpair
      exact .stay _

/-- Two ways that end with items of the same previous block. -/
def Meet (f : ForkDatabase) (x y : ForkItem) (firsts seconds : List ForkItem) : Prop :=
  ∃ items u items' v, firsts = items ++ [u] ∧ seconds = items' ++ [v] ∧ Steps f x items u ∧
    Steps f y items' v ∧ u.data.header.previous = v.data.header.previous

/-- Two items with one previous block meet at once. -/
theorem Meet.here {firsts seconds : List ForkItem}
    (hsame : x.data.header.previous = y.data.header.previous)
    (h : ([x], [y]) = (firsts, seconds)) : Meet f x y firsts seconds := by
  cases h
  exact ⟨[], x, [], y, rfl, rfl, .stay x, .stay y, hsame⟩

/-- The common descent meets if it returns. -/
theorem descendTogether_meet {steps : ℕ} {firsts seconds : List ForkItem}
    (h : f.descendTogether steps x y = .ok (firsts, seconds)) : Meet f x y firsts seconds := by
  induction steps generalizing x y firsts seconds with
  | zero =>
    unfold descendTogether at h
    split at h
    · cases h
    next hsame => exact .here (not_not.mp hsame) (Except.ok.inj h)
  | succ steps ih =>
    unfold descendTogether at h
    split at h
    · obtain ⟨firstPrev, hfirst, h⟩ := bind_eq_ok h
      obtain ⟨secondPrev, hsecond, h⟩ := bind_eq_ok h
      obtain ⟨pair, hrest, h⟩ := bind_eq_ok h
      have hpair : (x :: pair.1, y :: pair.2) = (firsts, seconds) := Except.ok.inj h
      cases hpair
      obtain ⟨items, u, items', v, hfirsts, hseconds, hu, hv, hsame⟩ := ih hrest
      exact ⟨x :: items, u, y :: items', v, by rw [hfirsts]; rfl, by rw [hseconds]; rfl,
        .down (asserted_eq_ok hfirst) hu, .down (asserted_eq_ok hsecond) hv, hsame⟩
    next hsame => exact .here (not_not.mp hsame) (Except.ok.inj h)

/-- Two branches with a common ancestor: each leads from an item of the index to a block
on top of the ancestor. -/
structure Branches (f : ForkDatabase) (first second : ForkItem) (new old : List ForkItem) where
  newItems : List ForkItem
  newLast : ForkItem
  oldItems : List ForkItem
  oldLast : ForkItem
  new_eq : new = newItems ++ [newLast]
  old_eq : old = oldItems ++ [oldLast]
  newSteps : Steps f first newItems newLast
  oldSteps : Steps f second oldItems oldLast
  ancestor : newLast.data.header.previous = oldLast.data.header.previous

/-- The two branches of a fetch start at the two items with the ids. -/
theorem fetchBranchFrom_eq_ok {firstId secondId : BlockId} {new old : List ForkItem}
    (h : f.fetchBranchFrom firstId secondId = .ok (new, old)) :
    ∃ first second, f.findById firstId = some first ∧ f.findById secondId = some second ∧
      Nonempty (Branches f first second new old) := by
  obtain ⟨first, hfirst, h⟩ := bind_eq_ok h
  obtain ⟨second, hsecond, h⟩ := bind_eq_ok h
  obtain ⟨⟨firsts, firstLow⟩, hfirsts, h⟩ := bind_eq_ok h
  obtain ⟨⟨seconds, secondLow⟩, hseconds, h⟩ := bind_eq_ok h
  obtain ⟨⟨firsts', seconds'⟩, htogether, h⟩ := bind_eq_ok h
  have hpair : (firsts ++ firsts', seconds ++ seconds') = (new, old) := Except.ok.inj h
  cases hpair
  obtain ⟨items, u, items', v, hu, hv, hstepsU, hstepsV, hsame⟩ := descendTogether_meet htogether
  refine ⟨first, second, asserted_eq_ok hfirst, asserted_eq_ok hsecond, ⟨{
    newItems := firsts ++ items
    newLast := u
    oldItems := seconds ++ items'
    oldLast := v
    new_eq := by rw [hu, List.append_assoc]
    old_eq := by rw [hv, List.append_assoc]
    newSteps := (descendTo_steps hfirsts).trans hstepsU
    oldSteps := (descendTo_steps hseconds).trans hstepsV
    ancestor := hsame }⟩⟩

/-- All items of two branches are alive. -/
theorem Branches.mem {first second : ForkItem} {new old : List ForkItem}
    (h : Branches f first second new old) (hfirst : first ∈ f.alive) (hsecond : second ∈ f.alive) :
    (∀ x ∈ new, x ∈ f.alive) ∧ ∀ x ∈ old, x ∈ f.alive := by
  obtain ⟨hnew, hnewLast⟩ := h.newSteps.mem hfirst
  obtain ⟨hold, holdLast⟩ := h.oldSteps.mem hsecond
  constructor
  · intro x hx
    rw [h.new_eq] at hx
    rcases List.mem_append.mp hx with hx | hx
    · exact hnew x hx
    · rw [List.mem_singleton.mp hx]
      exact hnewLast
  · intro x hx
    rw [h.old_eq] at hx
    rcases List.mem_append.mp hx with hx | hx
    · exact hold x hx
    · rw [List.mem_singleton.mp hx]
      exact holdLast

end Branches

end ForkDatabase

end Whaleshares
