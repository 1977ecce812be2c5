import Whaleshares.Observation
import Whaleshares.PendingSession

/-!
# `push_block`, watched

The routines of `_push_block` with a record of their `pop_block` and `apply_block` steps,
whether these return or throw. Without the record they are the routines of the node; and a
relation that every step keeps holds across the whole of `_push_block`, whatever its outcome.
-/

namespace Whaleshares

open Fc Protocol Objects Program Database Process PendingSession Node

/-- What is recorded of the node before, the outcome and the node after a step. -/
structure Watcher (τ : Type) where
  /-- For every `pop_block`. -/
  pop : Node → Except Exc Unit → Node → List τ
  /-- For every `apply_block` in its session. -/
  apply : Node → Except Exc Unit → Node → List τ
  /-- For the restoring of the pending transactions at the end of every `push_block`. -/
  restore : Node → Except Exc Unit → Node → List τ

namespace Watcher

section Routines

variable {τ : Type} (w : Watcher τ) (ctx : Context)

/-- `popUntil`, watched. -/
def popUntil (env : Env) (id : BlockId) : ℕ → Traced Node τ Exc Unit
  | 0 => do
    let head ← silent (.read headBlockId)
    if head = id then pure ()
    else .ofExcept (.error ⟨.undefinedBehaviour, "while( head_block_id() != id ) pop_block()"⟩)
  | rounds + 1 => do
    let head ← silent (.read headBlockId)
    if head = id then pure ()
    else do
      recorded w.pop (Node.popBlock env)
      popUntil env id rounds

/-- `popTo`, watched. -/
def popTo (env : Env) (id : BlockId) : Traced Node τ Exc Unit := do
  let rounds ← silent (.read popRounds)
  w.popUntil env id rounds

/-- `abandonBranch`, watched. -/
def abandonBranch (rest old : List ForkItem) : Traced Node τ Exc Unit := do
  silent (.change fun n => { n with
    forkDb := rest.foldl (fun f item => f.remove item.id) n.forkDb })
  let tip ← .ofExcept (tipOf old)
  silent (.change fun n => { n with forkDb := n.forkDb.setHead tip })
  let ancestor ← .ofExcept (ancestorOf old)
  w.popTo ctx.env ancestor
  .each (fun item => recorded w.apply (applyInSession ctx item.data)) old.reverse

/-- `pushBranch`, watched. -/
def pushBranch (old : List ForkItem) : List ForkItem → Traced Node τ Exc Unit
  | [] => pure ()
  | item :: rest => do
    let outcome ← (recorded w.apply (applyInSession ctx item.data)).attempt
    match outcome with
    | .ok _ => pushBranch old rest
    | .error e => do
      w.abandonBranch ctx (item :: rest) old
      .ofExcept (.error e)

/-- `switchTo`, watched. -/
def switchTo (new old : List ForkItem) : Traced Node τ Exc Unit := do
  let ancestor ← .ofExcept (ancestorOf old)
  w.popTo ctx.env ancestor
  w.pushBranch ctx old new.reverse

/-- `owning`, watched. -/
def owning (items : List ForkItem) (m : Traced Node τ Exc Unit) : Traced Node τ Exc Unit := do
  silent (.change fun n => { n with forkDb := { n.forkDb with pinned := items } })
  let outcome ← m.attempt
  silent (.change fun n => { n with forkDb := { n.forkDb with pinned := [] } })
  .ofExcept outcome

/-- `extendHead`, watched. -/
def extendHead (b : SignedBlock) : Traced Node τ Exc Unit := do
  let outcome ← (recorded w.apply (applyInSession ctx b)).attempt
  match outcome with
  | .ok _ => pure ()
  | .error e => do
    silent (.change fun n => { n with forkDb := n.forkDb.remove (b.id ctx.env) })
    .ofExcept (.error e)

/-- `_push_block`, watched. -/
def pushBlockCore (b : SignedBlock) : Traced Node τ Exc Bool :=
  if ctx.skip.forkDb then do
    w.extendHead ctx b
    pure false
  else do
    let newHead ← silent (pushToForkDb ctx b)
    let n ← silent (.read fun n => n)
    if newHead.data.header.previous ≠ n.headBlockId then
      if n.headNum < newHead.num then do
        let branches ← .ofExcept (n.forkDb.fetchBranchFrom newHead.id n.headBlockId)
        owning (newHead :: branches.1 ++ branches.2) (w.switchTo ctx branches.1 branches.2)
        pure true
      else pure false
    else do
      w.extendHead ctx b
      pure false

/-- `push_block`, watched. -/
def pushBlock (b : SignedBlock) : Traced Node τ Exc Bool := do
  let pending ← silent (.read (·.pendingTx))
  silent clearPending
  let outcome ← (w.pushBlockCore ctx b).attempt
  recorded w.restore (restorePending ctx pending)
  .ofExcept outcome

end Routines

section Erasure

variable {τ : Type} {w : Watcher τ} {env : Env} {ctx : Context}

/-- The recorded loop over the blocks to pop is the one of the node. -/
theorem popUntil_erases (id : BlockId) (rounds : ℕ) :
    Erases (w.popUntil env id rounds) (Node.popUntil env id rounds) := by
  induction rounds with
  | zero => exact .bind (.silent _) fun _ => .ite (.done ()) (.ofExcept _)
  | succ rounds ih =>
    exact .bind (.silent _) fun _ => .ite (.done ()) (.bind (.recorded _ _) fun _ => ih)

/-- The recorded way back to a block is the one of the node. -/
theorem popTo_erases (id : BlockId) : Erases (w.popTo env id) (Node.popTo env id) :=
  .bind (.silent _) fun _ => popUntil_erases id _

/-- The recorded retreat from a failed branch is the one of the node. -/
theorem abandonBranch_erases (rest old : List ForkItem) :
    Erases (w.abandonBranch ctx rest old) (Node.abandonBranch ctx rest old) :=
  .bind (.silent _) fun _ => .bind (.ofExcept _) fun _ => .bind (.silent _) fun _ =>
    .bind (.ofExcept _) fun _ => .bind (popTo_erases _) fun _ => .each (fun _ => .recorded _ _) _

/-- The recorded push of a branch is the one of the node. -/
theorem pushBranch_erases (old new : List ForkItem) :
    Erases (w.pushBranch ctx old new) (Node.pushBranch ctx old new) := by
  induction new with
  | nil => exact .done ()
  | cons item rest ih =>
    refine .bind (.attempt (.recorded _ _)) fun outcome => ?_
    cases outcome with
    | ok u => exact ih
    | error e => exact .bind (abandonBranch_erases _ _) fun _ => .ofExcept _

/-- The recorded switch is the one of the node. -/
theorem switchTo_erases (new old : List ForkItem) :
    Erases (w.switchTo ctx new old) (Node.switchTo ctx new old) :=
  .bind (.ofExcept _) fun _ => .bind (popTo_erases _) fun _ => pushBranch_erases _ _

/-- Holding items changes nothing of what is recorded. -/
theorem owning_erases {items : List ForkItem} {p : Traced Node τ Exc Unit} {m : NodeM Unit}
    (h : Erases p m) : Erases (Watcher.owning items p) (Node.owning items m) :=
  .bind (.silent _) fun _ => .bind h.attempt fun _ => .bind (.silent _) fun _ => .ofExcept _

/-- The recorded extension of the head is the one of the node. -/
theorem extendHead_erases (b : SignedBlock) :
    Erases (w.extendHead ctx b) (Node.extendHead ctx b) := by
  refine .bind (.attempt (.recorded _ _)) fun outcome => ?_
  cases outcome with
  | ok u => exact .done ()
  | error e => exact .bind (.silent _) fun _ => .ofExcept _

/-- The recorded `_push_block` is the one of the node. -/
theorem pushBlockCore_erases (b : SignedBlock) :
    Erases (w.pushBlockCore ctx b) (Node.pushBlockCore ctx b) :=
  .ite (.bind (extendHead_erases b) fun _ => .done false)
    (.bind (.silent _) fun _ => .bind (.silent _) fun _ =>
      .ite (.ite (.bind (.ofExcept _) fun _ =>
        .bind (owning_erases (switchTo_erases _ _)) fun _ => .done true) (.done false))
        (.bind (extendHead_erases b) fun _ => .done false))

/-- Watching changes nothing. -/
theorem pushBlock_erases (ctx : Context) (b : SignedBlock) :
    Erases (w.pushBlock ctx b) (Node.pushBlock ctx b) :=
  .bind (.silent _) fun _ => .bind (.silent _) fun _ =>
    .bind (.attempt (pushBlockCore_erases b)) fun _ => .bind (.recorded _ _) fun _ => .ofExcept _

end Erasure

section Relations

variable {τ : Type} {w : Watcher τ} {ctx : Context}

/-- Every step of `_push_block`, whatever its outcome, keeps the relation between the nodes
with their records. -/
structure Keeps (w : Watcher τ) (ctx : Context) (S : Node × List τ → Node × List τ → Prop) :
    Prop where
  pop : Always S (recorded w.pop (Node.popBlock ctx.env))
  apply : ∀ b, Always S (recorded w.apply (applyInSession ctx b))
  forkDb : ∀ s f, S s ({ s.1 with forkDb := f }, s.2)

variable {S : Node × List τ → Node × List τ → Prop}

/-- A silent change of the fork database keeps the relation. -/
theorem change_keeps (h : w.Keeps ctx S) (f : ForkDatabase → ForkDatabase) :
    Always S (silent (.change fun n : Node => { n with forkDb := f n.forkDb }) :
      Traced Node τ Exc Unit) :=
  ⟨fun s => h.forkDb s (f s.1.forkDb)⟩

variable [IsPreorder (Node × List τ) S]

/-- A silent reading keeps the relation. -/
theorem read_keeps {α : Type} (f : Node → α) : Always S (silent (.read f) : Traced Node τ Exc α) :=
  ⟨fun s => Std.Refl.refl s⟩

/-- The loop over the blocks to pop keeps the relation. -/
theorem popUntil_keeps (h : w.Keeps ctx S) (id : BlockId) (rounds : ℕ) :
    Always S (w.popUntil ctx.env id rounds) := by
  induction rounds with
  | zero => exact .bind (read_keeps _) fun _ => .ite (.done ()) (.ofExcept _)
  | succ rounds ih =>
    exact .bind (read_keeps _) fun _ => .ite (.done ()) (.bind h.pop fun _ => ih)

/-- The way back to a block keeps the relation. -/
theorem popTo_keeps (h : w.Keeps ctx S) (id : BlockId) : Always S (w.popTo ctx.env id) :=
  .bind (read_keeps _) fun _ => popUntil_keeps h id _

/-- The retreat from a failed branch keeps the relation. -/
theorem abandonBranch_keeps (h : w.Keeps ctx S) (rest old : List ForkItem) :
    Always S (w.abandonBranch ctx rest old) :=
  .bind (change_keeps h fun f => rest.foldl (fun f item => f.remove item.id) f) fun _ =>
    .bind (.ofExcept _) fun tip => .bind (change_keeps h fun f => f.setHead tip) fun _ =>
    .bind (.ofExcept _) fun _ => .bind (popTo_keeps h _) fun _ => .each fun item _ => h.apply item.data

/-- The push of a branch keeps the relation. -/
theorem pushBranch_keeps (h : w.Keeps ctx S) (old new : List ForkItem) :
    Always S (w.pushBranch ctx old new) := by
  induction new with
  | nil => exact .done ()
  | cons item rest ih =>
    refine .bind (.attempt (h.apply item.data)) fun outcome => ?_
    cases outcome with
    | ok u => exact ih
    | error e => exact .bind (abandonBranch_keeps h _ old) fun _ => .ofExcept _

/-- The switch keeps the relation. -/
theorem switchTo_keeps (h : w.Keeps ctx S) (new old : List ForkItem) :
    Always S (w.switchTo ctx new old) :=
  .bind (.ofExcept _) fun _ => .bind (popTo_keeps h _) fun _ => pushBranch_keeps h old _

/-- Holding items keeps the relation. -/
theorem owning_keeps (h : w.Keeps ctx S) {items : List ForkItem} {q : Traced Node τ Exc Unit}
    (hq : Always S q) : Always S (Watcher.owning items q) :=
  .bind (change_keeps h fun f => { f with pinned := items }) fun _ => .bind hq.attempt fun _ =>
    .bind (change_keeps h fun f => { f with pinned := [] }) fun _ => .ofExcept _

/-- The extension of the head keeps the relation. -/
theorem extendHead_keeps (h : w.Keeps ctx S) (b : SignedBlock) :
    Always S (w.extendHead ctx b) := by
  refine .bind (.attempt (h.apply b)) fun outcome => ?_
  cases outcome with
  | ok u => exact .done ()
  | error e => exact .bind (change_keeps h fun f => f.remove (b.id ctx.env)) fun _ => .ofExcept _

/-- The push to the fork database keeps the relation. -/
theorem pushToForkDb_keeps (h : w.Keeps ctx S) (b : SignedBlock) :
    Always S (silent (pushToForkDb ctx b) : Traced Node τ Exc ForkItem) := by
  constructor
  intro s
  unfold silent pushToForkDb
  split
  · exact h.forkDb s _
  · exact Std.Refl.refl s

/-- A relation that the steps of `_push_block` keep holds across the whole of it. -/
theorem pushBlockCore_keeps (h : w.Keeps ctx S) (b : SignedBlock) :
    Always S (w.pushBlockCore ctx b) :=
  .ite (.bind (extendHead_keeps h b) fun _ => .done false)
    (.bind (pushToForkDb_keeps h b) fun _ => .bind (read_keeps _) fun _ =>
      .ite (.ite (.bind (.ofExcept _) fun _ =>
        .bind (owning_keeps h (switchTo_keeps h _ _)) fun _ => .done true) (.done false))
        (.bind (extendHead_keeps h b) fun _ => .done false))

/-- After the pending transactions are cleared no session is pending. -/
theorem clearPending_idle (n : Node) :
    ∃ m, clearPending n = (.ok (), m) ∧ m.pendingSession = false := by
  have hclear : clearPending n = (.ok (),
      if n.pendingSession then { n with db := n.db.undo, pendingTx := [], pendingSession := false }
      else { n with pendingTx := [] }) := rfl
  refine ⟨_, hclear, ?_⟩
  split
  next => rfl
  next hsession => simpa using hsession

/-- The parts of a watched `push_block`. -/
theorem pushBlock_parts (w : Watcher τ) (ctx : Context) (b : SignedBlock) (s : Node × List τ) :
    ∃ k t m, clearPending s.1 = (.ok (), k) ∧ k.pendingSession = false ∧
      (w.pushBlockCore ctx b (k, s.2)).2 = t ∧
      restorePending ctx s.1.pendingTx t.1 = (.ok (), m) ∧
      (w.pushBlock ctx b s).2 = (m, t.2 ++ w.restore t.1 (.ok ()) m) := by
  obtain ⟨k, hk, hidle⟩ := clearPending_idle s.1
  cases hcore : w.pushBlockCore ctx b (k, s.2) with
  | mk r t =>
    obtain ⟨m, hm⟩ := restorePending_returns ctx s.1.pendingTx t.1
    refine ⟨k, t, m, hk, hidle, congrArg Prod.snd hcore, hm, ?_⟩
    have hread : (silent (.read (·.pendingTx)) : Traced Node τ Exc _) s =
        (.ok s.1.pendingTx, s) := rfl
    have hclear : (silent clearPending : Traced Node τ Exc Unit) s = (.ok (), k, s.2) := by
      unfold silent
      rw [hk]
    have hrestore : recorded w.restore (restorePending ctx s.1.pendingTx) t =
        (.ok (), m, t.2 ++ w.restore t.1 (.ok ()) m) := by
      unfold recorded
      rw [hm]
    unfold Watcher.pushBlock
    rw [bind_of_ok hread, bind_of_ok hclear, bind_of_ok (attempt_of hcore), bind_of_ok hrestore]
    rfl

end Relations

end Watcher

end Whaleshares
