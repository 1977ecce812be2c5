import Whaleshares.ForkDatabase
import Whaleshares.Genesis
import Whaleshares.Process
import Whaleshares.SnapshotStack

/-!
# The node

`push_block`, `pop_block` and what they use of `chain/database.cpp`, `chain/block_log.cpp`
and `chain/db_with.hpp`. The object database is a stack of snapshots, one for each undo
session; a block is applied in a session of its own, whose destructor undoes whatever the
block changed before an exception. An exception loses neither the changes of the fork
database and the block log nor the commit of older sessions.

Checkpoints, the flushing of files and the notification of plugins are left out.
-/

namespace Whaleshares

open Config Fc Protocol Objects Program Database ApplyBlock Genesis

/-- `database`: the object database and the members that blocks and transactions change. -/
structure Node where
  /-- The indices of chainbase with their undo stacks. -/
  db : SnapshotStack ChainState
  /-- `_fork_db` -/
  forkDb : ForkDatabase := {}
  /-- `_block_log`: its blocks, the oldest first. -/
  blockLog : List SignedBlock := []
  /-- `_pending_tx` -/
  pendingTx : List SignedTransaction := []
  /-- `_popped_tx` -/
  poppedTx : List SignedTransaction := []
  /-- `_pending_tx_session.valid()` -/
  pendingSession : Bool := false

/-- A routine of the node. -/
abbrev NodeM := Process Node Exc

namespace Node

/-- The present objects. -/
def state (n : Node) : ChainState := n.db.current

/-- `head_block_id` -/
def headBlockId (n : Node) : BlockId := n.state.dgp.headBlockId

/-- `head_block_num` -/
def headNum (n : Node) : ℕ := n.state.dgp.headBlockNumber

/-- A node after `init_genesis`, without blocks. -/
def genesis (env : Env) (initSupply : ℕ) : Node :=
  { db := ⟨initGenesis env initSupply, 0, []⟩ }

section Sessions

/-- `start_undo_session( true )` -/
def startUndoSession : NodeM Unit := .change fun n => { n with db := n.db.start }

/-- `undo`, which does nothing without a session. -/
def undo : NodeM Unit := .change fun n => { n with db := n.db.undo }

/-- A routine on the objects. What it changes before an exception is undone with the
session it runs in. -/
def onState {α : Type} (m : Chain α) : NodeM α := fun n =>
  match m n.db.current with
  | .ok (a, s) => (.ok a, { n with db := n.db.write s })
  | .error e => (.error e, n)

/-- A change of the fork database that can fail. -/
def onForkDb (f : ForkDatabase → Except Exc ForkDatabase) : NodeM Unit := fun n =>
  match f n.forkDb with
  | .ok forkDb => (.ok (), { n with forkDb := forkDb })
  | .error e => (.error e, n)

/-- A routine in a session of its own, which is undone if the routine throws. -/
def inSession (m : NodeM Unit) : NodeM Unit := do
  startUndoSession
  let outcome ← m.attempt
  match outcome with
  | .ok _ => pure ()
  | .error e => do
    undo
    .ofExcept (.error e)

end Sessions

section ApplyBlock

variable (ctx : Context)

/-- The number of the newest block in the block log. -/
def logHeadNum (n : Node) : ℕ :=
  match n.blockLog.getLast? with
  | some b => b.blockNum
  | none => 0

/-- `block_log::append`, which asserts the position in its index. -/
def append (b : SignedBlock) : NodeM Unit := fun n =>
  if n.blockLog.length = b.blockNum - 1 then
    (.ok (), { n with blockLog := n.blockLog ++ [b] })
  else (.error (failed "Append to index file occuring at wrong position."), n)

/-- The loop that appends the blocks up to the last irreversible one to the block log. -/
def appendBlocks : ℕ → ℕ → NodeM Unit
  | 0, _ => pure ()
  | left + 1, num => do
    let found ← .read fun n => n.forkDb.fetchBlockOnMainBranchByNumber (num + 1)
    let item ← .ofExcept (ForkDatabase.asserted found
      "Current fork in the fork database does not contain the last_irreversible_block")
    append item.data
    appendBlocks left (num + 1)

/-- The update of the block log up to a block number. -/
def updateBlockLog (num : ℕ) : NodeM Unit :=
  if ctx.skip.blockLog then pure ()
  else do
    let logHead ← .read logHeadNum
    appendBlocks (num - logHead) logHead

/-- The number of blocks that the fork database keeps. -/
def cacheSize (dpo : DynamicGlobalPropertyObject) : ℕ :=
  dpo.headBlockNumber - dpo.lastIrreversibleBlockNum + 1

/-- The part of `update_last_irreversible_block` outside the objects. -/
def commitIrreversible : NodeM Unit := do
  let dpo ← .read (·.state.dgp)
  .change fun n => { n with db := n.db.commit dpo.lastIrreversibleBlockNum }
  updateBlockLog ctx dpo.lastIrreversibleBlockNum
  .change fun n => { n with forkDb := n.forkDb.setMaxSize (cacheSize dpo) }

/-- `apply_block` -/
def applyBlock (b : SignedBlock) : NodeM Unit := do
  onState (applyBlockFront ctx b)
  commitIrreversible ctx
  onState (applyBlockBack ctx b)

end ApplyBlock

section PopBlock

/-- `fetch_block_by_id` -/
def fetchBlockById (env : Env) (id : BlockId) (n : Node) : Option SignedBlock :=
  match n.forkDb.fetchBlock id with
  | some item => some item.data
  | none => (n.blockLog[id.num - 1]?).filter fun b => 0 < id.num && b.id env = id

/-- `_pending_tx_session.reset()` -/
def resetPendingSession : NodeM Unit := .change fun n =>
  if n.pendingSession then { n with db := n.db.undo, pendingSession := false } else n

/-- `pop_block` -/
def popBlock (env : Env) : NodeM Unit := do
  resetPendingSession
  let found ← .read fun n => fetchBlockById env n.headBlockId n
  let headBlock ← .ofExcept (match found with
    | some b => .ok b
    | none => .error ⟨.popEmptyChain, "there are no blocks to pop"⟩)
  onForkDb ForkDatabase.popBlock
  undo
  .change fun n => { n with poppedTx := headBlock.transactions ++ n.poppedTx }

/-- `while( head_block_id() != id ) pop_block();` Each round takes the fork database's head
to its parent, which is one block lower, so there are no more rounds than its number. -/
def popUntil (env : Env) (id : BlockId) : ℕ → NodeM Unit
  | 0 => do
    let head ← .read headBlockId
    if head = id then pure ()
    else .ofExcept (.error ⟨.undefinedBehaviour, "while( head_block_id() != id ) pop_block()"⟩)
  | rounds + 1 => do
    let head ← .read headBlockId
    if head = id then pure ()
    else do
      popBlock env
      popUntil env id rounds

/-- The rounds of `popUntil`. -/
def popRounds (n : Node) : ℕ :=
  match n.forkDb.head with
  | some head => head.num + 1
  | none => 1

/-- The loop with its number of rounds. -/
def popTo (env : Env) (id : BlockId) : NodeM Unit := do
  let rounds ← .read popRounds
  popUntil env id rounds

end PopBlock

section PushBlock

variable (ctx : Context)

/-- A block in an undo session: `start_undo_session`, `apply_block`, `session.push`. -/
def applyInSession (b : SignedBlock) : NodeM Unit := inSession (applyBlock ctx b)

/-- The previous block of the last item of a branch, its common ancestor with the other
one. -/
def ancestorOf (branch : List ForkItem) : Except Exc BlockId :=
  match branch.getLast? with
  | some item => .ok item.data.header.previous
  | none => .error ⟨.undefinedBehaviour, "branches.second.back()"⟩

/-- `branches.second.front()` -/
def tipOf (branch : List ForkItem) : Except Exc ForkItem :=
  match branch with
  | item :: _ => .ok item
  | [] => .error ⟨.undefinedBehaviour, "branches.second.front()"⟩

/-- What `_push_block` does when a block of the new branch throws: the rest of the branch
is removed, and the old branch, newest item first, is restored. -/
def abandonBranch (rest old : List ForkItem) : NodeM Unit := do
  .change fun n => { n with forkDb := rest.foldl (fun f item => f.remove item.id) n.forkDb }
  let tip ← .ofExcept (tipOf old)
  .change fun n => { n with forkDb := n.forkDb.setHead tip }
  let ancestor ← .ofExcept (ancestorOf old)
  popTo ctx.env ancestor
  .each (fun item => applyInSession ctx item.data) old.reverse

/-- The loop of `_push_block` over the items of the new branch, oldest first. -/
def pushBranch (old : List ForkItem) : List ForkItem → NodeM Unit
  | [] => pure ()
  | item :: rest => do
    let outcome ← (applyInSession ctx item.data).attempt
    match outcome with
    | .ok _ => pushBranch old rest
    | .error e => do
      abandonBranch ctx (item :: rest) old
      .ofExcept (.error e)

/-- The switch to the branch of a new head. -/
def switchTo (new old : List ForkItem) : NodeM Unit := do
  let ancestor ← .ofExcept (ancestorOf old)
  popTo ctx.env ancestor
  pushBranch ctx old new.reverse

/-- A routine during which local variables own items. -/
def owning (items : List ForkItem) (m : NodeM Unit) : NodeM Unit := do
  .change fun n => { n with forkDb := { n.forkDb with pinned := items } }
  let outcome ← m.attempt
  .change fun n => { n with forkDb := { n.forkDb with pinned := [] } }
  .ofExcept outcome

/-- The push of a block that needs no switch of forks. -/
def extendHead (b : SignedBlock) : NodeM Unit := do
  let outcome ← (applyInSession ctx b).attempt
  match outcome with
  | .ok _ => pure ()
  | .error e => do
    .change fun n => { n with forkDb := n.forkDb.remove (b.id ctx.env) }
    .ofExcept (.error e)

/-- `_fork_db.push_block` -/
def pushToForkDb (b : SignedBlock) : NodeM ForkItem := fun n =>
  match n.forkDb.pushBlock ctx.env b with
  | .ok (head, forkDb) => (.ok head, { n with forkDb := forkDb })
  | .error e => (.error e, n)

/-- `_push_block`; returns whether it switched forks. -/
def pushBlockCore (b : SignedBlock) : NodeM Bool :=
  if ctx.skip.forkDb then do
    extendHead ctx b
    pure false
  else do
    let newHead ← pushToForkDb ctx b
    let n ← .read fun n => n
    if newHead.data.header.previous ≠ n.headBlockId then
      if n.headNum < newHead.num then do
        let (new, old) ← .ofExcept (n.forkDb.fetchBranchFrom newHead.id n.headBlockId)
        owning (newHead :: new ++ old) (switchTo ctx new old)
        pure true
      else pure false
    else do
      extendHead ctx b
      pure false

end PushBlock

section Pending

variable (ctx : Context)

/-- `is_known_transaction` -/
def isKnownTransaction (trx : SignedTransaction) (n : Node) : Bool :=
  (n.state.transactions.find fun t => t.trxId = ctx.env.transactionId trx).isSome

/-- `_push_transaction` -/
def pushTransaction (trx : SignedTransaction) : NodeM Unit := do
  .change fun n => if n.pendingSession then n else { n with db := n.db.start, pendingSession := true }
  inSession (onState (applyTransaction ctx trx))
  .change fun n => { n with pendingTx := n.pendingTx ++ [trx], db := n.db.squash }

/-- The transaction is pushed again unless it is known; exceptions are caught. -/
def restoreTransaction (trx : SignedTransaction) : NodeM Unit := do
  let known ← .read (isKnownTransaction ctx trx)
  if known then pure ()
  else do
    let _ ← (pushTransaction ctx trx).attempt
    pure ()

/-- `clear_pending` -/
def clearPending : NodeM Unit := do
  .change fun n => { n with pendingTx := [] }
  resetPendingSession

/-- The destructor of `pending_transactions_restorer`. -/
def restorePending (pending : List SignedTransaction) : NodeM Unit := do
  let popped ← .read (·.poppedTx)
  .each (restoreTransaction ctx) popped
  .change fun n => { n with poppedTx := [] }
  .each (restoreTransaction ctx) pending

/-- `push_block` -/
def pushBlock (b : SignedBlock) : NodeM Bool := do
  let pending ← .read (·.pendingTx)
  clearPending
  let outcome ← (pushBlockCore ctx b).attempt
  restorePending ctx pending
  .ofExcept outcome

end Pending

end Node

end Whaleshares
