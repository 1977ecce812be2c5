import Whaleshares.Irreversibility
import Whaleshares.ReplayProtection

/-!
# The pending transactions

Between calls the objects are those of the head block with the pending transactions applied
in order. A `push_block` takes the pending transactions off and, whatever becomes of the
block, tries them again after the transactions of the blocks that it popped; those that are
not known and apply are the pending ones afterwards.
-/

namespace Whaleshares.PendingState

open Config Fc Protocol Objects Program Database ApplyBlock Genesis ChainRun ChainTip Footprint
  Process NodeRoutines ChainLadder PendingSession Irreversibility ReplayProtection Node

section Retry

variable {ctx : Context} {s t : ChainState} {base : SnapshotStack ChainState}
  {forkDb : ForkDatabase} {n m : Node}

/-- Whether the dedupe index has the id of a transaction. -/
def isKnown (env : Env) (s : ChainState) (trx : SignedTransaction) : Bool :=
  (s.transactions.find fun r => r.trxId = env.transactionId trx).isSome

/-- What becomes of transactions that are tried in order: those that are not known and apply,
and the objects after them. -/
def retry (ctx : Context) : ChainState → List SignedTransaction →
    List SignedTransaction × ChainState
  | s, [] => ([], s)
  | s, trx :: rest =>
    if isKnown ctx.env s trx then retry ctx s rest
    else match applyTransaction ctx trx s with
      | .ok (_, t) => (trx :: (retry ctx t rest).1, (retry ctx t rest).2)
      | .error _ => retry ctx s rest

section Steps

variable {trx : SignedTransaction} {rest : List SignedTransaction}

/-- A known transaction is not tried again. -/
theorem retry_known (hknown : isKnown ctx.env s trx = true) :
    retry ctx s (trx :: rest) = retry ctx s rest := by
  rw [retry, if_pos hknown]

/-- A transaction that applies is kept, and the others are tried after it. -/
theorem retry_applied {pair : Unit × ChainState} (hnew : ¬ isKnown ctx.env s trx = true)
    (happlied : applyTransaction ctx trx s = .ok pair) :
    retry ctx s (trx :: rest) = (trx :: (retry ctx pair.2 rest).1, (retry ctx pair.2 rest).2) := by
  rw [retry, if_neg hnew, happlied]

/-- A transaction that is refused is dropped. -/
theorem retry_refused {e : Exc} (hnew : ¬ isKnown ctx.env s trx = true)
    (hrefused : applyTransaction ctx trx s = .error e) :
    retry ctx s (trx :: rest) = retry ctx s rest := by
  rw [retry, if_neg hnew, hrefused]

end Steps

/-- Two lists of transactions are tried one after the other. -/
theorem retry_append (ctx : Context) (s : ChainState) (first second : List SignedTransaction) :
    retry ctx s (first ++ second) =
      ((retry ctx s first).1 ++ (retry ctx (retry ctx s first).2 second).1,
        (retry ctx (retry ctx s first).2 second).2) := by
  induction first generalizing s with
  | nil => rfl
  | cons trx rest ih =>
    rw [List.cons_append]
    by_cases hknown : isKnown ctx.env s trx = true
    · rw [retry_known hknown, retry_known hknown]
      exact ih s
    · cases hrun : applyTransaction ctx trx s with
      | ok pair =>
        rw [retry_applied hknown hrun, retry_applied hknown hrun, ih pair.2]
        rfl
      | error e =>
        rw [retry_refused hknown hrun, retry_refused hknown hrun]
        exact ih s

/-- A loop of the destructor tries its transactions on top of the pending ones. -/
theorem each_restoreTransaction (ctx : Context) (trxs : List SignedTransaction)
    (h : OnTop base forkDb n) :
    ∃ m, Process.each (restoreTransaction ctx) trxs n = (.ok (), m) ∧ OnTop base forkDb m ∧
      m.pendingTx = n.pendingTx ++ (retry ctx n.db.current trxs).1 ∧
      m.db.current = (retry ctx n.db.current trxs).2 ∧ m.poppedTx = n.poppedTx := by
  induction trxs generalizing n with
  | nil => exact ⟨n, rfl, h, by simp [retry], rfl, rfl⟩
  | cons trx rest ih =>
    have hread : (Process.read (isKnownTransaction ctx trx) : NodeM Bool) n =
        (.ok (isKnown ctx.env n.db.current trx), n) := rfl
    have hcons : Process.each (restoreTransaction ctx) (trx :: rest) n =
        (restoreTransaction ctx trx >>= fun _ => Process.each (restoreTransaction ctx) rest) n := rfl
    rw [hcons]
    by_cases hknown : isKnown ctx.env n.db.current trx = true
    · have hsame : restoreTransaction ctx trx n = (.ok (), n) := by
        unfold restoreTransaction
        rw [bind_of_ok hread, if_pos hknown]
        rfl
      rw [bind_of_ok hsame, retry_known hknown]
      exact ih h
    · have hpush : restoreTransaction ctx trx n = (.ok (), (pushTransaction ctx trx n).2) := by
        unfold restoreTransaction
        rw [bind_of_ok hread, if_neg hknown]
        rfl
      rw [bind_of_ok hpush, pushTransaction_eq ctx trx h]
      cases hrun : applyTransaction ctx trx n.db.current with
      | error e =>
        rw [retry_refused hknown hrun]
        obtain ⟨m, hm, htop, hpending, hcurrent, hpopped⟩ := ih (opened_onTop h).1
        rw [opened_current] at hcurrent hpending
        rw [opened_pendingTx] at hpending
        rw [opened_poppedTx] at hpopped
        exact ⟨m, hm, htop, hpending, hcurrent, hpopped⟩
      | ok pair =>
        rw [retry_applied hknown hrun]
        obtain ⟨m, hm, htop, hpending, hcurrent, hpopped⟩ := ih (pushed_onTop h hrun)
        refine ⟨m, hm, htop, ?_, hcurrent, hpopped.trans (opened_poppedTx n)⟩
        rw [hpending]
        change (n.pendingTx ++ [trx]) ++ _ = _
        rw [List.append_assoc]
        rfl

/-- The destructor tries the transactions of the popped blocks and then those that were
pending. -/
theorem restorePending_eq (ctx : Context) (pending : List SignedTransaction)
    (h : OnTop base forkDb n) :
    ∃ m, restorePending ctx pending n = (.ok (), m) ∧ OnTop base forkDb m ∧
      m.pendingTx = n.pendingTx ++ (retry ctx n.db.current (n.poppedTx ++ pending)).1 ∧
      m.db.current = (retry ctx n.db.current (n.poppedTx ++ pending)).2 ∧ m.poppedTx = [] := by
  obtain ⟨k, hk, hktop, hkpending, hkcurrent, -⟩ := each_restoreTransaction ctx n.poppedTx h
  obtain ⟨m, hm, hmtop, hmpending, hmcurrent, hmpopped⟩ :=
    each_restoreTransaction ctx pending (hktop.poppedTx [])
  have hread : (Process.read (·.poppedTx) : NodeM _) n = (.ok n.poppedTx, n) := rfl
  refine ⟨m, ?_, hmtop, ?_, ?_, hmpopped⟩
  · unfold restorePending
    rw [bind_of_ok hread, bind_of_ok hk]
    exact hm
  · rw [retry_append, hmpending]
    change k.pendingTx ++ (retry ctx k.db.current pending).1 = _
    rw [hkpending, hkcurrent, List.append_assoc]
  · rw [retry_append, hmcurrent]
    change (retry ctx k.db.current pending).2 = _
    rw [hkcurrent]

end Retry

section Applied

variable {env : Env} {allowed : Context → Prop} {s t u : ChainState} {trx : SignedTransaction}
  {trxs : List SignedTransaction}

/-- The transactions lead from `s` to `t` when they are applied in order, each with settings
that are allowed. -/
inductive Applied (allowed : Context → Prop) :
    ChainState → List SignedTransaction → ChainState → Prop
  | nil (s : ChainState) : Applied allowed s [] s
  | snoc {s t u : ChainState} {trxs : List SignedTransaction} {trx : SignedTransaction}
      {ctx : Context} (h : Applied allowed s trxs t) (hctx : allowed ctx)
      (happly : Returns (applyTransaction ctx trx) t () u) : Applied allowed s (trxs ++ [trx]) u

/-- Transactions applied in allowed contexts are so in more of them. -/
theorem Applied.mono {allowed' : Context → Prop} (h : Applied allowed s trxs t)
    (hallowed : ∀ ctx, allowed ctx → allowed' ctx) : Applied allowed' s trxs t := by
  induction h with
  | nil => exact .nil s
  | snoc _ hctx happly ih => exact .snoc ih (hallowed _ hctx) happly

/-- What is tried again is applied after what was applied before. -/
theorem Applied.retry {ctx : Context} (h : Applied allowed s trxs t) (hctx : allowed ctx)
    (more : List SignedTransaction) :
    Applied allowed s (trxs ++ (retry ctx t more).1) (retry ctx t more).2 := by
  induction more generalizing trxs t with
  | nil =>
    change Applied allowed s (trxs ++ []) t
    rw [List.append_nil]
    exact h
  | cons trx rest ih =>
    by_cases hknown : isKnown ctx.env t trx = true
    · rw [retry_known hknown]
      exact ih h
    · cases hrun : applyTransaction ctx trx t with
      | ok pair =>
        rw [retry_applied hknown hrun]
        have hstep := ih (h.snoc hctx hrun)
        rw [List.append_assoc] at hstep
        exact hstep
      | error e =>
        rw [retry_refused hknown hrun]
        exact ih h

/-- With the check for duplicates, the applied transactions have different ids, none of which
is in the dedupe index they started from. -/
theorem Applied.ids (h : Applied allowed s trxs t)
    (hallowed : ∀ ctx, allowed ctx → ctx.env = env ∧ ctx.skip.transactionDupeCheck = false) :
    t.transactions.rows.map (·.trxId) =
        s.transactions.rows.map (·.trxId) ++ trxs.map env.transactionId ∧
      (trxs.map env.transactionId).Nodup ∧
      ∀ trx ∈ trxs, env.transactionId trx ∉ s.transactions.rows.map (·.trxId) := by
  induction h with
  | nil => simp
  | @snoc t u trxs trx ctx _ hctx happly ih =>
    obtain ⟨hrows, hnodup, hnew⟩ := ih
    obtain ⟨henv, hdupe⟩ := hallowed _ hctx
    obtain ⟨hfresh, -, r, hid, -, happended⟩ := applyTransaction_records hdupe happly
    rw [henv] at hid
    have hunrecorded := hfresh.unrecorded
    rw [henv] at hunrecorded
    have hfree : env.transactionId trx ∉
        s.transactions.rows.map (·.trxId) ++ trxs.map env.transactionId := by
      rw [← hrows]
      intro hmem
      obtain ⟨old, hold, hsame⟩ := List.mem_map.mp hmem
      exact hunrecorded old hold hsame
    rw [List.mem_append, not_or] at hfree
    refine ⟨?_, ?_, fun x hx => ?_⟩
    · rw [happended, List.map_append, hrows, List.map_append, List.append_assoc]
      simp [hid]
    · rw [List.map_append]
      refine hnodup.append (List.nodup_singleton _) ?_
      rw [List.map_singleton, List.disjoint_singleton]
      exact hfree.2
    · rcases List.mem_append.mp hx with hx | hx
      · exact hnew x hx
      · rw [List.mem_singleton.mp hx]
        exact hfree.1

end Applied

section Popped

variable {env : Env} {initSupply : ℕ} {n m : Node}

/-- The blocks that are popped, in the order in which they are. -/
def poppedBlocks (env : Env) : Watcher SignedBlock where
  pop n outcome _ := match outcome with
    | .ok _ => (fetchBlockById env n.headBlockId n).toList
    | .error _ => []
  apply _ _ _ := []
  restore _ _ _ := []

/-- The transactions of popped blocks, the block that was popped last first. -/
def transactionsOfPopped (blocks : List SignedBlock) : List SignedTransaction :=
  blocks.reverse.flatMap (·.transactions)

/-- The transactions of blocks popped later come first. -/
theorem transactionsOfPopped_append (first second : List SignedBlock) :
    transactionsOfPopped (first ++ second) =
      transactionsOfPopped second ++ transactionsOfPopped first := by
  simp [transactionsOfPopped]

/-- The nodes have the same transactions aside. -/
def SameQueues (n m : Node) : Prop :=
  m.pendingTx = n.pendingTx ∧ m.poppedTx = n.poppedTx

/-- Applying a block in a session keeps the queues. -/
theorem applyInSession_sameQueues (ctx : Context) (b : SignedBlock) :
    Always SameQueues (applyInSession ctx b) := by
  constructor
  intro n
  cases hrun : applyInSession ctx b n with
  | mk r m =>
    cases r with
    | ok u =>
      obtain ⟨front, back, log, -, -, -, hm⟩ := applyInSession_ok hrun
      rw [hm]
      exact ⟨rfl, rfl⟩
    | error e =>
      obtain ⟨k, hk, rfl⟩ := inSession_error hrun
      rcases applyBlock_error hk with rfl | ⟨_, _, _, -, -, rfl⟩
      · exact ⟨rfl, rfl⟩
      · exact ⟨rfl, rfl⟩

/-- The steps of `_push_block` leave the pending transactions, and put the transactions of the
popped blocks before those that were popped already. -/
structure Popping (env : Env) (initSupply : ℕ) (s t : Node × List SignedBlock) : Prop where
  firm : Firm env initSupply s.1 t.1
  queues : s.1.pendingSession = false → t.1.pendingTx = s.1.pendingTx ∧
    ∃ blocks, t.2 = s.2 ++ blocks ∧ t.1.poppedTx = transactionsOfPopped blocks ++ s.1.poppedTx

/-- A step that keeps the queues pops nothing. -/
theorem Popping.of_same {s : Node × List SignedBlock} {k : Node} (hfirm : Firm env initSupply s.1 k)
    (hsame : SameQueues s.1 k) : Popping env initSupply s (k, s.2 ++ []) :=
  ⟨hfirm, fun _ => ⟨hsame.1, [], rfl, hsame.2⟩⟩

instance : IsPreorder (Node × List SignedBlock) (Popping env initSupply) where
  refl s := ⟨Std.Refl.refl s.1, fun _ => ⟨rfl, [], by simp, rfl⟩⟩
  trans s t u hst htu := by
    refine ⟨Trans.trans hst.firm htu.firm, fun hidle => ?_⟩
    obtain ⟨hpending, blocks, hblocks, hpopped⟩ := hst.queues hidle
    obtain ⟨hpending', blocks', hblocks', hpopped'⟩ := htu.queues (hst.firm hidle).1
    refine ⟨hpending'.trans hpending, blocks ++ blocks', ?_, ?_⟩
    · rw [hblocks', hblocks, List.append_assoc]
    · rw [hpopped', hpopped, transactionsOfPopped_append, List.append_assoc]

/-- A popped block is recorded with its transactions in the queue. -/
theorem popBlock_popping (env' : Env) :
    Always (Popping env initSupply) (recorded (poppedBlocks env').pop (Node.popBlock env')) := by
  constructor
  intro s
  have hfirm := (popBlock_firm env initSupply env').rel s.1
  refine ⟨hfirm, fun hidle => ?_⟩
  unfold recorded
  cases hrun : Node.popBlock env' s.1 with
  | mk r m =>
    cases r with
    | error e =>
      have hm : m = s.1 := popBlock_error hidle hrun
      rw [hm]
      exact ⟨rfl, [], rfl, rfl⟩
    | ok u =>
      obtain ⟨-, -, block, -, -, hfetch, rfl⟩ := popBlock_ok hidle hrun
      refine ⟨rfl, [block], ?_, ?_⟩
      · simp [poppedBlocks, hfetch]
      · simp [transactionsOfPopped]

/-- The recorded `_push_block` keeps the popped transactions in the queue. -/
theorem poppedBlocks_popping (p : BlockCall) :
    (poppedBlocks env).Keeps (p.context env) (Popping env initSupply) where
  pop := popBlock_popping _
  apply b := ⟨fun s => .of_same ((applyInSession_firm p b).rel s.1)
    ((applyInSession_sameQueues (p.context env) b).rel s.1)⟩
  forkDb s f := ⟨.of_db rfl rfl, fun _ => ⟨rfl, [], by simp, rfl⟩⟩

end Popped

section Runs

variable {env : Env} {initSupply : ℕ} {n m : Node}

/-- A call of `push_transaction`. -/
structure TransactionCall where
  /-- The skip flags of the call. -/
  skip : SkipFlags
  /-- `get_max_undo()` -/
  maxUndo : ℕ
  /-- The transaction. -/
  trx : SignedTransaction

/-- A call that the node gets. -/
inductive NodeCall
  /-- `push_transaction` -/
  | transaction (call : TransactionCall)
  /-- `push_block` -/
  | block (call : BlockCall)

/-- What the code reads during a call; `push_transaction` sets `is_producing()`. -/
def NodeCall.context (env : Env) : NodeCall → Context
  | .transaction call => ⟨env, call.skip, true, call.maxUndo⟩
  | .block call => call.context env

/-- `push_transaction`, with the size of a packed transaction. -/
def submitTransaction (packSize : SignedTransaction → ℕ) (ctx : Context)
    (trx : SignedTransaction) : NodeM Unit := do
  let size ← .read (·.state.dgp.maximumBlockSize)
  .ofExcept (fcAssert (packSize trx ≤ (size + 2 ^ 32 - 256) % 2 ^ 32)
    "fc::raw::pack_size(trx) <= (get_dynamic_global_properties().maximum_block_size - 256)")
  pushTransaction ctx trx

/-- One call, whether it returns or throws. -/
def NodeCall.run (packSize : SignedTransaction → ℕ) (env : Env) (call : NodeCall) : NodeM Unit :=
  match call with
  | .transaction push => do
    let _ ← (submitTransaction packSize (call.context env) push.trx).attempt
    pure ()
  | .block push => do
    let _ ← (Node.pushBlock (call.context env) push.block).attempt
    pure ()

/-- The node after calls from genesis on. -/
def nodeAfter (packSize : SignedTransaction → ℕ) (env : Env) (initSupply : ℕ)
    (calls : List NodeCall) : Node :=
  (Process.each (NodeCall.run packSize env) calls (genesis env initSupply)).2

/-- The objects without the session of the pending transactions. -/
def headState (n : Node) : ChainState := if n.pendingSession then n.db.undo.current else n.state

/-- The settings of a call. -/
def Used (env : Env) (calls : List NodeCall) (ctx : Context) : Prop :=
  ∃ call ∈ calls, ctx = call.context env

/-- The state of the head is the base below the pending session. -/
theorem headState_eq {base : SnapshotStack ChainState} {forkDb : ForkDatabase}
    (h : OnTop base forkDb n) : headState n = base.current := by
  have hdb := h.db
  unfold headState Node.state
  split
  next hsession =>
    rw [if_pos hsession] at hdb
    rw [hdb, SnapshotStack.undo_write_start]
  next hsession =>
    rw [if_neg hsession] at hdb
    rw [hdb]

/-- The node between two calls: nothing popped is left, and the objects are those of a chain
with the pending transactions applied in order. -/
structure Consistent (env : Env) (initSupply : ℕ) (allowed : Context → Prop) (n : Node) : Prop where
  unpopped : n.poppedTx = []
  onTop : ∃ chain floor base, OnTop base n.forkDb n ∧ Perch env initSupply chain floor base ∧
    Applied allowed base.current n.pendingTx n.db.current

/-- The node is consistent at genesis. -/
theorem genesis_consistent (env : Env) (initSupply : ℕ) (allowed : Context → Prop) :
    Consistent env initSupply allowed (genesis env initSupply) :=
  ⟨rfl, [], 0, _, .idle rfl, ⟨.genesis env initSupply, rfl, le_rfl⟩, .nil _⟩

/-- A node that is consistent for some contexts is so for more of them. -/
theorem Consistent.mono {allowed allowed' : Context → Prop}
    (h : Consistent env initSupply allowed n) (hallowed : ∀ ctx, allowed ctx → allowed' ctx) :
    Consistent env initSupply allowed' n := by
  obtain ⟨hunpopped, chain, floor, base, htop, hperch, happlied⟩ := h
  exact ⟨hunpopped, chain, floor, base, htop, hperch, happlied.mono hallowed⟩

/-- A `push_transaction` keeps the node consistent. -/
theorem submitTransaction_consistent {allowed : Context → Prop} {ctx : Context}
    (packSize : SignedTransaction → ℕ) (trx : SignedTransaction) (hctx : allowed ctx) :
    Always (Preserves (Consistent env initSupply allowed)) (submitTransaction packSize ctx trx) := by
  refine .bind (.read _) fun _ => .bind (.ofExcept _) fun _ => ⟨fun n hn => ?_⟩
  obtain ⟨hunpopped, chain, floor, base, htop, hperch, happlied⟩ := hn
  rw [pushTransaction_eq ctx trx htop]
  cases hrun : applyTransaction ctx trx n.db.current with
  | error e =>
    have hopened := (opened_onTop htop).1
    refine ⟨(opened_poppedTx n).trans hunpopped, chain, floor, base, ?_, hperch, ?_⟩
    · rw [hopened.sameForks]
      exact hopened
    · rw [opened_pendingTx, opened_current]
      exact happlied
  | ok pair =>
    have hpushed := pushed_onTop htop hrun
    refine ⟨(opened_poppedTx n).trans hunpopped, chain, floor, base, ?_, hperch, ?_⟩
    · rw [hpushed.sameForks]
      exact hpushed
    · exact happlied.snoc hctx hrun

/-- What a `push_block` leaves, whether it returns or throws: the transactions of the popped
blocks and those that were pending have been tried on the objects of the new head. -/
theorem pushBlock_consistent {allowed : Context → Prop} (p : BlockCall)
    (hp : allowed (p.context env)) (hn : Consistent env initSupply allowed n) :
    ∃ blocks, ((poppedBlocks env).pushBlock (p.context env) p.block (n, [])).2 =
        ((Node.pushBlock (p.context env) p.block n).2, blocks) ∧
      Consistent env initSupply allowed (Node.pushBlock (p.context env) p.block n).2 ∧
      ((Node.pushBlock (p.context env) p.block n).2.pendingTx,
          (Node.pushBlock (p.context env) p.block n).2.state) =
        retry (p.context env) (headState (Node.pushBlock (p.context env) p.block n).2)
          (transactionsOfPopped blocks ++ n.pendingTx) := by
  obtain ⟨hunpopped, chain, floor, base, htop, hperch, -⟩ := hn
  obtain ⟨k, t, m, hk, hidle, hcore, hm, hpush⟩ :=
    (poppedBlocks env).pushBlock_parts (p.context env) p.block (n, [])
  have hkn : k = { n with db := base, pendingTx := [], pendingSession := false } := by
    rw [clearPending_eq htop] at hk
    exact (congrArg Prod.snd hk).symm
  have hpopping : Popping env initSupply (k, []) t := by
    rw [← hcore]
    exact (Watcher.pushBlockCore_keeps (poppedBlocks_popping p) p.block).rel (k, [])
  obtain ⟨hidle', hfirm⟩ := hpopping.firm hidle
  obtain ⟨hpending, blocks, hblocks, hpopped⟩ := hpopping.queues hidle
  obtain ⟨chain', floor', hperch', -⟩ := hfirm chain floor (by rw [hkn]; exact hperch)
  obtain ⟨m', hm', hmtop, hmpending, hmcurrent, hmpopped⟩ :=
    restorePending_eq (p.context env) n.pendingTx (OnTop.idle hidle')
  have hsame : m' = m := congrArg Prod.snd (hm'.symm.trans hm)
  rw [hsame] at hmtop hmpending hmcurrent hmpopped
  have hpopped : t.1.poppedTx = transactionsOfPopped blocks := by
    rw [hpopped, hkn]
    change transactionsOfPopped blocks ++ n.poppedTx = _
    rw [hunpopped, List.append_nil]
  have hnone : t.1.pendingTx = [] := by
    rw [hpending, hkn]
  rw [hnone, List.nil_append, hpopped] at hmpending
  rw [hpopped] at hmcurrent
  have hplain : (Node.pushBlock (p.context env) p.block n).2 = m := by
    have herases := (Watcher.pushBlock_erases (w := poppedBlocks env) (p.context env)
      p.block).state (n, [])
    rw [hpush] at herases
    exact herases.symm
  have hmtop : OnTop t.1.db m.forkDb m := by
    rw [hmtop.sameForks]
    exact hmtop
  rw [hplain]
  refine ⟨blocks, ?_, ⟨hmpopped, chain', floor', t.1.db, hmtop, hperch', ?_⟩, ?_⟩
  · rw [hpush, hblocks]
    simp [poppedBlocks]
  · rw [hmpending, hmcurrent]
    exact (Applied.nil _).retry hp _
  · rw [headState_eq hmtop, hmpending]
    unfold Node.state
    rw [hmcurrent]

/-- A call keeps the node consistent. -/
theorem run_consistent {allowed : Context → Prop} (packSize : SignedTransaction → ℕ)
    (call : NodeCall) (hcall : allowed (call.context env)) :
    Always (Preserves (Consistent env initSupply allowed)) (call.run packSize env) := by
  cases call with
  | transaction push =>
    exact .bind (.attempt (submitTransaction_consistent packSize push.trx hcall)) fun _ => .done ()
  | block push =>
    refine .bind (.attempt ⟨fun n hn => ?_⟩) fun _ => .done ()
    obtain ⟨_, -, hconsistent, -⟩ := pushBlock_consistent push hcall hn
    exact hconsistent

/-- After all calls the node is consistent. -/
theorem nodeAfter_consistent (packSize : SignedTransaction → ℕ) (env : Env) (initSupply : ℕ)
    (calls : List NodeCall) :
    Consistent env initSupply (Used env calls) (nodeAfter packSize env initSupply calls) := by
  have halways : Always (Preserves (Consistent env initSupply (Used env calls)))
      (Process.each (NodeCall.run packSize env) calls) :=
    .each fun call hcall => run_consistent packSize call ⟨call, hcall, rfl⟩
  exact halways.rel _ (genesis_consistent env initSupply _)

/-- A further push comes after the other calls. -/
theorem nodeAfter_push (packSize : SignedTransaction → ℕ) (env : Env) (initSupply : ℕ)
    (calls : List NodeCall) (push : BlockCall) :
    nodeAfter packSize env initSupply (calls ++ [.block push]) =
      (Node.pushBlock (push.context env) push.block
        (nodeAfter packSize env initSupply calls)).2 := by
  have hreturns : ∀ (call : NodeCall) (n : Node), ∃ m, call.run packSize env n = (.ok (), m) := by
    intro call n
    cases call with
    | transaction push => exact ⟨_, rfl⟩
    | block push => exact ⟨_, rfl⟩
  unfold nodeAfter
  rw [Process.each_append hreturns]
  rfl

/-- Whether a call skips the check for duplicate transactions. -/
def NodeCall.skipsDupeCheck : NodeCall → Bool
  | .transaction call => call.skip.transactionDupeCheck
  | .block call => call.skip.transactionDupeCheck

/-- After any run of `push_transaction` and `push_block` calls, each returning or throwing, the
objects are those of the head block with the pending transactions applied in order, each with
the settings of one of the calls. If no call skips the check for duplicates, no id is pending
twice, and none is in the dedupe index of the head block. After a further `push_block` the
pending transactions and the objects are those that result from trying the transactions of the
blocks it popped, the last popped block first, and then the ones that were pending. -/
theorem pending_state_consistent (packSize : SignedTransaction → ℕ) (env : Env) (initSupply : ℕ)
    (calls : List NodeCall) :
    (∃ chain, Reaches env initSupply chain (headState (nodeAfter packSize env initSupply calls)) ∧
      lastId env chain = (nodeAfter packSize env initSupply calls).headBlockId ∧
      Applied (Used env calls) (headState (nodeAfter packSize env initSupply calls))
        (nodeAfter packSize env initSupply calls).pendingTx
        (nodeAfter packSize env initSupply calls).state) ∧
    ((∀ call ∈ calls, call.skipsDupeCheck = false) →
      ((nodeAfter packSize env initSupply calls).pendingTx.map env.transactionId).Nodup ∧
      ∀ trx ∈ (nodeAfter packSize env initSupply calls).pendingTx,
        isKnown env (headState (nodeAfter packSize env initSupply calls)) trx = false) ∧
    ∀ push : BlockCall, ∃ popped,
      ((poppedBlocks env).pushBlock (push.context env) push.block
          (nodeAfter packSize env initSupply calls, [])).2 =
        (nodeAfter packSize env initSupply (calls ++ [.block push]), popped) ∧
      ((nodeAfter packSize env initSupply (calls ++ [.block push])).pendingTx,
          (nodeAfter packSize env initSupply (calls ++ [.block push])).state) =
        retry (push.context env)
          (headState (nodeAfter packSize env initSupply (calls ++ [.block push])))
          (transactionsOfPopped popped ++ (nodeAfter packSize env initSupply calls).pendingTx) := by
  have hn := nodeAfter_consistent packSize env initSupply calls
  obtain ⟨-, chain, floor, base, htop, hperch, happlied⟩ := hn
  rw [headState_eq htop]
  refine ⟨⟨chain, hperch.ladder.current, ?_, happlied⟩, fun hdupe => ?_, fun push => ?_⟩
  · rw [htop.headBlockId]
    exact (Reaches.tip hperch.ladder.current).1.symm
  · have hallowed : ∀ ctx, Used env calls ctx →
        ctx.env = env ∧ ctx.skip.transactionDupeCheck = false := by
      rintro ctx ⟨call, hcall, rfl⟩
      have hskips := hdupe call hcall
      cases call with
      | transaction push => exact ⟨rfl, hskips⟩
      | block push => exact ⟨rfl, hskips⟩
    obtain ⟨-, hnodup, hnew⟩ := happlied.ids hallowed
    refine ⟨hnodup, fun trx htrx => ?_⟩
    have hfree := hnew trx htrx
    rw [isKnown, Option.isSome_eq_false_iff, Option.isNone_iff_eq_none]
    refine List.find?_eq_none.mpr fun r hr hid => hfree ?_
    exact List.mem_map.mpr ⟨r, hr, by simpa using hid⟩
  · have hall : Consistent env initSupply (fun _ => True)
        (nodeAfter packSize env initSupply calls) := (nodeAfter_consistent _ _ _ _).mono fun _ _ => trivial
    obtain ⟨popped, hwatched, -, hretry⟩ := pushBlock_consistent push trivial hall
    rw [nodeAfter_push]
    exact ⟨popped, hwatched, hretry⟩

/-- The same transfer, pushed without the check for duplicates. -/
def uncheckedTransfer : NodeCall :=
  .transaction ⟨{ transactionDupeCheck := true }, 10000, sampleTransfer⟩

/-- Without the check for duplicates a transaction can be pending twice. -/
theorem pending_twice_uncheckedTransfer :
    ¬ ∀ (packSize : SignedTransaction → ℕ) (env : Env) (initSupply : ℕ) (calls : List NodeCall),
      ((nodeAfter packSize env initSupply calls).pendingTx.map env.transactionId).Nodup := by
  intro hall
  have htwice : ¬ ((nodeAfter (fun _ => 100) sampleEnv 1000000
      [uncheckedTransfer, uncheckedTransfer]).pendingTx.map sampleEnv.transactionId).Nodup := by
    decide +kernel
  exact htwice (hall _ _ _ _)

end Runs

end Whaleshares.PendingState
