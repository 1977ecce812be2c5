import Whaleshares.NodeRoutines

/-!
# The session of the pending transactions

Pending transactions run in one session on top of the undo stack of the blocks. A
transaction that fails leaves no trace but the open session; clearing the pending
transactions returns to the stack of the blocks, whatever was pending.
-/

namespace Whaleshares.PendingSession

open Fc Protocol Objects Program Database ApplyBlock ChainRun ChainTip Process NodeRoutines Node

variable {ctx : Context} {trx : SignedTransaction} {base : SnapshotStack ChainState}
  {forkDb : ForkDatabase} {n m : Node}

/-- The node has the fork database `forkDb`, and its objects are those of the stack `base`
with the pending transactions on top. -/
structure OnTop (base : SnapshotStack ChainState) (forkDb : ForkDatabase) (n : Node) : Prop where
  db : n.db = if n.pendingSession then base.start.write n.db.current else base
  sameTip : SameTip base.current n.db.current
  nothing : n.pendingTx = [] → n.db.current = base.current
  sameForks : n.forkDb = forkDb

/-- A node without a session for pending transactions. -/
theorem OnTop.idle (hidle : n.pendingSession = false) : OnTop n.db n.forkDb n := by
  refine ⟨?_, rfl, fun _ => rfl, rfl⟩
  rw [hidle]
  rfl

/-- The head block of the node is that of the base. -/
theorem OnTop.headBlockId (h : OnTop base forkDb n) :
    n.headBlockId = base.current.dgp.headBlockId :=
  congrArg Prod.fst h.sameTip

/-- The popped transactions do not matter for what lies on the base. -/
theorem OnTop.poppedTx (h : OnTop base forkDb n) (popped : List SignedTransaction) :
    OnTop base forkDb { n with poppedTx := popped } :=
  ⟨h.db, h.sameTip, h.nothing, h.sameForks⟩

/-- The node with a session for pending transactions. -/
def opened (n : Node) : Node :=
  if n.pendingSession then n else { n with db := n.db.start, pendingSession := true }

/-- Opening the pending session keeps the base. -/
theorem opened_onTop (h : OnTop base forkDb n) :
    OnTop base forkDb (opened n) ∧ (opened n).pendingSession = true := by
  have hdb := h.db
  unfold opened
  split
  next hsession => exact ⟨h, hsession⟩
  next hsession =>
    rw [if_neg hsession] at hdb
    refine ⟨⟨?_, ?_, fun _ => ?_, h.sameForks⟩, rfl⟩
    · change n.db.start = base.start.write n.db.current
      rw [hdb]
      rfl
    · change SameTip base.current n.db.current
      exact h.sameTip
    · change n.db.current = base.current
      rw [hdb]

/-- Opening the pending session keeps the objects. -/
theorem opened_current (n : Node) : (opened n).db.current = n.db.current := by
  unfold opened
  split
  · rfl
  · rfl

/-- Opening the pending session keeps the pending transactions. -/
theorem opened_pendingTx (n : Node) : (opened n).pendingTx = n.pendingTx := by
  unfold opened
  split
  · rfl
  · rfl

/-- Opening the pending session keeps the popped transactions. -/
theorem opened_poppedTx (n : Node) : (opened n).poppedTx = n.poppedTx := by
  unfold opened
  split
  · rfl
  · rfl

/-- The node after a transaction was pushed that leads to the objects `s`. -/
def pushed (base : SnapshotStack ChainState) (trx : SignedTransaction) (s : ChainState)
    (n : Node) : Node :=
  { opened n with pendingTx := n.pendingTx ++ [trx], db := base.start.write s }

/-- What `_push_transaction` does to a node with pending transactions on top. -/
theorem pushTransaction_eq (ctx : Context) (trx : SignedTransaction) (h : OnTop base forkDb n) :
    pushTransaction ctx trx n = match applyTransaction ctx trx n.db.current with
      | .ok pair => (.ok (), pushed base trx pair.2 n)
      | .error e => (.error e, opened n) := by
  obtain ⟨hopened, hsession⟩ := opened_onTop h
  have hdb := hopened.db
  rw [if_pos hsession] at hdb
  have hopen : (Process.change opened : NodeM Unit) n = (.ok (), opened n) := rfl
  change (Process.change opened >>= fun _ => _) n = _
  rw [bind_of_ok hopen, ← opened_current n]
  cases hrun : applyTransaction ctx trx (opened n).db.current with
  | error e =>
    have hsess : inSession (onState (applyTransaction ctx trx)) (opened n) =
        (.error e, opened n) := by
      have hundo : (opened n).db.start.undo = (opened n).db :=
        SnapshotStack.undo_write_start _ (opened n).db.current
      rw [inSession_eq]
      simp [onState, hrun, hundo]
    rw [bind_of_error hsess]
  | ok pair =>
    have hsess : inSession (onState (applyTransaction ctx trx)) (opened n) =
        (.ok (), { opened n with db := (opened n).db.start.write pair.2 }) := by
      rw [inSession_eq]
      simp [onState, hrun]
    have hsquash : ((opened n).db.start.write pair.2).squash = base.start.write pair.2 := by
      rw [hdb]
      exact base.squash_write_start _ _
    have hpushed : { opened n with
        pendingTx := (opened n).pendingTx ++ [trx]
        db := ((opened n).db.start.write pair.2).squash } = pushed base trx pair.2 n := by
      rw [hsquash, opened_pendingTx]
      rfl
    rw [bind_of_ok hsess]
    exact congrArg (Prod.mk _) hpushed

/-- A pushed transaction stays above the base. -/
theorem pushed_onTop {s : ChainState} (h : OnTop base forkDb n)
    (hs : Returns (applyTransaction ctx trx) n.db.current () s) :
    OnTop base forkDb (pushed base trx s n) := by
  obtain ⟨hopened, hsession⟩ := opened_onTop h
  refine ⟨?_, Trans.trans h.sameTip (applyTransaction_sameTip hs), fun hnone => ?_,
    hopened.sameForks⟩
  · exact (if_pos hsession).symm
  · exact absurd hnone (by simp [pushed])

/-- Whether a transaction is pushed or refused, the stack of the blocks stays. -/
theorem pushTransaction_onTop (ctx : Context) (trx : SignedTransaction) :
    Always (Preserves (OnTop base forkDb)) (pushTransaction ctx trx) := by
  constructor
  intro n hn
  rw [pushTransaction_eq ctx trx hn]
  cases hrun : applyTransaction ctx trx n.db.current with
  | error e => exact (opened_onTop hn).1
  | ok pair => exact pushed_onTop hn hrun

/-- Bringing a transaction back keeps the base. -/
theorem restoreTransaction_onTop (ctx : Context) (trx : SignedTransaction) :
    Always (Preserves (OnTop base forkDb)) (restoreTransaction ctx trx) :=
  .bind (.read _) fun _ =>
    .ite (.done ()) (.bind (pushTransaction_onTop ctx trx).attempt fun _ => .done ())

/-- The destructor of `pending_transactions_restorer` leaves the stack of the blocks. -/
theorem restorePending_onTop (ctx : Context) (pending : List SignedTransaction) :
    Always (Preserves (OnTop base forkDb)) (restorePending ctx pending) :=
  .bind (.read _) fun _ => .bind (.each fun trx _ => restoreTransaction_onTop ctx trx) fun _ =>
    .bind (.change fun _ hn => hn.poppedTx []) fun _ =>
      .each fun trx _ => restoreTransaction_onTop ctx trx

/-- Bringing a transaction back always returns. -/
theorem restoreTransaction_returns (ctx : Context) (trx : SignedTransaction) (n : Node) :
    ∃ m, restoreTransaction ctx trx n = (.ok (), m) := by
  have hread : (Process.read (isKnownTransaction ctx trx) : NodeM Bool) n =
      (.ok (isKnownTransaction ctx trx n), n) := rfl
  unfold restoreTransaction
  rw [bind_of_ok hread]
  split
  · exact ⟨n, rfl⟩
  · exact ⟨(pushTransaction ctx trx n).2, rfl⟩

/-- The destructor never throws. -/
theorem restorePending_returns (ctx : Context) (pending : List SignedTransaction) (n : Node) :
    ∃ m, restorePending ctx pending n = (.ok (), m) := by
  obtain ⟨k, hk⟩ := each_returns (restoreTransaction_returns ctx) n.poppedTx n
  obtain ⟨m, hm⟩ := each_returns (restoreTransaction_returns ctx) pending { k with poppedTx := [] }
  have hread : (Process.read (·.poppedTx) : NodeM _) n = (.ok n.poppedTx, n) := rfl
  refine ⟨m, ?_⟩
  unfold restorePending
  rw [bind_of_ok hread, bind_of_ok hk]
  exact hm

/-- Clearing the pending transactions returns to the stack of the blocks. -/
theorem clearPending_eq (h : OnTop base forkDb n) :
    clearPending n = (.ok (), { n with db := base, pendingTx := [], pendingSession := false }) := by
  have hdb := h.db
  have hclear : clearPending n = (.ok (),
      if n.pendingSession then { n with db := n.db.undo, pendingTx := [], pendingSession := false }
      else { n with pendingTx := [] }) := rfl
  rw [hclear]
  split
  next hsession =>
    rw [if_pos hsession] at hdb
    rw [hdb, SnapshotStack.undo_write_start]
  next hsession =>
    rw [if_neg hsession] at hdb
    rw [hdb]
    simp only [Bool.not_eq_true] at hsession
    rw [hsession]

/-- A `push_block` that returns is a `_push_block` that returns, on the stack of the blocks,
with the pending transactions put on top of the new stack. -/
theorem pushBlock_ok {b : SignedBlock} {switched : Bool} (hn : OnTop base forkDb n)
    (h : Node.pushBlock ctx b n = (.ok switched, m)) :
    ∃ k, pushBlockCore ctx b { n with db := base, pendingTx := [], pendingSession := false } =
        (.ok switched, k) ∧
      (k.pendingSession = false → OnTop k.db k.forkDb m) := by
  obtain ⟨pending, k₁, h₁, h⟩ := ok_of_bind h
  have hk₁ : n = k₁ := congrArg Prod.snd h₁
  rw [← hk₁, bind_of_ok (clearPending_eq hn)] at h
  obtain ⟨outcome, k₂, h₂, h⟩ := ok_of_bind h
  obtain ⟨_, k₃, h₃, h⟩ := ok_of_bind h
  obtain ⟨houtcome, hm⟩ := ok_of_ofExcept h
  have h₂ := attempt_ok h₂
  rw [houtcome] at h₂
  refine ⟨k₂, h₂, fun hidle => ?_⟩
  rw [hm]
  exact (restorePending_onTop ctx pending).of_eq h₃ (.idle hidle)

end Whaleshares.PendingSession
