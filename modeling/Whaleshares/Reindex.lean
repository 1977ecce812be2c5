import Whaleshares.PendingState

/-!
# Reindexing

`reindex` applies the blocks of the block log to the objects of `init_genesis`, with the
flags that skip checks. One of them skips more than a check: a transaction is not recorded in
the dedupe index. So the objects are rebuilt but for these records, and exactly if all the
transactions of the log have expired there are none to miss.
-/

namespace Whaleshares.Reindex

open Config Fc Protocol Objects Program Database ApplyBlock Genesis ChainRun ChainTip Records Unseen
  ReplayProtection Process NodeRoutines PendingSession PathIndependence PendingState Evaluators
  CommentEvaluators Node

section Routine

/-- The flags of `reindex`. -/
def reindexFlags : SkipFlags :=
  { witnessSignature := true
    transactionSignatures := true
    transactionDupeCheck := true
    taposCheck := true
    merkleCheck := true
    witnessScheduleCheck := true
    authorityCheck := true
    validate := true
    validateInvariants := true
    blockLog := true }

/-- The settings of `reindex`. -/
def reindexContext (env : Env) (maxUndo : ℕ) : Context := ⟨env, reindexFlags, false, maxUndo⟩

/-- The loop over the block log up to the block with the number of its head. -/
def replayLog (ctx : Context) (last : ℕ) : List SignedBlock → NodeM Unit
  | [] => .ofExcept (.error ⟨.undefinedBehaviour, "_block_log.read_block( itr.second )"⟩)
  | b :: rest =>
    if b.blockNum ≠ last then do
      Node.applyBlock ctx b
      replayLog ctx last rest
    else Node.applyBlock ctx b

/-- `set_revision`, which asserts that there is no undo session. -/
def setRevision (revision : ℤ) : NodeM Unit := fun n =>
  if n.db.saved = [] then (.ok (), { n with db := { n.db with revision := revision } })
  else (.error ⟨.logicError, "cannot set revision while there is an existing undo stack"⟩, n)

/-- `reindex`, on a node that was wiped and opened again. -/
def reindex (env : Env) (maxUndo : ℕ) : NodeM Unit := do
  let log ← .read (·.blockLog)
  let logHead ← .ofExcept (match log.getLast? with
    | some b => .ok b
    | none => .error ⟨.blockLog, "No blocks in block log. Cannot reindex an empty chain."⟩)
  replayLog (reindexContext env maxUndo) logHead.blockNum log
  let head ← .read headNum
  setRevision head
  .change fun n => if logHead.blockNum ≠ 0 then
    { n with forkDb := n.forkDb.startBlock env logHead } else n

/-- A node after `open` without objects, with a block log. -/
def wiped (env : Env) (initSupply : ℕ) (log : List SignedBlock) : Node :=
  { genesis env initSupply with blockLog := log }

end Routine

section Linked

variable {P : Table TransactionObject → Table TransactionObject → Prop} {s s' t : ChainState}

/-- The states differ at most in their records of transactions, which `P` relates. -/
def Linked (P : Table TransactionObject → Table TransactionObject → Prop) (s s' : ChainState) :
    Prop :=
  ∃ records, s' = withRecords records s ∧ P s.transactions records

/-- States that are linked are alike but for the records. -/
theorem linked_eq : Linked P = Alike Eq Eq P := by
  funext s s'
  exact propext alike_iff.symm

/-- A routine that does not see the records does the same on linked states. -/
theorem simulates_of_blind {α : Type} {m : Chain α} (h : Blind (Alike Eq Eq P) m) :
    Simulates (Linked P) m m := by
  rw [linked_eq]
  exact h

/-- What the block does to linked states is decided by its transactions and by the clearing
of expired records. -/
theorem applyBlock_simulates {ctx ctx' : Context} {b : SignedBlock}
    (hbefore : Simulates Eq (beforeTransactions ctx b) (beforeTransactions ctx' b))
    (htrx : ∀ trx, Simulates (Linked P) (applyTransaction ctx trx) (applyTransaction ctx' trx))
    (hafter : ∀ w, afterTransactions ctx b w = afterTransactions ctx' b w)
    (hclear : Simulates (Linked P) clearExpiredTransactions clearExpiredTransactions)
    (hend : afterClearing ctx = afterClearing ctx') :
    Simulates (Linked P) (applyBlock ctx b) (applyBlock ctx' b) := by
  rw [applyBlock_parts, applyBlock_parts]
  refine .bind ((simulates_of_blind (beforeTransactions_blind ctx b)).loosen hbefore)
    fun w => .bind (.forEach htrx _) fun _ => .bind ?_ fun _ => .bind hclear fun _ => ?_
  · rw [← hafter]
    exact simulates_of_blind (afterTransactions_blind ctx b w)
  · rw [← hend]
    exact simulates_of_blind (afterClearing_blind ctx)

end Linked

section Lax

variable {env : Env} {producing : Bool} {maxUndo : ℕ}

/-- The settings of a `push_block` without skip flags. -/
def strictContext (env : Env) (producing : Bool) (maxUndo : ℕ) : Context :=
  ⟨env, {}, producing, maxUndo⟩

/-- An assertion that a flag skips returns as well. -/
theorem fcAssert_skipped {c : Bool} {message : String} (u : Unit)
    (_ : fcAssert (false || c) message = .ok u) : fcAssert (true || c) message = .ok u := by
  rfl

/-- A header that is valid is accepted with the flags of the reindexing. -/
theorem validateBlockHeader_lax (b : SignedBlock) :
    Simulates Eq (validateBlockHeader (strictContext env producing maxUndo) b)
      (validateBlockHeader (reindexContext env maxUndo) b) :=
  .bind (.refl _) fun _ => .bind (.refl _) fun _ => .bind (.refl _) fun _ =>
    .bind (.refl _) fun _ =>
    .bind (.lift fcAssert_skipped) fun _ => .bind (.refl _) fun _ =>
    .bind (.lift fcAssert_skipped) fun _ => .bind (.lift fcAssert_skipped) fun _ => .refl _

/-- What comes before the transactions succeeds with the flags of the reindexing. -/
theorem beforeTransactions_lax (b : SignedBlock) :
    Simulates Eq (beforeTransactions (strictContext env producing maxUndo) b)
      (beforeTransactions (reindexContext env maxUndo) b) :=
  .bind (.lift fcAssert_skipped) fun _ => .bind (validateBlockHeader_lax b) fun _ => .refl _

/-- `witness_update` succeeds with the flags of the reindexing. -/
theorem applyWitnessUpdate_lax (o : WitnessUpdateOperation) :
    Simulates Eq (applyWitnessUpdate (strictContext env producing maxUndo) o)
      (applyWitnessUpdate (reindexContext env maxUndo) o) := by
  refine .bind (.refl _) fun _ => .bind (.refl _) fun _ => .bind (.refl _) fun _ =>
    .bind (.lift fun _ _ => rfl) fun _ => .refl _

/-- An operation that is applied by a producer is applied by everybody. -/
theorem applyOperation_lax (op : Operation) :
    Simulates Eq (applyOperation (strictContext env producing maxUndo) op)
      (applyOperation (reindexContext env maxUndo) op) := by
  cases op with
  | witnessUpdate o => exact applyWitnessUpdate_lax o
  | _ => exact .refl _

/-- The second table has no records. -/
def Unrecorded (_ records : Table TransactionObject) : Prop := records = .empty

/-- An expiration that is checked passes with the flags of the reindexing. -/
theorem checkExpiration_lax {trx : SignedTransaction} {s : ChainState}
    (records : Table TransactionObject) (u : Unit)
    (h : checkExpiration (strictContext env producing maxUndo) trx s = .ok u) :
    checkExpiration (reindexContext env maxUndo) trx (withRecords records s) = .ok u := by
  unfold checkExpiration at h ⊢
  rw [withRecords_dgp, withRecords_blockSummaries]
  split at h
  next hnum =>
    rw [if_pos hnum]
    obtain ⟨_, -, h⟩ := bind_eq_ok h
    exact h
  next hnum => rw [if_neg hnum]

/-- A transaction that is applied and recorded is applied without a record, too. -/
theorem applyTransaction_lax (trx : SignedTransaction) :
    Simulates (Linked Unrecorded) (applyTransaction (strictContext env producing maxUndo) trx)
      (applyTransaction (reindexContext env maxUndo) trx) := by
  constructor
  rintro s s' ⟨⟩ t ⟨records, rfl, rfl⟩ h
  obtain ⟨_, -, h⟩ := h.lift_bind
  obtain ⟨_, -, h⟩ := h.gets_bind.lift_bind
  obtain ⟨_, -, h⟩ := h.lift_bind
  obtain ⟨_, hexpiration, h⟩ := h.lift_bind
  obtain ⟨_, u, hu, hops⟩ := h.bind
  have hbare : withRecords .empty u = withRecords .empty s := by
    rcases hu.whenever with ⟨-, hu⟩ | ⟨hno, -⟩
    · obtain ⟨table, -, rfl⟩ := map_eq_ok hu.update
      rfl
    · exact absurd rfl hno
  have hlax : Simulates Eq
      (forEach (applyOperation (strictContext env producing maxUndo)) trx.operations)
      (forEach (applyOperation (reindexContext env maxUndo)) trx.operations) :=
    .forEach applyOperation_lax _
  obtain ⟨_, hops, rfl⟩ := hlax.sim u u () t rfl hops
  have hops : Returns (forEach (applyOperation (reindexContext env maxUndo)) trx.operations)
      (withRecords .empty s) () (withRecords .empty t) := by
    rw [← hbare]
    exact withRecords_returns (fun _ => .forEach (applyOperation_blind (fun _ =>
    rfl) _) _) hops .empty
  refine ⟨withRecords .empty t, ?_, .empty, rfl, rfl⟩
  have hchecked := checkExpiration_lax .empty () hexpiration
  refine Returns.intro_bind (a := ()) rfl (Returns.intro_bind rfl ?_)
  refine Returns.intro_bind (a := ()) rfl (Returns.intro_bind (a := ()) rfl ?_)
  refine Returns.intro_bind (a := ()) ?_ (Returns.intro_bind (a := ()) rfl hops)
  rw [hchecked]
  rfl

/-- Clearing the expired records keeps one side without records. -/
theorem clearExpiredTransactions_unrecorded :
    Simulates (Linked Unrecorded) clearExpiredTransactions clearExpiredTransactions := by
  constructor
  rintro s s' ⟨⟩ t ⟨records, rfl, rfl⟩ h
  have ht := Except.ok.inj h.update
  rw [← ht]
  exact ⟨withRecords .empty s, rfl, .empty, rfl, rfl⟩

/-- A block that is accepted without skip flags is accepted by `reindex`, and leads to the
same objects but for the records of transactions. -/
theorem applyBlock_lax (b : SignedBlock) :
    Simulates (Linked Unrecorded) (applyBlock (strictContext env producing maxUndo) b)
      (applyBlock (reindexContext env maxUndo) b) :=
  applyBlock_simulates (beforeTransactions_lax b) applyTransaction_lax (fun _ => rfl)
    clearExpiredTransactions_unrecorded rfl

end Lax

section Twins

/-- What is ever read of a record. -/
def recordKey (r : TransactionObject) : ℕ × TimePointSec := (r.trxId, r.expiration)

/-- The tables have the same records, up to the ids of the objects. -/
def SameRecords (x y : Table TransactionObject) : Prop :=
  x.rows.map recordKey = y.rows.map recordKey

variable {x y : Table TransactionObject}

/-- The same records pass the same tests. -/
theorem SameRecords.any (h : SameRecords x y) (p : ℕ × TimePointSec → Bool) :
    x.rows.any (fun r => p (recordKey r)) = y.rows.any fun r => p (recordKey r) := by
  have hx : ∀ rows : List TransactionObject,
      rows.any (fun r => p (recordKey r)) = (rows.map recordKey).any p := by
    intro rows
    rw [List.any_map]
    rfl
  rw [hx, hx, h]

/-- The same records are left after a removal. -/
theorem SameRecords.remove (h : SameRecords x y) (p : ℕ × TimePointSec → Bool) :
    SameRecords (x.remove fun r => p (recordKey r)) (y.remove fun r => p (recordKey r)) := by
  have hx : ∀ rows : List TransactionObject,
      (rows.filter fun r => !p (recordKey r)).map recordKey =
        (rows.map recordKey).filter fun key => !p key := by
    intro rows
    rw [List.filter_map]
    rfl
  unfold SameRecords Table.remove
  rw [hx, hx, h]

/-- Adding a record succeeds on both tables, and they stay the same. -/
theorem SameRecords.create {x' : Table TransactionObject} {trxId : ℕ} {expiration : TimePointSec}
    (h : SameRecords x y)
    (hx : x.create couldNotInsert (fun a b => a.trxId = b.trxId)
      (fun id => .ok ⟨id, trxId, expiration⟩) = .ok x') :
    ∃ y', y.create couldNotInsert (fun a b => a.trxId = b.trxId)
        (fun id => .ok ⟨id, trxId, expiration⟩) = .ok y' ∧ SameRecords x' y' := by
  have hclash := h.any fun key => trxId = key.1
  unfold Table.create at hx ⊢
  change (if x.rows.any _ then _ else _) = _ at hx
  change ∃ y', (if y.rows.any _ then _ else _) = _ ∧ _
  split at hx
  next => cases hx
  next hfree =>
    have hfree' : ¬ (y.rows.any fun r => trxId = (recordKey r).1) = true := by
      rw [← hclash]
      exact hfree
    refine ⟨_, if_neg hfree', ?_⟩
    rw [← Except.ok.inj hx]
    unfold SameRecords at h ⊢
    rw [List.map_append, List.map_append, h]
    rfl

/-- A transaction is found in both or in none. -/
theorem SameRecords.find_isNone (h : SameRecords x y) (trxId : ℕ) :
    (x.find fun r => r.trxId = trxId).isNone = (y.find fun r => r.trxId = trxId).isNone := by
  have hrows : ∀ rows : List TransactionObject, (rows.find? fun r => r.trxId = trxId).isNone =
      !rows.any fun r => decide ((recordKey r).1 = trxId) := by
    intro rows
    rw [← Option.not_isSome, List.isSome_find?]
    rfl
  unfold Table.find
  rw [hrows, hrows, h.any fun key => decide (key.1 = trxId)]

/-- A transaction does the same on states with the same records. -/
theorem applyTransaction_twins (ctx : Context) (trx : SignedTransaction) :
    Simulates (Linked SameRecords) (applyTransaction ctx trx) (applyTransaction ctx trx) := by
  constructor
  rintro s s' ⟨⟩ t ⟨records, rfl, hsame⟩ h
  obtain ⟨_, hvalid, h⟩ := h.lift_bind
  obtain ⟨_, hfree, h⟩ := h.gets_bind.lift_bind
  obtain ⟨_, hauthority, h⟩ := h.lift_bind
  obtain ⟨_, hexpiration, h⟩ := h.lift_bind
  obtain ⟨_, u, hu, hops⟩ := h.bind
  rw [hsame.find_isNone] at hfree
  have hblind : ∀ P, Blind (Alike Eq Eq P) (forEach (applyOperation ctx) trx.operations) :=
    fun _ => .forEach (applyOperation_blind (fun _ => rfl) ctx) trx.operations
  have hops' := withRecords_returns hblind hops
  have hkept : t.transactions = u.transactions := transactions_eq hblind hops
  have hrecorded : ∃ table, Returns (whenever (ctx.skip.transactionDupeCheck = false)
      (createTransaction fun id => .ok ⟨id, ctx.env.transactionId trx, trx.expiration⟩))
      (withRecords records s) () (withRecords table u) ∧ SameRecords u.transactions table := by
    rcases hu.whenever with ⟨hyes, hu⟩ | ⟨hno, rfl⟩
    · obtain ⟨table, htable, rfl⟩ := map_eq_ok hu.update
      obtain ⟨table', htable', hsame'⟩ := hsame.create htable
      refine ⟨table', ?_, hsame'⟩
      unfold whenever
      rw [if_pos hyes]
      refine Returns.intro_update ?_
      rw [withRecords_transactions, htable']
      rfl
    · refine ⟨records, ?_, hsame⟩
      unfold whenever
      rw [if_neg hno]
      rfl
  obtain ⟨table, hcreate, hsame'⟩ := hrecorded
  refine ⟨withRecords table t, ?_, table, rfl, by rw [hkept]; exact hsame'⟩
  refine (Returns.intro_lift hvalid).intro_bind (Returns.intro_bind rfl ?_)
  refine (Returns.intro_lift hfree).intro_bind ?_
  refine (Returns.intro_lift hauthority).intro_bind ?_
  exact (Returns.intro_lift hexpiration).intro_bind (hcreate.intro_bind (hops' table))

/-- Clearing the expired records keeps the records the same. -/
theorem clearExpiredTransactions_twins :
    Simulates (Linked SameRecords) clearExpiredTransactions clearExpiredTransactions := by
  constructor
  rintro s s' ⟨⟩ t ⟨records, rfl, hsame⟩ h
  have ht := Except.ok.inj h.update
  have hremoved := hsame.remove fun key => decide (key.2 < s.dgp.time)
  rw [← ht]
  exact ⟨_, rfl, _, rfl, hremoved⟩

/-- Blocks do the same on states with the same records. -/
theorem runBlocks_twins (env : Env) (calls : List BlockCall) :
    Simulates (Linked SameRecords) (runBlocks env calls) (runBlocks env calls) :=
  .forEach (fun _ => applyBlock_simulates (.refl _) (applyTransaction_twins _) (fun _ => rfl)
    clearExpiredTransactions_twins rfl) calls

/-- The same records link the states in both directions. -/
theorem Linked.symm {s s' : ChainState} (h : Linked SameRecords s s') : Linked SameRecords s' s := by
  obtain ⟨records, rfl, hsame⟩ := h
  exact ⟨s.transactions, rfl, hsame.symm⟩

/-- The program returns on the state. -/
def Accepted (m : Chain Unit) (s : ChainState) : Prop := ∃ t, Returns m s () t

/-- A routine is accepted if its result is no error. -/
theorem accepted_iff_isOk {m : Chain Unit} {s : ChainState} :
    Accepted m s ↔ (m s).isOk = true := by
  unfold Accepted Returns
  cases m s with
  | error e => simp [Except.isOk, Except.toBool]
  | ok pair => exact ⟨fun _ => rfl, fun _ => ⟨pair.2, rfl⟩⟩

/-- A routine is accepted on two states with the same records or on none. -/
theorem accepted_iff {m : Chain Unit} {s s' : ChainState} (hm : Simulates (Linked SameRecords) m m)
    (h : Linked SameRecords s s') : Accepted m s ↔ Accepted m s' := by
  constructor
  · rintro ⟨t, ht⟩
    obtain ⟨t', ht', -⟩ := hm.sim s s' () t h ht
    exact ⟨t', ht'⟩
  · rintro ⟨t, ht⟩
    obtain ⟨t', ht', -⟩ := hm.sim s' s () t h.symm ht
    exact ⟨t', ht'⟩

end Twins

section Expiration

variable {env : Env} {initSupply : ℕ} {ctx : Context} {b : SignedBlock} {s t : ChainState}

/-- What is recorded of a transaction. -/
def trxKey (env : Env) (trx : SignedTransaction) : ℕ × TimePointSec :=
  (env.transactionId trx, trx.expiration)

/-- Applying transactions appends their records. -/
theorem applyTransactions_recordKeys {trxs : List SignedTransaction}
    (hdupe : ctx.skip.transactionDupeCheck = false)
    (h : Returns (forEach (applyTransaction ctx) trxs) s () t) :
    t.transactions.rows.map recordKey =
      s.transactions.rows.map recordKey ++ trxs.map (trxKey ctx.env) := by
  induction trxs generalizing s with
  | nil =>
    rw [(Returns.pure h).2]
    simp
  | cons trx rest ih =>
    obtain ⟨_, u, hu, h⟩ := Returns.bind h
    obtain ⟨-, -, r, hid, hexpiration, hrows⟩ := applyTransaction_records hdupe hu
    have hkey : recordKey r = trxKey ctx.env trx := Prod.ext hid hexpiration
    rw [ih h, hrows, List.map_append, List.map_singleton, hkey, List.append_assoc]
    rfl

/-- A block keeps the records that have not expired and adds those of its transactions. -/
theorem applyBlock_recordKeys (ctx : Context) (hdupe : ctx.skip.transactionDupeCheck = false)
    (h : Returns (applyBlock ctx b) s () t) :
    t.transactions.rows.map recordKey =
        (s.transactions.rows.map recordKey ++ b.transactions.map (trxKey ctx.env)).filter
          (fun key => t.dgp.time ≤ key.2) ∧
      s.dgp.time ≤ t.dgp.time := by
  rw [applyBlock_parts] at h
  obtain ⟨w, s₁, h₁, h⟩ := h.bind
  obtain ⟨_, s₂, h₂, h⟩ := h.bind
  obtain ⟨_, s₃, h₃, h⟩ := h.bind
  obtain ⟨_, s₄, h₄, h⟩ := h.bind
  have hlater := beforeTransactions_later h₁
  obtain ⟨htime₃, -⟩ := afterTransactions_clock h₃
  have hclock := afterClearing_sameClock h
  have hs₁ := transactions_eq (fun _ => beforeTransactions_blind ctx b) h₁
  have hs₂ := applyTransactions_recordKeys hdupe h₂
  have hs₃ := transactions_eq (fun _ => afterTransactions_blind ctx b w) h₃
  have hs₄ := Except.ok.inj h₄.update
  have hs₅ := transactions_eq (fun _ => afterClearing_blind ctx) h
  have htime : t.dgp.time = s₃.dgp.time := by
    rw [hclock.1, ← hs₄]
  refine ⟨?_, ?_⟩
  · rw [hs₅, ← hs₄, htime]
    change (s₃.transactions.rows.filter _).map recordKey = _
    rw [hs₁] at hs₂
    rw [hs₃, ← hs₂, List.filter_map]
    congr 1
    refine List.filter_congr fun r _ => ?_
    change (!decide (r.expiration < s₃.dgp.time)) = decide (s₃.dgp.time ≤ r.expiration)
    rw [← decide_not]
    simp only [not_lt]
  · rw [htime, htime₃]
    exact le_of_lt hlater

/-- The records of a reachable state are those of the transactions that have not expired. -/
theorem reaches_recordKeys {calls : List BlockCall}
    (hdupe : ∀ call ∈ calls, call.skip.transactionDupeCheck = false)
    (h : Reaches env initSupply calls s) :
    s.transactions.rows.map recordKey =
      ((transactionsOf calls).map (trxKey env)).filter fun key => s.dgp.time ≤ key.2 := by
  induction calls using List.reverseRecOn generalizing s with
  | nil =>
    rw [(Returns.pure h).2]
    rfl
  | append_singleton calls call ih =>
    obtain ⟨u, hu, hcall⟩ := reaches_append.mp h
    have hkeys := ih (fun c hc => hdupe c (List.mem_append_left _ hc)) hu
    obtain ⟨hkeys', htime⟩ := applyBlock_recordKeys (call.context env)
      (hdupe call (by simp)) hcall
    have hsplit : transactionsOf (calls ++ [call]) =
        transactionsOf calls ++ call.block.transactions := by
      simp [transactionsOf]
    rw [hkeys', hkeys, hsplit, List.map_append, List.filter_append, List.filter_append,
      List.filter_filter]
    congr 1
    refine List.filter_congr fun key _ => ?_
    by_cases hle : s.dgp.time ≤ key.2
    · simp [hle, le_trans htime hle]
    · simp [hle]

/-- There are no records exactly if all transactions have expired. -/
theorem reaches_records_nil_iff {calls : List BlockCall}
    (hdupe : ∀ call ∈ calls, call.skip.transactionDupeCheck = false)
    (h : Reaches env initSupply calls s) :
    s.transactions.rows = [] ↔ ∀ trx ∈ transactionsOf calls, trx.expiration < s.dgp.time := by
  have hkeys := reaches_recordKeys hdupe h
  rw [← List.map_eq_nil_iff (f := recordKey), hkeys, List.filter_eq_nil_iff, List.forall_mem_map]
  refine forall₂_congr fun trx _ => ?_
  change ¬ decide (s.dgp.time ≤ trx.expiration) = true ↔ trx.expiration < s.dgp.time
  rw [decide_eq_true_iff]
  exact not_le

end Expiration

section Replay

variable {env : Env} {initSupply maxUndo : ℕ} {log : List SignedBlock} {n m : Node}
  {s t : ChainState}

/-- `apply_block` without a session, and without the block log. -/
theorem applyBlock_returns (ctx : Context) {b : SignedBlock} (hskip : ctx.skip.blockLog = true)
    (h : Returns (ApplyBlock.applyBlock ctx b) n.db.current () t) :
    ∃ front, Node.applyBlock ctx b n = (.ok (), afterBlock n front t n.blockLog) := by
  obtain ⟨_, front, hfront, hback⟩ := h.bind
  refine ⟨front, ?_⟩
  have hcommit : commitIrreversible ctx { n with db := n.db.write front } = (.ok (),
      { n with
        db := (n.db.write front).commit front.dgp.lastIrreversibleBlockNum
        forkDb := n.forkDb.setMaxSize (cacheSize front.dgp) }) := by
    have hlog : ∀ num, updateBlockLog ctx num = pure () := fun num => if_pos hskip
    unfold commitIrreversible
    simp only [hlog]
    rfl
  unfold Node.applyBlock
  rw [bind_of_ok (onState_returns hfront), bind_of_ok hcommit]
  exact onState_returns hback

/-- The node of a `reindex` after some blocks: the objects without records of transactions,
and no session. -/
structure Replaying (log : List SignedBlock) (s : ChainState) (n : Node) : Prop where
  current : n.db.current = withRecords .empty s
  saved : n.db.saved = []
  log : n.blockLog = log

/-- Reindexing applies a logged block as the node did. -/
theorem applyBlock_replaying {producing : Bool} {b : SignedBlock} (hn : Replaying log s n)
    (h : Returns (ApplyBlock.applyBlock (strictContext env producing maxUndo) b) s () t) :
    ∃ m, Node.applyBlock (reindexContext env maxUndo) b n = (.ok (), m) ∧ Replaying log t m := by
  obtain ⟨t', ht', records, rfl, rfl⟩ := (applyBlock_lax b).sim s (withRecords .empty s) () t
    ⟨.empty, rfl, rfl⟩ h
  rw [← hn.current] at ht'
  obtain ⟨front, hm⟩ := applyBlock_returns (reindexContext env maxUndo) rfl ht'
  refine ⟨_, hm, rfl, ?_, hn.log⟩
  change n.db.saved.rdropWhile _ = []
  rw [hn.saved]
  rfl

/-- The loop over the blocks of a chain replays them all. -/
theorem replayLog_replaying {calls : List BlockCall} (last : ℕ) (hn : Replaying log s n)
    (hstrict : ∀ call ∈ calls, call.context env = strictContext env call.producing maxUndo)
    (hne : calls ≠ []) (hlast : ∀ init call, calls = init ++ [call] → call.block.blockNum = last)
    (hearlier : ∀ init call rest, calls = init ++ call :: rest → rest ≠ [] →
      call.block.blockNum ≠ last)
    (h : Returns (runBlocks env calls) s () t) :
    ∃ m, replayLog (reindexContext env maxUndo) last (calls.map (·.block)) n = (.ok (), m) ∧
      Replaying log t m := by
  induction calls generalizing s n with
  | nil => exact absurd rfl hne
  | cons call rest ih =>
    obtain ⟨_, u, hu, h⟩ := Returns.bind h
    have hu : Returns (ApplyBlock.applyBlock (call.context env) call.block) s () u := hu
    rw [hstrict call List.mem_cons_self] at hu
    obtain ⟨k, hk, hku⟩ := applyBlock_replaying hn hu
    rw [List.map_cons]
    unfold replayLog
    by_cases hrest : rest = []
    · have hnum := hlast [] call (by rw [hrest]; rfl)
      rw [if_neg (not_not.mpr hnum)]
      rw [hrest] at h
      rw [(Returns.pure h).2]
      exact ⟨k, hk, hku⟩
    · rw [if_pos (hearlier [] call rest rfl hrest), bind_of_ok hk]
      refine ih hku (fun c hc => hstrict c (List.mem_cons_of_mem _ hc)) hrest ?_ ?_ h
      · intro init c hc
        exact hlast (call :: init) c (by rw [hc]; rfl)
      · intro init c later hc
        exact hearlier (call :: init) c later (by rw [hc]; rfl)

/-- The blocks of a run are numbered from one on. -/
theorem blockNum_of_reaches {init rest : List BlockCall} {call : BlockCall}
    (h : Reaches env initSupply (init ++ call :: rest) s) :
    call.block.blockNum = init.length + 1 := by
  obtain ⟨u, hu, h⟩ := Returns.forEach_append h
  obtain ⟨_, v, hv, -⟩ := Returns.bind h
  exact LastIrreversible.blockNum_eq hu (applyBlock_head hv).1

/-- `reindex` over the blocks that were accepted without skip flags completes, with the
objects they led to but for the records of transactions. -/
theorem reindex_returns {chain : List BlockCall} (h : Reaches env initSupply chain s)
    (hstrict : ∀ call ∈ chain, call.context env = strictContext env call.producing maxUndo)
    (hne : chain ≠ []) :
    ∃ m, reindex env maxUndo (wiped env initSupply (chain.map (·.block))) = (.ok (), m) ∧
      m.state = withRecords .empty s := by
  obtain ⟨init, call, rfl⟩ : ∃ init call, chain = init ++ [call] :=
    ⟨_, _, (List.dropLast_append_getLast hne).symm⟩
  have hlast := blockNum_of_reaches h
  have hreplay := replayLog_replaying (s := initGenesis env initSupply)
    (n := wiped env initSupply ((init ++ [call]).map (·.block))) call.block.blockNum ⟨rfl, rfl,
    rfl⟩ hstrict hne ?_ ?_ h
  · obtain ⟨k, hk, hcurrent, hsaved, hlog⟩ := hreplay
    have hread : (Process.read (·.blockLog) : NodeM _)
        (wiped env initSupply ((init ++ [call]).map (·.block))) =
        (.ok ((init ++ [call]).map (·.block)),
          wiped env initSupply ((init ++ [call]).map (·.block))) := rfl
    have hhead : ((init ++ [call]).map (·.block)).getLast? = some call.block := by simp
    have hrevision : setRevision k.headNum k =
        (.ok (), { k with db := { k.db with revision := k.headNum } }) := if_pos hsaved
    have hreadHead : (Process.read headNum : NodeM _) k = (.ok k.headNum, k) := rfl
    unfold reindex
    rw [bind_of_ok hread, hhead, bind_of_ok (m := Process.ofExcept _) rfl, bind_of_ok hk,
      bind_of_ok hreadHead, bind_of_ok hrevision]
    refine ⟨_, rfl, ?_⟩
    split
    · exact hcurrent
    · exact hcurrent
  · intro init' call' hsame
    have hcall := List.append_inj_right' hsame rfl
    rw [List.singleton_inj.mp hcall]
  · intro init' call' rest hsame hrest
    rw [hsame] at h
    have hnum := blockNum_of_reaches h
    have hlength := congrArg List.length hsame
    have hpos : 0 < rest.length := List.length_pos_of_ne_nil hrest
    simp only [List.length_append, List.length_cons, List.length_nil] at hlength
    omega

/-- The states have the same objects; the next id of the transaction objects may differ. -/
def SameObjects (s t : ChainState) : Prop :=
  ∃ nextId, t = withRecords ⟨s.transactions.rows, nextId⟩ s

/-- `reindex` over the log completes with the objects of the state, and accepts the same
blocks and transactions from then on. -/
def ReplaysExactly (env : Env) (initSupply maxUndo : ℕ) (log : List SignedBlock)
    (s : ChainState) : Prop :=
  ∃ m, reindex env maxUndo (wiped env initSupply log) = (.ok (), m) ∧ SameObjects s m.state ∧
    (∀ calls, Accepted (runBlocks env calls) s ↔ Accepted (runBlocks env calls) m.state) ∧
    ∀ ctx trxs, Accepted (forEach (applyTransaction ctx) trxs) s ↔
      Accepted (forEach (applyTransaction ctx) trxs) m.state

/-- Reindexing is exact if and only if every transaction of the log has expired. -/
theorem replaysExactly_iff {chain : List BlockCall} (h : Reaches env initSupply chain s)
    (hstrict : ∀ call ∈ chain, call.context env = strictContext env call.producing maxUndo)
    (hne : chain ≠ []) :
    ReplaysExactly env initSupply maxUndo (chain.map (·.block)) s ↔
      ∀ trx ∈ transactionsOf chain, trx.expiration < s.dgp.time := by
  obtain ⟨m, hm, hstate⟩ := reindex_returns h hstrict hne
  have hdupe : ∀ call ∈ chain, call.skip.transactionDupeCheck = false := by
    intro call hcall
    have hskip := congrArg Context.skip (hstrict call hcall)
    have hskip : call.skip = {} := hskip
    rw [hskip]
  rw [← reaches_records_nil_iff hdupe h]
  constructor
  · rintro ⟨m', hm', ⟨nextId, hobjects⟩, -, -⟩
    have hsame : m' = m := congrArg Prod.snd (hm'.symm.trans hm)
    rw [hsame, hstate] at hobjects
    have hrows := congrArg (fun u => u.transactions.rows) hobjects
    exact hrows.symm
  · intro hrows
    have hlinked : Linked SameRecords s m.state := by
      refine ⟨.empty, hstate, ?_⟩
      unfold SameRecords
      rw [hrows]
      rfl
    refine ⟨m, hm, ⟨0, ?_⟩, fun calls => accepted_iff (runBlocks_twins env calls) hlinked,
      fun ctx trxs => accepted_iff (.forEach (applyTransaction_twins ctx) trxs) hlinked⟩
    rw [hstate, hrows]
    rfl

end Replay

section Runs

variable {env : Env} {initSupply maxUndo : ℕ} {pushes : List BlockCall} {n : Node}

/-- A node that has accepted blocks through `push_block` without skip flags, over whatever
forks, has a chain of accepted blocks that leads to its head, and `reindex` over that chain
gives the same objects and accepts the same next blocks and transactions if and only if all
transactions of the chain expired before the time of the head block. -/
theorem reindex_exact_iff_expired
    (hrun : pushBlocks env pushes (genesis env initSupply) = (.ok (), n)) (hhead : 0 < n.headNum)
    (hstrict : ∀ p ∈ pushes, p.skip = {} ∧ p.maxUndo = maxUndo) :
    ∃ chain, Reaches env initSupply chain (headState n) ∧ lastId env chain = n.headBlockId ∧
      (∀ call ∈ chain, Allowed pushes call) ∧
      (ReplaysExactly env initSupply maxUndo (chain.map (·.block)) (headState n) ↔
        ∀ trx ∈ transactionsOf chain, trx.expiration < (headState n).dgp.time) := by
  obtain ⟨base, htop, hstanding⟩ := pushBlocks_anchored hrun
  obtain ⟨chain, hladder, hallowed⟩ := hstanding.ladder
  have hreaches : Reaches env initSupply chain (headState n) := by
    rw [headState_eq htop]
    exact hladder.current
  have hid : lastId env chain = n.headBlockId := by
    rw [htop.headBlockId]
    exact (Reaches.tip hladder.current).1.symm
  refine ⟨chain, hreaches, hid, hallowed, replaysExactly_iff hreaches ?_ ?_⟩
  · intro call hcall
    obtain ⟨p, hp, q, -, rfl⟩ := hallowed call hcall
    obtain ⟨hskip, hmax⟩ := hstrict p hp
    change (⟨env, p.skip, p.producing, p.maxUndo⟩ : Context) = _
    rw [hskip, hmax]
    rfl
  · rintro rfl
    have hnum : n.headNum = base.current.dgp.headBlockNumber :=
      congrArg (fun x => x.2.1) htop.sameTip
    have hzero := (Reaches.tip hladder.current).2.1
    rw [← hnum] at hzero
    simp only [List.length_nil] at hzero
    omega

/-- Blocks of the small instance, of which the first carries a transfer that expires before
the time of the second. -/
def expiredTransfer : List BlockCall :=
  (List.range 3).map fun n => sampleCall (sampleChain [sampleTransfer] n)

/-- A chain with an expired transfer is replayed exactly. -/
theorem reindex_exact_iff_expired_expiredTransfer :
    ∃ n chain, pushBlocks sampleEnv expiredTransfer (genesis sampleEnv 1000000) = (.ok (), n) ∧
      lastId sampleEnv chain = n.headBlockId ∧
      ReplaysExactly sampleEnv 1000000 10000 (chain.map (·.block)) (headState n) := by
  have hrun := ok_of_isOk (m := pushBlocks sampleEnv expiredTransfer)
    (s := genesis sampleEnv 1000000) (by decide +kernel)
  have hstrict : ∀ p ∈ expiredTransfer, p.skip = {} ∧ p.maxUndo = 10000 := by
    intro p hp
    obtain ⟨n, -, rfl⟩ := List.mem_map.mp hp
    exact ⟨rfl, rfl⟩
  obtain ⟨chain, -, hid, hallowed, hiff⟩ :=
    reindex_exact_iff_expired hrun (by decide +kernel) hstrict
  refine ⟨_, chain, hrun, hid, hiff.mpr fun trx htrx => ?_⟩
  obtain ⟨call, hcall, htrx⟩ := List.mem_flatMap.mp htrx
  obtain ⟨p, -, q, hq, rfl⟩ := hallowed call hcall
  have htrx : trx = sampleTransfer := by
    obtain ⟨n, hn, rfl⟩ := List.mem_map.mp hq
    cases n with
    | zero => exact List.mem_singleton.mp htrx
    | succ n => cases htrx
  rw [htrx]
  decide +kernel

/-- A block of the small instance with a transfer that expires later. -/
def liveTransfer : List BlockCall := [sampleCall (sampleChain [sampleTransfer] 0)]

/-- A node that has accepted a transfer refuses it afterwards; after a `reindex` it accepts the
transfer once more. -/
theorem reindex_not_exact_liveTransfer :
    ¬ ∀ (env : Env) (initSupply maxUndo : ℕ) (pushes : List BlockCall) (n : Node)
      (chain : List BlockCall), pushBlocks env pushes (genesis env initSupply) = (.ok (), n) →
      (∀ p ∈ pushes, p.skip = {} ∧ p.maxUndo = maxUndo) →
      Reaches env initSupply chain (headState n) → chain ≠ [] →
      ReplaysExactly env initSupply maxUndo (chain.map (·.block)) (headState n) := by
  intro hall
  have hrun := ok_of_isOk (m := pushBlocks sampleEnv liveTransfer)
    (s := genesis sampleEnv 1000000) (by decide +kernel)
  have hone : (pushBlocks sampleEnv liveTransfer (genesis sampleEnv 1000000)).2.headNum = 1 := by
    decide +kernel
  have hrefused : (forEach (applyTransaction (strictContext sampleEnv false 10000))
      [sampleTransfer] (headState (pushBlocks sampleEnv liveTransfer
        (genesis sampleEnv 1000000)).2)).isOk = false := by
    decide +kernel
  have hrepeated : (forEach (applyTransaction (strictContext sampleEnv false 10000))
      [sampleTransfer] (reindex sampleEnv 10000 (wiped sampleEnv 1000000
        (liveTransfer.map (·.block)))).2.state).isOk = true := by
    decide +kernel
  generalize (pushBlocks sampleEnv liveTransfer (genesis sampleEnv 1000000)).2 = n
    at hrun hone hrefused
  obtain ⟨base, htop, hstanding⟩ := pushBlocks_anchored hrun
  obtain ⟨chain, hladder, hallowed⟩ := hstanding.ladder
  have hcurrent : Reaches sampleEnv 1000000 chain base.current := hladder.current
  have hnum : n.headNum = base.current.dgp.headBlockNumber :=
    congrArg (fun x => x.2.1) htop.sameTip
  have hlength := (Reaches.tip hcurrent).2.1
  rw [← hnum, hone] at hlength
  obtain ⟨call, rfl⟩ := List.length_eq_one_iff.mp hlength.symm
  obtain ⟨p, hp, q, hq, hcall⟩ := hallowed call (List.mem_singleton_self _)
  have hchain : [call] = liveTransfer := by
    rw [hcall, List.mem_singleton.mp hp, List.mem_singleton.mp hq]
    rfl
  rw [← headState_eq htop, hchain] at hcurrent
  obtain ⟨m, hm, -, -, htransactions⟩ := hall sampleEnv 1000000 10000 liveTransfer n liveTransfer
    hrun (by simp [liveTransfer, sampleCall]) hcurrent (by simp [liveTransfer])
  rw [hm] at hrepeated
  have hsame := htransactions (strictContext sampleEnv false 10000) [sampleTransfer]
  rw [accepted_iff_isOk, accepted_iff_isOk, hrefused, hrepeated] at hsame
  exact absurd (hsame.mpr rfl) (by decide)

end Runs

end Whaleshares.Reindex
