import Whaleshares.BlockLookup
import Whaleshares.GenerateBlock
import Whaleshares.Reindex

/-!
# Closing and opening the database

`close` and `open` of `chain/database.cpp`. The objects with their undo stacks and the block log
are kept in files; the fork database and the pending transactions are not. `open` undoes every
open session, so the node comes back with the objects of its last committed block, checks them,
and takes that block from the log for the fork database.

A process that ends without `close` is taken to leave the files as they are between two calls.
-/

namespace Whaleshares.Restart

open Config Fc Assets Protocol Objects Program Database ApplyBlock Genesis ChainRun ChainTip Process
  NodeRoutines ChainLadder PendingSession Irreversibility PendingState GenerateBlock WitnessVotes
  Node
open BlockLookup (readBlockByNum)

section Invariants

variable (fc : FcLib)

/-- What `validate_invariants` adds up. -/
structure Totals where
  /-- WLS -/
  supply : ℤ := 0
  /-- VESTS -/
  vesting : ℤ := 0
  /-- WLS -/
  pendingVestingSteem : ℤ := 0
  vsfVotes : ℤ := 0

/-- The votes of an account without a proxy, and those that an account with a proxy has from too
far away to pass them on. -/
def standingVotes (a : AccountObject) : Except Exc ℤ :=
  if a.proxy = .empty then a.witnessVoteWeight fc
  else .ok (a.proxiedVsfVotes.getD (wlsMaxProxyRecursionDepth - 1) 0)

/-- The round of the loop over the accounts. -/
def addAccount (t : Totals) (a : AccountObject) : Except Exc Totals := do
  let supply ← fc.add t.supply a.balance
  let supply ← fc.add supply a.rewardSteemBalance
  let vesting ← fc.add t.vesting a.vestingShares
  let vesting ← fc.add vesting a.rewardVestingBalance
  let pendingVestingSteem ← fc.add t.pendingVestingSteem a.rewardVestingSteem
  let votes ← standingVotes fc a
  let vsfVotes ← fc.add t.vsfVotes votes
  pure ⟨supply, vesting, pendingVestingSteem, vsfVotes⟩

/-- `validate_invariants`. What it adds up over the comments is not used. -/
def validateInvariants (s : ChainState) : Except Exc Unit := do
  let gpo := s.dgp
  s.witnesses.rows.forM fun w => fcAssert (w.votes ≤ gpo.totalVestingShares) ""
  let totals ← (s.accounts.select (fun _ => true) fun a b => a.name.packed ≤ b.name.packed).foldlM
    (addAccount fc) {}
  let supply ← s.rewardFunds.rows.foldlM (fun sum r => fc.add sum r.rewardBalance) totals.supply
  let funds ← fc.add gpo.totalVestingFundSteem gpo.totalRewardFundSteem
  let funds ← fc.add funds gpo.pendingRewardedVestingSteem
  let supply ← fc.add supply funds
  fcAssert (gpo.currentSupply = supply) ""
  let vesting ← fc.add gpo.totalVestingShares gpo.pendingRewardedVestingShares
  fcAssert (vesting = totals.vesting) ""
  fcAssert (gpo.totalVestingShares = totals.vsfVotes) ""
  fcAssert (gpo.pendingRewardedVestingSteem = totals.pendingVestingSteem) ""

/-- The checks of `init_hardforks`. -/
def initHardforks (hardforks : HardforkPropertyObject) : Except Exc Unit := do
  fcAssert (hardforks.lastHardfork ≤ wlsNumHardforks)
    "Chain knows of more hardforks than configuration"
  let last ← hardforkAt hardforks.lastHardfork
  fcAssert (last.1.vNum ≤ wlsBlockchainVersion.vNum)
    "Blockchain version is older than last applied hardfork"
  let newest ← hardforkAt wlsNumHardforks
  fcAssert (wlsBlockchainHardforkVersion = newest.1)
    "WLS_BLOCKCHAIN_HARDFORK_VERSION == _hardfork_versions[ WLS_NUM_HARDFORKS ]"

end Invariants

section Routines

/-- `undo_all` of a stack: `while( enabled() ) undo();` -/
def undoAll {σ : Type} (db : SnapshotStack σ) : SnapshotStack σ :=
  SnapshotStack.undo^[db.saved.length] db

/-- What is left of a node in its files. -/
def stored (n : Node) : Node := { db := n.db, blockLog := n.blockLog }

/-- `close` -/
def close : NodeM Unit := do
  clearPending
  .change fun n => { n with forkDb := { n.forkDb with index := [], head := none } }

/-- The newest block of the log that `open` asks for. -/
def loggedHead (env : Env) (n : Node) : Except Exc SignedBlock :=
  match readBlockByNum n n.headNum with
  | some b =>
    if b.id env = n.headBlockId then .ok b
    else .error (failed "Chain state does not match block log. Please reindex blockchain.")
  | none => .error (failed "Chain state does not match block log. Please reindex blockchain.")

/-- The part of `open` that starts the fork database. -/
def startForks (env : Env) : NodeM Unit := do
  let n ← .read fun n => n
  if n.headNum = 0 then pure ()
  else do
    let headBlock ← .ofExcept (loggedHead env n)
    .change fun n => { n with forkDb := n.forkDb.startBlock env headBlock }

/-- `open`, on files with objects. -/
def openDatabase (env : Env) : NodeM Unit := do
  .change fun n => { n with db := undoAll n.db }
  let n ← .read fun n => n
  .ofExcept (fcAssert (n.db.revision = n.headNum)
    "Chainbase revision does not match head block num")
  .ofExcept (validateInvariants env.toFcLib n.state)
  startForks env
  .ofExcept (initHardforks n.state.hardforks)

/-- A call of `generate_block`. -/
structure ProductionCall where
  /-- The skip flags of the call. -/
  skip : SkipFlags
  /-- `get_max_undo()` -/
  maxUndo : ℕ
  when : TimePointSec
  witnessOwner : AccountName
  blockSigningPrivateKey : SigningKey

/-- What the code reads during the call; `generate_block` leaves `is_producing()` as it is, false
outside of `push_transaction`. -/
def ProductionCall.context (env : Env) (p : ProductionCall) : Context :=
  ⟨env, p.skip, false, p.maxUndo⟩

/-- What happens to a node. -/
inductive Event
  /-- A call of `push_transaction` or `push_block`. -/
  | call (c : NodeCall)
  /-- A call of `generate_block`. -/
  | produce (p : ProductionCall)
  /-- `close`, and `open` in a new process. -/
  | restart
  /-- The process ends without `close`, and `open` follows in a new one. -/
  | crash

/-- An event; what a call throws is caught. -/
def Event.run (packSize : SignedTransaction → ℕ) (env : Env) : Event → NodeM Unit
  | .call c => c.run packSize env
  | .produce p => do
    let _ ← (generateBlock (p.context env) packSize p.when p.witnessOwner
      p.blockSigningPrivateKey).attempt
    pure ()
  | .restart => do
    close
    .change stored
    openDatabase env
  | .crash => do
    .change stored
    openDatabase env

end Routines

section Undo

variable {env : Env} {initSupply : ℕ} {chain : List BlockCall} {floor : ℕ}
  {db : SnapshotStack ChainState}

/-- Undoing a session leaves one saved state fewer. -/
theorem undo_saved_length {σ : Type} (db : SnapshotStack σ) :
    db.undo.saved.length = db.saved.length - 1 := by
  unfold SnapshotStack.undo
  split
  next h => simp [h]
  next h => simp [h]

/-- The session of the pending transactions is undone with the others. -/
theorem undoAll_write_start {σ : Type} (db : SnapshotStack σ) (s : σ) :
    undoAll (db.start.write s) = undoAll db := by
  change SnapshotStack.undo^[db.saved.length + 1] (db.start.write s) = _
  rw [Function.iterate_succ_apply, SnapshotStack.undo_write_start]
  rfl

/-- Undoing every session leads to the blocks below the floor, with no session left. -/
theorem undoAll_perch (h : Perch env initSupply chain floor db) :
    Perch env initSupply (chain.take floor) floor (undoAll db) ∧ (undoAll db).saved = [] := by
  -- the induction is on the number of open sessions
  induction hlength : db.saved.length generalizing chain db with
  | zero =>
    have hsessions := h.sessions
    have hsame : undoAll db = db := by simp [undoAll, hlength]
    rw [hsame, List.take_of_length_le (by omega)]
    exact ⟨h, List.eq_nil_of_length_eq_zero hlength⟩
  | succ k ih =>
    obtain ⟨chain', hperch, hcontinues⟩ := h.undo
    have hless : db.undo.saved.length = k := by
      rw [undo_saved_length, hlength]
      rfl
    have hsame : undoAll db = undoAll db.undo := by
      simp only [undoAll, hlength, hless, Function.iterate_succ_apply]
    rw [hsame, ← hcontinues.same]
    exact ih hperch hless

end Undo

section Open

variable {env : Env} {n m : Node}

/-- The fork database starts on an empty chain or with the logged head. -/
theorem startForks_ok_iff :
    startForks env n = (.ok (), m) ↔ (n.headNum = 0 ∧ m = n) ∨
      ∃ b, n.headNum ≠ 0 ∧ n.blockLog[n.headNum - 1]? = some b ∧ b.id env = n.headBlockId ∧
        m = { n with forkDb := n.forkDb.startBlock env b } := by
  unfold startForks
  rw [read_bind]
  by_cases hzero : n.headNum = 0
  · rw [if_pos hzero]
    constructor
    · intro h
      exact .inl ⟨hzero, (congrArg Prod.snd h).symm⟩
    · rintro (⟨-, rfl⟩ | ⟨_, hnonzero, -⟩)
      · rfl
      · exact absurd hzero hnonzero
  · rw [if_neg hzero]
    have hread : readBlockByNum n n.headNum = n.blockLog[n.headNum - 1]? := if_neg hzero
    constructor
    · intro h
      obtain ⟨b, k, hb, h⟩ := ok_of_bind h
      obtain ⟨hlogged, hk⟩ := ok_of_ofExcept hb
      unfold loggedHead at hlogged
      rw [hread] at hlogged
      cases hget : n.blockLog[n.headNum - 1]? with
      | none =>
        rw [hget] at hlogged
        cases hlogged
      | some b' =>
        rw [hget] at hlogged
        dsimp only at hlogged
        split at hlogged
        next hid =>
          obtain rfl := Except.ok.inj hlogged
          refine .inr ⟨b', hzero, rfl, hid, ?_⟩
          rw [← hk]
          exact (congrArg Prod.snd h).symm
        next => cases hlogged
    · rintro (⟨hz, -⟩ | ⟨b, -, hget, hid, rfl⟩)
      · exact absurd hz hzero
      · have hlogged : loggedHead env n = .ok b := by
          unfold loggedHead
          rw [hread, hget]
          exact if_pos hid
        rw [hlogged, ofExcept_bind]
        rfl

/-- The node with every session undone. -/
def rewound (n : Node) : Node := { n with db := undoAll n.db }

/-- `open` succeeds if and only if the objects are consistent and the head is in the log. -/
theorem openDatabase_ok_iff :
    openDatabase env n = (.ok (), m) ↔ (rewound n).db.revision = (rewound n).headNum ∧
      validateInvariants env.toFcLib (rewound n).state = .ok () ∧
      startForks env (rewound n) = (.ok (), m) ∧
      initHardforks (rewound n).state.hardforks = .ok () := by
  have hopen : openDatabase env n = (Process.ofExcept (fcAssert
      ((rewound n).db.revision = (rewound n).headNum)
      "Chainbase revision does not match head block num") >>= fun _ => do
    .ofExcept (validateInvariants env.toFcLib (rewound n).state)
    startForks env
    .ofExcept (initHardforks (rewound n).state.hardforks)) (rewound n) := rfl
  rw [hopen]
  constructor
  · intro h
    obtain ⟨_, k₁, h₁, h⟩ := ok_of_bind h
    obtain ⟨hrevision, hk₁⟩ := ok_of_ofExcept h₁
    rw [hk₁] at h
    obtain ⟨_, k₂, h₂, h⟩ := ok_of_bind h
    obtain ⟨hvalid, hk₂⟩ := ok_of_ofExcept h₂
    rw [hk₂] at h
    obtain ⟨_, k₃, hforks, h⟩ := ok_of_bind h
    obtain ⟨hhard, hm⟩ := ok_of_ofExcept h
    rw [← hm] at hforks
    exact ⟨by simpa using fcAssert_eq_ok hrevision, hvalid, hforks, hhard⟩
  · rintro ⟨hrevision, hvalid, hforks, hhard⟩
    rw [fcAssert_of (by simpa using hrevision), ofExcept_bind, hvalid, ofExcept_bind,
      bind_of_ok hforks, hhard]
    rfl

end Open

section Settled

variable {env : Env} {initSupply : ℕ} {packSize : SignedTransaction → ℕ} {chain : List BlockCall}
  {floor : ℕ} {n m : Node}

/-- Whatever transactions are pending, the stored undo stack is that of the chain up to its
floor. -/
theorem rewound_stored (h : Held env initSupply chain floor n) :
    Perch env initSupply (chain.take floor) floor (rewound (stored n)).db ∧
      (rewound (stored n)).db.saved = [] ∧ floor ≤ chain.length := by
  obtain ⟨base, htop, hperch⟩ := h
  have hsessions := hperch.sessions
  have hbase : (rewound (stored n)).db = undoAll base := by
    change undoAll n.db = _
    rw [htop.db]
    split
    · exact undoAll_write_start base _
    · rfl
  rw [hbase]
  obtain ⟨hbelow, hclosed⟩ := undoAll_perch hperch
  exact ⟨hbelow, hclosed, by omega⟩

/-- Starting the fork database leaves the objects and the session. -/
theorem startForks_db (h : startForks env n = (.ok (), m)) :
    m.db = n.db ∧ m.pendingSession = n.pendingSession := by
  rcases startForks_ok_iff.mp h with ⟨-, rfl⟩ | ⟨_, -, -, -, rfl⟩
  · exact ⟨rfl, rfl⟩
  · exact ⟨rfl, rfl⟩

/-- A node that is opened stands on the blocks below the floor, where it stood before. -/
theorem open_held (h : Held env initSupply chain floor n)
    (hopen : openDatabase env (stored n) = (.ok (), m)) :
    Held env initSupply (chain.take floor) floor m := by
  obtain ⟨-, -, hforks, -⟩ := openDatabase_ok_iff.mp hopen
  obtain ⟨hdb, hsession⟩ := startForks_db hforks
  obtain ⟨hperch, -, -⟩ := rewound_stored h
  exact ⟨m.db, .idle hsession, hdb ▸ hperch⟩

/-- A database that opens settles what was stored. -/
theorem open_settles (hopen : openDatabase env (stored n) = (.ok (), m)) :
    Settles env initSupply n m := by
  intro chain floor hn
  refine ⟨chain.take floor, floor, open_held hn hopen, le_rfl, ?_⟩
  rw [List.take_take, min_self]

/-- Closing the files and opening them again settles. -/
theorem reopen_settles (env : Env) (initSupply : ℕ) :
    Sustains (Settles env initSupply) ((do .change stored; openDatabase env) : NodeM Unit) :=
  ⟨fun _ _ _ h => open_settles h⟩

/-- With the same objects and no more pending transactions the node settles. -/
theorem settles_of_sameStack (hdb : m.db = n.db) (hsession : m.pendingSession = n.pendingSession)
    (hpending : m.pendingTx = n.pendingTx) : Settles env initSupply n m := by
  intro chain floor hn
  obtain ⟨base, htop, hperch⟩ := hn
  refine ⟨chain, floor, ⟨base, ⟨?_, ?_, ?_, rfl⟩, hperch⟩, .refl _ _⟩
  · rw [hdb, hsession]
    exact htop.db
  · rw [hdb]
    exact htop.sameTip
  · rw [hdb, hpending]
    exact htop.nothing

/-- `close` settles. -/
theorem close_settles : Always (Settles env initSupply) close :=
  .bind clearPending_settles fun _ => .change fun _ => settles_of_sameStack rfl rfl rfl

/-- A submitted transaction settles. -/
theorem submitTransaction_settles (ctx : Context) (trx : SignedTransaction) :
    Always (Settles env initSupply) (submitTransaction packSize ctx trx) := by
  refine .bind (.read _) fun _ => .bind (.ofExcept _) fun _ => ⟨fun n chain floor hn => ?_⟩
  obtain ⟨base, htop, hperch⟩ := hn
  have htop' := (pushTransaction_onTop ctx trx).rel n htop
  refine ⟨chain, floor, ⟨base, ?_, hperch⟩, .refl _ _⟩
  rw [htop'.sameForks]
  exact htop'

/-- A push settles. -/
theorem pushBlock_keepsSettled (p : BlockCall) :
    Always (Settles env initSupply) (Node.pushBlock (p.context env) p.block) := by
  constructor
  intro n
  have hshows : Always (Shows (Settles env initSupply))
      (everyNode.pushBlock (p.context env) p.block) := pushBlock_settles p p.block
  obtain ⟨new, -, hpairs⟩ := hshows.rel (n, [])
  have herases := (Watcher.pushBlock_erases (w := everyNode) (p.context env) p.block).state (n, [])
  rw [← herases]
  exact (List.pairwise_cons.mp hpairs).1 _ (List.mem_append_right _ (List.mem_singleton_self _))

/-- A routine that only reads the objects leaves the node as it is. -/
theorem onState_settles {α : Type} {p : Chain α} (hp : ∀ s a t, Returns p s a t → t = s) :
    Always (Settles env initSupply) (onState p) := by
  constructor
  intro n
  cases hrun : onState p n with
  | mk outcome k =>
    cases outcome with
    | error e =>
      rw [onState_error hrun]
      exact refl_of (Settles env initSupply) n
    | ok a =>
      obtain ⟨t, ht, hk⟩ := onState_ok hrun
      have hsame : k = n := by
        rw [hk, hp _ _ _ ht]
        rfl
      rw [hsame]
      exact refl_of (Settles env initSupply) n

/-- Block production drops the session of the pending transactions, which stay on the list. -/
theorem rebuildPending_settles (ctx : Context) (when : TimePointSec) (limit : ℕ) :
    Always (Settles env initSupply) (rebuildPending ctx packSize when limit) := by
  constructor
  intro n chain floor hn
  obtain ⟨base, htop, hperch⟩ := hn
  have hbase : headStack n = base := by
    unfold headStack
    rw [htop.db]
    split
    · exact SnapshotStack.undo_write_start base _
    · rfl
  rw [rebuildPending_eq]
  exact ⟨chain, floor, ⟨base, hbase ▸ OnTop.idle (n := settled n) rfl, hperch⟩, .refl _ _⟩

/-- Block production touches the blocks of the chain only where it pushes the new block. -/
theorem generateBlock_settles (p : ProductionCall) : Always (Settles env initSupply)
    (generateBlock (p.context env) packSize p.when p.witnessOwner p.blockSigningPrivateKey) := by
  have hassemble : Always (Settles env initSupply)
      (assembleBlock (p.context env) packSize p.when p.witnessOwner p.blockSigningPrivateKey) :=
    .bind (onState_settles fun _ _ _ h => (checkProducer_ok h).1) fun _ =>
      .bind (.read _) fun _ => .bind (rebuildPending_settles _ _ _) fun _ =>
      .bind (.read _) fun _ => .bind (onState_settles fun _ _ _ h => (getWitness_ok h).2) fun _ =>
      .bind (.read _) fun _ => .bind (.ofExcept _) fun _ => .done _
  exact .bind hassemble fun b => .bind (.ofExcept _) fun _ =>
    .bind (pushBlock_keepsSettled ⟨p.skip, false, p.maxUndo, b⟩) fun _ => .done b

/-- The step lemma: no event touches the blocks below the floor. -/
theorem run_settles (e : Event) : Sustains (Settles env initSupply) (e.run packSize env) := by
  cases e with
  | call c =>
    cases c with
    | transaction push =>
      have halways : Always (Settles env initSupply)
          ((NodeCall.transaction push).run packSize env) :=
        .bind (.attempt (submitTransaction_settles _ _)) fun _ => .done ()
      exact ⟨fun _ _ _ h => halways.of_eq h⟩
    | block push =>
      have halways : Always (Settles env initSupply) ((NodeCall.block push).run packSize env) :=
        .bind (.attempt (pushBlock_keepsSettled push)) fun _ => .done ()
      exact ⟨fun _ _ _ h => halways.of_eq h⟩
  | produce p =>
    have halways : Always (Settles env initSupply) ((Event.produce p).run packSize env) :=
      .bind (.attempt (generateBlock_settles p)) fun _ => .done ()
    exact ⟨fun _ _ _ h => halways.of_eq h⟩
  | restart => exact .bind ⟨fun _ _ _ h => close_settles.of_eq h⟩ fun _ => reopen_settles _ _
  | crash => exact reopen_settles _ _

/-- A list of events settles. -/
theorem runs_settle (events : List Event) :
    Sustains (Settles env initSupply) (Process.each (Event.run packSize env) events) :=
  .each fun e _ => run_settles e

end Settled

section Durability

variable {env : Env} {initSupply : ℕ} {packSize : SignedTransaction → ℕ} {n m : Node}

/-- What `open` checks of the objects that it finds and of the block log. -/
structure Opens (env : Env) (s : ChainState) (log : List SignedBlock) : Prop where
  balanced : validateInvariants env.toFcLib s = .ok ()
  hardforks : initHardforks s.hardforks = .ok ()
  logged : s.dgp.headBlockNumber ≠ 0 → ∃ b, log[s.dgp.headBlockNumber - 1]? = some b ∧
    b.id env = s.dgp.headBlockId

/-- A node with the objects after some blocks, without open sessions and pending transactions,
whose fork database has nothing but the last of the blocks. -/
structure Fresh (env : Env) (blocks : List BlockCall) (s : ChainState) (log : List SignedBlock)
    (m : Node) : Prop where
  db : m.db = ⟨s, blocks.length, []⟩
  blockLog : m.blockLog = log
  pendingTx : m.pendingTx = []
  index : m.forkDb.index = m.forkDb.head.toList
  head : m.forkDb.head.map (·.id) = if blocks = [] then none else some (lastId env blocks)

/-- What `open` makes of objects without open sessions. -/
theorem open_fresh {blocks : List BlockCall} {s : ChainState}
    (hs : Reaches env initSupply blocks s) (hdb : (rewound (stored n)).db = ⟨s, blocks.length, []⟩) :
    ((openDatabase env (stored n)).1 = .ok () ↔ Opens env s n.blockLog) ∧
      ∀ m, openDatabase env (stored n) = (.ok (), m) → Fresh env blocks s n.blockLog m := by
  obtain ⟨hid, hnum, -⟩ := Reaches.tip hs
  have hstate : (rewound (stored n)).state = s := congrArg SnapshotStack.current hdb
  have hrevision : (rewound (stored n)).db.revision = (rewound (stored n)).headNum := by
    have hheadNum : (rewound (stored n)).headNum = blocks.length := by
      rw [← hnum, ← hstate]
      rfl
    rw [hdb, hheadNum]
  have hblockLog : (rewound (stored n)).blockLog = n.blockLog := rfl
  have hheadNum : (rewound (stored n)).headNum = s.dgp.headBlockNumber := by
    rw [← hstate]
    rfl
  have hheadId : (rewound (stored n)).headBlockId = s.dgp.headBlockId := by
    rw [← hstate]
    rfl
  have hparts : ∀ m, openDatabase env (stored n) = (.ok (), m) ↔ _ := fun m =>
    openDatabase_ok_iff
  simp only [hrevision, true_and, hstate] at hparts
  have hforks : ∀ m, startForks env (rewound (stored n)) = (.ok (), m) ↔ _ := fun m =>
    startForks_ok_iff
  simp only [hheadNum, hheadId, hblockLog] at hforks
  refine ⟨⟨fun h => ?_, fun h => ?_⟩, fun m hm => ?_⟩
  · obtain ⟨hbalanced, hstart, hhardforks⟩ := (hparts _).mp (ok_of_isOk (by rw [h]; rfl))
    refine ⟨hbalanced, hhardforks, fun hnonzero => ?_⟩
    rcases (hforks _).mp hstart with ⟨hzero, -⟩ | ⟨b, -, hget, hb, -⟩
    · exact absurd hzero hnonzero
    · exact ⟨b, hget, hb⟩
  · have hstart : ∃ m, startForks env (rewound (stored n)) = (.ok (), m) := by
      by_cases hzero : s.dgp.headBlockNumber = 0
      · exact ⟨_, (hforks _).mpr (.inl ⟨hzero, rfl⟩)⟩
      · obtain ⟨b, hget, hb⟩ := h.logged hzero
        exact ⟨_, (hforks _).mpr (.inr ⟨b, hzero, hget, hb, rfl⟩)⟩
    obtain ⟨m, hm⟩ := hstart
    rw [(hparts m).mpr ⟨h.balanced, hm, h.hardforks⟩]
  · obtain ⟨-, hstart, -⟩ := (hparts m).mp hm
    rcases (hforks m).mp hstart with ⟨hzero, rfl⟩ | ⟨b, hnonzero, -, hb, rfl⟩
    · have hnil : blocks = [] := List.eq_nil_of_length_eq_zero (hnum ▸ hzero)
      exact ⟨hdb, rfl, rfl, rfl, by rw [if_pos hnil]; rfl⟩
    · have hne : blocks ≠ [] := fun hnil => hnonzero (by rw [hnum, hnil]; rfl)
      refine ⟨hdb, rfl, rfl, rfl, ?_⟩
      rw [if_neg hne, ← hid, ← hb]
      rfl

/-- After a list of events the node holds a chain. -/
theorem held_of_run {events : List Event}
    (hrun : Process.each (Event.run packSize env) events (genesis env initSupply) = (.ok (), n)) :
    ∃ chain floor, Held env initSupply chain floor n := by
  obtain ⟨chain, floor, hn, -⟩ :=
    (runs_settle events).rel _ _ _ hrun [] 0 (genesis_held env initSupply)
  exact ⟨chain, floor, hn⟩

/-- Closing first makes no difference to what `open` finds. -/
theorem restart_eq_crash {chain : List BlockCall} {floor : ℕ}
    (h : Held env initSupply chain floor n) :
    Event.restart.run packSize env n = Event.crash.run packSize env n := by
  obtain ⟨base, htop, -⟩ := h
  have hsame : undoAll base = undoAll n.db := by
    rw [htop.db]
    split
    · exact (undoAll_write_start base _).symm
    · rfl
  have hclose : close n = (.ok (), { n with
      db := base
      pendingTx := []
      pendingSession := false
      forkDb := { n.forkDb with index := [], head := none } }) := by
    unfold close
    rw [bind_of_ok (clearPending_eq htop)]
    rfl
  unfold Event.run
  dsimp only
  rw [bind_of_ok hclose, change_bind, change_bind]
  unfold openDatabase
  rw [change_bind, change_bind]
  simp only [stored, hsame]

/-- After any run of a node, with its restarts, `open` finds the objects after a first part of the
blocks of its chain, all the irreversible ones among them. It returns exactly if these objects pass
the checks and the block log has the last of the blocks; the node then starts from there. It does
not matter whether the node was closed. -/
theorem open_returns_iff {events : List Event}
    (hrun : Process.each (Event.run packSize env) events (genesis env initSupply) = (.ok (), n)) :
    ∃ chain kept s, Ancestry env initSupply chain n ∧ kept ≤ chain.length ∧
      n.state.dgp.lastIrreversibleBlockNum ≤ kept ∧
      Reaches env initSupply (chain.take kept) s ∧
      ((openDatabase env (stored n)).1 = .ok () ↔ Opens env s n.blockLog) ∧
      (∀ m, openDatabase env (stored n) = (.ok (), m) →
        Fresh env (chain.take kept) s n.blockLog m) ∧
      Event.restart.run packSize env n = Event.crash.run packSize env n := by
  obtain ⟨chain, floor, hn⟩ := held_of_run hrun
  obtain ⟨hperch, hclosed, hfloor⟩ := rewound_stored hn
  have hlength : (chain.take floor).length = floor := List.length_take_of_le hfloor
  have hdb : (rewound (stored n)).db =
      ⟨(rewound (stored n)).db.current, (chain.take floor).length, []⟩ := by
    rw [← hperch.ladder.revision, ← hclosed]
  have hirreversible : n.state.dgp.lastIrreversibleBlockNum ≤ floor := by
    obtain ⟨base, htop, hbase⟩ := hn
    have hsame : n.state.dgp.lastIrreversibleBlockNum =
        base.current.dgp.lastIrreversibleBlockNum := congrArg (fun x => x.2.2) htop.sameTip
    exact hsame ▸ hbase.irreversible
  obtain ⟨hreturns, hfresh⟩ := open_fresh hperch.ladder.current hdb
  exact ⟨chain, floor, _, hn.ancestry, hfloor, hirreversible, hperch.ladder.current, hreturns,
    hfresh, restart_eq_crash hn⟩

/-- The node produces the first block of the chain. -/
def firstProduction : ProductionCall where
  skip := {}
  maxUndo := 10000
  when := wlsGenesisTime + wlsBlockInterval
  witnessOwner := initMinerName 0
  blockSigningPrivateKey := ⟨sampleKey, fun _ => ⟨0⟩⟩

/-- Twenty-two blocks of one witness, the first of which the node produces itself. It is
irreversible in the end. -/
def sampleRound : List Event :=
  .produce firstProduction :: (List.range 21).map fun k => .call (.block
    { sampleCall (sampleChain [] (k + 1)) with skip := { witnessScheduleCheck := true } })

/-- The node after the blocks. -/
def sampleNode : Node :=
  (Process.each (Event.run (fun _ => 100) sampleEnv) sampleRound (genesis sampleEnv 1000000)).2

/-- After the sample round the node has 22 blocks, the first of them irreversible. -/
theorem sampleNode_finds :
    (Process.each (Event.run (fun _ => 100) sampleEnv) sampleRound
      (genesis sampleEnv 1000000)).1.isOk = true ∧ sampleNode.headNum = 22 ∧
      sampleNode.state.dgp.lastIrreversibleBlockNum = 1 := by
  decide +kernel

/-- The sample round leads to the sample node. -/
theorem sampleNode_run : Process.each (Event.run (fun _ => 100) sampleEnv) sampleRound
    (genesis sampleEnv 1000000) = (.ok (), sampleNode) :=
  ok_of_isOk sampleNode_finds.1

/-- The sample node opens with the blocks that it has committed. -/
theorem open_returns_iff_sampleNode :
    sampleNode.headNum = 22 ∧ sampleNode.state.dgp.lastIrreversibleBlockNum = 1 ∧
      ∃ chain kept s, Ancestry sampleEnv 1000000 chain sampleNode ∧ 1 ≤ kept ∧
        Reaches sampleEnv 1000000 (chain.take kept) s ∧
        ((openDatabase sampleEnv (stored sampleNode)).1 = .ok () ↔
          Opens sampleEnv s sampleNode.blockLog) := by
  obtain ⟨-, hnum, hlib⟩ := sampleNode_finds
  obtain ⟨chain, kept, s, hchain, -, hkept, hs, hopens, -⟩ := open_returns_iff sampleNode_run
  exact ⟨hnum, hlib, chain, kept, s, hchain, hlib ▸ hkept, hs, hopens⟩

/-- The irreversible blocks of a node are blocks of its chain for good, whatever blocks and
transactions it gets and however often it is closed, or ends, and is opened again. -/
theorem irreversible_across_restarts {earlier later : List Event}
    (hn : Process.each (Event.run packSize env) earlier (genesis env initSupply) = (.ok (), n))
    (hm : Process.each (Event.run packSize env) later n = (.ok (), m)) :
    ∃ chain chain', Ancestry env initSupply chain n ∧ Ancestry env initSupply chain' m ∧
      ∀ k ≤ n.state.dgp.lastIrreversibleBlockNum,
        k ≤ m.headNum ∧ chain'.take k = chain.take k := by
  obtain ⟨chain, floor, hheld⟩ := held_of_run hn
  obtain ⟨chain', floor', hheld', hcontinues⟩ := (runs_settle later).rel _ _ _ hm _ _ hheld
  exact ⟨chain, chain', hheld.ancestry, hheld'.ancestry, fun k hk =>
    hheld.irreversible hheld' hcontinues hk⟩

/-- The process ends after the blocks, and the node goes on with the second of them. -/
theorem irreversible_across_restarts_sampleNode :
    let later := .crash :: (sampleRound.drop 1).take 1
    let m := (Process.each (Event.run (fun _ => 100) sampleEnv) later sampleNode).2
    m.headNum = 2 ∧ ∃ chain chain', Ancestry sampleEnv 1000000 chain sampleNode ∧
      Ancestry sampleEnv 1000000 chain' m ∧ chain'.take 1 = chain.take 1 := by
  intro later m
  have hfinds : (Process.each (Event.run (fun _ => 100) sampleEnv) later sampleNode).1.isOk =
      true ∧ m.headNum = 2 := by decide +kernel
  have hrun : Process.each (Event.run (fun _ => 100) sampleEnv) later sampleNode = (.ok (), m) :=
    ok_of_isOk hfinds.1
  obtain ⟨chain, chain', hchain, hchain', hall⟩ := irreversible_across_restarts sampleNode_run hrun
  exact ⟨hfinds.2, chain, chain', hchain, hchain', (hall 1 sampleNode_finds.2.2.ge).2⟩

end Durability

end Whaleshares.Restart
