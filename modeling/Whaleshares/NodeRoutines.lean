import Whaleshares.ChainTip
import Whaleshares.Node

/-!
# What the routines of the node do

One lemma for each routine of the node: what its runs that end in a value leave behind,
and for the application of a block also what an exception leaves behind.
-/

namespace Whaleshares.NodeRoutines

open Config Fc Protocol Objects Program Database ApplyBlock Genesis ChainRun ChainTip Footprint
  Process Node

variable {ctx : Context} {b : SignedBlock} {n m : Node}

section Steps

/-- A routine of the chain that returns changes the objects of the node alone. -/
theorem onState_ok {α : Type} {p : Chain α} {a : α} (h : onState p n = (.ok a, m)) :
    ∃ s, Returns p n.db.current a s ∧ m = { n with db := n.db.write s } := by
  unfold onState at h
  cases hp : p n.db.current with
  | error e =>
    rw [hp] at h
    cases h
  | ok pair =>
    rw [hp] at h
    have ha : pair.1 = a := Except.ok.inj (congrArg Prod.fst h)
    refine ⟨pair.2, ?_, (congrArg Prod.snd h).symm⟩
    rw [← ha]
    exact hp

/-- A routine of the chain that returns on the objects returns on the node. -/
theorem onState_returns {α : Type} {p : Chain α} {a : α} {s : ChainState}
    (h : Returns p n.db.current a s) : onState p n = (.ok a, { n with db := n.db.write s }) := by
  unfold onState
  rw [show p n.db.current = .ok (a, s) from h]

/-- A routine of the fork database that returns changes it alone. -/
theorem onForkDb_ok {f : ForkDatabase → Except Exc ForkDatabase} {u : Unit}
    (h : onForkDb f n = (.ok u, m)) :
    ∃ forkDb, f n.forkDb = .ok forkDb ∧ m = { n with forkDb := forkDb } := by
  unfold onForkDb at h
  cases hf : f n.forkDb with
  | error e =>
    rw [hf] at h
    cases h
  | ok forkDb =>
    rw [hf] at h
    exact ⟨forkDb, rfl, (congrArg Prod.snd h).symm⟩

/-- A session is opened, and dropped again if what runs in it throws. -/
theorem inSession_eq (p : NodeM Unit) (n : Node) :
    inSession p n = match p { n with db := n.db.start } with
      | (.ok _, m) => (.ok (), m)
      | (.error e, m) => (.error e, { m with db := m.db.undo }) := by
  cases h : p { n with db := n.db.start } with
  | mk r m =>
    have hstart : startUndoSession n = (.ok (), { n with db := n.db.start }) := rfl
    have hattempt : attempt p { n with db := n.db.start } = (.ok r, m) := attempt_of h
    unfold inSession
    rw [bind_of_ok hstart, bind_of_ok hattempt]
    cases r with
    | ok u => rfl
    | error e => rfl

/-- What returns in a session keeps it. -/
theorem inSession_ok {p : NodeM Unit} {u : Unit} (h : inSession p n = (.ok u, m)) :
    p { n with db := n.db.start } = (.ok (), m) := by
  rw [inSession_eq] at h
  cases hp : p { n with db := n.db.start } with
  | mk r k =>
    rw [hp] at h
    cases r with
    | ok v => exact congrArg (Prod.mk _) (congrArg Prod.snd h)
    | error e => cases h

/-- A routine of the chain that throws leaves the node. -/
theorem onState_error {α : Type} {p : Chain α} {e : Exc} (h : onState p n = (.error e, m)) :
    m = n := by
  unfold onState at h
  cases hp : p n.db.current with
  | error e' =>
    rw [hp] at h
    exact (congrArg Prod.snd h).symm
  | ok pair =>
    rw [hp] at h
    cases h

/-- What throws in a session leaves the node without the session. -/
theorem inSession_error {p : NodeM Unit} {e : Exc} (h : inSession p n = (.error e, m)) :
    ∃ k, p { n with db := n.db.start } = (.error e, k) ∧ m = { k with db := k.db.undo } := by
  rw [inSession_eq] at h
  cases hp : p { n with db := n.db.start } with
  | mk r k =>
    rw [hp] at h
    cases r with
    | ok v => cases h
    | error e' =>
      have he : e' = e := Except.error.inj (congrArg Prod.fst h)
      exact ⟨k, by rw [he], (congrArg Prod.snd h).symm⟩

end Steps

section BlockLog

/-- The newest block of the log has as its number the length of the log. -/
def LogNumbered (n : Node) : Prop := n.logHeadNum = n.blockLog.length

/-- A block that is appended to the log has the next number. -/
theorem append_ok {u : Unit} (h : append b n = (.ok u, m)) :
    b.blockNum = n.blockLog.length + 1 ∧ m = { n with blockLog := n.blockLog ++ [b] } := by
  unfold append at h
  split at h
  next hlength =>
    have hpos : 0 < b.blockNum := Nat.succ_pos _
    exact ⟨by omega, (congrArg Prod.snd h).symm⟩
  next => cases h

/-- The loop over the blocks to append changes nothing but the block log, which gets as
many blocks as it was asked for. -/
theorem appendBlocks_ok {left num : ℕ} {u : Unit} (h : appendBlocks left num n = (.ok u, m)) :
    ∃ blocks, m = { n with blockLog := n.blockLog ++ blocks } ∧ blocks.length = left ∧
      (LogNumbered n → LogNumbered m) := by
  induction left generalizing num n with
  | zero =>
    have hm : n = m := congrArg Prod.snd h
    refine ⟨[], ?_, rfl, fun hn => hm ▸ hn⟩
    rw [List.append_nil, ← hm]
  | succ left ih =>
    obtain ⟨found, k, hk, h⟩ := ok_of_bind h
    obtain ⟨item, k', hk', h⟩ := ok_of_bind h
    obtain ⟨_, k'', hk'', h⟩ := ok_of_bind h
    have hread : n = k := congrArg Prod.snd hk
    have hsame := (ok_of_ofExcept hk').2
    obtain ⟨hnum, happend⟩ := append_ok hk''
    rw [hsame, ← hread] at happend hnum
    obtain ⟨blocks, hm, hlength, hnumbered⟩ := ih h
    refine ⟨item.data :: blocks, ?_, by simp [hlength], fun _ => hnumbered ?_⟩
    · rw [hm, happend]
      simp
    · rw [happend]
      simp [LogNumbered, logHeadNum, hnum]

end BlockLog

section ApplyBlock

/-- The node after a block was applied: the objects before and after the update of the
irreversible block, and the block log. -/
def afterBlock (n : Node) (front back : ChainState) (log : List SignedBlock) : Node :=
  { n with
    db := ((n.db.write front).commit front.dgp.lastIrreversibleBlockNum).write back
    blockLog := log
    forkDb := n.forkDb.setMaxSize (cacheSize front.dgp) }

/-- What the block log is after an update of the irreversible block. -/
structure LogUpdated (ctx : Context) (n : Node) (irreversible : ℕ) (log : List SignedBlock) :
    Prop where
  extends_log : ∃ blocks, log = n.blockLog ++ blocks
  numbered : LogNumbered n → ∀ m : Node, m.blockLog = log → LogNumbered m
  reaches : ctx.skip.blockLog = false → LogNumbered n → irreversible ≤ log.length

/-- Whether the log is numbered depends on it alone. -/
theorem logNumbered_of_blockLog {n m : Node} (h : LogNumbered n) (hlog : m.blockLog = n.blockLog) :
    LogNumbered m := by
  unfold LogNumbered logHeadNum at *
  rw [hlog]
  exact h

/-- The update of the log appends the blocks up to the number. -/
theorem updateBlockLog_ok {num : ℕ} {u : Unit} (h : updateBlockLog ctx num n = (.ok u, m)) :
    ∃ log, LogUpdated ctx n num log ∧ m = { n with blockLog := log } := by
  unfold updateBlockLog at h
  split at h
  next hskip =>
    have hsame : n = m := congrArg Prod.snd h
    refine ⟨n.blockLog, ⟨⟨[], by simp⟩, fun hn m hlog => logNumbered_of_blockLog hn hlog, ?_⟩,
      hsame.symm⟩
    intro hno
    rw [hno] at hskip
    cases hskip
  next hskip =>
    obtain ⟨logHead, k, hk, h⟩ := ok_of_bind h
    have hread : n = k := congrArg Prod.snd hk
    have hhead : n.logHeadNum = logHead := Except.ok.inj (congrArg Prod.fst hk)
    rw [← hread] at h
    obtain ⟨blocks, hblocks, hlength, hnumbered⟩ := appendBlocks_ok h
    refine ⟨n.blockLog ++ blocks, ⟨⟨blocks, rfl⟩, ?_, ?_⟩, hblocks⟩
    · intro hn k hlog
      refine logNumbered_of_blockLog (hnumbered hn) ?_
      rw [hlog, hblocks]
    · intro _ hn
      unfold LogNumbered at hn
      rw [List.length_append, hlength]
      omega

/-- Committing the irreversible block updates the log and drops the sessions. -/
theorem commitIrreversible_ok {u : Unit} (h : commitIrreversible ctx n = (.ok u, m)) :
    ∃ log, LogUpdated ctx n n.state.dgp.lastIrreversibleBlockNum log ∧
      m = { n with
        db := n.db.commit n.state.dgp.lastIrreversibleBlockNum
        blockLog := log
        forkDb := n.forkDb.setMaxSize (cacheSize n.state.dgp) } := by
  obtain ⟨dpo, k₁, h₁, h⟩ := ok_of_bind h
  obtain ⟨_, k₂, h₂, h⟩ := ok_of_bind h
  obtain ⟨_, k₃, h₃, h⟩ := ok_of_bind h
  have hdpo : n.state.dgp = dpo := Except.ok.inj (congrArg Prod.fst h₁)
  have hk₁ : n = k₁ := congrArg Prod.snd h₁
  have hk₂ : { k₁ with db := k₁.db.commit dpo.lastIrreversibleBlockNum } = k₂ :=
    congrArg Prod.snd h₂
  have hm : { k₃ with forkDb := k₃.forkDb.setMaxSize (cacheSize dpo) } = m := congrArg Prod.snd h
  obtain ⟨log, hlog, hk₃⟩ := updateBlockLog_ok h₃
  rw [← hk₂, ← hk₁] at hlog hk₃
  rw [hk₃, ← hdpo] at hm
  rw [← hdpo] at hlog
  refine ⟨log, ⟨hlog.extends_log, ?_, ?_⟩, hm.symm⟩
  · intro hn
    exact hlog.numbered (logNumbered_of_blockLog hn rfl)
  · intro hskip hn
    exact hlog.reaches hskip (logNumbered_of_blockLog hn rfl)

/-- A block that is applied on the node is applied on its objects. -/
theorem applyBlock_ok {u : Unit} (h : Node.applyBlock ctx b n = (.ok u, m)) :
    ∃ front back log, Returns (applyBlockFront ctx b) n.db.current () front ∧
      Returns (applyBlockBack ctx b) front () back ∧
      LogUpdated ctx n front.dgp.lastIrreversibleBlockNum log ∧
      m = afterBlock n front back log := by
  obtain ⟨_, k, hk, h⟩ := ok_of_bind h
  obtain ⟨_, k', hk', h⟩ := ok_of_bind h
  obtain ⟨front, hfront, hkn⟩ := onState_ok hk
  obtain ⟨log, hlog, hcommit⟩ := commitIrreversible_ok hk'
  obtain ⟨back, hback, hm⟩ := onState_ok h
  rw [hkn] at hlog hcommit
  rw [hcommit] at hback hm
  refine ⟨front, back, log, hfront, hback, ⟨hlog.extends_log, ?_, ?_⟩, hm⟩
  · intro hn
    exact hlog.numbered (logNumbered_of_blockLog hn rfl)
  · intro hskip hn
    exact hlog.reaches hskip (logNumbered_of_blockLog hn rfl)

/-- The same for a block in a session of its own. -/
theorem applyInSession_ok {u : Unit} (h : applyInSession ctx b n = (.ok u, m)) :
    ∃ front back log, Returns (applyBlockFront ctx b) n.db.current () front ∧
      Returns (applyBlockBack ctx b) front () back ∧
      LogUpdated ctx n front.dgp.lastIrreversibleBlockNum log ∧
      m = afterBlock { n with db := n.db.start } front back log := by
  obtain ⟨front, back, log, hfront, hback, hlog, hm⟩ := applyBlock_ok (inSession_ok h)
  refine ⟨front, back, log, hfront, hback, ⟨hlog.extends_log, ?_, ?_⟩, hm⟩
  · intro hn
    exact hlog.numbered (logNumbered_of_blockLog hn rfl)
  · intro hskip hn
    exact hlog.reaches hskip (logNumbered_of_blockLog hn rfl)

/-- The nodes differ at most in their block logs. -/
def SameButLog (n m : Node) : Prop := ∃ log, m = { n with blockLog := log }

instance : IsPreorder Node SameButLog where
  refl n := ⟨n.blockLog, rfl⟩
  trans _ _ _ hst htu := by
    obtain ⟨log, rfl⟩ := hst
    obtain ⟨log', rfl⟩ := htu
    exact ⟨log', rfl⟩

/-- Appending a block changes the log alone. -/
theorem append_sameButLog (b : SignedBlock) : Always SameButLog (append b) := by
  constructor
  intro n
  unfold append
  split
  · exact ⟨_, rfl⟩
  · exact ⟨n.blockLog, rfl⟩

/-- Appending blocks changes the log alone. -/
theorem appendBlocks_sameButLog (left num : ℕ) : Always SameButLog (appendBlocks left num) := by
  induction left generalizing num with
  | zero => exact .done ()
  | succ left ih =>
    exact .bind (.read _) fun _ => .bind (.ofExcept _) fun _ =>
      .bind (append_sameButLog _) fun _ => ih _

/-- The update of the log changes it alone. -/
theorem updateBlockLog_sameButLog (ctx : Context) (num : ℕ) :
    Always SameButLog (updateBlockLog ctx num) :=
  .ite (.done ()) (.bind (.read _) fun _ => appendBlocks_sameButLog _ _)

/-- A commit that throws has dropped the sessions and perhaps updated the log. -/
theorem commitIrreversible_error {e : Exc} (h : commitIrreversible ctx n = (.error e, m)) :
    ∃ log, m = { n with
      db := n.db.commit n.state.dgp.lastIrreversibleBlockNum
      blockLog := log } := by
  have hread : (Process.read (·.state.dgp) : NodeM _) n = (.ok n.state.dgp, n) := rfl
  unfold commitIrreversible at h
  rw [bind_of_ok hread, bind_of_ok (m := Process.change _) rfl] at h
  have hlog := updateBlockLog_sameButLog ctx n.state.dgp.lastIrreversibleBlockNum
  cases hupdate : updateBlockLog ctx n.state.dgp.lastIrreversibleBlockNum
      { n with db := n.db.commit n.state.dgp.lastIrreversibleBlockNum } with
  | mk r k =>
    cases r with
    | ok u =>
      rw [bind_of_ok hupdate] at h
      cases h
    | error e' =>
      rw [bind_of_error hupdate] at h
      have hk : k = m := congrArg Prod.snd h
      rw [← hk]
      exact hlog.of_eq hupdate

/-- A block that throws has changed nothing, or stops after its front part. -/
theorem applyBlock_error {e : Exc} (h : Node.applyBlock ctx b n = (.error e, m)) :
    m = n ∨ ∃ front log f, Returns (applyBlockFront ctx b) n.db.current () front ∧
      (f = n.forkDb ∨ f = n.forkDb.setMaxSize (cacheSize front.dgp)) ∧
      m = { n with
        db := (n.db.write front).commit front.dgp.lastIrreversibleBlockNum
        blockLog := log
        forkDb := f } := by
  rcases error_of_bind h with h | ⟨_, k, hk, h⟩
  · exact .inl (onState_error h)
  obtain ⟨front, hfront, hkn⟩ := onState_ok hk
  refine .inr ⟨front, ?_⟩
  rcases error_of_bind h with h | ⟨_, k', hk', h⟩
  · obtain ⟨log, hm⟩ := commitIrreversible_error h
    rw [hkn] at hm
    exact ⟨log, n.forkDb, hfront, .inl rfl, hm⟩
  · obtain ⟨log, -, hkk'⟩ := commitIrreversible_ok hk'
    rw [hkn] at hkk'
    refine ⟨log, n.forkDb.setMaxSize (cacheSize front.dgp), hfront, .inr rfl, ?_⟩
    rw [onState_error h, hkk']
    rfl

/-- What a block that throws leaves behind, if it leaves its own session open: the older
sessions may be committed, blocks may have been appended to the log, and the fork database may
have dropped old items. -/
theorem applyInSession_error {e : Exc} (h : applyInSession ctx b n = (.error e, m))
    (hopen : ∀ front, Returns (applyBlockFront ctx b) n.db.current () front →
      (front.dgp.lastIrreversibleBlockNum : ℤ) ≤ n.db.revision) :
    m = n ∨ ∃ front log f, Returns (applyBlockFront ctx b) n.db.current () front ∧
      (f = n.forkDb ∨ f = n.forkDb.setMaxSize (cacheSize front.dgp)) ∧
      m = { n with
        db := n.db.commit front.dgp.lastIrreversibleBlockNum
        blockLog := log
        forkDb := f } := by
  obtain ⟨k, hk, rfl⟩ := inSession_error h
  rcases applyBlock_error hk with rfl | ⟨front, log, f, hfront, hf, rfl⟩
  · have hundo : n.db.start.undo = n.db := SnapshotStack.undo_write_start n.db n.db.current
    refine .inl ?_
    rw [hundo]
  · refine .inr ⟨front, log, f, hfront, hf, ?_⟩
    rw [← SnapshotStack.undo_commit_write_start n.db front (hopen front hfront)]

end ApplyBlock

section PopBlock

/-- A pop of the fork database moves the head to its parent. -/
theorem forkPopBlock_ok {f g : ForkDatabase} (h : f.popBlock = .ok g) :
    ∃ head prev, f.head = some head ∧ f.lock head = some prev ∧ g = { f with head := some prev } := by
  unfold ForkDatabase.popBlock at h
  cases hhead : f.head with
  | none =>
    rw [hhead] at h
    cases h
  | some head =>
    rw [hhead] at h
    cases hlock : f.lock head with
    | none =>
      simp only [hlock] at h
      cases h
    | some prev =>
      simp only [hlock] at h
      exact ⟨head, prev, rfl, hlock, (Except.ok.inj h).symm⟩

/-- A pop without pending transactions undoes a session and takes the head of the fork
database to its parent. -/
theorem popBlock_ok {env : Env} {u : Unit} (hidle : n.pendingSession = false)
    (h : Node.popBlock env n = (.ok u, m)) :
    ∃ head prev block, n.forkDb.head = some head ∧ n.forkDb.lock head = some prev ∧
      fetchBlockById env n.headBlockId n = some block ∧
      m = { n with
        db := n.db.undo
        forkDb := { n.forkDb with head := some prev }
        poppedTx := block.transactions ++ n.poppedTx } := by
  obtain ⟨_, k₁, h₁, h⟩ := ok_of_bind h
  have hk₁ : k₁ = n := by
    have hreset : (if n.pendingSession then { n with db := n.db.undo, pendingSession := false }
        else n) = k₁ := congrArg Prod.snd h₁
    rw [hidle] at hreset
    exact hreset.symm
  obtain ⟨found, k₂, h₂, h⟩ := ok_of_bind h
  have hk₂ : k₁ = k₂ := congrArg Prod.snd h₂
  obtain ⟨headBlock, k₃, h₃, h⟩ := ok_of_bind h
  obtain ⟨hblock, hk₃⟩ := ok_of_ofExcept h₃
  have hfound : found = some headBlock := by
    cases found with
    | none => cases hblock
    | some b => rw [Except.ok.inj hblock]
  have hfetch : fetchBlockById env k₁.headBlockId k₁ = found := Except.ok.inj (congrArg Prod.fst h₂)
  rw [hk₁, hfound] at hfetch
  obtain ⟨_, k₄, h₄, h⟩ := ok_of_bind h
  obtain ⟨_, k₅, h₅, h⟩ := ok_of_bind h
  obtain ⟨forkDb, hfork, hk₄⟩ := onForkDb_ok h₄
  have hk₅ : { k₄ with db := k₄.db.undo } = k₅ := congrArg Prod.snd h₅
  have hm : { k₅ with poppedTx := headBlock.transactions ++ k₅.poppedTx } = m := congrArg Prod.snd h
  rw [hk₃, ← hk₂, hk₁] at hfork hk₄
  obtain ⟨head, prev, hhead, hlock, hforkDb⟩ := forkPopBlock_ok hfork
  refine ⟨head, prev, headBlock, hhead, hlock, hfetch, ?_⟩
  rw [← hm, ← hk₅, hk₄, hforkDb]

/-- A pop that throws changes nothing. -/
theorem popBlock_error {env : Env} {e : Exc} (hidle : n.pendingSession = false)
    (h : Node.popBlock env n = (.error e, m)) : m = n := by
  rcases error_of_bind h with h | ⟨_, k₁, h₁, h⟩
  · cases h
  have hk₁ : k₁ = n := by
    have hreset : (if n.pendingSession then { n with db := n.db.undo, pendingSession := false }
        else n) = k₁ := congrArg Prod.snd h₁
    rw [hidle] at hreset
    exact hreset.symm
  rcases error_of_bind h with h | ⟨found, k₂, h₂, h⟩
  · cases h
  have hk₂ : k₁ = k₂ := congrArg Prod.snd h₂
  rcases error_of_bind h with h | ⟨headBlock, k₃, h₃, h⟩
  · have hm : k₂ = m := congrArg Prod.snd h
    rw [← hm, ← hk₂, hk₁]
  have hk₃ := (ok_of_ofExcept h₃).2
  rcases error_of_bind h with h | ⟨_, k₄, h₄, h⟩
  · have hm : m = k₃ := by
      unfold onForkDb at h
      split at h
      · cases h
      · exact (congrArg Prod.snd h).symm
    rw [hm, hk₃, ← hk₂, hk₁]
  · rcases error_of_bind h with h | ⟨_, k₅, h₅, h⟩
    · cases h
    · cases h

end PopBlock

end Whaleshares.NodeRoutines
