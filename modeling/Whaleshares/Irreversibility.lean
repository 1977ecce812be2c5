import Whaleshares.LastIrreversible
import Whaleshares.PathIndependence
import Whaleshares.Watcher

/-!
# Irreversible blocks

A block moves the last irreversible block forward and commits the undo sessions up to it, so
the blocks below the oldest open session cannot be popped any more. The last irreversible
block is never above that floor, and the floor never falls: not by an exception in a block,
not by a switch of forks, and not by a switch that fails and is taken back.
-/

namespace Whaleshares.Irreversibility

open Config Fc Protocol Objects Program Database ApplyBlock Genesis ChainRun ChainTip Footprint
  Process NodeRoutines ChainLadder PendingSession PathIndependence LastIrreversible Node

section Floor

variable {env : Env} {initSupply : ℕ} {chain : List BlockCall} {floor : ℕ}
  {db : SnapshotStack ChainState}

/-- The undo stack of a chain whose first `floor` blocks have no open session; the last
irreversible block is one of them. -/
structure Perch (env : Env) (initSupply : ℕ) (chain : List BlockCall) (floor : ℕ)
    (db : SnapshotStack ChainState) : Prop where
  ladder : Ladder env initSupply chain db
  sessions : floor + db.saved.length = chain.length
  irreversible : db.current.dgp.lastIrreversibleBlockNum ≤ floor

/-- A further block does not lower the last irreversible one. -/
theorem reaches_lib_mono {call : BlockCall} {s t : ChainState} (hs : Reaches env initSupply chain s)
    (ht : Reaches env initSupply (chain ++ [call]) t) :
    s.dgp.lastIrreversibleBlockNum ≤ t.dgp.lastIrreversibleBlockNum := by
  obtain ⟨u, hu, hcall⟩ := reaches_append.mp ht
  obtain ⟨_, front, hfront, hback⟩ := hcall.bind
  have htip : tip t.dgp = tip front.dgp := applyBlockBack_sameTip hback
  have hlib : t.dgp.lastIrreversibleBlockNum = front.dgp.lastIrreversibleBlockNum :=
    congrArg (fun x => x.2.2) htip
  rw [Reaches.unique hs hu, hlib]
  exact (Reaches.front_lib _ hu hfront).1

/-- The chain went on, or back and on, without touching the blocks below the floor. -/
structure Continues (chain : List BlockCall) (floor : ℕ) (chain' : List BlockCall) (floor' : ℕ) :
    Prop where
  rises : floor ≤ floor'
  same : chain'.take floor = chain.take floor

/-- A chain continues itself. -/
theorem Continues.refl (chain : List BlockCall) (floor : ℕ) : Continues chain floor chain floor :=
  ⟨le_rfl, rfl⟩

/-- A chain continues what it has continued. -/
theorem Continues.trans {chain' chain'' : List BlockCall} {floor' floor'' : ℕ}
    (h : Continues chain floor chain' floor') (h' : Continues chain' floor' chain'' floor'') :
    Continues chain floor chain'' floor'' := by
  refine ⟨h.rises.trans h'.rises, ?_⟩
  have hcut : ∀ l : List BlockCall, l.take floor = (l.take floor').take floor := by
    intro l
    rw [List.take_take, min_eq_left h.rises]
  rw [hcut, h'.same, ← hcut, h.same]

/-- Undoing takes a block above the floor away, or nothing. -/
theorem Perch.undo (h : Perch env initSupply chain floor db) :
    ∃ chain', Perch env initSupply chain' floor db.undo ∧ Continues chain floor chain' floor := by
  rcases h.ladder.undo with ⟨-, hsame⟩ | ⟨init, call, rfl, hladder⟩
  · refine ⟨chain, ?_, .refl _ _⟩
    rw [hsame]
    exact h
  · have hsessions := h.sessions
    have hlib := h.irreversible
    have hmono := reaches_lib_mono hladder.current h.ladder.current
    have hrevision := hladder.revision
    have hrevision' := h.ladder.revision
    rw [List.length_append, List.length_singleton] at hsessions hrevision'
    have hsaved : db.undo.saved.length + 1 = db.saved.length := by
      cases hdb : db.saved with
      | nil =>
        have hsame : db.undo = db := by simp [SnapshotStack.undo, hdb]
        rw [hsame] at hrevision
        omega
      | cons rung rest => simp [SnapshotStack.undo, hdb]
    refine ⟨init, ⟨hladder, by omega, by omega⟩, le_rfl, ?_⟩
    rw [List.take_append_of_le_length (by omega)]

/-- A block in its session raises the floor to the last irreversible block, where it was
lower. -/
theorem Perch.step (call : BlockCall) {front back : ChainState}
    (h : Perch env initSupply chain floor db)
    (hfront : Returns (applyBlockFront (call.context env) call.block) db.current () front)
    (hback : Returns (applyBlockBack (call.context env) call.block) front () back) :
    Perch env initSupply (chain ++ [call]) (max floor front.dgp.lastIrreversibleBlockNum)
        (((db.start.write front).commit front.dgp.lastIrreversibleBlockNum).write back) ∧
      Continues chain floor (chain ++ [call]) (max floor front.dgp.lastIrreversibleBlockNum) := by
  have hsessions := h.sessions
  have hlib := (Reaches.front_lib _ h.ladder.current hfront).2
  have htip : tip back.dgp = tip front.dgp := applyBlockBack_sameTip hback
  have hback' : back.dgp.lastIrreversibleBlockNum = front.dgp.lastIrreversibleBlockNum :=
    congrArg (fun x => x.2.2) htip
  have hlength := (h.ladder.start call).commit_length front.dgp.lastIrreversibleBlockNum
  have hstart : db.start.saved.length = db.saved.length + 1 := rfl
  rw [hstart, List.length_append, List.length_singleton] at hlength
  refine ⟨⟨h.ladder.step call hfront hback, ?_, ?_⟩, le_max_left _ _, ?_⟩
  · change _ + (db.start.saved.rdropWhile fun session =>
      session.1 ≤ (front.dgp.lastIrreversibleBlockNum : ℤ)).length = _
    rw [hlength, List.length_append, List.length_singleton]
    omega
  · change back.dgp.lastIrreversibleBlockNum ≤ _
    omega
  · rw [List.take_append_of_le_length (by omega)]

/-- A commit raises the floor up to a block of the chain. -/
theorem Perch.commit (h : Perch env initSupply chain floor db) {k : ℕ} (hk : k ≤ chain.length) :
    Perch env initSupply chain (max floor k) (db.commit k) ∧
      Continues chain floor chain (max floor k) := by
  have hsessions := h.sessions
  have hlib := h.irreversible
  have hlength := h.ladder.rungs.commit_length k
  refine ⟨⟨h.ladder.commit k, ?_, ?_⟩, le_max_left _ _, rfl⟩
  · change _ + (db.saved.rdropWhile fun session => session.1 ≤ (k : ℤ)).length = _
    rw [hlength]
    omega
  · change db.current.dgp.lastIrreversibleBlockNum ≤ _
    omega

end Floor

section Core

variable {env : Env} {initSupply : ℕ} {p : BlockCall} {n m : Node}

/-- Without pending transactions, the blocks below the floor stay. -/
def Firm (env : Env) (initSupply : ℕ) (n m : Node) : Prop :=
  n.pendingSession = false → m.pendingSession = false ∧
    ∀ chain floor, Perch env initSupply chain floor n.db →
      ∃ chain' floor', Perch env initSupply chain' floor' m.db ∧
        Continues chain floor chain' floor'

/-- Whether a node is firm depends on its objects and its pending session. -/
theorem Firm.of_db (hdb : m.db = n.db) (hsession : m.pendingSession = n.pendingSession) :
    Firm env initSupply n m := by
  intro hidle
  refine ⟨hsession.trans hidle, fun chain floor hn => ⟨chain, floor, ?_, .refl _ _⟩⟩
  rw [hdb]
  exact hn

instance : IsPreorder Node (Firm env initSupply) where
  refl _ := .of_db rfl rfl
  trans _ _ _ hst htu hidle := by
    obtain ⟨hidle', hst⟩ := hst hidle
    obtain ⟨hidle'', htu⟩ := htu hidle'
    refine ⟨hidle'', fun chain floor hn => ?_⟩
    obtain ⟨chain', floor', hn', hcontinues⟩ := hst chain floor hn
    obtain ⟨chain'', floor'', hn'', hcontinues'⟩ := htu chain' floor' hn'
    exact ⟨chain'', floor'', hn'', hcontinues.trans hcontinues'⟩

/-- Popping a block leaves the node firm. -/
theorem popBlock_firm (env : Env) (initSupply : ℕ) (e : Env) : Always (Firm env initSupply) (Node.popBlock e) := by
  constructor
  intro n hidle
  cases hrun : Node.popBlock e n with
  | mk r m =>
    cases r with
    | error exc =>
      have hm : m = n := popBlock_error hidle hrun
      rw [hm]
      exact refl_of (Firm env initSupply) n hidle
    | ok u =>
      obtain ⟨-, -, _, -, -, -, rfl⟩ := popBlock_ok hidle hrun
      refine ⟨hidle, fun chain floor hn => ?_⟩
      obtain ⟨chain', hperch, hcontinues⟩ := hn.undo
      exact ⟨chain', floor, hperch, hcontinues⟩

/-- Applying a block in a session leaves the node firm. -/
theorem applyInSession_firm (p : BlockCall) (b : SignedBlock) :
    Always (Firm env initSupply) (applyInSession (p.context env) b) := by
  constructor
  intro n hidle
  cases hrun : applyInSession (p.context env) b n with
  | mk r m =>
    cases r with
    | ok u =>
      obtain ⟨front, back, log, hfront, hback, -, hm⟩ := applyInSession_ok hrun
      rw [hm]
      refine ⟨hidle, fun chain floor hn => ?_⟩
      obtain ⟨hperch, hcontinues⟩ := hn.step { p with block := b } hfront hback
      exact ⟨_, _, hperch, hcontinues⟩
    | error e =>
      refine ⟨?_, fun chain floor hn => ?_⟩
      · obtain ⟨k, hk, rfl⟩ := inSession_error hrun
        rcases applyBlock_error hk with rfl | ⟨_, _, _, -, -, rfl⟩
        · exact hidle
        · exact hidle
      · have hopen : ∀ front, Returns (applyBlockFront (p.context env) b) n.db.current () front →
            (front.dgp.lastIrreversibleBlockNum : ℤ) ≤ n.db.revision := by
          intro front hfront
          have hlib := (Reaches.front_lib { p with block := b } hn.ladder.current hfront).2
          rw [hn.ladder.revision]
          omega
        rcases applyInSession_error hrun hopen with rfl | ⟨front, log, f, hfront, -, rfl⟩
        · exact ⟨chain, floor, hn, .refl _ _⟩
        · have hlib := (Reaches.front_lib { p with block := b } hn.ladder.current hfront).2
          obtain ⟨hperch, hcontinues⟩ := hn.commit hlib
          exact ⟨_, _, hperch, hcontinues⟩

/-- Every node that is recorded. -/
def everyNode : Watcher Node where
  pop _ _ m := [m]
  apply _ _ m := [m]
  restore _ _ m := [m]

/-- Every step of `_push_block` leaves the node firm. -/
theorem everyNode_firm (initSupply : ℕ) (p : BlockCall) :
    everyNode.Keeps (p.context env) (Shows (Firm env initSupply)) where
  pop := .recorded (popBlock_firm _ _ _)
  apply b := .recorded (applyInSession_firm p b)
  forkDb s f := by
    have hsame : Firm env initSupply s.1 { s.1 with forkDb := f } := .of_db rfl rfl
    exact ⟨[], by simp, by simpa using hsame⟩

end Core

section Runs

variable {env : Env} {initSupply : ℕ} {n m : Node}

/-- The node has the chain below its pending transactions. -/
def Held (env : Env) (initSupply : ℕ) (chain : List BlockCall) (floor : ℕ) (n : Node) : Prop :=
  ∃ base, OnTop base n.forkDb n ∧ Perch env initSupply chain floor base

/-- The blocks below the floor stay. -/
def Settles (env : Env) (initSupply : ℕ) (n m : Node) : Prop :=
  ∀ chain floor, Held env initSupply chain floor n →
    ∃ chain' floor', Held env initSupply chain' floor' m ∧ Continues chain floor chain' floor'

instance : IsPreorder Node (Settles env initSupply) where
  refl _ chain floor hn := ⟨chain, floor, hn, .refl _ _⟩
  trans _ _ _ hst htu chain floor hn := by
    obtain ⟨chain', floor', hn', hcontinues⟩ := hst chain floor hn
    obtain ⟨chain'', floor'', hn'', hcontinues'⟩ := htu chain' floor' hn'
    exact ⟨chain'', floor'', hn'', hcontinues.trans hcontinues'⟩

/-- A firm node without a pending session settles. -/
theorem Firm.settles (h : Firm env initSupply n m) (hidle : n.pendingSession = false) :
    Settles env initSupply n m := by
  obtain ⟨hidle', hfirm⟩ := h hidle
  intro chain floor hn
  obtain ⟨base, htop, hperch⟩ := hn
  have hdb := htop.db
  rw [hidle] at hdb
  have hdb : n.db = base := hdb
  rw [← hdb] at hperch
  obtain ⟨chain', floor', hm, hcontinues⟩ := hfirm chain floor hperch
  exact ⟨chain', floor', ⟨m.db, .idle hidle', hm⟩, hcontinues⟩

/-- If the nodes of a record are firm in order, they settle in order. -/
theorem pairwise_settles {l : List Node} (h : (n :: l).Pairwise (Firm env initSupply))
    (hidle : n.pendingSession = false) : (n :: l).Pairwise (Settles env initSupply) := by
  induction l generalizing n with
  | nil => exact List.pairwise_singleton _ _
  | cons m rest ih =>
    obtain ⟨hfirst, hrest⟩ := List.pairwise_cons.mp h
    refine List.pairwise_cons.mpr ⟨fun k hk => (hfirst k hk).settles hidle, ?_⟩
    exact ih hrest (hfirst m List.mem_cons_self hidle).1

/-- Clearing the pending transactions settles. -/
theorem clearPending_settles : Always (Settles env initSupply) clearPending := by
  constructor
  intro n chain floor hn
  obtain ⟨base, htop, hperch⟩ := hn
  rw [clearPending_eq htop]
  refine ⟨chain, floor, ⟨base, ?_, hperch⟩, .refl _ _⟩
  exact OnTop.idle (n := { n with db := base, pendingTx := [], pendingSession := false }) rfl

/-- Bringing the pending transactions back settles. -/
theorem restorePending_settles (ctx : Context) (pending : List SignedTransaction) :
    Always (Settles env initSupply) (restorePending ctx pending) := by
  constructor
  intro n chain floor hn
  obtain ⟨base, htop, hperch⟩ := hn
  obtain ⟨m, hm⟩ := restorePending_returns ctx pending n
  have htop' := (restorePending_onTop ctx pending).of_eq hm htop
  rw [hm]
  refine ⟨chain, floor, ⟨base, ?_, hperch⟩, .refl _ _⟩
  change OnTop base m.forkDb m
  rw [htop'.sameForks]
  exact htop'

/-- The nodes that `push_block` shows keep the blocks below their floors. -/
theorem pushBlock_settles (p : BlockCall) (b : SignedBlock) :
    Always (Shows (Settles env initSupply)) (everyNode.pushBlock (p.context env) b) := by
  constructor
  intro s
  obtain ⟨k, t, m, hk, hidle, hcore, hm, hpush⟩ := everyNode.pushBlock_parts (p.context env) b s
  have hclear : Settles env initSupply s.1 k := clearPending_settles.of_eq hk
  have hrestore : Settles env initSupply t.1 m := (restorePending_settles _ _).of_eq hm
  have hfirst : Shows (Settles env initSupply) s (k, s.2) := ⟨[], by simp, by simpa using hclear⟩
  have hsecond : Shows (Settles env initSupply) (k, s.2) t := by
    obtain ⟨new, hnew, hpairs⟩ :=
      (Watcher.pushBlockCore_keeps (everyNode_firm initSupply p) b).rel (k, s.2)
    rw [hcore] at hnew hpairs
    exact ⟨new, hnew, pairwise_settles hpairs hidle⟩
  have hthird : Shows (Settles env initSupply) t (m, t.2 ++ [m]) := by
    have hself : Settles env initSupply m m := Std.Refl.refl m
    exact ⟨[m], rfl, by simp [hrestore, hself]⟩
  rw [hpush]
  exact Trans.trans hfirst (Trans.trans hsecond hthird)

/-- Calls of `push_block`, in order; an exception ends the call, and the next one follows. -/
def pushAll (env : Env) (pushes : List BlockCall) : NodeM Unit :=
  .each (fun call => do
    let _ ← (Node.pushBlock (call.context env) call.block).attempt
    pure ()) pushes

/-- The same calls, watched. -/
def watchAll (env : Env) (pushes : List BlockCall) : Traced Node Node Exc Unit :=
  .each (fun call => do
    let _ ← (everyNode.pushBlock (call.context env) call.block).attempt
    pure ()) pushes

/-- The nodes from genesis on: after every `pop_block`, after every `apply_block` and after
every `push_block` of a run. -/
def visited (env : Env) (initSupply : ℕ) (pushes : List BlockCall) : List Node :=
  (watchAll env pushes (genesis env initSupply, [genesis env initSupply])).2.2

/-- The recorded pushes are those of the node. -/
theorem watchAll_erases (env : Env) (pushes : List BlockCall) :
    Erases (watchAll env pushes) (pushAll env pushes) := by
  unfold watchAll pushAll
  refine Erases.each (fun call => ?_) pushes
  refine Erases.bind ?_ fun _ => Erases.done ()
  exact (Watcher.pushBlock_erases _ call.block).attempt

/-- Along the recorded pushes the node settles. -/
theorem watchAll_settles (initSupply : ℕ) (pushes : List BlockCall) :
    Always (Shows (Settles env initSupply)) (watchAll env pushes) :=
  .each fun call _ => .bind (.attempt (pushBlock_settles call call.block)) fun _ => .done ()

/-- Later pushes are recorded after the earlier ones. -/
theorem watchAll_append (earlier later : List BlockCall) (s : Node × List Node) :
    watchAll env (earlier ++ later) s = watchAll env later (watchAll env earlier s).2 := by
  induction earlier generalizing s with
  | nil => rfl
  | cons call rest ih => exact ih _

/-- The node that the calls leave is among the shown ones. -/
theorem watchAll_last (env : Env) (pushes : List BlockCall) {s : Node × List Node} (hs : s.1 ∈ s.2) :
    (watchAll env pushes s).2.1 ∈ (watchAll env pushes s).2.2 := by
  induction pushes generalizing s with
  | nil => exact hs
  | cons call rest ih =>
    refine ih (s := (everyNode.pushBlock (call.context env) call.block s).2) ?_
    obtain ⟨_, t, m, -, -, -, -, hpush⟩ :=
      everyNode.pushBlock_parts (call.context env) call.block s
    rw [hpush]
    exact List.mem_append_right _ (List.mem_singleton_self m)

/-- Every node between two calls of a run is visited. -/
theorem pushAll_mem_visited {earlier pushes : List BlockCall} (hinit : earlier <+: pushes) :
    (pushAll env earlier (genesis env initSupply)).2 ∈ visited env initSupply pushes := by
  obtain ⟨later, rfl⟩ := hinit
  have herases := (watchAll_erases env earlier).state
    (genesis env initSupply, [genesis env initSupply])
  have hlast := watchAll_last env earlier
    (s := (genesis env initSupply, [genesis env initSupply])) (List.mem_singleton_self _)
  rw [herases] at hlast
  unfold visited
  rw [watchAll_append]
  obtain ⟨new, hnew, -⟩ := (watchAll_settles initSupply later).rel
    (watchAll env earlier (genesis env initSupply, [genesis env initSupply])).2
  rw [hnew]
  exact List.mem_append_left _ hlast

/-- The blocks of the chain lead from genesis to the node's head block. -/
def Ancestry (env : Env) (initSupply : ℕ) (chain : List BlockCall) (n : Node) : Prop :=
  ∃ s, Reaches env initSupply chain s ∧ SameTip s n.state

/-- The number of the head is the length of the chain. -/
theorem Held.headNum {chain : List BlockCall} {floor : ℕ} (h : Held env initSupply chain floor n) :
    n.headNum = chain.length := by
  obtain ⟨base, htop, hperch⟩ := h
  have htip : tip n.state.dgp = tip base.current.dgp := htop.sameTip
  have hnum : n.headNum = base.current.dgp.headBlockNumber := congrArg (fun x => x.2.1) htip
  rw [hnum, (Reaches.tip hperch.ladder.current).2.1]

/-- A node that holds a chain has its ancestry. -/
theorem Held.ancestry {chain : List BlockCall} {floor : ℕ}
    (h : Held env initSupply chain floor n) : Ancestry env initSupply chain n := by
  obtain ⟨base, htop, hperch⟩ := h
  exact ⟨base.current, hperch.ladder.current, htop.sameTip⟩

/-- The irreversible blocks of a node are blocks of the later one. -/
theorem Held.irreversible {chain chain' : List BlockCall} {floor floor' : ℕ}
    (hn : Held env initSupply chain floor n) (hm : Held env initSupply chain' floor' m)
    (hcontinues : Continues chain floor chain' floor') {k : ℕ}
    (hk : k ≤ n.state.dgp.lastIrreversibleBlockNum) :
    k ≤ m.headNum ∧ chain'.take k = chain.take k := by
  have hheadNum := hm.headNum
  obtain ⟨base, htop, hperch⟩ := hn
  obtain ⟨base', -, hperch'⟩ := hm
  have htip : tip n.state.dgp = tip base.current.dgp := htop.sameTip
  have hlib : n.state.dgp.lastIrreversibleBlockNum = base.current.dgp.lastIrreversibleBlockNum :=
    congrArg (fun x => x.2.2) htip
  have hbelow := hperch.irreversible
  have hsessions := hperch'.sessions
  have hrises := hcontinues.rises
  have hcut : ∀ l : List BlockCall, l.take k = (l.take floor).take k := by
    intro l
    rw [List.take_take, min_eq_left (by omega)]
  refine ⟨by omega, ?_⟩
  rw [hcut, hcontinues.same, ← hcut]

/-- Without pending transactions the revision is the number of the head block, and the next
block closes exactly the sessions of the blocks up to the number that it commits. -/
theorem Held.revision {chain : List BlockCall} {floor : ℕ} (h : Held env initSupply chain floor n)
    (hidle : n.pendingSession = false) :
    n.db.revision = n.headNum ∧ ∀ k : ℤ,
      (n.db.start.commit k).saved = n.db.start.saved.filter fun session => k < session.1 := by
  have hheadNum := h.headNum
  obtain ⟨base, htop, hperch⟩ := h
  have hdb := htop.db
  rw [hidle] at hdb
  have hdb : n.db = base := hdb
  rw [hdb, hheadNum]
  refine ⟨hperch.ladder.revision, fun k => ?_⟩
  exact hperch.ladder.commit_start k

/-- A row of nodes that keep the blocks below their floors has chains whose irreversible
blocks stay. -/
theorem exists_chains {l : List Node} {chain : List BlockCall} {floor : ℕ}
    (hpairs : (n :: l).Pairwise (Settles env initSupply))
    (hn : Held env initSupply chain floor n) :
    ∃ chains, List.Forall₂ (fun chain m => ∃ floor, Held env initSupply chain floor m) chains l ∧
      (∀ x ∈ chains.zip l, ∃ floor', Held env initSupply x.1 floor' x.2 ∧
        Continues chain floor x.1 floor') ∧
      ((chain, n) :: chains.zip l).Pairwise fun x y =>
        ∀ k ≤ x.2.state.dgp.lastIrreversibleBlockNum, k ≤ y.2.headNum ∧ y.1.take k = x.1.take k := by
  induction l generalizing n chain floor with
  | nil => exact ⟨[], .nil, by simp, by simp⟩
  | cons m rest ih =>
    obtain ⟨hfirst, hrest⟩ := List.pairwise_cons.mp hpairs
    obtain ⟨chain', floor', hm, hcontinues⟩ := hfirst m List.mem_cons_self chain floor hn
    obtain ⟨chains, hheld, hlater, hirreversible⟩ := ih hrest hm
    have hall : ∀ x ∈ (chain' :: chains).zip (m :: rest), ∃ floor',
        Held env initSupply x.1 floor' x.2 ∧ Continues chain floor x.1 floor' := by
      intro x hx
      rw [List.zip_cons_cons] at hx
      rcases List.mem_cons.mp hx with rfl | hx
      · exact ⟨floor', hm, hcontinues⟩
      · obtain ⟨floor'', hx, hcontinues'⟩ := hlater x hx
        exact ⟨floor'', hx, hcontinues.trans hcontinues'⟩
    refine ⟨chain' :: chains, .cons ⟨floor', hm⟩ hheld, hall, ?_⟩
    refine List.pairwise_cons.mpr ⟨fun x hx k hk => ?_, hirreversible⟩
    obtain ⟨floor'', hx, hcontinues'⟩ := hall x hx
    exact hn.irreversible hx hcontinues' hk

/-- At genesis the node holds the empty chain. -/
theorem genesis_held (env : Env) (initSupply : ℕ) :
    Held env initSupply [] 0 (genesis env initSupply) :=
  ⟨_, .idle rfl, .genesis env initSupply, rfl, le_rfl⟩

/-- Every visited node stands on a chain. -/
theorem visited_held {pushes : List BlockCall} (hn : n ∈ visited env initSupply pushes) :
    ∃ chain floor, Held env initSupply chain floor n := by
  obtain ⟨new, hnew, hpairs⟩ := (watchAll_settles initSupply pushes).rel
    (genesis env initSupply, [genesis env initSupply])
  have hvisited : visited env initSupply pushes = genesis env initSupply :: new := hnew
  rw [hvisited] at hn
  rcases List.mem_cons.mp hn with rfl | hn
  · exact ⟨[], 0, genesis_held env initSupply⟩
  · have hsettles := (List.pairwise_cons.mp hpairs).1 n (List.mem_append_left _ hn)
    obtain ⟨chain, floor, hheld, -⟩ := hsettles [] 0 (genesis_held env initSupply)
    exact ⟨chain, floor, hheld⟩

/-- Between two calls of a run the node stands on a chain. -/
theorem pushAll_held (env : Env) (initSupply : ℕ) (pushes : List BlockCall) :
    ∃ chain floor, Held env initSupply chain floor (pushAll env pushes (genesis env initSupply)).2 :=
  visited_held (pushAll_mem_visited List.prefix_rfl)

/-- In every run of `push_block` calls, whether they return or throw and whatever forks they
bring, the blocks up to the last irreversible block of a visited node are blocks of the chains
of all later ones. Without pending transactions the revision is the number of the head block,
and the commit of a block closes exactly the sessions up to its number. -/
theorem irreversible_blocks_stay (env : Env) (initSupply : ℕ) (pushes : List BlockCall) :
    (∀ earlier, earlier <+: pushes →
      (pushAll env earlier (genesis env initSupply)).2 ∈ visited env initSupply pushes) ∧
    (∃ chains, List.Forall₂ (Ancestry env initSupply) chains (visited env initSupply pushes) ∧
      (chains.zip (visited env initSupply pushes)).Pairwise fun x y =>
        ∀ k ≤ x.2.state.dgp.lastIrreversibleBlockNum, k ≤ y.2.headNum ∧ y.1.take k = x.1.take k) ∧
    ∀ n ∈ visited env initSupply pushes, n.pendingSession = false →
      n.db.revision = n.headNum ∧ ∀ k : ℤ,
        (n.db.start.commit k).saved = n.db.start.saved.filter fun session => k < session.1 := by
  obtain ⟨new, hnew, hpairs⟩ := (watchAll_settles initSupply pushes).rel
    (genesis env initSupply, [genesis env initSupply])
  have hvisited : visited env initSupply pushes = genesis env initSupply :: new := hnew
  have hgenesis := genesis_held env initSupply
  have hpairs : (genesis env initSupply :: new).Pairwise (Settles env initSupply) :=
    hpairs.sublist (List.Sublist.cons_cons _ (List.sublist_append_left _ _))
  obtain ⟨chains, hheld, -, hirreversible⟩ := exists_chains hpairs hgenesis
  have hall : List.Forall₂ (fun chain m => ∃ floor, Held env initSupply chain floor m)
      ([] :: chains) (visited env initSupply pushes) := by
    rw [hvisited]
    exact .cons ⟨0, hgenesis⟩ hheld
  refine ⟨fun _ hinit => pushAll_mem_visited hinit, ⟨[] :: chains, ?_, ?_⟩, ?_⟩
  · exact hall.imp fun _ _ h => h.choose_spec.ancestry
  · rw [hvisited]
    exact hirreversible
  · intro n hn hidle
    obtain ⟨chain, floor, hheld⟩ := visited_held hn
    exact hheld.revision hidle

end Runs

end Whaleshares.Irreversibility
