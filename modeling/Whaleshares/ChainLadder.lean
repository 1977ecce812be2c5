import Whaleshares.NodeRoutines

/-!
# The ladder of a chain

The undo stack of a node without pending transactions is a ladder: the objects are those
of a run of blocks from `init_genesis`, the revision is the number of the blocks, and
every open session starts with the objects of a shorter run. Applying a block puts a rung
on the ladder, undoing takes one away, and committing takes away the lowest ones.
-/

namespace Whaleshares.ChainLadder

open Fc Protocol Objects Program Database ApplyBlock Genesis ChainRun ChainTip NodeRoutines

variable {env : Env} {initSupply : ℕ} {calls : List BlockCall} {call : BlockCall}
  {db : SnapshotStack ChainState} {saved : List (ℤ × ChainState)}

/-- Every session starts with the objects after all but the last of the blocks that the
session is about. -/
def Rungs (env : Env) (initSupply : ℕ) : List BlockCall → List (ℤ × ChainState) → Prop
  | _, [] => True
  | calls, (revision, s) :: rest =>
    ∃ init call, calls = init ++ [call] ∧ revision = calls.length ∧
      Reaches env initSupply init s ∧ Rungs env initSupply init rest

/-- The lower rungs of a ladder are rungs. -/
theorem Rungs.shorten {short : List (ℤ × ChainState)} (h : Rungs env initSupply calls saved)
    (hinit : short <+: saved) : Rungs env initSupply calls short := by
  induction short generalizing calls saved with
  | nil => trivial
  | cons rung rest ih =>
    obtain ⟨tail, rfl⟩ := hinit
    obtain ⟨init, call, hcalls, hrevision, hs, hrest⟩ := h
    exact ⟨init, call, hcalls, hrevision, hs, ih hrest ⟨tail, rfl⟩⟩

/-- No rung is above the chain. -/
theorem Rungs.revision_le (h : Rungs env initSupply calls saved) :
    ∀ session ∈ saved, session.1 ≤ calls.length := by
  induction saved generalizing calls with
  | nil => simp
  | cons rung rest ih =>
    obtain ⟨init, call, rfl, hrevision, -, hrest⟩ := h
    intro session hsession
    rcases List.mem_cons.mp hsession with rfl | hsession
    · exact hrevision.le
    · have hle := ih hrest session hsession
      rw [List.length_append, List.length_singleton]
      omega

/-- The revisions of the rungs fall. -/
theorem Rungs.descending (h : Rungs env initSupply calls saved) :
    saved.Pairwise fun a b => b.1 < a.1 := by
  induction saved generalizing calls with
  | nil => exact .nil
  | cons rung rest ih =>
    obtain ⟨init, call, rfl, hrevision, -, hrest⟩ := h
    refine List.pairwise_cons.mpr ⟨fun session hsession => ?_, ih hrest⟩
    have hle := hrest.revision_le session hsession
    rw [List.length_append, List.length_singleton] at hrevision
    change session.1 < rung.1
    omega

/-- How many sessions a commit leaves open. -/
theorem Rungs.commit_length (h : Rungs env initSupply calls saved) (k : ℕ) :
    (saved.rdropWhile fun session => session.1 ≤ (k : ℤ)).length =
      min saved.length (calls.length - k) := by
  rw [SnapshotStack.rdropWhile_eq_filter h.descending]
  induction saved generalizing calls with
  | nil => simp
  | cons rung rest ih =>
    obtain ⟨init, call, rfl, hrevision, -, hrest⟩ := h
    have hlength := ih hrest
    rw [List.length_append, List.length_singleton] at hrevision ⊢
    by_cases hlt : (k : ℤ) < rung.1
    · rw [List.filter_cons_of_pos (by simpa using hlt), List.length_cons, hlength, List.length_cons]
      omega
    · rw [List.filter_cons_of_neg (by simpa using hlt), hlength]
      omega

/-- The undo stack of a node whose blocks are those of a run. -/
structure Ladder (env : Env) (initSupply : ℕ) (calls : List BlockCall)
    (db : SnapshotStack ChainState) : Prop where
  current : Reaches env initSupply calls db.current
  revision : db.revision = calls.length
  rungs : Rungs env initSupply calls db.saved

/-- The ladder of genesis has no rungs. -/
theorem Ladder.genesis (env : Env) (initSupply : ℕ) :
    Ladder env initSupply [] (Node.genesis env initSupply).db :=
  ⟨rfl, rfl, trivial⟩

/-- Undoing takes a rung away, where there is one. -/
theorem Ladder.undo (h : Ladder env initSupply calls db) :
    (db.saved = [] ∧ db.undo = db) ∨
      ∃ init call, calls = init ++ [call] ∧ Ladder env initSupply init db.undo := by
  cases hsaved : db.saved with
  | nil =>
    refine .inl ⟨rfl, ?_⟩
    simp [SnapshotStack.undo, hsaved]
  | cons rung rest =>
    have hrungs := h.rungs
    have hrevision := h.revision
    rw [hsaved] at hrungs
    obtain ⟨init, call, hcalls, -, hs, hrest⟩ := hrungs
    have hundo : db.undo = ⟨rung.2, db.revision - 1, rest⟩ := by
      simp [SnapshotStack.undo, hsaved]
    refine .inr ⟨init, call, hcalls, ?_⟩
    rw [hundo]
    refine ⟨hs, ?_, hrest⟩
    change db.revision - 1 = init.length
    rw [hcalls, List.length_append, List.length_singleton] at hrevision
    omega

/-- A new session is a rung. -/
theorem Ladder.start (h : Ladder env initSupply calls db) (call : BlockCall) :
    Rungs env initSupply (calls ++ [call]) db.start.saved := by
  have hrevision := h.revision
  refine ⟨calls, call, rfl, ?_, h.current, h.rungs⟩
  rw [List.length_append, List.length_singleton]
  omega

/-- The commit of the next block closes exactly the sessions of the blocks up to its
number. -/
theorem Ladder.commit_start (h : Ladder env initSupply calls db) (k : ℤ) :
    (db.start.commit k).saved = db.start.saved.filter fun session => k < session.1 := by
  refine SnapshotStack.rdropWhile_eq_filter (List.pairwise_cons.mpr ⟨?_, h.rungs.descending⟩) k
  intro session hsession
  have hle := h.rungs.revision_le session hsession
  have hrevision := h.revision
  change session.1 < db.revision + 1
  omega

/-- A block in its session puts a rung on the ladder. -/
theorem Ladder.step (call : BlockCall) {front back : ChainState} {irreversible : ℤ}
    (h : Ladder env initSupply calls db)
    (hfront : Returns (applyBlockFront (call.context env) call.block) db.current () front)
    (hback : Returns (applyBlockBack (call.context env) call.block) front () back) :
    Ladder env initSupply (calls ++ [call])
      (((db.start.write front).commit irreversible).write back) := by
  have hrevision := h.revision
  refine ⟨?_, ?_, ?_⟩
  · exact reaches_append.mpr ⟨db.current, h.current, Returns.intro_bind hfront hback⟩
  · change db.revision + 1 = ((calls ++ [call]).length : ℤ)
    rw [List.length_append, List.length_singleton]
    omega
  · exact (h.start call).shorten (List.rdropWhile_prefix _ _)

/-- A commit takes away the lowest rungs. -/
theorem Ladder.commit (h : Ladder env initSupply calls db) (irreversible : ℤ) :
    Ladder env initSupply calls (db.commit irreversible) :=
  ⟨h.current, h.revision, h.rungs.shorten (List.rdropWhile_prefix _ _)⟩

end Whaleshares.ChainLadder
