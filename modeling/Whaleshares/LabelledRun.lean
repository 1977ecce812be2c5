import Mathlib

/-!
# Runs of labelled steps

A run of a system is listed moment by moment: what happened, in which state, and in which
state it left the system. The steps that are possible are a parameter. The results take runs
apart and carry properties and relations from steps to runs.
-/

namespace Whaleshares.LabelledRun

variable {σ ι : Type}

/-- A step of a run. -/
structure Moment (σ ι : Type) where
  /-- The state before the step. -/
  before : σ
  /-- What happened. -/
  event : ι
  /-- The state after the step. -/
  after : σ

variable {step : ι → σ → σ → Prop} {s t u : σ} {run run' : List (Moment σ ι)}
  {m : Moment σ ι}

/-- The moments lead from one state to another, each by a possible step. -/
def Path (step : ι → σ → σ → Prop) : σ → List (Moment σ ι) → σ → Prop
  | s, [], t => t = s
  | s, m :: rest, t => m.before = s ∧ step m.event m.before m.after ∧ Path step m.after rest t

/-- A possible step is a run of one moment. -/
theorem Path.single {i : ι} (h : step i s t) : Path step s [⟨s, i, t⟩] t := ⟨rfl, h, rfl⟩

/-- A run of two parts is a run to some state and a run from there. -/
theorem path_append : Path step s (run ++ run') t ↔ ∃ u, Path step s run u ∧ Path step u run' t := by
  induction run generalizing s with
  | nil =>
    constructor
    · intro h
      exact ⟨s, rfl, h⟩
    · rintro ⟨u, rfl, h⟩
      exact h
  | cons m rest ih =>
    constructor
    · rintro ⟨hbefore, hm, hrest⟩
      obtain ⟨u, hu, ht⟩ := ih.mp hrest
      exact ⟨u, ⟨hbefore, hm, hu⟩, ht⟩
    · rintro ⟨u, ⟨hbefore, hm, hu⟩, ht⟩
      exact ⟨hbefore, hm, ih.mpr ⟨u, hu, ht⟩⟩

/-- Runs follow on each other. -/
theorem Path.append (h : Path step s run u) (h' : Path step u run' t) :
    Path step s (run ++ run') t :=
  path_append.mpr ⟨u, h, h'⟩

/-- A moment of a run is a step, at the end of the part of the run before it. -/
theorem Path.moment (h : Path step s run t) (hm : m ∈ run) :
    ∃ earlier later, run = earlier ++ m :: later ∧ Path step s earlier m.before ∧
      step m.event m.before m.after ∧ Path step m.after later t := by
  obtain ⟨earlier, later, rfl⟩ := List.append_of_mem hm
  obtain ⟨u, hearlier, hbefore, hstep, hlater⟩ := path_append.mp h
  rw [← hbefore] at hearlier
  exact ⟨earlier, later, rfl, hearlier, hstep, hlater⟩

/-- A property that every step of a run keeps holds at its end. -/
theorem Path.invariant {P : σ → Prop} (h : Path step s run t) (hs : P s)
    (hstep : ∀ m ∈ run, step m.event m.before m.after → P m.before → P m.after) : P t := by
  induction run generalizing s with
  | nil =>
    rw [show t = s from h]
    exact hs
  | cons m rest ih =>
    obtain ⟨hbefore, hm, hrest⟩ := h
    rw [← hbefore] at hs
    have hafter := hstep m List.mem_cons_self hm hs
    exact ih hrest hafter fun m' hm' => hstep m' (List.mem_cons_of_mem _ hm')

/-- The same step with another label. -/
def Moment.relabel {κ : Type} (f : ι → κ) (m : Moment σ ι) : Moment σ κ := ⟨m.before, f m.event, m.after⟩

/-- A run whose steps are possible under other labels. -/
theorem Path.relabel {κ : Type} {step' : κ → σ → σ → Prop} (f : ι → κ) (h : Path step s run t)
    (hstep : ∀ m ∈ run, step m.event m.before m.after → step' (f m.event) m.before m.after) :
    Path step' s (run.map (Moment.relabel f)) t := by
  induction run generalizing s with
  | nil => exact h
  | cons m rest ih =>
    obtain ⟨hbefore, hm, hrest⟩ := h
    exact ⟨hbefore, hstep m List.mem_cons_self hm,
      ih hrest fun m' hm' => hstep m' (List.mem_cons_of_mem _ hm')⟩

end Whaleshares.LabelledRun
