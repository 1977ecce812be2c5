import Mathlib
import Whaleshares.Process

/-!
# Processes that keep a record

A traced process keeps, beside its state, a list of what its steps record. Erasing the list
gives back the process. Where the steps record the states that they end in, a relation that
every step keeps holds between any two of the recorded states, the earlier one on the left.
-/

namespace Whaleshares.Process

variable {σ τ ε α β : Type}

/-- A process with the list of what it has recorded. -/
abbrev Traced (σ τ ε α : Type) := Process (σ × List τ) ε α

/-- A process that records nothing. -/
def silent (m : Process σ ε α) : Traced σ τ ε α := fun s => ((m s.1).1, (m s.1).2, s.2)

/-- A process that records something of the state before, the outcome and the state after. -/
def recorded (f : σ → Except ε α → σ → List τ) (m : Process σ ε α) : Traced σ τ ε α := fun s =>
  ((m s.1).1, (m s.1).2, s.2 ++ f s.1 (m s.1).1 (m s.1).2)

section Erasure

/-- Without its list the traced process `p` is the process `m`. -/
structure Erases (p : Traced σ τ ε α) (m : Process σ ε α) : Prop where
  outcome : ∀ s, (p s).1 = (m s.1).1
  state : ∀ s, (p s).2.1 = (m s.1).2

/-- A process that records nothing erases to itself. -/
theorem Erases.silent (m : Process σ ε α) : Erases (τ := τ) (Process.silent m) m :=
  ⟨fun _ => rfl, fun _ => rfl⟩

/-- A recorded process erases to the process. -/
theorem Erases.recorded (f : σ → Except ε α → σ → List τ) (m : Process σ ε α) :
    Erases (Process.recorded f m) m :=
  ⟨fun _ => rfl, fun _ => rfl⟩

/-- A value erases to itself. -/
theorem Erases.done (a : α) : Erases (Process.done a : Traced σ τ ε α) (Process.done a) :=
  ⟨fun _ => rfl, fun _ => rfl⟩

/-- A result erases to itself. -/
theorem Erases.ofExcept (r : Except ε α) :
    Erases (Process.ofExcept r : Traced σ τ ε α) (Process.ofExcept r) :=
  ⟨fun _ => rfl, fun _ => rfl⟩

/-- The parts of a bind are erased one by one. -/
theorem Erases.bind {p : Traced σ τ ε α} {m : Process σ ε α} {q : α → Traced σ τ ε β}
    {k : α → Process σ ε β} (hp : Erases p m) (hq : ∀ a, Erases (q a) (k a)) :
    Erases (p >>= q) (m >>= k) := by
  have hboth : ∀ s, ((p >>= q) s).1 = ((m >>= k) s.1).1 ∧ ((p >>= q) s).2.1 = ((m >>= k) s.1).2 := by
    intro s
    have houtcome := hp.outcome s
    have hstate := hp.state s
    rw [bind_apply, bind_apply]
    cases hps : p s with
    | mk r t =>
      cases hms : m s.1 with
      | mk r' t' =>
        rw [hps, hms] at houtcome hstate
        have houtcome : r = r' := houtcome
        have hstate : t.1 = t' := hstate
        rw [← houtcome, ← hstate]
        cases r with
        | ok a => exact ⟨(hq a).outcome t, (hq a).state t⟩
        | error e => exact ⟨rfl, rfl⟩
  exact ⟨fun s => (hboth s).1, fun s => (hboth s).2⟩

/-- An attempt is erased inside. -/
theorem Erases.attempt {p : Traced σ τ ε α} {m : Process σ ε α} (h : Erases p m) :
    Erases p.attempt m.attempt :=
  ⟨fun s => congrArg Except.ok (h.outcome s), h.state⟩

/-- The branches of a choice are erased one by one. -/
theorem Erases.ite {c : Prop} [Decidable c] {p q : Traced σ τ ε α} {m k : Process σ ε α}
    (hp : Erases p m) (hq : Erases q k) : Erases (if c then p else q) (if c then m else k) := by
  by_cases hc : c
  · rwa [if_pos hc, if_pos hc]
  · rwa [if_neg hc, if_neg hc]

/-- The rounds of a loop are erased one by one. -/
theorem Erases.each {f : α → Traced σ τ ε Unit} {g : α → Process σ ε Unit}
    (h : ∀ x, Erases (f x) (g x)) (l : List α) : Erases (each f l) (each g l) := by
  induction l with
  | nil => exact Erases.done ()
  | cons x rest ih => exact Erases.bind (h x) fun _ => ih

end Erasure

section Relations

/-- The states recorded between `s` and `t`, and these two, are related in their order. -/
def Shows (R : σ → σ → Prop) (s t : σ × List σ) : Prop :=
  ∃ new, t.2 = s.2 ++ new ∧ (s.1 :: (new ++ [t.1])).Pairwise R

variable {R : σ → σ → Prop}

instance [IsPreorder σ R] : IsPreorder (σ × List σ) (Shows R) where
  refl s := ⟨[], by simp, by simpa using Std.Refl.refl s.1⟩
  trans s t u hst htu := by
    obtain ⟨new, hnew, hpairs⟩ := hst
    obtain ⟨new', hnew', hpairs'⟩ := htu
    refine ⟨new ++ new', by rw [hnew', hnew, List.append_assoc], ?_⟩
    have hchain : ((s.1 :: new) ++ t.1 :: (new' ++ [u.1])).IsChain R :=
      List.isChain_split.mpr ⟨List.isChain_iff_pairwise.mpr hpairs,
        List.isChain_iff_pairwise.mpr hpairs'⟩
    have hall := List.isChain_iff_pairwise.mp hchain
    refine hall.sublist ?_
    rw [List.append_assoc, List.cons_append]
    exact List.Sublist.cons_cons _
      (List.Sublist.append_left (List.sublist_cons_self _ _) _)

/-- A recorded process shows its end state, which is related to the start. -/
theorem Always.recorded [Std.Refl R] {m : Process σ ε α} (h : Always R m) :
    Always (Shows R) (recorded (fun _ _ t => [t]) m) := by
  constructor
  intro s
  refine ⟨[(m s.1).2], rfl, ?_⟩
  have hlast : R (m s.1).2 (m s.1).2 := Std.Refl.refl _
  have hfirst := h.rel s.1
  simp [Process.recorded, hlast, hfirst]

end Relations

end Whaleshares.Process
