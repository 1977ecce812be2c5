import Whaleshares.Program

/-!
# Simulations between programs

A program simulates another one when it returns, on related states, whatever the other one
returns, and the states after are related again. A program that simulates itself is blind to
the difference between related states. The rules go along the program.
-/

namespace Whaleshares.Program

variable {σ ε α β γ : Type} {R : σ → σ → Prop}

section Simulation

/-- What `m` returns on a state `m'` returns on a related one, and the states after are
related. -/
structure Simulates (R : σ → σ → Prop) (m m' : StateT σ (Except ε) α) : Prop where
  /-- The run of the second program. -/
  sim : ∀ s s' a t, R s s' → Returns m s a t → ∃ t', Returns m' s' a t' ∧ R t t'

/-- A value simulates itself. -/
theorem Simulates.pure (a : α) :
    Simulates R (Pure.pure a : StateT σ (Except ε) α) (Pure.pure a) := by
  constructor
  intro s s' b t hR h
  obtain ⟨rfl, rfl⟩ := h.pure
  exact ⟨s', rfl, hR⟩

/-- A lifted result simulates what returns the same. -/
theorem Simulates.lift {m m' : Except ε α} (h : ∀ a, m = .ok a → m' = .ok a) :
    Simulates R (Program.lift m) (Program.lift m') := by
  constructor
  intro s s' a t hR hrun
  obtain ⟨hm, rfl⟩ := hrun.lift
  refine ⟨s', ?_, hR⟩
  rw [h a hm]
  rfl

/-- A bind of simulating parts simulates. -/
theorem Simulates.bind {m m' : StateT σ (Except ε) α} {k k' : α → StateT σ (Except ε) β}
    (hm : Simulates R m m') (hk : ∀ a, Simulates R (k a) (k' a)) :
    Simulates R (m >>= k) (m' >>= k') := by
  constructor
  intro s s' b u hR h
  obtain ⟨a, t, ht, hu⟩ := h.bind
  obtain ⟨t', ht', hR'⟩ := hm.sim s s' a t hR ht
  obtain ⟨u', hu', hR''⟩ := (hk a).sim t t' b u hR' hu
  exact ⟨u', ht'.intro_bind hu', hR''⟩

/-- A loop of simulating parts simulates. -/
theorem Simulates.forEach {f f' : α → StateT σ (Except ε) Unit}
    (hf : ∀ x, Simulates R (f x) (f' x)) (l : List α) :
    Simulates R (Program.forEach f l) (Program.forEach f' l) := by
  induction l with
  | nil => exact .pure ()
  | cons x rest ih => exact .bind (hf x) fun _ => ih

/-- With equality as the relation every program simulates itself. -/
theorem Simulates.refl (m : StateT σ (Except ε) α) : Simulates Eq m m :=
  ⟨fun _ _ _ t hR h => ⟨t, hR ▸ h, rfl⟩⟩

/-- A program that returns what the simulating one returns simulates, too. -/
theorem Simulates.loosen {m m' m'' : StateT σ (Except ε) α} (h : Simulates R m m')
    (h' : Simulates Eq m' m'') : Simulates R m m'' := by
  constructor
  intro s s' a t hR hrun
  obtain ⟨t', ht', hR'⟩ := h.sim s s' a t hR hrun
  obtain ⟨t'', ht'', rfl⟩ := h'.sim s' s' a t' rfl ht'
  exact ⟨t', ht'', hR'⟩

end Simulation

section Blindness

/-- The program returns the same on related states, and the states after are related. -/
def Blind (R : σ → σ → Prop) (m : StateT σ (Except ε) α) : Prop := Simulates R m m

/-- A value is blind. -/
theorem Blind.pure (a : α) : Blind R (Pure.pure a : StateT σ (Except ε) α) :=
  Simulates.pure a

/-- A lifted result is blind. -/
theorem Blind.lift (m : Except ε α) : Blind R (Program.lift m) :=
  Simulates.lift fun _ h => h

/-- A bind of blind parts is blind. -/
theorem Blind.bind {m : StateT σ (Except ε) α} {k : α → StateT σ (Except ε) β}
    (hm : Blind R m) (hk : ∀ a, Blind R (k a)) : Blind R (m >>= k) :=
  Simulates.bind hm hk

/-- A loop of blind parts is blind. -/
theorem Blind.forEach {f : α → StateT σ (Except ε) Unit} (hf : ∀ x, Blind R (f x))
    (l : List α) : Blind R (Program.forEach f l) :=
  Simulates.forEach hf l

/-- What follows a look at the state need not depend on all that was seen. -/
theorem Blind.gets_bind {f : σ → α} {k : α → StateT σ (Except ε) β}
    (hf : ∀ s s', R s s' → k (f s') = k (f s)) (hk : ∀ a, Blind R (k a)) :
    Blind R (Program.gets f >>= k) := by
  constructor
  intro s s' b t hR h
  obtain ⟨t', ht', hR'⟩ := (hk (f s)).sim s s' b t hR h.gets_bind
  rw [← hf s s' hR] at ht'
  exact ⟨t', Returns.intro_bind rfl ht', hR'⟩

/-- A reading that gives the same on related states is blind. -/
theorem Blind.gets {f : σ → α} (hf : ∀ s s', R s s' → f s' = f s) :
    Blind R (Program.gets (ε := ε) f) := by
  constructor
  intro s s' a t hR h
  obtain ⟨rfl, rfl⟩ := h.gets
  refine ⟨s', ?_, hR⟩
  rw [← hf t s' hR]
  rfl

/-- A change that leads to related states is blind. -/
theorem Blind.update {f : σ → Except ε σ}
    (hf : ∀ s s' t, R s s' → f s = .ok t → ∃ t', f s' = .ok t' ∧ R t t') :
    Blind R (Program.update f) := by
  constructor
  intro s s' a t hR h
  obtain ⟨t', ht', hR'⟩ := hf s s' t hR h.update
  exact ⟨t', Returns.intro_update ht', hR'⟩

/-- A replacement of a component that the relation does not look at. -/
theorem Blind.replace {get : σ → Except ε γ} {put : σ → γ → σ}
    (hget : ∀ s s', R s s' → get s' = get s) (hput : ∀ s s' x, R s s' → R (put s x) (put s' x)) :
    Blind R (Program.update fun s => (get s).map (put s)) := by
  refine .update fun s s' t hR h => ?_
  cases hx : get s with
  | error e =>
    rw [hx] at h
    cases h
  | ok x =>
    rw [hx] at h
    refine ⟨put s' x, ?_, ?_⟩
    · rw [hget s s' hR, hx]
      rfl
    · rw [← Except.ok.inj h]
      exact hput s s' x hR

/-- A choice of blind parts is blind. -/
theorem Blind.ite {c : Prop} [Decidable c] {m k : StateT σ (Except ε) α}
    (hm : Blind R m) (hk : Blind R k) : Blind R (if c then m else k) := by
  by_cases hc : c
  · rwa [if_pos hc]
  · rwa [if_neg hc]

/-- A blind part under a condition is blind. -/
theorem Blind.whenever {c : Prop} [Decidable c] {m : StateT σ (Except ε) Unit}
    (hm : Blind R m) : Blind R (Program.whenever c m) :=
  .ite hm (.pure ())

end Blindness

end Whaleshares.Program
