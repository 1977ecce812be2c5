import Mathlib

/-!
# Programs with a state that can fail

A program reads and writes a state and ends in a value or an error. The results
here take a successful run apart, one rule for each way of building a program, and
carry a reflexive and transitive relation from the steps of a program to its runs.
Errors lose the state: these are programs whose callers roll back.
-/

namespace Whaleshares.Program

variable {σ ε α β : Type}

/-- The run of `m` from `s` ends with the value `a` in the state `t`. -/
def Returns (m : StateT σ (Except ε) α) (s : σ) (a : α) (t : σ) : Prop := m s = .ok (a, t)

/-- A computation that does not look at the state. -/
def lift (m : Except ε α) : StateT σ (Except ε) α := fun s =>
  match m with
  | .ok a => .ok (a, s)
  | .error e => .error e

/-- A value read from the state. -/
def gets (f : σ → α) : StateT σ (Except ε) α := fun s => .ok (f s, s)

/-- A change of the state that can fail. -/
def update (f : σ → Except ε σ) : StateT σ (Except ε) Unit := fun s =>
  match f s with
  | .ok t => .ok ((), t)
  | .error e => .error e

/-- A program that runs only under a condition. -/
def whenever (c : Prop) [Decidable c] (m : StateT σ (Except ε) Unit) : StateT σ (Except ε) Unit :=
  if c then m else pure ()

/-- A program for every element of a list, in order. -/
def forEach (f : α → StateT σ (Except ε) Unit) : List α → StateT σ (Except ε) Unit
  | [] => pure ()
  | x :: rest => do
    f x
    forEach f rest

section Inversion

variable {m : StateT σ (Except ε) α} {k : α → StateT σ (Except ε) β} {s t : σ} {a : α} {b : β}

/-- A bind that returns comes from two parts that return. -/
theorem Returns.bind (h : Returns (m >>= k) s b t) :
    ∃ a u, Returns m s a u ∧ Returns (k a) u b t := by
  have hrun : (m s >>= fun p => k p.1 p.2) = .ok (b, t) := h
  cases hm : m s with
  | error e =>
    rw [hm] at hrun
    cases hrun
  | ok p =>
    rw [hm] at hrun
    exact ⟨p.1, p.2, hm, hrun⟩

/-- Two parts that return make a bind that returns. -/
theorem Returns.intro_bind {u : σ} (hm : Returns m s a u) (hk : Returns (k a) u b t) :
    Returns (m >>= k) s b t := by
  have hrun : (m >>= k) s = (m s >>= fun p => k p.1 p.2) := rfl
  unfold Returns at hm hk ⊢
  rw [hrun, hm]
  exact hk

/-- A program returns in at most one way. -/
theorem Returns.state_unique {u : σ} {a' : α} (h : Returns m s a t) (h' : Returns m s a' u) :
    t = u := by
  have hpair : (a, t) = (a', u) := Except.ok.inj (h.symm.trans h')
  exact congrArg Prod.snd hpair

/-- A value returns itself and leaves the state. -/
theorem Returns.pure {a b : α} (h : Returns (Pure.pure b : StateT σ (Except ε) α) s a t) :
    a = b ∧ t = s := by
  have hrun : (Except.ok (b, s) : Except ε (α × σ)) = .ok (a, t) := h
  have hpair : (b, s) = (a, t) := Except.ok.inj hrun
  exact ⟨congrArg Prod.fst hpair.symm, congrArg Prod.snd hpair.symm⟩

/-- A lifted result that returns is there, and the state is left. -/
theorem Returns.lift {m : Except ε α} (h : Returns (Program.lift m) s a t) :
    m = .ok a ∧ t = s := by
  unfold Returns Program.lift at h
  cases m with
  | error e => cases h
  | ok v =>
    have hpair : (v, s) = (a, t) := Except.ok.inj h
    cases hpair
    exact ⟨rfl, rfl⟩

/-- A part of the state is returned, and the state is left. -/
theorem Returns.gets {f : σ → α} (h : Returns (Program.gets (ε := ε) f) s a t) :
    a = f s ∧ t = s := by
  have hpair : (f s, s) = (a, t) := Except.ok.inj h
  exact ⟨congrArg Prod.fst hpair.symm, congrArg Prod.snd hpair.symm⟩

/-- A bind after a lifted result goes on with the result in the same state. -/
theorem Returns.lift_bind {m : Except ε α} (h : Returns (Program.lift m >>= k) s b t) :
    ∃ a, m = .ok a ∧ Returns (k a) s b t := by
  obtain ⟨a, u, hm, hk⟩ := h.bind
  obtain ⟨ha, hu⟩ := hm.lift
  exact ⟨a, ha, hu ▸ hk⟩

/-- A bind after a reading goes on with what was read. -/
theorem Returns.gets_bind {f : σ → α} (h : Returns (Program.gets f >>= k) s b t) :
    Returns (k (f s)) s b t := by
  obtain ⟨a, u, hm, hk⟩ := h.bind
  obtain ⟨ha, hu⟩ := hm.gets
  rwa [ha, hu] at hk

/-- An update that returns ends in the state that its function gives. -/
theorem Returns.update {f : σ → Except ε σ} {u : Unit}
    (h : Returns (Program.update f) s u t) : f s = .ok t := by
  unfold Returns Program.update at h
  cases hf : f s with
  | error e =>
    rw [hf] at h
    cases h
  | ok v =>
    rw [hf] at h
    have hpair : ((), v) = (u, t) := Except.ok.inj h
    exact congrArg Except.ok (congrArg Prod.snd hpair)

/-- A state that the function gives is one that the update returns in. -/
theorem Returns.intro_update {f : σ → Except ε σ} (h : f s = .ok t) :
    Returns (Program.update f) s () t := by
  unfold Returns Program.update
  rw [h]

/-- A result that is there is returned. -/
theorem Returns.intro_lift {m : Except ε α} (h : m = .ok a) : Returns (Program.lift m) s a s := by
  rw [h]
  rfl

/-- A conditional part that returns has run, or its condition failed and the state is left. -/
theorem Returns.whenever {c : Prop} [Decidable c] {m : StateT σ (Except ε) Unit} {u : Unit}
    (h : Returns (Program.whenever c m) s u t) : (c ∧ Returns m s u t) ∨ (¬c ∧ t = s) := by
  unfold Program.whenever at h
  by_cases hc : c
  · rw [if_pos hc] at h
    exact .inl ⟨hc, h⟩
  · rw [if_neg hc] at h
    exact .inr ⟨hc, (Returns.pure h).2⟩

/-- A property that every element of a list keeps is kept by the whole loop. -/
theorem Returns.forEach {P : σ → Prop} {f : α → StateT σ (Except ε) Unit} {l : List α} {u : Unit}
    (h : Returns (Program.forEach f l) s u t) (hs : P s)
    (hstep : ∀ x ∈ l, ∀ v w, P v → Returns (f x) v () w → P w) : P t := by
  induction l generalizing s with
  | nil =>
    rw [(Returns.pure h).2]
    exact hs
  | cons x rest ih =>
    obtain ⟨_, v, hx, hrest⟩ := h.bind
    have hv := hstep x List.mem_cons_self s v hs hx
    exact ih hrest hv fun y hy => hstep y (List.mem_cons_of_mem _ hy)

/-- A loop over two lists that returns has returned between them. -/
theorem Returns.forEach_append {f : α → StateT σ (Except ε) Unit} {l l' : List α} {r : Unit}
    (h : Returns (Program.forEach f (l ++ l')) s r t) :
    ∃ u, Returns (Program.forEach f l) s () u ∧ Returns (Program.forEach f l') u () t := by
  induction l generalizing s with
  | nil => exact ⟨s, rfl, h⟩
  | cons x rest ih =>
    obtain ⟨_, v, hx, hrest⟩ := Returns.bind h
    obtain ⟨u, hu, ht⟩ := ih hrest
    exact ⟨u, Returns.intro_bind hx hu, ht⟩

/-- Two loops that return make a loop over both lists that returns. -/
theorem Returns.intro_forEach_append {f : α → StateT σ (Except ε) Unit} {l l' : List α} {u : σ}
    (hl : Returns (Program.forEach f l) s () u) (hl' : Returns (Program.forEach f l') u () t) :
    Returns (Program.forEach f (l ++ l')) s () t := by
  induction l generalizing s with
  | nil =>
    obtain ⟨-, rfl⟩ := hl.pure
    exact hl'
  | cons x rest ih =>
    obtain ⟨_, v, hx, hrest⟩ := Returns.bind hl
    exact Returns.intro_bind hx (ih hrest)

/-- A loop whose steps return without a change returns without a change. -/
theorem Returns.intro_forEach_same {f : α → StateT σ (Except ε) Unit} {l : List α}
    (h : ∀ x ∈ l, Returns (f x) s () s) : Returns (Program.forEach f l) s () s := by
  induction l with
  | nil => rfl
  | cons x rest ih =>
    have hfirst := h x List.mem_cons_self
    exact hfirst.intro_bind (ih fun y hy => h y (List.mem_cons_of_mem _ hy))

/-- A loop that is followed element by element: after each element the state is known from the
elements that are done. -/
theorem Returns.intro_forEach {f : α → StateT σ (Except ε) Unit} {l : List α}
    (state : List α → σ) (h : ∀ earlier x later, l = earlier ++ x :: later →
      Returns (f x) (state earlier) () (state (earlier ++ [x]))) :
    Returns (Program.forEach f l) (state []) () (state l) := by
  have hrest : ∀ later earlier, l = earlier ++ later →
      Returns (Program.forEach f later) (state earlier) () (state l) := by
    intro later
    induction later with
    | nil =>
      intro earlier hl
      rw [hl, List.append_nil]
      rfl
    | cons x later ih =>
      intro earlier hl
      have hfirst := h earlier x later hl
      exact hfirst.intro_bind (ih _ (by rw [hl, List.append_assoc]; rfl))
  exact hrest l [] rfl

end Inversion

/-- A mapped result that is there is the image of one. -/
theorem map_eq_ok {f : α → β} {m : Except ε α} {b : β} (h : m.map f = .ok b) :
    ∃ a, m = .ok a ∧ b = f a := by
  cases m with
  | error e => cases h
  | ok a => exact ⟨a, rfl, (Except.ok.inj h).symm⟩

/-- A bind of results that is there has both parts. -/
theorem bind_eq_ok {f : α → Except ε β} {m : Except ε α} {b : β} (h : m >>= f = .ok b) :
    ∃ a, m = .ok a ∧ f a = .ok b := by
  cases m with
  | error e => cases h
  | ok a => exact ⟨a, rfl, h⟩

/-- A loop of checks that passes has passed each of them. -/
theorem forM_eq_ok {f : α → Except ε Unit} {l : List α} {u : Unit} (h : l.forM f = .ok u) :
    ∀ x ∈ l, f x = .ok () := by
  induction l with
  | nil => simp
  | cons first rest ih =>
    obtain ⟨_, hfirst, hrest⟩ := bind_eq_ok (f := fun _ => rest.forM f) h
    intro x hx
    rcases List.mem_cons.mp hx with hx | hx
    · rw [hx]
      exact hfirst
    · exact ih hrest x hx

/-- Whether a run ends with a value and a state that satisfy a condition. -/
def endsIn (m : StateT σ (Except ε) α) (s : σ) (p : α → σ → Bool) : Bool :=
  match m s with
  | .ok (a, t) => p a t
  | .error _ => false

/-- A run whose end is tested to be there returns, and its end passes the test. -/
theorem returns_of_endsIn {m : StateT σ (Except ε) α} {s : σ} {p : α → σ → Bool}
    (h : endsIn m s p = true) : ∃ a t, Returns m s a t ∧ p a t = true := by
  unfold endsIn at h
  cases hm : m s with
  | error e =>
    rw [hm] at h
    cases h
  | ok pair =>
    rw [hm] at h
    exact ⟨pair.1, pair.2, hm, h⟩

section Relations

/-- The relation of a property that is kept. -/
def Preserves (P : σ → Prop) (s t : σ) : Prop := P s → P t

instance (P : σ → Prop) : IsPreorder σ (Preserves P) where
  refl _ h := h
  trans _ _ _ hst htu h := htu (hst h)

/-- Every successful run of `m` relates the state before to the state after. -/
structure Keeps (R : σ → σ → Prop) (m : StateT σ (Except ε) α) : Prop where
  /-- The relation across a run. -/
  rel : ∀ s a t, Returns m s a t → R s t

variable {R : σ → σ → Prop}

/-- Two parts that keep a transitive relation keep it together. -/
theorem Keeps.bind [IsTrans σ R] {m : StateT σ (Except ε) α} {k : α → StateT σ (Except ε) β}
    (hm : Keeps R m) (hk : ∀ a, Keeps R (k a)) : Keeps R (m >>= k) := by
  constructor
  intro s b t h
  obtain ⟨a, u, hs, ht⟩ := h.bind
  exact Trans.trans (hm.rel s a u hs) ((hk a).rel u b t ht)

/-- A value keeps every reflexive relation. -/
theorem Keeps.pure [Std.Refl R] (a : α) : Keeps R (Pure.pure a : StateT σ (Except ε) α) := by
  constructor
  intro s b t h
  rw [(Returns.pure h).2]
  exact Std.Refl.refl s

/-- A lifted result keeps every reflexive relation. -/
theorem Keeps.lift [Std.Refl R] (m : Except ε α) : Keeps R (Program.lift m) := by
  constructor
  intro s b t h
  rw [(Returns.lift h).2]
  exact Std.Refl.refl s

/-- Reading keeps every reflexive relation. -/
theorem Keeps.gets [Std.Refl R] (f : σ → α) : Keeps R (Program.gets (ε := ε) f) := by
  constructor
  intro s b t h
  rw [(Returns.gets h).2]
  exact Std.Refl.refl s

/-- An update keeps a relation that its function keeps. -/
theorem Keeps.update {f : σ → Except ε σ} (hf : ∀ s t, f s = .ok t → R s t) :
    Keeps R (Program.update f) :=
  ⟨fun s _ t h => hf s t h.update⟩

/-- A choice keeps what both branches keep. -/
theorem Keeps.ite {c : Prop} [Decidable c] {m k : StateT σ (Except ε) α}
    (hm : Keeps R m) (hk : Keeps R k) : Keeps R (if c then m else k) := by
  by_cases hc : c
  · rwa [if_pos hc]
  · rwa [if_neg hc]

/-- A conditional part keeps what the part keeps. -/
theorem Keeps.whenever [Std.Refl R] {c : Prop} [Decidable c] {m : StateT σ (Except ε) Unit}
    (hm : Keeps R m) : Keeps R (Program.whenever c m) :=
  Keeps.ite hm (Keeps.pure ())

/-- A loop keeps what its rounds keep for the elements of its list. -/
theorem Keeps.forEach_mem [IsPreorder σ R] {f : α → StateT σ (Except ε) Unit} {l : List α}
    (hf : ∀ x ∈ l, Keeps R (f x)) : Keeps R (Program.forEach f l) := by
  induction l with
  | nil => exact Keeps.pure ()
  | cons x rest ih =>
    exact Keeps.bind (hf x List.mem_cons_self) fun _ =>
      ih fun y hy => hf y (List.mem_cons_of_mem _ hy)

/-- A loop keeps what each of its rounds keeps. -/
theorem Keeps.forEach [IsPreorder σ R] {f : α → StateT σ (Except ε) Unit} (hf : ∀ x, Keeps R (f x))
    (l : List α) : Keeps R (Program.forEach f l) :=
  Keeps.forEach_mem fun x _ => hf x

end Relations

end Whaleshares.Program
