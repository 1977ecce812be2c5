import Mathlib

/-!
# Programs whose errors keep the state

A process ends in a value or an error, and in a state either way: what it did before an
error is not rolled back. The rules here run a process step by step, and carry a
reflexive and transitive relation from the steps of a process to its runs: to those that end
in a value (`Sustains`), or to all of them (`Always`).
-/

namespace Whaleshares

/-- A program on the states `σ`. -/
def Process (σ ε α : Type) := σ → Except ε α × σ

namespace Process

variable {σ ε α β : Type}

/-- The process that does nothing. -/
def done (a : α) : Process σ ε α := fun s => (.ok a, s)

/-- One process after another. -/
def andThen (m : Process σ ε α) (k : α → Process σ ε β) : Process σ ε β := fun s =>
  match m s with
  | (.ok a, t) => k a t
  | (.error e, t) => (.error e, t)

instance : Monad (Process σ ε) where
  pure := done
  bind := andThen

/-- A value read from the state. -/
def read (f : σ → α) : Process σ ε α := fun s => (.ok (f s), s)

/-- A change of the state. -/
def change (f : σ → σ) : Process σ ε Unit := fun s => (.ok (), f s)

/-- A computation that does not look at the state. -/
def ofExcept (r : Except ε α) : Process σ ε α := fun s => (r, s)

/-- The outcome of a process, as a value. -/
def attempt (m : Process σ ε α) : Process σ ε (Except ε α) := fun s => (.ok (m s).1, (m s).2)

/-- A process for every element of a list, in order. -/
def each (f : α → Process σ ε Unit) : List α → Process σ ε Unit
  | [] => done ()
  | x :: rest => do
    f x
    each f rest

section Runs

variable {m : Process σ ε α} {k : α → Process σ ε β} {s t u : σ} {a : α} {b : β} {e : ε}

/-- A bind runs the second part from the state of the first, or passes its error on. -/
theorem bind_apply (m : Process σ ε α) (k : α → Process σ ε β) (s : σ) :
    (m >>= k) s = match m s with
      | (.ok a, t) => k a t
      | (.error e, t) => (.error e, t) := rfl

/-- After a first part that returns, a bind is the second part. -/
theorem bind_of_ok (h : m s = (.ok a, t)) : (m >>= k) s = k a t := by
  rw [bind_apply, h]

/-- After a first part that throws, a bind throws the same. -/
theorem bind_of_error (h : m s = (.error e, t)) : (m >>= k) s = (.error e, t) := by
  rw [bind_apply, h]

/-- Reading passes a part of the state on. -/
theorem read_bind (f : σ → α) (k : α → Process σ ε β) (s : σ) : (read f >>= k) s = k (f s) s := rfl

/-- A change passes the changed state on. -/
theorem change_bind (f : σ → σ) (k : Unit → Process σ ε β) (s : σ) :
    (change f >>= k) s = k () (f s) := rfl

/-- A result that is there is passed on in the same state. -/
theorem ofExcept_bind (a : α) (k : α → Process σ ε β) (s : σ) :
    (ofExcept (.ok a) >>= k) s = k a s := rfl

/-- A bind that returns comes from two parts that return. -/
theorem ok_of_bind (h : (m >>= k) s = (.ok b, u)) :
    ∃ a t, m s = (.ok a, t) ∧ k a t = (.ok b, u) := by
  rw [bind_apply] at h
  cases hm : m s with
  | mk r t =>
    rw [hm] at h
    cases r with
    | ok a => exact ⟨a, t, rfl, h⟩
    | error e => cases h

/-- A bind that throws comes from the first part or from the second. -/
theorem error_of_bind (h : (m >>= k) s = (.error e, u)) :
    m s = (.error e, u) ∨ ∃ a t, m s = (.ok a, t) ∧ k a t = (.error e, u) := by
  rw [bind_apply] at h
  cases hm : m s with
  | mk r t =>
    rw [hm] at h
    cases r with
    | ok a => exact .inr ⟨a, t, rfl, h⟩
    | error e' =>
      have hpair : (Except.error e', t) = ((.error e : Except ε β), u) := h
      have he : e' = e := Except.error.inj (congrArg Prod.fst hpair)
      have ht : t = u := congrArg Prod.snd hpair
      exact .inl (by rw [he, ht])

/-- An attempt turns the outcome into a value. -/
theorem attempt_of {r : Except ε α} (h : m s = (r, t)) : attempt m s = (.ok r, t) := by
  unfold attempt
  rw [h]

/-- The value of an attempt is the outcome. -/
theorem attempt_ok {r : Except ε α} (h : attempt m s = (.ok r, t)) : m s = (r, t) := by
  have hr : (m s).1 = r := Except.ok.inj (congrArg Prod.fst h)
  have ht : (m s).2 = t := congrArg Prod.snd h
  rw [← hr, ← ht]

/-- A process without a value that does not throw returns its end state. -/
theorem ok_of_isOk {m : Process σ ε Unit} (h : (m s).1.isOk = true) : m s = (.ok (), (m s).2) := by
  cases hm : m s with
  | mk r t =>
    rw [hm] at h
    cases r with
    | ok u => rfl
    | error e => cases h

/-- A process that does not return throws. -/
theorem error_of_isOk (h : (m s).1.isOk = false) : ∃ e t, m s = (.error e, t) := by
  cases hm : m s with
  | mk r t =>
    rw [hm] at h
    cases r with
    | ok a => cases h
    | error e => exact ⟨e, t, rfl⟩

/-- A loop over two lists that returns has returned between them. -/
theorem ok_of_each_append {f : α → Process σ ε Unit} {l l' : List α} {v : Unit}
    (h : each f (l ++ l') s = (.ok v, u)) :
    ∃ t, each f l s = (.ok (), t) ∧ each f l' t = (.ok (), u) := by
  induction l generalizing s with
  | nil => exact ⟨s, rfl, h⟩
  | cons x rest ih =>
    obtain ⟨w, r, hx, hrest⟩ := ok_of_bind h
    obtain ⟨t, ht, hu⟩ := ih hrest
    exact ⟨t, (bind_of_ok hx).trans ht, hu⟩

/-- A loop over processes that never throw does not throw. -/
theorem each_returns {f : α → Process σ ε Unit} (h : ∀ x s, ∃ t, f x s = (.ok (), t)) (l : List α)
    (s : σ) : ∃ t, each f l s = (.ok (), t) := by
  induction l generalizing s with
  | nil => exact ⟨s, rfl⟩
  | cons x rest ih =>
    obtain ⟨t, ht⟩ := h x s
    obtain ⟨u, hu⟩ := ih t
    exact ⟨u, (bind_of_ok ht).trans hu⟩

/-- A loop whose rounds all return runs over two lists one after the other. -/
theorem each_append {f : α → Process σ ε Unit} (h : ∀ x s, ∃ t, f x s = (.ok (), t))
    (l l' : List α) (s : σ) : each f (l ++ l') s = each f l' (each f l s).2 := by
  induction l generalizing s with
  | nil => rfl
  | cons x rest ih =>
    obtain ⟨t, ht⟩ := h x s
    change (f x >>= fun _ => each f (rest ++ l')) s = each f l' ((f x >>= fun _ => each f rest) s).2
    rw [bind_of_ok ht, bind_of_ok ht]
    exact ih t

/-- A result that returns leaves the state. -/
theorem ok_of_ofExcept {r : Except ε α} (h : (ofExcept r : Process σ ε α) s = (.ok a, t)) :
    r = .ok a ∧ t = s :=
  ⟨congrArg Prod.fst h, (congrArg Prod.snd h).symm⟩

end Runs

section Relations

/-- Every run of `m` that ends in a value relates the state before to the state after. -/
structure Sustains (R : σ → σ → Prop) (m : Process σ ε α) : Prop where
  /-- The relation across a run. -/
  rel : ∀ s a t, m s = (.ok a, t) → R s t

variable {R : σ → σ → Prop}

/-- A value keeps every reflexive relation on return. -/
theorem Sustains.done [Std.Refl R] (a : α) : Sustains R (Process.done a : Process σ ε α) := by
  constructor
  intro s b t h
  have ht : s = t := congrArg Prod.snd h
  rw [← ht]
  exact Std.Refl.refl s

/-- Two parts that keep a transitive relation on return keep it together. -/
theorem Sustains.bind [IsTrans σ R] {m : Process σ ε α} {k : α → Process σ ε β}
    (hm : Sustains R m) (hk : ∀ a, Sustains R (k a)) : Sustains R (m >>= k) := by
  constructor
  intro s b u h
  obtain ⟨a, t, hs, ht⟩ := ok_of_bind h
  exact Trans.trans (hm.rel s a t hs) ((hk a).rel t b u ht)

/-- Reading keeps every reflexive relation on return. -/
theorem Sustains.read [Std.Refl R] (f : σ → α) : Sustains R (Process.read f : Process σ ε α) := by
  constructor
  intro s b t h
  have ht : s = t := congrArg Prod.snd h
  rw [← ht]
  exact Std.Refl.refl s

/-- A result keeps every reflexive relation on return. -/
theorem Sustains.ofExcept [Std.Refl R] (r : Except ε α) :
    Sustains R (Process.ofExcept r : Process σ ε α) := by
  constructor
  intro s b t h
  rw [(ok_of_ofExcept h).2]
  exact Std.Refl.refl s

/-- A choice keeps what both branches keep on return. -/
theorem Sustains.ite {c : Prop} [Decidable c] {m k : Process σ ε α} (hm : Sustains R m)
    (hk : Sustains R k) : Sustains R (if c then m else k) := by
  by_cases hc : c
  · rwa [if_pos hc]
  · rwa [if_neg hc]

/-- A loop keeps on return what each of its rounds keeps. -/
theorem Sustains.each [IsPreorder σ R] {f : α → Process σ ε Unit} {l : List α}
    (hf : ∀ x ∈ l, Sustains R (f x)) : Sustains R (Process.each f l) := by
  induction l with
  | nil => exact Sustains.done ()
  | cons x rest ih =>
    exact Sustains.bind (hf x List.mem_cons_self) fun _ =>
      ih fun y hy => hf y (List.mem_cons_of_mem _ hy)

end Relations

section Outcomes

/-- Every run of `m`, whatever its outcome, relates the state before to the state after. -/
structure Always (R : σ → σ → Prop) (m : Process σ ε α) : Prop where
  /-- The relation across a run. -/
  rel : ∀ s, R s (m s).2

variable {R : σ → σ → Prop}

/-- A relation that always holds across a process holds for a run with a given outcome. -/
theorem Always.of_eq {m : Process σ ε α} (h : Always R m) {s t : σ} {r : Except ε α}
    (hm : m s = (r, t)) : R s t := by
  have hrel := h.rel s
  rwa [hm] at hrel

/-- A value keeps every reflexive relation. -/
theorem Always.done [Std.Refl R] (a : α) : Always R (Process.done a : Process σ ε α) :=
  ⟨fun s => Std.Refl.refl s⟩

/-- Reading keeps every reflexive relation. -/
theorem Always.read [Std.Refl R] (f : σ → α) : Always R (Process.read f : Process σ ε α) :=
  ⟨fun s => Std.Refl.refl s⟩

/-- A result keeps every reflexive relation, whether it is there or not. -/
theorem Always.ofExcept [Std.Refl R] (r : Except ε α) :
    Always R (Process.ofExcept r : Process σ ε α) :=
  ⟨fun s => Std.Refl.refl s⟩

/-- A change keeps a relation that its function keeps. -/
theorem Always.change {f : σ → σ} (hf : ∀ s, R s (f s)) :
    Always R (Process.change f : Process σ ε Unit) :=
  ⟨hf⟩

/-- An attempt keeps what the process keeps. -/
theorem Always.attempt {m : Process σ ε α} (hm : Always R m) : Always R m.attempt :=
  ⟨hm.rel⟩

/-- Two parts that keep a transitive relation keep it together, whichever of them throws. -/
theorem Always.bind [IsTrans σ R] {m : Process σ ε α} {k : α → Process σ ε β}
    (hm : Always R m) (hk : ∀ a, Always R (k a)) : Always R (m >>= k) := by
  constructor
  intro s
  have hs := hm.rel s
  rw [bind_apply]
  cases hrun : m s with
  | mk r t =>
    rw [hrun] at hs
    cases r with
    | ok a => exact Trans.trans hs ((hk a).rel t)
    | error e => exact hs

/-- A choice keeps what both branches keep. -/
theorem Always.ite {c : Prop} [Decidable c] {m k : Process σ ε α} (hm : Always R m)
    (hk : Always R k) : Always R (if c then m else k) := by
  by_cases hc : c
  · rwa [if_pos hc]
  · rwa [if_neg hc]

/-- A loop keeps what each of its rounds keeps. -/
theorem Always.each [IsPreorder σ R] {f : α → Process σ ε Unit} {l : List α}
    (hf : ∀ x ∈ l, Always R (f x)) : Always R (Process.each f l) := by
  induction l with
  | nil => exact Always.done ()
  | cons x rest ih =>
    exact Always.bind (hf x List.mem_cons_self) fun _ =>
      ih fun y hy => hf y (List.mem_cons_of_mem _ hy)

end Outcomes

end Process

end Whaleshares
