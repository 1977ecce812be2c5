import Mathlib

/-!
# Tasks that give way to each other

A task changes a shared state until it asks a question or ends; while it runs no other task
does. Between a question and its answer any other task may run, and the answer may be any. A
pool holds the tasks that wait, each under a name of its own.

The rules carry an invariant of the state, and what a task relies on while it waits, from the
sections of the tasks between two questions to the runs of a pool.
-/

namespace Whaleshares.Cooperation

/-- A task on the states `σ` that ends in a value or an error. -/
inductive Task (σ Query : Type) (Answer : Query → Type) (ε α : Type) : Type where
  /-- The task has ended. -/
  | done (a : α)
  /-- The task has thrown an error. -/
  | fail (e : ε)
  /-- The task goes on as the state has it. -/
  | look (k : σ → Task σ Query Answer ε α)
  /-- The task leaves this state. -/
  | put (t : σ) (rest : Task σ Query Answer ε α)
  /-- The task waits for an answer. -/
  | ask (q : Query) (k : Answer q → Task σ Query Answer ε α)

namespace Task

variable {σ Query : Type} {Answer : Query → Type} {ε α β : Type}

/-- One task after another. -/
def andThen (k : α → Task σ Query Answer ε β) : Task σ Query Answer ε α → Task σ Query Answer ε β
  | .done a => k a
  | .fail e => .fail e
  | .look f => .look fun s => (f s).andThen k
  | .put t rest => .put t (rest.andThen k)
  | .ask q f => .ask q fun a => (f a).andThen k

instance : Monad (Task σ Query Answer ε) where
  pure := .done
  bind m k := m.andThen k

/-- A value read from the state. -/
def read (f : σ → α) : Task σ Query Answer ε α := .look fun s => .done (f s)

/-- A change of the state. -/
def change (f : σ → σ) : Task σ Query Answer ε Unit := .look fun s => .put (f s) (.done ())

/-- The answer to a question. -/
def question (q : Query) : Task σ Query Answer ε (Answer q) := .ask q .done

/-- A computation that does not look at the state. -/
def ofExcept (r : Except ε α) : Task σ Query Answer ε α :=
  match r with
  | .ok a => .done a
  | .error e => .fail e

/-- The outcome of a task, as a value. -/
def attempt : Task σ Query Answer ε α → Task σ Query Answer ε (Except ε α)
  | .done a => .done (.ok a)
  | .fail e => .done (.error e)
  | .look f => .look fun s => (f s).attempt
  | .put t rest => .put t rest.attempt
  | .ask q f => .ask q fun a => (f a).attempt

/-- A task under a condition. -/
def whenever (c : Prop) [Decidable c] (m : Task σ Query Answer ε Unit) :
    Task σ Query Answer ε Unit :=
  if c then m else .done ()

/-- A task for every element of a list, in order. -/
def each (f : β → Task σ Query Answer ε Unit) : List β → Task σ Query Answer ε Unit
  | [] => .done ()
  | x :: rest => (f x).andThen fun _ => each f rest

end Task

section Sections

variable {σ Query : Type} {Answer : Query → Type} {ε α β : Type}

/-- The terms on which a task runs beside others. -/
structure Terms (σ : Type) where
  /-- What holds whenever a task gives way. -/
  inv : σ → Prop
  /-- What the task leaves as it found it, from the start of a section to its end. -/
  guar : σ → σ → Prop
  /-- What the others leave as they found it. -/
  rely : σ → σ → Prop
  guar_refl : ∀ s, guar s s
  guar_trans : ∀ s t u, guar s t → guar t u → guar s u

variable {terms : Terms σ} {post post' : Except ε α → σ → σ → Prop}
  {m : Task σ Query Answer ε α} {b s : σ}

/-- The sections of a task keep to the terms, and `post` relates its outcome to the states in
which its last section began and ended. The first section began in `b` and stands at `s`. -/
def Task.Meets (terms : Terms σ) (post : Except ε α → σ → σ → Prop) :
    Task σ Query Answer ε α → σ → σ → Prop
  | .done a, b, s => post (.ok a) b s
  | .fail e, b, s => post (.error e) b s
  | .look f, b, s => (f s).Meets terms post b s
  | .put t rest, b, _ => rest.Meets terms post b t
  | .ask _ f, b, s => (terms.inv s ∧ terms.guar b s) ∧
      ∀ a t, terms.rely s t → terms.inv t → (f a).Meets terms post t t

/-- A task that meets an end meets a weaker one. -/
theorem Task.Meets.mono (hpost : ∀ r b s, post r b s → post' r b s)
    (h : m.Meets terms post b s) : m.Meets terms post' b s := by
  induction m generalizing b s with
  | done a => exact hpost _ _ _ h
  | fail e => exact hpost _ _ _ h
  | look f ih => exact ih s h
  | put t rest ih => exact ih h
  | ask q f ih => exact ⟨h.1, fun a t hrely hinv => ih a (h.2 a t hrely hinv)⟩

/-- A task after another one: its sections start where those of the first one end. -/
theorem Task.Meets.andThen {k : α → Task σ Query Answer ε β} {post : Except ε β → σ → σ → Prop}
    (h : m.Meets terms (fun r b s => match r with
      | .ok a => (k a).Meets terms post b s
      | .error e => post (.error e) b s) b s) :
    (m.andThen k).Meets terms post b s := by
  induction m generalizing b s with
  | done a => exact h
  | fail e => exact h
  | look f ih => exact ih s h
  | put t rest ih => exact ih h
  | ask q f ih => exact ⟨h.1, fun a t hrely hinv => ih a (h.2 a t hrely hinv)⟩

/-- A task whose outcome is caught meets what holds of the outcome. -/
theorem Task.Meets.attempt {post : Except ε (Except ε α) → σ → σ → Prop}
    (h : m.Meets terms (fun r b s => post (.ok r) b s) b s) :
    m.attempt.Meets terms post b s := by
  induction m generalizing b s with
  | done a => exact h
  | fail e => exact h
  | look f ih => exact ih s h
  | put t rest ih => exact ih h
  | ask q f ih => exact ⟨h.1, fun a t hrely hinv => ih a (h.2 a t hrely hinv)⟩

/-- Wherever a section stands that has kept to the terms so far, the task keeps to them. -/
structure Task.Steady (terms : Terms σ) (m : Task σ Query Answer ε α) : Prop where
  /-- The sections of the task. -/
  meets : ∀ b s, terms.inv s → terms.guar b s →
    m.Meets terms (fun _ b s => terms.inv s ∧ terms.guar b s) b s

/-- A value keeps to the terms. -/
theorem Task.Steady.done (a : α) : (Task.done a : Task σ Query Answer ε α).Steady terms :=
  ⟨fun _ _ hinv hguar => ⟨hinv, hguar⟩⟩

/-- An exception keeps to the terms. -/
theorem Task.Steady.fail (e : ε) : (Task.fail e : Task σ Query Answer ε α).Steady terms :=
  ⟨fun _ _ hinv hguar => ⟨hinv, hguar⟩⟩

/-- Two parts that keep to the terms do so in turn. -/
theorem Task.Steady.andThen {k : α → Task σ Query Answer ε β} (hm : m.Steady terms)
    (hk : ∀ a, (k a).Steady terms) : (m.andThen k).Steady terms := by
  constructor
  intro b s hinv hguar
  refine Task.Meets.andThen ((hm.meets b s hinv hguar).mono fun r b' s' h => ?_)
  cases r with
  | ok a => exact (hk a).meets b' s' h.1 h.2
  | error e => exact h

/-- A bind of parts that keep to the terms keeps to them. -/
theorem Task.Steady.bind {k : α → Task σ Query Answer ε β} (hm : m.Steady terms)
    (hk : ∀ a, (k a).Steady terms) : (m >>= k).Steady terms :=
  hm.andThen hk

/-- Reading keeps to the terms. -/
theorem Task.Steady.read (f : σ → α) : (Task.read f : Task σ Query Answer ε α).Steady terms :=
  ⟨fun _ _ hinv hguar => ⟨hinv, hguar⟩⟩

/-- A change that keeps the invariant and the guarantee keeps to the terms. -/
theorem Task.Steady.change {f : σ → σ}
    (hf : ∀ s, terms.inv s → terms.inv (f s) ∧ terms.guar s (f s)) :
    (Task.change f : Task σ Query Answer ε Unit).Steady terms :=
  ⟨fun _ s hinv hguar => ⟨(hf s hinv).1, terms.guar_trans _ _ _ hguar (hf s hinv).2⟩⟩

/-- A question keeps to the terms. -/
theorem Task.Steady.question (q : Query) :
    (Task.question q : Task σ Query Answer ε (Answer q)).Steady terms :=
  ⟨fun _ _ hinv hguar => ⟨⟨hinv, hguar⟩, fun _ t _ ht => ⟨ht, terms.guar_refl t⟩⟩⟩

/-- A value that was read is still the one of the state. -/
theorem Task.Steady.read_bind {f : σ → β} {k : β → Task σ Query Answer ε α}
    (hk : ∀ b s, terms.inv s → terms.guar b s →
      (k (f s)).Meets terms (fun _ b s => terms.inv s ∧ terms.guar b s) b s) :
    (Task.read f >>= k).Steady terms :=
  ⟨hk⟩

/-- A result keeps to the terms. -/
theorem Task.Steady.ofExcept (r : Except ε α) :
    (Task.ofExcept r : Task σ Query Answer ε α).Steady terms := by
  cases r with
  | ok a => exact Task.Steady.done a
  | error e => exact Task.Steady.fail e

/-- A task whose outcome is caught keeps to the terms. -/
theorem Task.Steady.attempt (hm : m.Steady terms) : m.attempt.Steady terms :=
  ⟨fun b s hinv hguar => (hm.meets b s hinv hguar).attempt⟩

/-- A choice of tasks that keep to the terms keeps to them. -/
theorem Task.Steady.ite {c : Prop} [Decidable c] {m k : Task σ Query Answer ε α}
    (hm : m.Steady terms) (hk : k.Steady terms) : (if c then m else k).Steady terms := by
  by_cases hc : c
  · rwa [if_pos hc]
  · rwa [if_neg hc]

/-- A task under a condition keeps to the terms. -/
theorem Task.Steady.whenever {c : Prop} [Decidable c] {m : Task σ Query Answer ε Unit}
    (hm : m.Steady terms) : (Task.whenever c m).Steady terms :=
  Task.Steady.ite hm (Task.Steady.done ())

/-- A loop of tasks that keep to the terms keeps to them. -/
theorem Task.Steady.each {f : β → Task σ Query Answer ε Unit} {l : List β}
    (hf : ∀ x ∈ l, (f x).Steady terms) : (Task.each f l).Steady terms := by
  induction l with
  | nil => exact Task.Steady.done ()
  | cons x rest ih =>
    exact (hf x List.mem_cons_self).andThen fun _ =>
      ih fun y hy => hf y (List.mem_cons_of_mem _ hy)

end Sections

section Alone

variable {σ Query : Type} {Answer : Query → Type} {ε α β : Type}
  {answer : (q : Query) → Answer q} {m : Task σ Query Answer ε α} {s t : σ} {a : α} {e : ε}

/-- How a task ends and in which state, if no other task runs and its questions have these
answers. -/
def Task.alone (answer : (q : Query) → Answer q) : Task σ Query Answer ε α → σ → Except ε α × σ
  | .done a, s => (.ok a, s)
  | .fail e, s => (.error e, s)
  | .look f, s => (f s).alone answer s
  | .put t rest, _ => rest.alone answer t
  | .ask q f, s => (f (answer q)).alone answer s

/-- A task goes on where the first part of it has ended. -/
theorem Task.alone_bind {k : α → Task σ Query Answer ε β} (h : m.alone answer s = (.ok a, t)) :
    (m >>= k).alone answer s = (k a).alone answer t := by
  change (m.andThen k).alone answer s = _
  induction m generalizing s with
  | done b =>
    obtain ⟨hb, rfl⟩ := Prod.mk.inj h
    rw [← Except.ok.inj hb]
    rfl
  | fail e => cases h
  | look f ih => exact ih s h
  | put u rest ih => exact ih h
  | ask q f ih => exact ih (answer q) h

/-- The outcome of a task that returns. -/
theorem Task.alone_attempt (h : m.alone answer s = (.ok a, t)) :
    m.attempt.alone answer s = (.ok (.ok a), t) := by
  induction m generalizing s with
  | done b =>
    obtain ⟨hb, rfl⟩ := Prod.mk.inj h
    rw [← Except.ok.inj hb]
    rfl
  | fail e => cases h
  | look f ih => exact ih s h
  | put u rest ih => exact ih h
  | ask q f ih => exact ih (answer q) h

/-- A task under a condition, where it leaves the state as it is. -/
theorem Task.alone_whenever {c : Prop} [Decidable c] {m : Task σ Query Answer ε Unit}
    (h : c → m.alone answer s = (.ok (), s)) :
    (Task.whenever c m).alone answer s = (.ok (), s) := by
  by_cases hc : c
  · rw [Task.whenever, if_pos hc]
    exact h hc
  · rw [Task.whenever, if_neg hc]
    rfl

end Alone

section Pools

variable {ι σ Query : Type} {Answer : Query → Type} {ε : Type}

/-- A task that waits for an answer. -/
structure Waiting (σ Query : Type) (Answer : Query → Type) (ε : Type) where
  /-- The question. -/
  query : Query
  /-- How the task goes on. -/
  resume : Answer query → Task σ Query Answer ε Unit

/-- The section of a task up to its next question or its end. -/
def Task.advance : Task σ Query Answer ε Unit → σ → Option (Waiting σ Query Answer ε) × σ
  | .done _, s => (none, s)
  | .fail _, s => (none, s)
  | .look f, s => (f s).advance s
  | .put t rest, _ => rest.advance t
  | .ask q f, s => (some ⟨q, f⟩, s)

/-- The shared state and the tasks that wait. -/
structure Pool (ι σ Query : Type) (Answer : Query → Type) (ε : Type) where
  /-- The shared state. -/
  state : σ
  /-- The task that waits under a name. -/
  waiting : ι → Option (Waiting σ Query Answer ε)

/-- The section of a task of the pool. -/
def Pool.run [DecidableEq ι] (p : Pool ι σ Query Answer ε) (i : ι)
    (m : Task σ Query Answer ε Unit) : Pool ι σ Query Answer ε where
  state := (m.advance p.state).2
  waiting := Function.update p.waiting i (m.advance p.state).1

/-- A step of a pool whose tasks begin as `begins` allows. -/
inductive Step [DecidableEq ι] (begins : ι → σ → Task σ Query Answer ε Unit → Prop) :
    Pool ι σ Query Answer ε → Pool ι σ Query Answer ε → Prop
  | begin (p : Pool ι σ Query Answer ε) (i : ι) (m : Task σ Query Answer ε Unit)
      (hfree : p.waiting i = none) (hm : begins i p.state m) : Step begins p (p.run i m)
  | answer (p : Pool ι σ Query Answer ε) (i : ι) (w : Waiting σ Query Answer ε)
      (hw : p.waiting i = some w) (a : Answer w.query) : Step begins p (p.run i (w.resume a))

/-- The runs of a pool. -/
def Runs [DecidableEq ι] (begins : ι → σ → Task σ Query Answer ε Unit → Prop) :
    Pool ι σ Query Answer ε → Pool ι σ Query Answer ε → Prop :=
  Relation.ReflTransGen (Step begins)

/-- The terms on which the tasks of a pool run. -/
structure Contract (ι σ : Type) where
  /-- What holds whenever a task gives way. -/
  inv : σ → Prop
  /-- What the sections of a task leave as they found it. -/
  guar : ι → σ → σ → Prop
  /-- What a task relies on while it waits. -/
  rely : ι → σ → σ → Prop
  guar_refl : ∀ i s, guar i s s
  guar_trans : ∀ i s t u, guar i s t → guar i t u → guar i s u
  rely_refl : ∀ i s, rely i s s
  rely_trans : ∀ i s t u, rely i s t → rely i t u → rely i s u
  /-- The others leave what a task relies on as they found it. -/
  rely_of_guar : ∀ i j s t, j ≠ i → inv s → inv t → guar j s t → rely i s t

/-- The terms for one of the tasks. -/
def Contract.terms (c : Contract ι σ) (i : ι) : Terms σ :=
  ⟨c.inv, c.guar i, c.rely i, c.guar_refl i, c.guar_trans i⟩

/-- What a task of the pool owes from here to its end. -/
def Contract.Owed (c : Contract ι σ) (i : ι) (m : Task σ Query Answer ε Unit) (s : σ) : Prop :=
  m.Meets (c.terms i) (fun _ b s => c.inv s ∧ c.guar i b s) s s

/-- The tasks that may begin keep to the contract. -/
def Contract.Binds (c : Contract ι σ) (begins : ι → σ → Task σ Query Answer ε Unit → Prop) : Prop :=
  ∀ i s m, c.inv s → begins i s m → c.Owed i m s

/-- The invariant holds, and every task that waits keeps to the contract when it goes on. -/
structure Contract.Kept (c : Contract ι σ) (p : Pool ι σ Query Answer ε) : Prop where
  /-- The invariant. -/
  inv : c.inv p.state
  /-- The tasks that wait. -/
  owed : ∀ i w, p.waiting i = some w → ∀ a t, c.rely i p.state t → c.inv t →
    c.Owed i (w.resume a) t

variable {c : Contract ι σ} {begins : ι → σ → Task σ Query Answer ε Unit → Prop}
  {p p' : Pool ι σ Query Answer ε} {i : ι}

/-- A task that keeps to its terms owes them from every state with the invariant. -/
theorem Task.Steady.owed {m : Task σ Query Answer ε Unit} {s : σ} (h : m.Steady (c.terms i))
    (hinv : c.inv s) : c.Owed i m s :=
  h.meets s s hinv (c.guar_refl i s)

/-- A section ends in the invariant, guarantees what it owes, and leaves a task that keeps to
the contract. -/
theorem advance_meets {m : Task σ Query Answer ε Unit} {b s : σ}
    (h : m.Meets (c.terms i) (fun _ b s => c.inv s ∧ c.guar i b s) b s) :
    (c.inv (m.advance s).2 ∧ c.guar i b (m.advance s).2) ∧
      ∀ w, (m.advance s).1 = some w → ∀ a t, c.rely i (m.advance s).2 t → c.inv t →
        c.Owed i (w.resume a) t := by
  induction m generalizing b s with
  | done a => exact ⟨h, fun w hw => by cases hw⟩
  | fail e => exact ⟨h, fun w hw => by cases hw⟩
  | look f ih => exact ih s h
  | put t rest ih => exact ih h
  | ask q f ih =>
    refine ⟨h.1, fun w hw a t hrely hinv => ?_⟩
    cases hw
    exact h.2 a t hrely hinv

/-- A pool in which no task waits keeps every contract whose invariant it meets. -/
theorem Contract.Kept.of_idle {s : σ} (h : c.inv s) :
    c.Kept (⟨s, fun _ => none⟩ : Pool ι σ Query Answer ε) :=
  ⟨h, fun i w hw => by cases hw⟩

variable [DecidableEq ι]

/-- The section of one task keeps the contract of the whole pool. -/
theorem Contract.Kept.run {m : Task σ Query Answer ε Unit} (h : c.Kept p)
    (hm : c.Owed i m p.state) : c.Kept (p.run i m) ∧ c.guar i p.state (p.run i m).state := by
  obtain ⟨⟨hinv, hguar⟩, howed⟩ := advance_meets hm
  refine ⟨⟨hinv, fun j w hw a t hrely ht => ?_⟩, hguar⟩
  change Function.update p.waiting i (m.advance p.state).1 j = some w at hw
  by_cases hj : j = i
  · subst hj
    rw [Function.update_self] at hw
    exact howed w hw a t hrely ht
  · rw [Function.update_of_ne hj] at hw
    have hstep := c.rely_of_guar j i p.state _ (Ne.symm hj) h.inv hinv hguar
    exact h.owed j w hw a t (c.rely_trans j _ _ _ hstep hrely) ht

/-- The step lemma: a step of the pool is a section of one of its tasks. -/
theorem Contract.Kept.step (h : c.Kept p) (hbegins : c.Binds begins) (hstep : Step begins p p') :
    c.Kept p' ∧ ∃ i, c.guar i p.state p'.state := by
  cases hstep with
  | begin i m hfree hm =>
    obtain ⟨hkept, hguar⟩ := h.run (hbegins i p.state m h.inv hm)
    exact ⟨hkept, i, hguar⟩
  | answer i w hw a =>
    obtain ⟨hkept, hguar⟩ := h.run (h.owed i w hw a p.state (c.rely_refl i _) h.inv)
    exact ⟨hkept, i, hguar⟩

/-- The run lemma: a pool that keeps the contract keeps it in every run. -/
theorem Contract.Kept.runs (h : c.Kept p) (hbegins : c.Binds begins) (hruns : Runs begins p p') :
    c.Kept p' := by
  induction hruns with
  | refl => exact h
  | tail _ hstep ih => exact (ih.step hbegins hstep).1

/-- A property that every section keeps holds at the end of every run. -/
theorem Contract.Kept.invariant {P : σ → Prop} (h : c.Kept p) (hbegins : c.Binds begins)
    (hP : ∀ i s t, c.guar i s t → P s → P t) (hp : P p.state) (hruns : Runs begins p p') :
    P p'.state := by
  induction hruns with
  | refl => exact hp
  | tail hbefore hstep ih =>
    obtain ⟨-, i, hguar⟩ := (h.runs hbegins hbefore).step hbegins hstep
    exact hP i _ _ hguar ih

/-- The contract that says which changes a task makes, and that they keep an invariant; a task
relies on what no change of another one touches. -/
def Contract.making (inv : σ → Prop) (change rely : ι → σ → σ → Prop)
    (hrefl : ∀ i s, rely i s s) (htrans : ∀ i s t u, rely i s t → rely i t u → rely i s u)
    (hchange : ∀ i j s t, j ≠ i → change j s t → rely i s t) : Contract ι σ where
  inv := inv
  guar i := Relation.ReflTransGen (change i)
  rely := rely
  guar_refl _ _ := .refl
  guar_trans _ _ _ _ h h' := h.trans h'
  rely_refl := hrefl
  rely_trans := htrans
  rely_of_guar i j s t hne _ _ h := by
    clear * - h hne hrefl htrans hchange
    induction h with
    | refl => exact hrefl i s
    | tail _ hstep ih => exact htrans i _ _ _ ih (hchange i j _ _ hne hstep)

end Pools

end Whaleshares.Cooperation
