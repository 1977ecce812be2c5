import Mathlib

/-!
# Tables of rows

A table holds the rows of one object type in the order of their ids, and the id
that the next row gets. Changes pick the first row that satisfies a condition; they
are described by the rows before it, the row itself and the rows after it, which
gives the effect of a change on a sum over the rows and on a property of all rows.
-/

namespace Whaleshares

/-- The rows of one object type. -/
structure Table (α : Type) where
  /-- The rows, the oldest first. -/
  rows : List α
  /-- The id of the next row. -/
  nextId : ℕ

namespace Table

variable {α ε : Type}

/-- A table without rows. -/
def empty : Table α := ⟨[], 0⟩

/-- The first row that satisfies a condition. -/
def find (table : Table α) (p : α → Bool) : Option α := table.rows.find? p

/-- The rows that satisfy a condition, in the order of an index. -/
def select (table : Table α) (p : α → Bool) (le : α → α → Bool) : List α :=
  (table.rows.filter p).insertionSort fun a b => le a b

/-- The first row that satisfies a condition, in the order of an index. -/
def first (table : Table α) (p : α → Bool) (le : α → α → Bool) : Option α :=
  (table.rows.filter p).foldl
    (fun best row => match best with
      | none => some row
      | some b => if le b row then best else some row) none

/-- Replaces the first row that satisfies a condition; fails where there is none. -/
def updateFirst (missing : ε) (p : α → Bool) (f : α → Except ε α) :
    List α → Except ε (List α)
  | [] => .error missing
  | row :: rest =>
    if p row then (f row).map (· :: rest)
    else (updateFirst missing p f rest).map (row :: ·)

/-- Changes the first row that satisfies a condition. -/
def modify (missing : ε) (p : α → Bool) (f : α → Except ε α) (table : Table α) :
    Except ε (Table α) :=
  (updateFirst missing p f table.rows).map fun rows => ⟨rows, table.nextId⟩

/-- Adds the row that `f` builds from its id; fails where a row clashes with it. -/
def create (clash : ε) (clashes : α → α → Bool) (f : ℕ → Except ε α) (table : Table α) :
    Except ε (Table α) :=
  (f table.nextId).bind fun row =>
    if table.rows.any (clashes row) then .error clash
    else .ok ⟨table.rows ++ [row], table.nextId + 1⟩

/-- Removes the rows that satisfy a condition. -/
def remove (p : α → Bool) (table : Table α) : Table α :=
  ⟨table.rows.filter fun row => !p row, table.nextId⟩

section Spec

variable {missing clash : ε} {p : α → Bool} {f : α → Except ε α} {rows rows' : List α}
  {table table' : Table α}

/-- A change picks the first row that satisfies the condition. -/
theorem updateFirst_eq_ok (h : updateFirst missing p f rows = .ok rows') :
    ∃ before row row' after, rows = before ++ row :: after ∧ rows' = before ++ row' :: after ∧
      (∀ x ∈ before, p x = false) ∧ p row = true ∧ f row = .ok row' := by
  induction rows generalizing rows' with
  | nil => cases h
  | cons first rest ih =>
    unfold updateFirst at h
    by_cases hp : p first = true
    · rw [if_pos hp] at h
      cases hf : f first with
      | error e =>
        rw [hf] at h
        cases h
      | ok row' =>
        rw [hf] at h
        have hrows : rows' = row' :: rest := (Except.ok.inj h).symm
        exact ⟨[], first, row', rest, rfl, hrows, by simp, hp, hf⟩
    · rw [if_neg hp] at h
      cases hr : updateFirst missing p f rest with
      | error e =>
        rw [hr] at h
        cases h
      | ok rest' =>
        rw [hr] at h
        have hrows : rows' = first :: rest' := (Except.ok.inj h).symm
        obtain ⟨before, row, row', after, hrest, hrest', hbefore, hrow, hfrow⟩ := ih hr
        have hall : ∀ x ∈ first :: before, p x = false := by
          intro x hx
          rcases List.mem_cons.mp hx with hx | hx
          · rw [hx]
            exact Bool.eq_false_of_not_eq_true hp
          · exact hbefore x hx
        exact ⟨first :: before, row, row', after, by rw [hrest]; rfl, by rw [hrows, hrest']; rfl,
          hall, hrow, hfrow⟩

/-- A modified table has the changed rows and the same next id. -/
theorem modify_eq_ok (h : modify missing p f table = .ok table') :
    updateFirst missing p f table.rows = .ok table'.rows ∧ table'.nextId = table.nextId := by
  unfold modify at h
  cases hr : updateFirst missing p f table.rows with
  | error e =>
    rw [hr] at h
    cases h
  | ok rows =>
    rw [hr] at h
    have htable : table' = ⟨rows, table.nextId⟩ := (Except.ok.inj h).symm
    rw [htable]
    exact ⟨rfl, rfl⟩

/-- What a change does to the rows of a table. -/
theorem modify_rows (h : modify missing p f table = .ok table') :
    ∃ before row row' after, table.rows = before ++ row :: after ∧
      table'.rows = before ++ row' :: after ∧
      (∀ x ∈ before, p x = false) ∧ p row = true ∧ f row = .ok row' :=
  updateFirst_eq_ok (modify_eq_ok h).1

/-- A change of a row that there is returns if it returns for that row. -/
theorem exists_modify (missing : ε) {row row' : α} (hfind : table.find p = some row) (hf : f row = .ok row') :
    ∃ table', modify missing p f table = .ok table' := by
  unfold find at hfind
  unfold modify
  have hrows : ∀ rows : List α, rows.find? p = some row →
      ∃ rows', updateFirst missing p f rows = .ok rows' := by
    intro rows hfound
    induction rows with
    | nil => cases hfound
    | cons first rest ih =>
      unfold updateFirst
      by_cases hp : p first = true
      · rw [List.find?_cons_of_pos hp] at hfound
        rw [if_pos hp, Option.some.inj hfound, hf]
        exact ⟨_, rfl⟩
      · rw [List.find?_cons_of_neg hp] at hfound
        obtain ⟨rows', hrest⟩ := ih hfound
        rw [if_neg hp, hrest]
        exact ⟨_, rfl⟩
  obtain ⟨rows', hrows'⟩ := hrows table.rows hfind
  rw [hrows']
  exact ⟨_, rfl⟩

/-- A list has one split at its first element that satisfies a condition. -/
theorem split_unique {q : α → Prop} {before before' after after' : List α} {row row' : α}
    (h : before ++ row :: after = before' ++ row' :: after') (hbefore : ∀ x ∈ before, ¬ q x)
    (hrow : q row) (hbefore' : ∀ x ∈ before', ¬ q x) (hrow' : q row') :
    before = before' ∧ row = row' ∧ after = after' := by
  induction before generalizing before' with
  | nil =>
    cases before' with
    | nil =>
      obtain ⟨hrows, hafter⟩ := List.cons.inj h
      exact ⟨rfl, hrows, hafter⟩
    | cons first rest =>
      obtain ⟨hfirst, -⟩ := List.cons.inj h
      exact absurd (hfirst ▸ hrow) (hbefore' first List.mem_cons_self)
  | cons first rest ih =>
    cases before' with
    | nil =>
      obtain ⟨hfirst, -⟩ := List.cons.inj h
      exact absurd (hfirst ▸ hrow') (hbefore first List.mem_cons_self)
    | cons first' rest' =>
      obtain ⟨hfirst, hrest⟩ := List.cons.inj h
      obtain ⟨hbefores, hrows, hafter⟩ := ih hrest
        (fun x hx => hbefore x (List.mem_cons_of_mem _ hx))
        (fun x hx => hbefore' x (List.mem_cons_of_mem _ hx))
      exact ⟨by rw [hfirst, hbefores], hrows, hafter⟩

/-- The row that a change replaces is the one that a search with the same condition finds. -/
theorem modify_found (h : modify missing p f table = .ok table') {row : α}
    (hfind : table.find p = some row) :
    ∃ before row' after, table.rows = before ++ row :: after ∧
      table'.rows = before ++ row' :: after ∧ f row = .ok row' := by
  obtain ⟨before, old, row', after, hrows, hrows', hbefore, hold, hf⟩ := modify_rows h
  have hsame : table.find p = some old := by
    unfold find
    rw [hrows, List.find?_append, List.find?_eq_none.mpr (by simpa using hbefore)]
    simp [hold]
  have hrow : old = row := Option.some.inj (hsame.symm.trans hfind)
  rw [hrow] at hrows hf
  exact ⟨before, row', after, hrows, hrows', hf⟩

/-- A change that keeps a value of every row keeps the list of these values. -/
theorem modify_map_eq {β : Type} {g : α → β} (h : modify missing p f table = .ok table')
    (hg : ∀ a b, f a = .ok b → g b = g a) : table'.rows.map g = table.rows.map g := by
  obtain ⟨before, row, row', after, hrows, hrows', -, -, hf⟩ := modify_rows h
  rw [hrows, hrows']
  simp [hg row row' hf]

/-- A search by what a value of the rows shows finds rows of one value where the values of the
rows are the same. -/
theorem find_map_congr {β : Type} {g : α → β} (h : rows'.map g = rows.map g)
    (hp : ∀ a b, g a = g b → p a = p b) : (rows'.find? p).map g = (rows.find? p).map g := by
  induction rows generalizing rows' with
  | nil => rw [List.map_eq_nil_iff.mp h]
  | cons row rest ih =>
    obtain ⟨row', rest', rfl, hrow, hrest⟩ := List.map_eq_cons_iff.mp h
    have hsame := hp row' row hrow
    cases hfound : p row with
    | true =>
      rw [List.find?_cons_of_pos hfound, List.find?_cons_of_pos (hsame.trans hfound)]
      exact congrArg some hrow
    | false =>
      have hnot : ¬ p row = true := by simp [hfound]
      rw [List.find?_cons_of_neg hnot, List.find?_cons_of_neg (by rwa [hsame])]
      exact ih hrest

/-- A change that adds `d` to a value of the row adds `d` to the sum of the values. -/
theorem modify_sum {g : α → ℤ} {d : ℤ} (h : modify missing p f table = .ok table')
    (hg : ∀ a b, f a = .ok b → g b = g a + d) :
    (table'.rows.map g).sum = (table.rows.map g).sum + d := by
  obtain ⟨before, row, row', after, hrows, hrows', -, -, hf⟩ := modify_rows h
  have hrow := hg row row' hf
  rw [hrows, hrows']
  simp only [List.map_append, List.map_cons, List.sum_append, List.sum_cons, hrow]
  omega

/-- A property of all rows is kept by a change that keeps it. -/
theorem modify_forall {P : α → Prop} (h : modify missing p f table = .ok table')
    (hall : ∀ a ∈ table.rows, P a) (hf : ∀ a b, P a → f a = .ok b → P b) :
    ∀ a ∈ table'.rows, P a := by
  obtain ⟨before, row, row', after, hrows, hrows', -, -, hrow⟩ := modify_rows h
  intro a ha
  rw [hrows'] at ha
  rw [hrows] at hall
  rcases List.mem_append.mp ha with hb | hc
  · exact hall a (List.mem_append_left _ hb)
  · rcases List.mem_cons.mp hc with hb | hb
    · rw [hb]
      exact hf row row' (hall row (by simp)) hrow
    · exact hall a (by simp [hb])

/-- A row that clashes with none is added. -/
theorem create_of {clashes : α → α → Bool} {f : ℕ → Except ε α} {row : α}
    (hrow : f table.nextId = .ok row) (hclash : ∀ old ∈ table.rows, clashes row old = false) :
    create clash clashes f table = .ok ⟨table.rows ++ [row], table.nextId + 1⟩ := by
  have hnone : ¬ table.rows.any (clashes row) = true := by
    rw [List.any_eq_true]
    rintro ⟨old, hold, hclashes⟩
    rw [hclash old hold] at hclashes
    cases hclashes
  unfold create
  rw [hrow]
  exact if_neg hnone

/-- The first row is changed. -/
theorem modify_first (missing : ε) {row row' : α} {rest : List α} (hrows : table.rows = row :: rest)
    (hp : p row = true) (hf : f row = .ok row') :
    modify missing p f table = .ok ⟨row' :: rest, table.nextId⟩ := by
  unfold modify updateFirst
  rw [hrows]
  simp only [hp, hf, if_true]
  rfl

/-- What an insertion does to the rows of a table. -/
theorem create_rows {clashes : α → α → Bool} {f : ℕ → Except ε α}
    (h : create clash clashes f table = .ok table') :
    ∃ row, f table.nextId = .ok row ∧ (∀ old ∈ table.rows, clashes row old = false) ∧
      table'.rows = table.rows ++ [row] ∧ table'.nextId = table.nextId + 1 := by
  unfold create at h
  cases hf : f table.nextId with
  | error e =>
    rw [hf] at h
    cases h
  | ok row =>
    rw [hf] at h
    have hstep : (if table.rows.any (clashes row) then Except.error clash
      else .ok (⟨table.rows ++ [row], table.nextId + 1⟩ : Table α)) = .ok table' := h
    by_cases hany : table.rows.any (clashes row) = true
    · rw [if_pos hany] at hstep
      cases hstep
    · rw [if_neg hany] at hstep
      have htable : table' = ⟨table.rows ++ [row], table.nextId + 1⟩ := (Except.ok.inj hstep).symm
      have hfree : ∀ old ∈ table.rows, clashes row old = false := by
        intro old hold
        by_contra hclash
        exact hany (List.any_eq_true.mpr ⟨old, hold, Bool.eq_true_of_not_eq_false hclash⟩)
      rw [htable]
      exact ⟨row, rfl, hfree, rfl, rfl⟩

end Spec

section Keys

variable {κ : Type} {key : α → κ} {rows : List α}

/-- Rows with one key are one row. -/
theorem eq_of_key_eq (key : α → κ) (hkeys : (rows.map key).Nodup) {a b : α} (ha : a ∈ rows)
    (hb : b ∈ rows) (hab : key a = key b) : a = b :=
  List.inj_on_of_nodup_map hkeys ha hb hab

/-- A sum over rows with different keys in which one summand changes. -/
theorem sum_map_replace (key : α → κ) (hkeys : (rows.map key).Nodup) {x : α} (hx : x ∈ rows)
    {f g : α → ℤ} (h : ∀ y ∈ rows, key y ≠ key x → g y = f y) :
    (rows.map g).sum = (rows.map f).sum + (g x - f x) := by
  induction rows with
  | nil => cases hx
  | cons first rest ih =>
    rw [List.map_cons, List.nodup_cons] at hkeys
    obtain ⟨hfirst, hrest⟩ := hkeys
    rw [List.map_cons, List.sum_cons, List.map_cons, List.sum_cons]
    rcases List.mem_cons.mp hx with rfl | hmem
    · have hsame : rest.map g = rest.map f := by
        refine List.map_congr_left fun y hy => h y (List.mem_cons_of_mem _ hy) fun hkey => ?_
        exact hfirst (hkey ▸ List.mem_map_of_mem hy)
      rw [hsame]
      omega
    · have hhead : g first = f first := by
        refine h first List.mem_cons_self fun hkey => ?_
        exact hfirst (hkey ▸ List.mem_map_of_mem hmem)
      rw [hhead, ih hrest hmem fun y hy => h y (List.mem_cons_of_mem _ hy)]
      omega

variable [DecidableEq κ]

/-- The rows with the one of a row's key replaced by that row. -/
def amend (key : α → κ) (row : α) (rows : List α) : List α :=
  rows.map fun old => if key old = key row then row else old

/-- A row after an amendment is the new one or one with another key. -/
theorem mem_amend {row c : α} (h : c ∈ amend key row rows) :
    c = row ∨ (c ∈ rows ∧ key c ≠ key row) := by
  obtain ⟨old, hold, hc⟩ := List.mem_map.mp h
  by_cases hkey : key old = key row
  · rw [if_pos hkey] at hc
    exact .inl hc.symm
  · rw [if_neg hkey] at hc
    rw [← hc]
    exact .inr ⟨hold, hkey⟩

/-- A row with another key stays. -/
theorem mem_amend_of_ne {row c : α} (hc : c ∈ rows) (hkey : key c ≠ key row) :
    c ∈ amend key row rows :=
  List.mem_map.mpr ⟨c, hc, if_neg hkey⟩

/-- The new row stands in the place of the old one. -/
theorem mem_amend_self (row : α) {old : α} (hold : old ∈ rows) (hkey : key old = key row) :
    row ∈ amend key row rows :=
  List.mem_map.mpr ⟨old, hold, if_pos hkey⟩

/-- The values of the rows with one replaced, from the values of the old rows. -/
theorem amend_map_congr {β : Type} {f g : α → β} {row : α}
    (hrow : ∀ old ∈ rows, key old = key row → f row = g old)
    (hother : ∀ old ∈ rows, key old ≠ key row → f old = g old) :
    (amend key row rows).map f = rows.map g := by
  unfold amend
  rw [List.map_map]
  refine List.map_congr_left fun old hold => ?_
  by_cases hkey : key old = key row
  · simp only [Function.comp_apply, if_pos hkey]
    exact hrow old hold hkey
  · simp only [Function.comp_apply, if_neg hkey]
    exact hother old hold hkey

/-- A value that the new row has as the old one did is kept for all rows. -/
theorem amend_map_eq {β : Type} {g : α → β} {row : α}
    (hg : ∀ old ∈ rows, key old = key row → g row = g old) :
    (amend key row rows).map g = rows.map g :=
  amend_map_congr hg fun _ _ _ => rfl

/-- An amendment keeps the keys. -/
theorem amend_keys (row : α) : (amend key row rows).map key = rows.map key :=
  amend_map_eq fun _ _ hkey => hkey.symm

/-- A row that is there replaces itself. -/
theorem amend_self (hkeys : (rows.map key).Nodup) {row : α} (hrow : row ∈ rows) :
    amend key row rows = rows := by
  unfold amend
  refine (List.map_congr_left fun old hold => ?_).trans (List.map_id rows)
  by_cases hkey : key old = key row
  · rw [if_pos hkey]
    exact eq_of_key_eq key hkeys hrow hold hkey.symm
  · rw [if_neg hkey]
    rfl

/-- A row that replaces the one of a key replaces one that was replaced before. -/
theorem amend_amend {row row' : α} (h : key row = key row') :
    amend key row' (amend key row rows) = amend key row' rows := by
  unfold amend
  rw [List.map_map]
  refine List.map_congr_left fun old _ => ?_
  by_cases hkey : key old = key row
  · simp [hkey, h]
  · simp [hkey]

/-- A change that keeps the key of its row replaces the row of that key. -/
theorem modify_amend {missing : ε} {p : α → Bool} {f : α → Except ε α} {table table' : Table α}
    (key : α → κ)
    (h : modify missing p f table = .ok table') (hkeys : (table.rows.map key).Nodup)
    (hf : ∀ a b, f a = .ok b → key b = key a) :
    ∃ a b, table.find p = some a ∧ a ∈ table.rows ∧ p a = true ∧ f a = .ok b ∧
      table'.rows = amend key b table.rows ∧ table'.nextId = table.nextId := by
  obtain ⟨before, a, b, after, hrows, hrows', hbefore, ha, hab⟩ := modify_rows h
  have hmem : a ∈ table.rows := by
    rw [hrows]
    exact List.mem_append_right _ List.mem_cons_self
  have hfind : table.find p = some a := by
    unfold find
    rw [hrows, List.find?_append, List.find?_eq_none.mpr (by simpa using hbefore)]
    simp [ha]
  refine ⟨a, b, hfind, hmem, ha, hab, ?_, (modify_eq_ok h).2⟩
  have hkey := hf a b hab
  rw [hrows, List.map_append, List.map_cons] at hkeys
  have hapart := List.nodup_append'.mp hkeys
  have hside : ∀ side : List α, key a ∉ side.map key →
      (side.map fun old => if key old = key b then b else old) = side := by
    intro side hnot
    refine (List.map_congr_left fun old hold => ?_).trans (List.map_id side)
    have hne : key old ≠ key b := by
      rw [hkey]
      exact fun heq => hnot (heq ▸ List.mem_map_of_mem hold)
    simp [hne]
  unfold amend
  rw [hrows', hrows, List.map_append, List.map_cons, if_pos hkey.symm,
    hside before (fun hin => hapart.2.2 hin List.mem_cons_self),
    hside after (List.nodup_cons.mp hapart.2.1).1]

/-- The search for a key finds the row of that key. -/
theorem find_key (key : α → κ) (hkeys : (rows.map key).Nodup) {k : κ} {c : α} :
    rows.find? (fun row => key row = k) = some c ↔ c ∈ rows ∧ key c = k := by
  constructor
  · intro h
    exact ⟨List.mem_of_find?_eq_some h, by simpa using List.find?_some h⟩
  · rintro ⟨hc, hk⟩
    cases hfind : rows.find? (fun row => key row = k) with
    | none =>
      have hnone := List.find?_eq_none.mp hfind c hc
      simp [hk] at hnone
    | some d =>
      have hd : key d = k := by simpa using List.find?_some hfind
      rw [eq_of_key_eq key hkeys (List.mem_of_find?_eq_some hfind) hc (hd.trans hk.symm)]

/-- A lookup by another key finds what it found. -/
theorem find_amend_of_ne {row : α} {k : κ} (hk : k ≠ key row) :
    (amend key row rows).find? (fun c => key c = k) = rows.find? (fun c => key c = k) := by
  have hsame : (fun c => decide (key c = k)) ∘ (fun old => if key old = key row then row else old) =
      fun c => decide (key c = k) := by
    funext old
    by_cases hkey : key old = key row
    · simp [hkey]
    · simp [hkey]
  unfold amend
  rw [List.find?_map, hsame]
  cases hfind : rows.find? (fun c => decide (key c = k)) with
  | none => rfl
  | some c =>
    have hc : key c = k := by simpa using List.find?_some hfind
    have hne : key c ≠ key row := by rwa [hc]
    simp [hne]

end Keys

section Related

variable {Q : α → α → Prop} {missing clash : ε} {p : α → Bool} {f : α → Except ε α}
  {rows rows' : List α} {table table' out : Table α}

/-- The rows of the tables are related one by one, and the next ids are the same. -/
structure Related (Q : α → α → Prop) (table table' : Table α) : Prop where
  rows : List.Forall₂ Q table.rows table'.rows
  nextId : table'.nextId = table.nextId

/-- A table is related to itself if every row is. -/
theorem Related.refl (hQ : ∀ a, Q a a) (table : Table α) : Related Q table table :=
  ⟨List.forall₂_same.mpr fun a _ => hQ a, rfl⟩

/-- Related rows are found by the same condition. -/
theorem find_related (h : List.Forall₂ Q rows rows') (hp : ∀ a b, Q a b → p b = p a) {a : α}
    (hfind : rows.find? p = some a) : ∃ b, rows'.find? p = some b ∧ Q a b := by
  induction h with
  | nil => cases hfind
  | cons hab hrest ih =>
    rename_i first second _ _
    by_cases hfirst : p first = true
    · rw [List.find?_cons_of_pos hfirst] at hfind
      rw [List.find?_cons_of_pos (hp first second hab ▸ hfirst), ← Option.some.inj hfind]
      exact ⟨second, rfl, hab⟩
    · rw [List.find?_cons_of_neg hfirst] at hfind
      rw [List.find?_cons_of_neg (hp first second hab ▸ hfirst)]
      exact ih hfind

/-- A row that is found in a table has a related one in the other. -/
theorem Related.find (h : Related Q table table') (hp : ∀ a b, Q a b → p b = p a) {a : α}
    (hfind : table.find p = some a) : ∃ b, table'.find p = some b ∧ Q a b :=
  find_related h.rows hp hfind

/-- A condition holds of some row of both or of none. -/
theorem Related.any (h : List.Forall₂ Q rows rows') (hp : ∀ a b, Q a b → p b = p a) :
    rows'.any p = rows.any p := by
  induction h with
  | nil => rfl
  | cons hab _ ih => rw [List.any_cons, List.any_cons, hp _ _ hab, ih]

/-- A row is found in both or in none. -/
theorem Related.find_isSome (h : Related Q table table') (hp : ∀ a b, Q a b → p b = p a) :
    (table'.find p).isSome = (table.find p).isSome := by
  unfold Table.find
  rw [List.isSome_find?, List.isSome_find?, Related.any h.rows hp]

/-- Related rows are changed to related rows. -/
theorem updateFirst_related (h : List.Forall₂ Q rows rows') (hp : ∀ a b, Q a b → p b = p a)
    (hf : ∀ a b x, Q a b → f a = .ok x → ∃ y, f b = .ok y ∧ Q x y) {changed : List α}
    (hrun : updateFirst missing p f rows = .ok changed) :
    ∃ changed', updateFirst missing p f rows' = .ok changed' ∧ List.Forall₂ Q changed changed' := by
  induction h generalizing changed with
  | nil => cases hrun
  | cons hab hrest ih =>
    rename_i first second rest rest'
    unfold updateFirst at hrun ⊢
    rw [hp first second hab]
    by_cases hfirst : p first = true
    · rw [if_pos hfirst] at hrun ⊢
      cases hx : f first with
      | error e =>
        rw [hx] at hrun
        cases hrun
      | ok x =>
        rw [hx] at hrun
        obtain ⟨y, hy, hxy⟩ := hf first second x hab hx
        rw [hy, ← Except.ok.inj hrun]
        exact ⟨y :: rest', rfl, .cons hxy hrest⟩
    · rw [if_neg hfirst] at hrun ⊢
      cases hx : updateFirst missing p f rest with
      | error e =>
        rw [hx] at hrun
        cases hrun
      | ok out =>
        rw [hx] at hrun
        obtain ⟨out', hout', hrelated⟩ := ih hx
        rw [hout', ← Except.ok.inj hrun]
        exact ⟨second :: out', rfl, .cons hab hrelated⟩

/-- Modified tables are related. -/
theorem Related.modify (h : Related Q table table') (hp : ∀ a b, Q a b → p b = p a)
    (hf : ∀ a b x, Q a b → f a = .ok x → ∃ y, f b = .ok y ∧ Q x y)
    (hrun : Table.modify missing p f table = .ok out) :
    ∃ out', Table.modify missing p f table' = .ok out' ∧ Related Q out out' := by
  obtain ⟨hrows, hnext⟩ := modify_eq_ok hrun
  obtain ⟨rows', hrows', hrelated⟩ := updateFirst_related h.rows hp hf hrows
  refine ⟨⟨rows', table'.nextId⟩, ?_, hrelated, ?_⟩
  · unfold Table.modify
    rw [hrows']
    rfl
  · rw [hnext]
    exact h.nextId

/-- Tables with a new row are related. -/
theorem Related.create {clashes : α → α → Bool} {f : ℕ → Except ε α} (h : Related Q table table')
    (hclashes : ∀ row a b, Q a b → clashes row b = clashes row a) (hQ : ∀ a, Q a a)
    (hrun : Table.create clash clashes f table = .ok out) :
    ∃ out', Table.create clash clashes f table' = .ok out' ∧ Related Q out out' := by
  obtain ⟨row, hrow, hfree, hrows, hnext⟩ := create_rows hrun
  have hany : table.rows.any (clashes row) = false :=
    List.any_eq_false.mpr fun old hold => by rw [hfree old hold]; exact Bool.false_ne_true
  refine ⟨⟨table'.rows ++ [row], table'.nextId + 1⟩, ?_, ?_, ?_⟩
  · unfold Table.create
    rw [h.nextId, hrow]
    change (if table'.rows.any (clashes row) then _ else _) = _
    rw [Related.any h.rows (hclashes row), hany]
    rfl
  · rw [hrows]
    exact List.rel_append h.rows (.cons (hQ row) .nil)
  · rw [hnext]
    exact congrArg (· + 1) h.nextId

/-- The relation of tables is transitive if that of rows is. -/
theorem Related.trans (hQ : ∀ a b c, Q a b → Q b c → Q a c) (h : Related Q table table')
    (h' : Related Q table' out) : Related Q table out := by
  have hlists : ∀ {l l' l'' : List α}, List.Forall₂ Q l l' → List.Forall₂ Q l' l'' →
      List.Forall₂ Q l l'' := by
    intro l l' l'' hl hl'
    induction hl generalizing l'' with
    | nil =>
      cases hl'
      exact .nil
    | cons hab _ ih =>
      cases hl' with
      | cons hbc hrest => exact .cons (hQ _ _ _ hab hbc) (ih hrest)
  exact ⟨hlists h.rows h'.rows, h'.nextId.trans h.nextId⟩

/-- Tables with equal rows are equal. -/
theorem Related.eq (h : Related Eq table table') : table' = table := by
  obtain ⟨hrows, hnext⟩ := h
  rw [List.forall₂_eq_eq_eq] at hrows
  cases table with
  | mk rows nextId =>
    cases table' with
    | mk rows' nextId' => exact congrArg₂ Table.mk hrows.symm hnext

end Related

section First

variable {p : α → Bool} {le : α → α → Bool}

/-- One step of the search for the first row. -/
def better (le : α → α → Bool) (best : Option α) (row : α) : Option α :=
  match best with
  | none => some row
  | some b => if le b row then best else some row

/-- The search from a row on ends in one that comes before all rows on the way. -/
theorem foldl_better (htotal : ∀ a b, le a b = true ∨ le b a = true)
    (htrans : ∀ a b c, le a b = true → le b c = true → le a c = true) (rows : List α) (start : α) :
    ∃ a, rows.foldl (better le) (some start) = some a ∧ (a = start ∨ a ∈ rows) ∧
      le a start = true ∧ ∀ b ∈ rows, le a b = true := by
  induction rows generalizing start with
  | nil =>
    refine ⟨start, rfl, .inl rfl, ?_, fun b hb => absurd hb List.not_mem_nil⟩
    obtain h | h := htotal start start <;> exact h
  | cons row rest ih =>
    by_cases hbetter : le start row = true
    · obtain ⟨a, ha, hmem, hstart, hrest⟩ := ih start
      refine ⟨a, ?_, ?_, hstart, ?_⟩
      · rw [List.foldl_cons, better, if_pos hbetter]
        exact ha
      · obtain rfl | hmem := hmem
        · exact .inl rfl
        · exact .inr (List.mem_cons_of_mem _ hmem)
      · intro b hb
        obtain rfl | hb := List.mem_cons.mp hb
        · exact htrans _ _ _ hstart hbetter
        · exact hrest b hb
    · obtain ⟨a, ha, hmem, hstart, hrest⟩ := ih row
      have hrow : le row start = true := (htotal start row).resolve_left hbetter
      refine ⟨a, ?_, ?_, htrans _ _ _ hstart hrow, ?_⟩
      · rw [List.foldl_cons, better, if_neg hbetter]
        exact ha
      · obtain rfl | hmem := hmem
        · exact .inr List.mem_cons_self
        · exact .inr (List.mem_cons_of_mem _ hmem)
      · intro b hb
        obtain rfl | hb := List.mem_cons.mp hb
        · exact hstart
        · exact hrest b hb

/-- The first row in an order comes before all others that are searched. -/
theorem first_eq_some (htotal : ∀ a b, le a b = true ∨ le b a = true)
    (htrans : ∀ a b c, le a b = true → le b c = true → le a c = true) {table : Table α} {a : α}
    (h : table.first p le = some a) :
    a ∈ table.rows ∧ p a = true ∧ ∀ b ∈ table.rows, p b = true → le a b = true := by
  have hfold : (table.rows.filter p).foldl (better le) none = some a := h
  cases hrows : table.rows.filter p with
  | nil =>
    rw [hrows] at hfold
    cases hfold
  | cons row rest =>
    rw [hrows] at hfold
    obtain ⟨c, hc, hmem, hrow, hrest⟩ := foldl_better htotal htrans rest row
    obtain rfl : c = a := Option.some.inj (hc.symm.trans hfold)
    have hin : c ∈ table.rows.filter p := by
      rw [hrows]
      exact List.mem_cons.mpr hmem
    obtain ⟨hc, hpc⟩ := List.mem_filter.mp hin
    refine ⟨hc, hpc, fun b hb hpb => ?_⟩
    have hb : b ∈ table.rows.filter p := List.mem_filter.mpr ⟨hb, hpb⟩
    rw [hrows] at hb
    obtain rfl | hb := List.mem_cons.mp hb
    · exact hrow
    · exact hrest b hb

/-- Nothing comes first only if no row is searched. -/
theorem first_eq_none (htotal : ∀ a b, le a b = true ∨ le b a = true)
    (htrans : ∀ a b c, le a b = true → le b c = true → le a c = true) {table : Table α}
    (h : table.first p le = none) : ∀ b ∈ table.rows, p b = false := by
  have hfold : (table.rows.filter p).foldl (better le) none = none := h
  cases hrows : table.rows.filter p with
  | nil =>
    intro b hb
    rw [← Bool.not_eq_true]
    exact List.filter_eq_nil_iff.mp hrows b hb
  | cons row rest =>
    rw [hrows] at hfold
    obtain ⟨c, hc, -⟩ := foldl_better htotal htrans rest row
    cases hc.symm.trans hfold

end First

end Table

end Whaleshares
