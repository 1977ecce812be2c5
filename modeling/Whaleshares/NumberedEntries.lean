import Mathlib
import Whaleshares.Table

/-!
# Numbered entries of owners

A table holds entries of many owners, and each owner numbers its own with 32 bits. A new entry
gets the number after the newest one. Entries are dropped, the oldest first, while they are
further behind a number than a limit: as long as no number wraps, what is left is at most one
entry more than the limit.
-/

namespace Whaleshares.NumberedEntries

variable {α κ : Type}

/-- How entries are looked at. -/
structure Numbering (α κ : Type) where
  /-- The owner of an entry. -/
  owner : α → κ
  /-- Its number among those of the owner. -/
  number : α → UInt32

section Trimming

variable [DecidableEq κ] (N : Numbering α κ)

/-- Whether an entry is one of an owner. -/
def owned (owner : κ) (e : α) : Bool := N.owner e = owner

/-- The entry of an owner with the greatest number. -/
def newest (entries : Table α) (owner : κ) : Option α :=
  entries.first (owned N owner) fun a b => N.number b ≤ N.number a

/-- The entry of an owner with the least number. -/
def oldest (entries : Table α) (owner : κ) : Option α :=
  entries.first (owned N owner) fun a b => N.number a ≤ N.number b

/-- The number of the next entry. -/
def nextNumber (entries : Table α) (owner : κ) : UInt32 :=
  match newest N entries owner with
  | some e => N.number e + 1
  | none => 0

/-- The oldest entries of an owner go while they are too far behind a number. -/
def trim (limit next : UInt32) (owner : κ) : ℕ → Table α → Table α
  | 0, entries => entries
  | rounds + 1, entries =>
    match oldest N entries owner with
    | some e =>
      if limit < next - N.number e then
        trim limit next owner rounds
          (entries.remove fun x => N.owner x = owner && N.number x = N.number e)
      else entries
    | none => entries

/-- The number of entries of an owner. -/
def count (entries : Table α) (owner : κ) : ℕ := entries.rows.countP (owned N owner)

/-- No number is given twice to entries of one owner. -/
def Distinct (entries : Table α) : Prop :=
  (entries.rows.map fun e => (N.owner e, N.number e)).Nodup

variable {N} {entries : Table α} {owner : κ} {limit next : UInt32}

omit [DecidableEq κ] in
/-- Any two entries are in order one way or the other. -/
theorem number_total (a b : α) : decide (N.number a ≤ N.number b) = true ∨
    decide (N.number b ≤ N.number a) = true := by
  simp only [decide_eq_true_eq]
  exact UInt32.le_total _ _

omit [DecidableEq κ] in
/-- The order of the numbers is transitive. -/
theorem number_trans (a b c : α) (h : decide (N.number a ≤ N.number b) = true)
    (h' : decide (N.number b ≤ N.number c) = true) : decide (N.number a ≤ N.number c) = true := by
  simp only [decide_eq_true_eq] at h h' ⊢
  exact UInt32.le_trans h h'

/-- The oldest entry of an owner has its lowest number. -/
theorem oldest_eq_some {e : α} (h : oldest N entries owner = some e) :
    e ∈ entries.rows ∧ N.owner e = owner ∧
      ∀ x ∈ entries.rows, N.owner x = owner → N.number e ≤ N.number x := by
  obtain ⟨hmem, howner, hleast⟩ := Table.first_eq_some number_total number_trans h
  refine ⟨hmem, of_decide_eq_true howner, fun x hx hxowner => ?_⟩
  exact of_decide_eq_true (hleast x hx (decide_eq_true hxowner))

/-- The newest entry of an owner has its highest number. -/
theorem newest_eq_some {e : α} (h : newest N entries owner = some e) :
    e ∈ entries.rows ∧ N.owner e = owner ∧
      ∀ x ∈ entries.rows, N.owner x = owner → N.number x ≤ N.number e := by
  obtain ⟨hmem, howner, hgreatest⟩ := Table.first_eq_some (fun a b => number_total b a)
    (fun a b c h h' => number_trans c b a h' h) h
  refine ⟨hmem, of_decide_eq_true howner, fun x hx hxowner => ?_⟩
  exact of_decide_eq_true (hgreatest x hx (decide_eq_true hxowner))

/-- Without a newest entry the owner has none. -/
theorem newest_eq_none (h : newest N entries owner = none) :
    ∀ x ∈ entries.rows, N.owner x ≠ owner := by
  intro x hx
  have hnone := Table.first_eq_none (fun a b => number_total b a)
    (fun a b c h h' => number_trans c b a h' h) h x hx
  exact of_decide_eq_false hnone

/-- Without an oldest entry the owner has none. -/
theorem oldest_eq_none (h : oldest N entries owner = none) :
    ∀ x ∈ entries.rows, N.owner x ≠ owner := by
  intro x hx
  have hnone := Table.first_eq_none number_total number_trans h x hx
  exact of_decide_eq_false hnone

/-- Without a wrap the next number is greater than all that there are. -/
theorem lt_nextNumber (hroom : ∀ e ∈ entries.rows, N.owner e = owner → N.number e ≠ UInt32.ofNat (2 ^ 32 - 1))
    {e : α} (he : e ∈ entries.rows) (howner : N.owner e = owner) :
    N.number e < nextNumber N entries owner := by
  unfold nextNumber
  cases hnewest : newest N entries owner with
  | none => exact absurd howner (newest_eq_none hnewest e he)
  | some top =>
    obtain ⟨htop, htopOwner, hgreatest⟩ := newest_eq_some hnewest
    have hle := hgreatest e he howner
    have hne := hroom top htop htopOwner
    rw [UInt32.le_iff_toNat_le] at hle
    rw [ne_eq, ← UInt32.toNat_inj] at hne
    have hword : (N.number top).toNat < 2 ^ 32 := (N.number top).toNat_lt
    have hlast : (UInt32.ofNat (2 ^ 32 - 1)).toNat = 2 ^ 32 - 1 := rfl
    rw [hlast] at hne
    rw [UInt32.lt_iff_toNat_lt, UInt32.toNat_add]
    have hone : (1 : UInt32).toNat = 1 := rfl
    rw [hone, Nat.mod_eq_of_lt (by omega)]
    omega

/-- Trimming only drops entries. -/
theorem trim_sublist (limit next : UInt32) (owner : κ) (rounds : ℕ) (entries : Table α) :
    (trim N limit next owner rounds entries).rows.Sublist entries.rows := by
  induction rounds generalizing entries with
  | zero => exact List.Sublist.refl _
  | succ rounds ih =>
    unfold trim
    split
    · split
      · exact (ih _).trans List.filter_sublist
      · exact List.Sublist.refl _
    · exact List.Sublist.refl _

/-- Trimming drops entries of one owner only. -/
theorem trim_others (limit next : UInt32) (owner : κ) (rounds : ℕ) (entries : Table α)
    {p : α → Bool} (hp : ∀ e, p e = true → N.owner e ≠ owner) :
    (trim N limit next owner rounds entries).rows.filter p = entries.rows.filter p := by
  induction rounds generalizing entries with
  | zero => rfl
  | succ rounds ih =>
    unfold trim
    split
    · split
      · rw [ih]
        unfold Table.remove
        rw [List.filter_filter]
        refine List.filter_congr fun e _ => ?_
        cases hpe : p e with
        | false => rfl
        | true => simp [hp e hpe]
      · rfl
    · rfl

/-- After enough rounds nothing of the owner is too far behind a number that is not passed. -/
theorem trim_done (limit : UInt32) {rounds : ℕ} (hrounds : entries.rows.length ≤ rounds)
    (hle : ∀ e ∈ entries.rows, N.owner e = owner → N.number e ≤ next) :
    ∀ e ∈ (trim N limit next owner rounds entries).rows, N.owner e = owner →
      next.toNat ≤ (N.number e).toNat + limit.toNat := by
  induction rounds generalizing entries with
  | zero =>
    intro e he
    have hnil : entries.rows = [] := List.eq_nil_of_length_eq_zero (Nat.le_zero.mp hrounds)
    change e ∈ entries.rows at he
    rw [hnil] at he
    cases he
  | succ rounds ih =>
    unfold trim
    cases hold : oldest N entries owner with
    | none =>
      intro e he howner
      exact absurd howner (oldest_eq_none hold e he)
    | some first =>
      obtain ⟨hfirst, hfirstOwner, hleast⟩ := oldest_eq_some hold
      have hfirstLe := hle first hfirst hfirstOwner
      dsimp only
      split
      · refine ih ?_ fun e he howner => hle e (List.mem_of_mem_filter he) howner
        have hshorter : (entries.rows.filter fun x =>
            !(N.owner x = owner && N.number x = N.number first)).length < entries.rows.length := by
          refine List.length_filter_lt_length_iff_exists.mpr ⟨first, hfirst, ?_⟩
          simp [hfirstOwner]
        have hremoved : (entries.remove fun x =>
            N.owner x = owner && N.number x = N.number first).rows.length <
              entries.rows.length := hshorter
        omega
      · next hnear =>
        intro e he howner
        have hfar := hleast e he howner
        rw [UInt32.lt_iff_toNat_lt, UInt32.toNat_sub_of_le _ _ hfirstLe] at hnear
        rw [UInt32.le_iff_toNat_le] at hfar
        omega

/-- Entries of one owner that are near a number are few. -/
theorem count_le_of_near (hdistinct : Distinct N entries)
    (hnear : ∀ e ∈ entries.rows, N.owner e = owner →
      (N.number e).toNat ≤ next.toNat ∧ next.toNat ≤ (N.number e).toNat + limit.toNat) :
    count N entries owner ≤ limit.toNat + 1 := by
  have hnumbers : ((entries.rows.filter (owned N owner)).map fun e => (N.number e).toNat).Nodup := by
    have hpairs : ((entries.rows.filter (owned N owner)).map fun e => (N.owner e, N.number e)).Nodup :=
      hdistinct.sublist (List.filter_sublist.map _)
    refine List.Nodup.of_map (fun n => (owner, UInt32.ofNat n)) ?_
    rw [List.map_map]
    refine (List.map_congr_left fun e he => ?_) ▸ hpairs
    have howner : N.owner e = owner := of_decide_eq_true (List.mem_filter.mp he).2
    rw [howner]
    simp
  have hsubset : ((entries.rows.filter (owned N owner)).map fun e => (N.number e).toNat).toFinset ⊆
      Finset.Icc (next.toNat - limit.toNat) next.toNat := by
    intro n hn
    obtain ⟨e, he, rfl⟩ := List.mem_map.mp (List.mem_toFinset.mp hn)
    obtain ⟨hmem, howner⟩ := List.mem_filter.mp he
    obtain ⟨hle, hclose⟩ := hnear e hmem (of_decide_eq_true howner)
    rw [Finset.mem_Icc]
    omega
  have hcard := Finset.card_le_card hsubset
  rw [List.toFinset_card_of_nodup hnumbers, List.length_map, Nat.card_Icc] at hcard
  unfold count
  rw [List.countP_eq_length_filter]
  omega

/-- Fewer entries are counted as fewer. -/
theorem count_le_of_sublist {entries' : Table α} (h : entries'.rows.Sublist entries.rows) (owner : κ) :
    count N entries' owner ≤ count N entries owner := h.countP_le

omit [DecidableEq κ] in
/-- Fewer entries have distinct numbers as well. -/
theorem Distinct.of_sublist {entries' : Table α} (hs : Distinct N entries)
    (h : entries'.rows.Sublist entries.rows) : Distinct N entries' :=
  List.Nodup.sublist (h.map _) hs

/-- An owner whose numbers wrap has few entries, or the first number is taken. -/
def Spacious (N : Numbering α κ) (limit : UInt32) (entries : Table α) (owner : κ) : Prop :=
  (∃ e ∈ entries.rows, N.owner e = owner ∧ N.number e = UInt32.ofNat (2 ^ 32 - 1)) →
    (∀ e ∈ entries.rows, N.owner e = owner → N.number e ≠ 0) → count N entries owner ≤ limit.toNat

/-- Where the greatest number is given, the next one is the first. -/
theorem nextNumber_of_wrap {e : α} (he : e ∈ entries.rows) (howner : N.owner e = owner)
    (hlast : N.number e = UInt32.ofNat (2 ^ 32 - 1)) : nextNumber N entries owner = 0 := by
  unfold nextNumber
  cases hnewest : newest N entries owner with
  | none => rfl
  | some top =>
    obtain ⟨-, -, hgreatest⟩ := newest_eq_some hnewest
    have hle := hgreatest e he howner
    rw [hlast, UInt32.le_iff_toNat_le] at hle
    have hword : (N.number top).toNat < 2 ^ 32 := (N.number top).toNat_lt
    have hbound : (UInt32.ofNat (2 ^ 32 - 1)).toNat = 2 ^ 32 - 1 := rfl
    have htop : N.number top = UInt32.ofNat (2 ^ 32 - 1) := by
      rw [← UInt32.toNat_inj, hbound]
      omega
    dsimp only
    rw [htop]
    rfl

/-- A further entry of an owner is counted. -/
theorem count_append {entries' : Table α} {x : α} (hrows : entries'.rows = entries.rows ++ [x])
    (howner : N.owner x = owner) : count N entries' owner = count N entries owner + 1 := by
  have hx : owned N owner x = true := decide_eq_true howner
  unfold count
  rw [hrows, List.countP_append, List.countP_singleton, if_pos hx]

/-- A new entry and the trimming after it leave at most one entry more than the limit. -/
theorem count_insert_trim {entries' : Table α} {x : α} (hrows : entries'.rows = entries.rows ++ [x])
    (howner : N.owner x = owner) (hnumber : N.number x = nextNumber N entries owner)
    (hdistinct : Distinct N entries') (hspacious : Spacious N limit entries owner) :
    count N (trim N limit (nextNumber N entries owner) owner entries'.rows.length entries') owner ≤
      limit.toNat + 1 := by
  have htrim := trim_sublist (N := N) limit (nextNumber N entries owner) owner
    entries'.rows.length entries'
  by_cases hwraps : ∃ e ∈ entries.rows, N.owner e = owner ∧ N.number e = UInt32.ofNat (2 ^ 32 - 1)
  · obtain ⟨last, hlast, hlastOwner, hlastNumber⟩ := hwraps
    have hnext := nextNumber_of_wrap hlast hlastOwner hlastNumber
    have hfree : ∀ e ∈ entries.rows, N.owner e = owner → N.number e ≠ 0 := by
      intro e he heOwner hzero
      have hpairs := hdistinct
      unfold Distinct at hpairs
      rw [hrows, List.map_append, List.map_singleton] at hpairs
      refine (List.nodup_append'.mp hpairs).2.2 (List.mem_map_of_mem he) ?_
      rw [heOwner, hzero, howner, hnumber, hnext]
      exact List.mem_singleton_self _
    have hfew := hspacious ⟨last, hlast, hlastOwner, hlastNumber⟩ hfree
    have happend := count_append hrows howner
    have hless := count_le_of_sublist (N := N) htrim owner
    omega
  · have hroom : ∀ e ∈ entries.rows, N.owner e = owner →
        N.number e ≠ UInt32.ofNat (2 ^ 32 - 1) :=
      fun e he heOwner hlast => hwraps ⟨e, he, heOwner, hlast⟩
    have hle : ∀ e ∈ entries'.rows, N.owner e = owner →
        N.number e ≤ nextNumber N entries owner := by
      intro e he heOwner
      rw [hrows] at he
      obtain he | he := List.mem_append.mp he
      · exact UInt32.le_of_lt (lt_nextNumber hroom he heOwner)
      · rw [List.mem_singleton.mp he, hnumber]
        exact UInt32.le_refl _
    have hdone := trim_done limit (Nat.le_refl entries'.rows.length) hle
    exact count_le_of_near (hdistinct.of_sublist htrim) fun e he heOwner =>
      ⟨UInt32.le_iff_toNat_le.mp (hle e (htrim.subset he) heOwner), hdone e he heOwner⟩

end Trimming

end Whaleshares.NumberedEntries
