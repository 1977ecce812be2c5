import Whaleshares.Positions
import Whaleshares.Protocol

/-!
# The scanner of account names

`is_valid_account_name` (`authority.cpp`) walks over a name by positions: it looks for
the next dot, checks the first character of the label before it, then the last one, then
those between, and goes on behind the dot. `authority.hpp` states the grammar that this
is to accept, and `Protocol.isValidAccountName` the check that the operations use.
-/

namespace Whaleshares.AccountNames

open Config Fc Protocol Positions

/-- The last `switch` and the one in the loop share these cases. -/
def isLetterOrDigit (b : UInt8) : Bool := isLetter b || isDigit b

/-- The character of `name` at position `i`; behind the last one stands a zero byte. -/
def charAt (name : Bytes) (i : ℕ) : UInt8 := name.getD i 0

/-- The position of the next dot from `start` on, `len` where there is none. -/
def endOfLabel (name : Bytes) (start : ℕ) : ℕ := (findFrom name 46 start).getD name.length

/-- A label ends within the name. -/
theorem endOfLabel_le (name : Bytes) (start : ℕ) : endOfLabel name start ≤ name.length := by
  unfold endOfLabel
  cases hfind : findFrom name 46 start with
  | none => exact le_refl _
  | some i => exact (findFrom_bounds hfind).2.le

/-- The loop of `is_valid_account_name`, entered with `begin = start`. -/
def scanFrom (name : Bytes) (start : ℕ) : Bool :=
  if endOfLabel name start - start < 3 then false
  else if !isLetter (charAt name start) then false
  else if !isLetterOrDigit (charAt name (endOfLabel name start - 1)) then false
  -- for( size_t i=begin+1; i<end-1; i++ )
  else if !((List.range' (start + 1) (endOfLabel name start - 1 - (start + 1))).all fun i =>
      isLetterOrDigit (charAt name i) || charAt name i = 45) then false
  else if endOfLabel name start = name.length then true
  else scanFrom name (endOfLabel name start + 1)
termination_by name.length - start
decreasing_by
  have hle := endOfLabel_le name start
  omega

/-- `is_valid_account_name`, as it is written. -/
def isValidAccountName (name : Bytes) : Bool :=
  if name.length < wlsMinAccountNameLength then false
  else if wlsMaxAccountNameLength < name.length then false
  else scanFrom name 0

section Grammar

/-- A label of the grammar: a lowercase letter first, a lowercase letter or digit last,
and at least one lowercase letter, digit or hyphen between them. -/
structure IsLabel (label : Bytes) : Prop where
  /-- Each label is three characters or more. -/
  long : 3 ≤ label.length
  /-- Each label begins with a letter. -/
  first : ∃ b rest, label = b :: rest ∧ isLetter b
  /-- Each label ends with a letter or digit. -/
  last : ∃ front b, label = front ++ [b] ∧ (isLetter b ∨ isDigit b)
  /-- Each label contains only letters, digits or hyphens. -/
  only : ∀ b ∈ label, isLetter b ∨ isDigit b ∨ b = 45

/-- A name of the grammar: one label or more, with dots between them, and a length in
the bounds. -/
structure IsName (name : Bytes) : Prop where
  /-- Not shorter than `WLS_MIN_ACCOUNT_NAME_LENGTH`. -/
  long : wlsMinAccountNameLength ≤ name.length
  /-- Not longer than `WLS_MAX_ACCOUNT_NAME_LENGTH`. -/
  short : name.length ≤ wlsMaxAccountNameLength
  /-- The labels. -/
  labels : ∃ labels : List Bytes, labels ≠ [] ∧ (∀ label ∈ labels, IsLabel label) ∧
    name = [46].intercalate labels

/-- A label of three characters or more is its first one, those between and its last one. -/
theorem label_parts {label : Bytes} (h : 3 ≤ label.length) :
    ∃ first between last, label = first :: (between ++ [last]) := by
  cases label with
  | nil => simp at h
  | cons first rest =>
    have hne : rest ≠ [] := by
      rintro rfl
      simp at h
    exact ⟨first, rest.dropLast, rest.getLast hne, by rw [List.dropLast_concat_getLast hne]⟩

/-- What the check of a label says about its parts. -/
theorem isValidLabel_parts (first last : UInt8) (between : Bytes) :
    isValidLabel (first :: (between ++ [last])) =
      (3 ≤ (first :: (between ++ [last])).length && isLetter first && isLetterOrDigit last &&
        between.all fun b => isLetterOrDigit b || b = 45) := by
  have hlast : (first :: (between ++ [last])).getLast? = some last := by
    rw [← List.cons_append]
    exact List.getLast?_concat
  have hbetween : (first :: (between ++ [last])).tail.dropLast = between := by
    rw [List.tail_cons, List.dropLast_concat]
  unfold isValidLabel
  rw [hlast, hbetween]
  rfl

/-- A letter or a digit is no dot, nor is a hyphen. -/
theorem not_dot {b : UInt8} (h : isLetter b ∨ isDigit b ∨ b = 45) : b ≠ 46 := by
  rintro rfl
  revert h
  decide

/-- The check of a label accepts the labels of the grammar. -/
theorem isValidLabel_iff (label : Bytes) : isValidLabel label = true ↔ IsLabel label := by
  by_cases hlong : 3 ≤ label.length
  · obtain ⟨first, between, last, rfl⟩ := label_parts hlong
    rw [isValidLabel_parts]
    simp only [isLetterOrDigit, Bool.and_eq_true, decide_eq_true_eq, List.all_eq_true,
      Bool.or_eq_true]
    constructor
    · rintro ⟨⟨⟨-, hfirst⟩, hlast⟩, hbetween⟩
      refine ⟨hlong, ⟨first, _, rfl, hfirst⟩, ⟨first :: between, last, rfl, hlast⟩, ?_⟩
      intro b hb
      simp only [List.mem_cons, List.mem_append, List.not_mem_nil, or_false] at hb
      obtain rfl | hb | rfl := hb
      · exact .inl hfirst
      · exact or_assoc.mp (hbetween b hb)
      · exact hlast.imp_right .inl
    · rintro ⟨-, ⟨b, rest, hsplit, hfirst⟩, ⟨front, b', hsplit', hlast⟩, honly⟩
      have hb : first = b := (List.cons.inj hsplit).1
      have hb' : last = b' := by
        rw [← List.cons_append] at hsplit'
        exact List.singleton_inj.mp (List.append_inj_right' hsplit' rfl)
      subst hb hb'
      refine ⟨⟨⟨hlong, hfirst⟩, hlast⟩, ?_⟩
      intro c hc
      exact or_assoc.mpr (honly c (by simp [hc]))
  · constructor
    · intro h
      simp [isValidLabel, hlong] at h
    · intro h
      exact absurd h.long hlong

/-- The check that the operations use splits a name at its dots. -/
theorem isValidAccountName_iff_isName (name : Bytes) :
    Protocol.isValidAccountName name = true ↔ IsName name := by
  unfold Protocol.isValidAccountName
  simp only [Bool.and_eq_true, decide_eq_true_eq, List.all_eq_true, isValidLabel_iff]
  constructor
  · rintro ⟨⟨hlong, hshort⟩, hlabels⟩
    have hjoin : [46].intercalate (name.splitOn 46) = name := List.intercalate_splitOn 46
    exact ⟨hlong, hshort, name.splitOn 46, List.splitOn_ne_nil 46 name, hlabels, hjoin.symm⟩
  · rintro ⟨hlong, hshort, labels, hne, hlabels, hjoin⟩
    have hdots : ∀ label ∈ labels, (46 : UInt8) ∉ label := by
      intro label hlabel hdot
      exact not_dot ((hlabels label hlabel).only 46 hdot) rfl
    have hsplit : name.splitOn 46 = labels := by
      rw [hjoin]
      exact List.splitOn_intercalate 46 hdots hne
    refine ⟨⟨hlong, hshort⟩, ?_⟩
    rw [hsplit]
    exact hlabels

end Grammar

section Scan

variable (front : Bytes) {label : Bytes} (rest : Bytes)

/-- Without a dot behind it the label goes on to the end of the name. -/
theorem endOfLabel_last (hdot : (46 : UInt8) ∉ label) :
    endOfLabel (front ++ label) front.length = front.length + label.length := by
  rw [endOfLabel, findFrom_absent front hdot, Option.getD_none, List.length_append]

/-- With a dot behind it the label ends there. -/
theorem endOfLabel_dot (hdot : (46 : UInt8) ∉ label) :
    endOfLabel (front ++ (label ++ 46 :: rest)) front.length = front.length + label.length := by
  rw [endOfLabel, findFrom_first front rest hdot, Option.getD_some]

/-- A character behind the front is one of the rest. -/
theorem charAt_front (i : ℕ) : charAt (front ++ rest) (front.length + i) = charAt rest i :=
  getD_front front rest i 0

/-- The positions strictly between two ends of a part of the name hold the characters
between its first and its last one. -/
theorem all_between (first last : UInt8) (between : Bytes) (p : UInt8 → Bool) :
    ((List.range' (front.length + 1) between.length).all fun i =>
      p (charAt (front ++ (first :: (between ++ [last]) ++ rest)) i)) = between.all p := by
  have hchar : ∀ i < between.length,
      charAt (front ++ (first :: (between ++ [last]) ++ rest)) (front.length + 1 + i) =
        between.getD i 0 := by
    intro i hi
    have hshift : front.length + 1 + i = front.length + (i + 1) := by omega
    have happend : first :: (between ++ [last]) ++ rest = first :: (between ++ ([last] ++ rest)) := by
      simp
    rw [hshift, charAt_front, happend, charAt, List.getD_cons_succ, List.getD_append _ _ _ _ hi]
  rw [Bool.eq_iff_iff, List.all_eq_true, List.all_eq_true]
  constructor
  · intro h b hb
    obtain ⟨i, hi, rfl⟩ := List.getElem_of_mem hb
    have hmem : front.length + 1 + i ∈ List.range' (front.length + 1) between.length := by
      rw [List.mem_range'_1]
      omega
    have hp := h _ hmem
    rwa [hchar i hi, List.getD_eq_getElem _ _ hi] at hp
  · intro h j hj
    rw [List.mem_range'_1] at hj
    obtain ⟨i, rfl⟩ := Nat.exists_eq_add_of_le hj.1
    have hi : i < between.length := by omega
    rw [hchar i hi, List.getD_eq_getElem _ _ hi]
    exact h _ (List.getElem_mem hi)

/-- One round of the loop: the checks between the positions are the check of the label,
and the loop ends with the name or goes on behind the dot. -/
theorem scanFrom_round
    (hend : endOfLabel (front ++ (label ++ rest)) front.length = front.length + label.length) :
    scanFrom (front ++ (label ++ rest)) front.length =
      (isValidLabel label &&
        (if front.length + label.length = (front ++ (label ++ rest)).length then true
          else scanFrom (front ++ (label ++ rest)) (front.length + label.length + 1))) := by
  rw [scanFrom, hend, Nat.add_sub_cancel_left]
  by_cases hlong : 3 ≤ label.length
  · obtain ⟨first, between, last, rfl⟩ := label_parts hlong
    have hfirst : charAt (front ++ (first :: (between ++ [last]) ++ rest)) front.length = first :=
      charAt_front front _ 0
    have hlast : charAt (front ++ (first :: (between ++ [last]) ++ rest))
        (front.length + (first :: (between ++ [last])).length - 1) = last := by
      have hpos : front.length + (first :: (between ++ [last])).length - 1 =
          front.length + (between.length + 1) := by
        simp only [List.length_cons, List.length_append, List.length_nil]
        omega
      rw [hpos, charAt_front, charAt]
      simp
    have hcount : front.length + (first :: (between ++ [last])).length - 1 -
        (front.length + 1) = between.length := by
      simp only [List.length_cons, List.length_append, List.length_nil]
      omega
    have hshort : ¬ (first :: (between ++ [last])).length < 3 := by omega
    have hbetween := all_between front rest first last between fun b => isLetterOrDigit b || b = 45
    rw [hfirst, hlast, hcount, hbetween, isValidLabel_parts, if_neg hshort, decide_eq_true hlong]
    cases isLetter first <;> cases isLetterOrDigit last <;>
      cases between.all fun b => isLetterOrDigit b || b = 45 <;> rfl
  · have hinvalid : isValidLabel label = false := by
      simp [isValidLabel, hlong]
    rw [hinvalid, if_pos (by omega), Bool.false_and]

/-- The loop checks the labels of what lies behind `front`. -/
theorem scanFrom_eq (front rest : Bytes) :
    scanFrom (front ++ rest) front.length = (rest.splitOn 46).all isValidLabel := by
  -- induction over the labels: each round leaves a shorter rest behind a longer front
  induction hn : rest.length using Nat.strong_induction_on generalizing front rest with
  | _ n ih =>
  obtain habsent | ⟨label, rest', rfl, hdot⟩ := absent_or_split (46 : UInt8) rest
  · have hend : endOfLabel (front ++ (rest ++ [])) front.length = front.length + rest.length := by
      rw [List.append_nil]
      exact endOfLabel_last front habsent
    have hround := scanFrom_round front [] hend
    rw [List.append_nil] at hround
    rw [hround, if_pos (List.length_append).symm,
      List.splitOn_eq_singleton habsent, Bool.and_true, List.all_cons, List.all_nil, Bool.and_true]
  · have hmore : front.length + label.length ≠ (front ++ (label ++ 46 :: rest')).length := by
      simp only [List.length_append, List.length_cons]
      omega
    have hbehind : scanFrom (front ++ (label ++ 46 :: rest')) (front.length + label.length + 1) =
        (rest'.splitOn 46).all isValidLabel := by
      have hnext := ih rest'.length (by simp only [List.length_append, List.length_cons] at hn; omega)
        (front ++ (label ++ [46])) rest' rfl
      rw [← hnext]
      simp [Nat.add_assoc]
    rw [scanFrom_round front _ (endOfLabel_dot front rest' hdot), if_neg hmore, hbehind,
      List.splitOn_append_cons_self_of_not_mem hdot, List.all_cons]

/-- The scanner and the check that the operations use agree. -/
theorem isValidAccountName_eq (name : Bytes) :
    isValidAccountName name = Protocol.isValidAccountName name := by
  have hscan : scanFrom name 0 = (name.splitOn 46).all isValidLabel := scanFrom_eq [] name
  unfold isValidAccountName Protocol.isValidAccountName
  rw [hscan]
  by_cases hlong : wlsMinAccountNameLength ≤ name.length
  · by_cases hshort : name.length ≤ wlsMaxAccountNameLength
    · simp [hlong, hshort, Nat.not_lt.mpr hlong, Nat.not_lt.mpr hshort]
    · simp [hlong, hshort, Nat.not_lt.mpr hlong]
  · simp [hlong]

/-- The scanner accepts exactly the names of the grammar. -/
theorem isValidAccountName_grammar (name : Bytes) :
    isValidAccountName name = true ↔ IsName name := by
  rw [isValidAccountName_eq, isValidAccountName_iff_isName]

end Scan

end Whaleshares.AccountNames
