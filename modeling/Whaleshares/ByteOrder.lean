import Mathlib
import Whaleshares.FileStream

/-!
# The order of bytes

The first differing byte decides between two texts, and a text comes before the longer
ones that it begins. Of two texts of one length the numbers that they are, with the first
byte the highest, have the same order. Filling up with zeros to one length keeps the order
of texts that have no zeros.
-/

namespace Whaleshares.ByteOrder

open FileStream

section Numbers

/-- Bytes make a number within their width. -/
theorem ofBytes_lt (bytes : List UInt8) : ofBytes bytes < 256 ^ bytes.length := by
  induction bytes with
  | nil => simp [ofBytes]
  | cons b rest ih =>
    have hb := b.toNat_lt
    rw [ofBytes, List.length_cons, Nat.pow_succ]
    omega

/-- The bytes of a number by division; behind the last one there are zeros. -/
theorem ofBytes_byte (bytes : List UInt8) (i : ℕ) :
    ofBytes bytes / 256 ^ i % 256 = (bytes.getD i 0).toNat := by
  induction bytes generalizing i with
  | nil => simp [ofBytes]
  | cons b rest ih =>
    have hb := b.toNat_lt
    cases i with
    | zero =>
      rw [Nat.pow_zero, Nat.div_one, ofBytes, List.getD_cons_zero]
      omega
    | succ i =>
      have hdrop : (b.toNat + 256 * ofBytes rest) / 256 = ofBytes rest := by omega
      rw [ofBytes, List.getD_cons_succ, ← ih i, Nat.pow_succ', ← Nat.div_div_eq_div_mul, hdrop]

/-- The bytes come back from their number. -/
theorem toBytes_ofBytes (bytes : List UInt8) : toBytes bytes.length (ofBytes bytes) = bytes := by
  induction bytes with
  | nil => rfl
  | cons b rest ih =>
    have hb := b.toNat_lt
    have hlow : UInt8.ofNat (b.toNat + 256 * ofBytes rest) = b := by
      apply UInt8.toNat_inj.mp
      rw [UInt8.toNat_ofNat']
      omega
    have hhigh : (b.toNat + 256 * ofBytes rest) / 256 = ofBytes rest := by omega
    rw [ofBytes, List.length_cons, toBytes, hlow, hhigh, ih]

/-- The last byte is the highest. -/
theorem ofBytes_append (bytes : List UInt8) (b : UInt8) :
    ofBytes (bytes ++ [b]) = ofBytes bytes + 256 ^ bytes.length * b.toNat := by
  induction bytes with
  | nil => simp [ofBytes]
  | cons c rest ih =>
    rw [List.cons_append, ofBytes, ih, ofBytes, List.length_cons, Nat.pow_succ', Nat.mul_add,
      Nat.mul_assoc, Nat.add_assoc]

/-- The number of some bytes with the first one the highest. -/
def bigEndian (bytes : List UInt8) : ℕ := ofBytes bytes.reverse

/-- The first byte of a big-endian number is the highest. -/
theorem bigEndian_cons (b : UInt8) (bytes : List UInt8) :
    bigEndian (b :: bytes) = bigEndian bytes + 256 ^ bytes.length * b.toNat := by
  rw [bigEndian, List.reverse_cons, ofBytes_append, List.length_reverse]
  rfl

/-- A big-endian number is within its width. -/
theorem bigEndian_lt (bytes : List UInt8) : bigEndian bytes < 256 ^ bytes.length := by
  have hlt := ofBytes_lt bytes.reverse
  rwa [List.length_reverse] at hlt

/-- Bytes of one length have the order of their numbers. -/
theorem bigEndian_lt_iff {xs ys : List UInt8} (h : xs.length = ys.length) :
    bigEndian xs < bigEndian ys ↔ xs < ys := by
  induction xs generalizing ys with
  | nil =>
    obtain rfl := List.eq_nil_of_length_eq_zero h.symm
    simp
  | cons x xs ih =>
    cases ys with
    | nil => cases h
    | cons y ys =>
      have hlength : xs.length = ys.length := Nat.succ_inj.mp h
      have hx := bigEndian_lt xs
      have hy := bigEndian_lt ys
      rw [hlength] at hx
      rw [bigEndian_cons, bigEndian_cons, hlength, List.cons_lt_cons_iff, ← ih hlength,
        UInt8.lt_iff_toNat_lt]
      generalize 256 ^ ys.length = unit at hx hy
      -- the rests stay below one unit of the leading byte
      obtain hlt | heq | hgt := Nat.lt_trichotomy x.toNat y.toNat
      · have hstep : unit * x.toNat + unit ≤ unit * y.toNat := by
          rw [← Nat.mul_succ]
          exact Nat.mul_le_mul_left unit hlt
        exact ⟨fun _ => .inl hlt, fun _ => by omega⟩
      · have hxy : x = y := UInt8.toNat_inj.mp heq
        rw [hxy]
        constructor
        · intro hsum
          exact .inr ⟨rfl, by omega⟩
        · rintro (hlt | ⟨-, hrest⟩)
          · omega
          · omega
      · have hstep : unit * y.toNat + unit ≤ unit * x.toNat := by
          rw [← Nat.mul_succ]
          exact Nat.mul_le_mul_left unit hgt
        constructor
        · intro hsum
          omega
        · rintro (hlt | ⟨hxy, -⟩)
          · omega
          · rw [hxy] at hgt
            omega

end Numbers

section Texts

/-- Of two pairs of parts the first parts decide, if they differ. -/
theorem append_lt_iff {xs ys xs' ys' : List UInt8} (h : xs.length = ys.length) :
    xs ++ xs' < ys ++ ys' ↔ xs < ys ∨ (¬ ys < xs ∧ xs' < ys') := by
  induction xs generalizing ys with
  | nil =>
    obtain rfl := List.eq_nil_of_length_eq_zero h.symm
    simp
  | cons x xs ih =>
    cases ys with
    | nil => cases h
    | cons y ys =>
      rw [List.cons_append, List.cons_append, List.cons_lt_cons_iff, List.cons_lt_cons_iff,
        List.cons_lt_cons_iff, ih (Nat.succ_inj.mp h)]
      simp only [UInt8.lt_iff_toNat_lt, ← UInt8.toNat_inj]
      obtain hlt | heq | hgt := Nat.lt_trichotomy x.toNat y.toNat
      · simp [hlt, hlt.ne', hlt.asymm]
      · simp [heq]
      · simp [hgt, hgt.ne', hgt.asymm]

/-- The first `width` bytes of a text, zeros where it is shorter. -/
def pad : ℕ → List UInt8 → List UInt8
  | 0, _ => []
  | width + 1, [] => 0 :: pad width []
  | width + 1, b :: rest => b :: pad width rest

/-- A padded text has its width. -/
@[simp] theorem pad_length (width : ℕ) (text : List UInt8) : (pad width text).length = width := by
  induction width generalizing text with
  | zero => rfl
  | succ width ih => cases text <;> simp [pad, ih]

/-- Cutting a text back to its front. -/
theorem pad_append (front rest : List UInt8) : pad front.length (front ++ rest) = front := by
  induction front with
  | nil => rfl
  | cons b tail ih => rw [List.length_cons, List.cons_append, pad, ih]

/-- Up to the first zero there is the text again. -/
theorem takeWhile_pad {width : ℕ} {text : List UInt8} (hzero : ∀ b ∈ text, b ≠ 0)
    (h : text.length ≤ width) : (pad width text).takeWhile (· ≠ 0) = text := by
  induction width generalizing text with
  | zero =>
    rw [List.eq_nil_of_length_eq_zero (Nat.le_zero.mp h)]
    rfl
  | succ width ih =>
    cases text with
    | nil => rfl
    | cons b rest =>
      have hb : b ≠ 0 := hzero b (List.mem_cons_self ..)
      have hrest := ih (fun c hc => hzero c (List.mem_cons_of_mem _ hc)) (Nat.le_of_succ_le_succ h)
      rw [pad, List.takeWhile_cons_of_pos (by simpa using hb), hrest]

/-- A text that fits is the front of what is filled up. -/
theorem take_pad {width : ℕ} {text : List UInt8} (h : text.length ≤ width) :
    (pad width text).take text.length = text := by
  induction width generalizing text with
  | zero =>
    rw [List.eq_nil_of_length_eq_zero (Nat.le_zero.mp h)]
    rfl
  | succ width ih =>
    cases text with
    | nil => rfl
    | cons b rest => rw [pad, List.length_cons, List.take_succ_cons, ih (Nat.le_of_succ_le_succ h)]

/-- The last place is a zero where the text is shorter. -/
theorem pad_last {width : ℕ} {text : List UInt8} (h : text.length < width) :
    (pad width text).getD (width - 1) 0 = 0 := by
  induction width generalizing text with
  | zero => omega
  | succ width ih =>
    have hmore : ∀ rest : List UInt8, rest.length ≤ width → ∀ b, (b :: rest).length < width + 1 →
        (b :: pad width rest).getD width 0 = 0 := by
      intro rest _ b hb
      rw [List.length_cons] at hb
      obtain ⟨n, rfl⟩ : ∃ n, width = n + 1 := ⟨width - 1, by omega⟩
      rw [List.getD_cons_succ]
      exact ih (by omega)
    cases text with
    | nil =>
      cases width with
      | zero => rfl
      | succ n => exact hmore [] (Nat.zero_le _) 0 (by simp)
    | cons b rest =>
      rw [List.length_cons] at h
      exact hmore rest (by omega) b (by rw [List.length_cons]; exact h)

/-- Zeros at the end keep the order of texts without zeros. -/
theorem pad_lt_iff {width : ℕ} {xs ys : List UInt8} (hxs : ∀ b ∈ xs, b ≠ 0)
    (hys : ∀ b ∈ ys, b ≠ 0) (hx : xs.length ≤ width) (hy : ys.length ≤ width) :
    pad width xs < pad width ys ↔ xs < ys := by
  have hpos : ∀ b : UInt8, b ≠ 0 → 0 < b.toNat := by
    intro b hb
    have hne : b.toNat ≠ 0 := fun h => hb (UInt8.toNat_inj.mp h)
    exact Nat.pos_of_ne_zero hne
  induction width generalizing xs ys with
  | zero =>
    rw [List.eq_nil_of_length_eq_zero (Nat.le_zero.mp hx),
      List.eq_nil_of_length_eq_zero (Nat.le_zero.mp hy)]
    rfl
  | succ width ih =>
    cases xs with
    | nil =>
      cases ys with
      | nil => simp
      | cons y ys =>
        have hy0 := hpos y (hys y (List.mem_cons_self ..))
        simp [pad, List.cons_lt_cons_iff, UInt8.lt_iff_toNat_lt, hy0]
    | cons x xs =>
      have hx0 := hpos x (hxs x (List.mem_cons_self ..))
      cases ys with
      | nil =>
        have hx' : x ≠ 0 := hxs x (List.mem_cons_self ..)
        simp [pad, List.cons_lt_cons_iff, UInt8.lt_iff_toNat_lt, hx']
      | cons y ys =>
        have hrest := ih (fun b hb => hxs b (List.mem_cons_of_mem _ hb))
          (fun b hb => hys b (List.mem_cons_of_mem _ hb)) (Nat.le_of_succ_le_succ hx)
          (Nat.le_of_succ_le_succ hy)
        rw [pad, pad, List.cons_lt_cons_iff, List.cons_lt_cons_iff]
        exact or_congr Iff.rfl (and_congr Iff.rfl hrest)

end Texts

end Whaleshares.ByteOrder
