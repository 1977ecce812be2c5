import Whaleshares.AssetText

/-!
# What the parser of assets makes of a number

The whole part carries the sign, and the product and the sum with the fraction wrap
around. A text that is accepted is therefore read as the number that it says where that
number fits and no fraction follows a minus sign, and as another one elsewhere.
-/

namespace Whaleshares.AssetParsing

open Fc Assets Positions Decimals AssetText

/-- The number `w` stands in front of a blank, with nothing but white space before it. -/
def Written (w : Numeral) (source : Bytes) : Prop :=
  ∃ left rest, source = left ++ (w.text ++ 32 :: rest) ∧ ∀ b ∈ left, isSpace b

section Unique

/-- The sign that a text starts with. -/
def signOf (text : Bytes) : Sign :=
  if text.head? = some 43 then .plus else if text.head? = some 45 then .minus else .none

/-- The sign of a written number is its sign. -/
theorem signOf_text (sign : Sign) {digits : Bytes} (hdigits : AllDigits digits)
    (hsome : digits ≠ []) : signOf (sign.text ++ digits) = sign := by
  cases sign with
  | plus => rfl
  | minus => rfl
  | none =>
    cases digits with
    | nil => exact absurd rfl hsome
    | cons b rest =>
      obtain ⟨hplus, hminus⟩ := not_sign hdigits
      simp [signOf, Sign.text, hplus, hminus]

/-- A sign can be read off in front of digits. -/
theorem signed_unique {sign sign' : Sign} {digits digits' : Bytes} (hdigits : AllDigits digits)
    (hdigits' : AllDigits digits') (hsome : digits ≠ []) (hsome' : digits' ≠ [])
    (heq : sign.text ++ digits = sign'.text ++ digits') : sign = sign' ∧ digits = digits' := by
  have hsame : sign = sign' := by
    rw [← signOf_text sign hdigits hsome, heq, signOf_text sign' hdigits' hsome']
  subst hsame
  exact ⟨rfl, List.append_cancel_left heq⟩

/-- The parts of a number can be read off its text. -/
theorem text_injective {w w' : Numeral} (h : w.text = w'.text) : w = w' := by
  obtain ⟨sign, whole, fraction, hwhole, hsome, hfraction⟩ := w
  obtain ⟨sign', whole', fraction', hwhole', hsome', hfraction'⟩ := w'
  have hdot := whole_no_dot sign hwhole
  have hdot' := whole_no_dot sign' hwhole'
  have hparts : sign.text ++ whole = sign'.text ++ whole' ∧ fraction = fraction' := by
    simp only [Numeral.text] at h
    cases fraction with
    | none =>
      cases fraction' with
      | none =>
        rw [Numeral.tail, List.append_nil, List.append_nil] at h
        exact ⟨h, rfl⟩
      | some digits' =>
        rw [Numeral.tail, Numeral.tail, List.append_nil] at h
        exact absurd (by rw [h]; simp) hdot
    | some digits =>
      cases fraction' with
      | none =>
        rw [Numeral.tail, Numeral.tail, List.append_nil] at h
        exact absurd (by rw [← h]; simp) hdot'
      | some digits' =>
        obtain ⟨hbefore, hbehind⟩ := split_unique hdot hdot' h
        exact ⟨hbefore, by rw [hbehind]⟩
  obtain ⟨rfl, rfl⟩ := signed_unique hwhole hwhole' hsome hsome' hparts.1
  obtain rfl := hparts.2
  rfl

/-- A number starts with no white space. -/
theorem head_not_space (w : Numeral) (rest : Bytes) :
    ∀ b ∈ (w.text ++ 32 :: rest).head?, ¬ isSpace b := by
  intro b hb
  have hne : w.text ≠ [] := by
    rw [Numeral.text]
    intro hnil
    exact w.whole_some (List.append_eq_nil_iff.mp (List.append_eq_nil_iff.mp hnil).1).2
  have hmem : b ∈ w.text := by
    rw [List.head?_append_of_ne_nil _ hne] at hb
    exact List.mem_of_mem_head? hb
  rw [w.not_space hmem]
  exact Bool.false_ne_true

/-- At most one number stands in front of the blank. -/
theorem Written.unique {w w' : Numeral} {source : Bytes} (h : Written w source)
    (h' : Written w' source) : w = w' := by
  obtain ⟨left, rest, rfl, hleft⟩ := h
  obtain ⟨left', rest', heq, hleft'⟩ := h'
  obtain ⟨-, hbehind⟩ := leading_unique hleft hleft' (head_not_space w rest)
    (head_not_space w' rest') heq
  exact text_injective (split_unique w.no_blank w'.no_blank hbehind).1

end Unique

section Exactness

/-- The condition on a number: it fits into 64 bits with its decimals, and behind a minus
sign the fraction is zero. -/
structure Harmless (w : Numeral) : Prop where
  /-- No wrap-around. -/
  fits : FitsInt64 w.units
  /-- The fraction is added also where it should be taken away. -/
  sign : w.sign = .minus → value w.fractionDigits = 0

/-- The parser reads a number as what it says exactly where it is harmless. -/
theorem read_eq_units_iff {w : Numeral} (hw : w.Readable) :
    w.read = w.units ↔ Harmless w := by
  have hfraction := value_lt w.fractionDigits_digits
  have hpow : 10 ^ w.fractionDigits.length ≤ 10 ^ 14 :=
    Nat.pow_le_pow_right (by omega) (by have hplaces : w.fractionDigits.length < 15 := hw.places; omega)
  unfold Numeral.read
  rw [wrap64_eq_iff]
  cases hsign : w.sign with
  | minus =>
    -- the difference of the two values is twice the fraction
    have hdiff : w.units - (Sign.minus.apply (value w.whole) * 10 ^ w.places +
        value w.fractionDigits) = -(2 * (value w.fractionDigits : ℤ)) := by
      unfold Numeral.units Sign.apply
      rw [hsign]
      push_cast
      ring
    rw [hdiff]
    constructor
    · rintro ⟨hfits, hdvd⟩
      refine ⟨hfits, fun _ => ?_⟩
      omega
    · rintro ⟨hfits, hzero⟩
      rw [hzero hsign]
      exact ⟨hfits, dvd_zero _⟩
  | none =>
    have hsame : Sign.none.apply (value w.whole) * 10 ^ w.places + value w.fractionDigits =
        w.units := by
      unfold Numeral.units Sign.apply
      rw [hsign]
      push_cast
      rfl
    rw [hsame, sub_self]
    exact ⟨fun h => ⟨h.1, by rw [hsign]; nofun⟩, fun h => ⟨h.fits, dvd_zero _⟩⟩
  | plus =>
    have hsame : Sign.plus.apply (value w.whole) * 10 ^ w.places + value w.fractionDigits =
        w.units := by
      unfold Numeral.units Sign.apply
      rw [hsign]
      push_cast
      rfl
    rw [hsame, sub_self]
    exact ⟨fun h => ⟨h.1, by rw [hsign]; nofun⟩, fun h => ⟨h.fits, dvd_zero _⟩⟩

end Exactness

section Parsing

variable {lib : TextLib} (hexact : lib.Exact)
include hexact

/-- The number that the parser finds stands in front of the blank. -/
theorem written_of_ok {source : Bytes} {a : Asset} (h : assetFromString lib source = .ok a) :
    ∃ w, Written w source ∧ w.Readable ∧ a.amount = w.read := by
  obtain ⟨w, name, htrim, hreadable, -, -, rfl⟩ := (assetFromString_eq_ok hexact).mp h
  obtain ⟨left, right, hsplit, hleft, -⟩ := hexact.trim_spec source
  refine ⟨w, ⟨left, name ++ right, ?_, hleft⟩, hreadable, rfl⟩
  rw [htrim, List.append_assoc, List.cons_append] at hsplit
  exact hsplit

/-- A text that is accepted says one number, and its amount is that number, in the
smallest unit and without wrap-around, exactly where the number is harmless. -/
theorem amount_eq_units_iff {source : Bytes} {a : Asset}
    (h : assetFromString lib source = .ok a) :
    (∃! w, Written w source) ∧
      ∀ w, Written w source → (a.amount = w.units ∧ FitsInt64 w.units ↔ Harmless w) := by
  obtain ⟨w, hw, hreadable, hamount⟩ := written_of_ok hexact h
  refine ⟨⟨w, hw, fun w' hw' => hw'.unique hw⟩, ?_⟩
  intro w' hw'
  obtain rfl := hw.unique hw'
  rw [hamount, read_eq_units_iff hreadable]
  exact ⟨And.left, fun hharmless => ⟨hharmless, hharmless.fits⟩⟩

omit hexact in
/-- The amount of the sample text is that of its numeral. -/
theorem amount_eq_units_iff_sample :
    (∃! w, Written w (bytesOf "1.500 WLS")) ∧
      ∀ w, Written w (bytesOf "1.500 WLS") →
        ((1500 : ℤ) = w.units ∧ FitsInt64 w.units ↔ Harmless w) :=
  amount_eq_units_iff plainText_exact (a := ⟨1500, symbolOf 3 (bytesOf "WLS")⟩) rfl

/-- `-1.5` -/
def minusOneAndAHalf : Numeral where
  sign := .minus
  whole := bytesOf "1"
  fraction := some (bytesOf "5")
  whole_digits := by decide
  whole_some := by decide
  fraction_digits := by
    rintro _ ⟨⟩
    decide

/-- `10000000000000000.000` -/
def tenQuadrillion : Numeral where
  sign := .none
  whole := bytesOf "10000000000000000"
  fraction := some (bytesOf "000")
  whole_digits := by decide
  whole_some := by decide
  fraction_digits := by
    rintro _ ⟨⟩
    decide

omit hexact in
/-- A fraction behind a minus sign is added, and a product that does not fit is accepted
with another value. -/
theorem amount_ne_units :
    plainText.Exact ∧
      (Written minusOneAndAHalf (bytesOf "-1.5 WLS") ∧ minusOneAndAHalf.units = -15 ∧
        assetFromString plainText (bytesOf "-1.5 WLS") = .ok ⟨-5, symbolOf 1 (bytesOf "WLS")⟩) ∧
      (Written tenQuadrillion (bytesOf "10000000000000000.000 WLS") ∧
        tenQuadrillion.units = 10 ^ 19 ∧ ¬ FitsInt64 (10 ^ 19) ∧
        assetFromString plainText (bytesOf "10000000000000000.000 WLS") =
          .ok ⟨-8446744073709551616, symbolOf 3 (bytesOf "WLS")⟩) :=
  ⟨plainText_exact,
    ⟨⟨[], bytesOf "WLS", rfl, nofun⟩, rfl, rfl⟩,
    ⟨⟨[], bytesOf "WLS", rfl, nofun⟩, rfl, by decide, rfl⟩⟩

end Parsing

end Whaleshares.AssetParsing
