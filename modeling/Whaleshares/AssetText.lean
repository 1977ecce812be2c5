import Mathlib
import Whaleshares.Assets
import Whaleshares.ByteOrder
import Whaleshares.Decimals
import Whaleshares.Positions
import Whaleshares.Program

/-!
# The text of an asset

`asset::to_string` and `asset::from_string` (`asset.cpp`). An amount is printed as its
whole part, a dot and its fraction, whose leading zeros come from a power of ten that is
added to it and cut off again; the parser puts the same digit in front of the fraction,
finds the decimals from its length and combines the parts in raw 64-bit arithmetic, which
wraps around.

The conversions between texts and integers and the removal of white space are functions
of fc and enter as the fields of `TextLib`.
-/

namespace Whaleshares.AssetText

open Fc Assets Positions Decimals FileStream ByteOrder

/-- The functions of fc that the two conversions call. -/
structure TextLib where
  /-- `fc::to_string` of a signed 64-bit integer. -/
  toString : ℤ → Bytes
  /-- `fc::to_int64` -/
  toInt64 : Bytes → Except Exc ℤ
  /-- `fc::trim` -/
  trim : Bytes → Bytes

/-- The values of a signed 64-bit integer. -/
def FitsInt64 (n : ℤ) : Prop := -2 ^ 63 ≤ n ∧ n < 2 ^ 63

instance (n : ℤ) : Decidable (FitsInt64 n) :=
  inferInstanceAs (Decidable (-2 ^ 63 ≤ n ∧ n < 2 ^ 63))

/-- White space: the blank and the control characters from tab to carriage return. -/
def isSpace (b : UInt8) : Bool := b = 32 || (9 ≤ b.toNat && b.toNat ≤ 13)

/-- The conversions are exact decimal conversions, and trimming takes the white space
off both ends. -/
structure TextLib.Exact (lib : TextLib) : Prop where
  /-- What is printed for an integer. -/
  toString_eq : ∀ n, FitsInt64 n → lib.toString n = integerDigits n
  /-- What is read: an integer with an optional sign that fits, and nothing else. -/
  toInt64_eq_ok : ∀ text v, lib.toInt64 text = .ok v ↔ IntegerText text v ∧ FitsInt64 v
  /-- White space comes off, and none is left at the ends. -/
  trim_spec : ∀ text, ∃ left right, text = left ++ (lib.trim text ++ right) ∧
    (∀ b ∈ left, isSpace b) ∧ (∀ b ∈ right, isSpace b) ∧
    (∀ b ∈ (lib.trim text).head?, isSpace b = false) ∧
    (∀ b ∈ (lib.trim text).getLast?, isSpace b = false)

/-- The library with the conversions and the trimming written out. -/
def plainText : TextLib where
  toString := integerDigits
  toInt64 := fun text =>
    match readInteger text with
    | some v => if FitsInt64 v then .ok v else .error ⟨.overflow, "Couldn't parse int64_t"⟩
    | none => .error ⟨.overflow, "Couldn't parse int64_t"⟩
  trim := trim isSpace

/-- The plain text is exact. -/
theorem plainText_exact : plainText.Exact where
  toString_eq := fun _ _ => rfl
  toInt64_eq_ok := by
    intro text v
    rw [← readInteger_eq_some]
    cases hread : readInteger text with
    | none => simp [plainText, hread]
    | some u =>
      by_cases hu : FitsInt64 u
      · simp only [plainText, hread, if_pos hu, Except.ok.injEq, Option.some.injEq]
        constructor
        · rintro rfl
          exact ⟨rfl, hu⟩
        · exact And.left
      · simp only [plainText, hread, if_neg hu, Option.some.injEq]
        constructor
        · nofun
        · rintro ⟨rfl, hv⟩
          exact absurd hv hu
  trim_spec := trim_spec isSpace

/-- `decimals` -/
def decimals (symbol : Symbol) : Except Exc ℕ := do
  let result := symbol % 256
  fcAssert (result < 15) "result < 15"
  pure result

/-- `set_decimals`; the argument is cut to a byte. -/
def setDecimals (symbol : Symbol) (d : ℕ) : Except Exc Symbol := do
  fcAssert (d % 256 < 15) "d < 15"
  pure (symbol - symbol % 256 + d % 256)

/-- The powers of ten that `precision` looks up. -/
def precisionTable : List ℤ :=
  [1, 10, 100, 1000, 10000,
   100000, 1000000, 10000000, 100000000,
   1000000000, 10000000000,
   100000000000, 1000000000000,
   10000000000000, 100000000000000]

/-- `precision` -/
def precision (symbol : Symbol) : Except Exc ℤ := do
  let d ← decimals symbol
  pure (precisionTable.getD d 0)

/-- `to_string` -/
def assetToString (lib : TextLib) (a : Asset) : Except Exc Bytes := do
  let prec ← precision a.symbol
  let whole := lib.toString (Int.tdiv a.amount prec)
  let result :=
    if 1 < prec then whole ++ 46 :: (lib.toString (prec + Int.tmod a.amount prec)).drop 1
    else whole
  let name ← symbolName a.symbol
  pure (result ++ 32 :: name)

/-- The value that a signed 64-bit variable holds after raw arithmetic. -/
def wrap64 (n : ℤ) : ℤ := Int.bmod n (2 ^ 64)

/-- `memcpy( sy+1, symbol.c_str(), symbol_size )` into a symbol whose name is zero. -/
def copyName (symbol : Symbol) (name : Bytes) : Symbol := symbol + 256 * ofBytes name

/-- The number in front of the space, with the decimals that it sets. -/
def readNumber (lib : TextLib) (s : Bytes) (spacePos : ℕ) : Option ℕ → Except Exc (ℤ × Symbol)
  | some dotPos => do
    fcAssert (dotPos < spacePos) "space_pos > dot_pos"
    let intpart := substr s 0 dotPos
    let fractpart := 49 :: substr s (dotPos + 1) (spacePos - dotPos - 1)
    let symbol ← setDecimals 0 (fractpart.length - 1)
    let amount ← lib.toInt64 intpart
    let prec ← precision symbol
    let scaled := wrap64 (amount * prec)
    let fract ← lib.toInt64 fractpart
    let added := wrap64 (scaled + fract)
    pure (wrap64 (added - prec), symbol)
  | none => do
    let amount ← lib.toInt64 (substr s 0 spacePos)
    let symbol ← setDecimals 0 0
    pure (amount, symbol)

/-- `from_string` -/
def assetFromString (lib : TextLib) (source : Bytes) : Except Exc Asset :=
  let s := lib.trim source
  match findFrom s 32 0 with
  | none => .error (failed "space_pos != std::string::npos")
  | some spacePos => do
    let (amount, symbol) ← readNumber lib s spacePos (findFrom s 46 0)
    let name := s.drop (spacePos + 1)
    if 0 < name.length then
      fcAssert (name.length ≤ 6) "symbol_size <= 6"
      pure ⟨amount, copyName symbol name⟩
    else pure ⟨amount, symbol⟩

section Symbols

/-- The symbol with `d` decimals and a name, `index : field` of the source. -/
def symbolOf (d : ℕ) (name : Bytes) : Symbol := d + 256 * ofBytes name

/-- The symbol has the decimals that it is built with. -/
theorem decimals_symbolOf {d : ℕ} (name : Bytes) (h : d < 15) :
    decimals (symbolOf d name) = .ok d := by
  have hmod : (d + 256 * ofBytes name) % 256 = d := by omega
  have hlt : decide (d < 15) = true := decide_eq_true h
  simp only [decimals, symbolOf, hmod, fcAssert_of hlt]
  rfl

/-- The table holds the powers of ten. -/
theorem precisionTable_eq {d : ℕ} (h : d < 15) : precisionTable.getD d 0 = 10 ^ d := by
  revert d
  decide

/-- The symbol has the precision of its decimals. -/
theorem precision_symbolOf {d : ℕ} (name : Bytes) (h : d < 15) :
    precision (symbolOf d name) = .ok (10 ^ d) := by
  unfold precision
  rw [decimals_symbolOf name h, ← precisionTable_eq h]
  rfl

/-- Reading `n` bytes of a name up to the first zero. -/
theorem takeWhile_name {name : Bytes} (hname : ∀ b ∈ name, b ≠ 0) {n : ℕ} (h : name.length ≤ n) :
    ((List.range n).map fun i => name.getD i 0).takeWhile (· ≠ 0) = name := by
  induction n generalizing name with
  | zero => rw [List.eq_nil_of_length_eq_zero (by omega : name.length = 0)]; rfl
  | succ n ih =>
    rw [List.range_succ_eq_map, List.map_cons, List.map_map]
    cases name with
    | nil => simp
    | cons b rest =>
      have hb : b ≠ 0 := hname b (List.mem_cons_self ..)
      have hrest := ih (fun c hc => hname c (List.mem_cons_of_mem _ hc)) (Nat.le_of_succ_le_succ h)
      rw [List.getD_cons_zero, List.takeWhile_cons_of_pos (by simpa using hb)]
      exact congrArg (b :: ·) hrest

/-- The name of a symbol comes back from it. -/
theorem symbolName_symbolOf {d : ℕ} {name : Bytes} (hd : d < 256) (hlength : name.length ≤ 6)
    (hname : ∀ b ∈ name, b ≠ 0) : symbolName (symbolOf d name) = .ok name := by
  have hlt : ofBytes name < 256 ^ 6 :=
    (ofBytes_lt name).trans_le (Nat.pow_le_pow_right (by omega) hlength)
  have hlast : (d + 256 * ofBytes name) / 2 ^ 56 % 256 = 0 := by omega
  have hdrop : (d + 256 * ofBytes name) / 256 = ofBytes name := by omega
  have hbyte : ∀ i, UInt8.ofNat (symbolOf d name / 256 ^ (i + 1) % 256) = name.getD i 0 := by
    intro i
    rw [symbolOf, Nat.pow_succ', ← Nat.div_div_eq_div_mul, hdrop, ofBytes_byte,
      UInt8.ofNat_toNat]
  have hmap : ([1, 2, 3, 4, 5, 6].map fun i => UInt8.ofNat (symbolOf d name / 256 ^ i % 256)) =
      (List.range 6).map fun i => name.getD i 0 := by
    rw [show ([1, 2, 3, 4, 5, 6] : List ℕ) = (List.range 6).map (· + 1) from rfl, List.map_map]
    exact List.map_congr_left fun i _ => hbyte i
  have hzero : symbolOf d name / 2 ^ 56 % 256 = 0 := hlast
  unfold symbolName
  rw [if_pos hzero, hmap, takeWhile_name hname hlength]

/-- Setting the decimals of the zero symbol and copying a name into it spells a symbol. -/
theorem setDecimals_zero {d : ℕ} (h : d < 15) : setDecimals 0 d = .ok (symbolOf d []) := by
  have hmod : d % 256 = d := by omega
  have hlt : decide (d < 15) = true := decide_eq_true h
  unfold setDecimals
  rw [hmod, fcAssert_of hlt]
  simp [symbolOf, ofBytes]

end Symbols

section Raw

/-- Raw arithmetic wraps around once, at its end. -/
theorem wrap64_steps (product fract prec : ℤ) :
    wrap64 (wrap64 (wrap64 product + fract) - prec) = wrap64 (product + fract - prec) := by
  unfold wrap64
  rw [Int.bmod_sub_bmod, sub_eq_add_neg, sub_eq_add_neg, add_assoc, add_assoc, Int.bmod_add_bmod]

/-- A number wraps to another if that fits and the two differ by a multiple of 2^64. -/
theorem wrap64_eq_iff (n m : ℤ) : wrap64 n = m ↔ FitsInt64 m ∧ (2 ^ 64 : ℤ) ∣ m - n := by
  unfold wrap64 FitsInt64
  rw [Int.bmod_eq_iff (by omega)]
  norm_num
  tauto

/-- A value that fits is kept. -/
theorem wrap64_of_fits {n : ℤ} (h : FitsInt64 n) : wrap64 n = n := by
  rw [wrap64_eq_iff, sub_self]
  exact ⟨h, dvd_zero _⟩

end Raw

section Numerals

/-- The sign in front of a number. -/
inductive Sign where
  | none
  | plus
  | minus
  deriving DecidableEq

/-- How a sign is written. -/
def Sign.text : Sign → Bytes
  | none => []
  | plus => [43]
  | minus => [45]

/-- A magnitude with a sign. -/
def Sign.apply : Sign → ℕ → ℤ
  | minus, n => -n
  | _, n => n

/-- A decimal number as it is written: digits, at least one, maybe with a sign before
them and a dot and more digits behind them. -/
structure Numeral where
  /-- The sign. -/
  sign : Sign
  /-- The digits before the dot. -/
  whole : Bytes
  /-- The digits behind the dot, if there is one. -/
  fraction : Option Bytes
  whole_digits : AllDigits whole
  whole_some : whole ≠ []
  fraction_digits : ∀ digits ∈ fraction, AllDigits digits

namespace Numeral

/-- What is written for the dot and the fraction. -/
def tail : Option Bytes → Bytes
  | none => []
  | some digits => 46 :: digits

/-- The number as it is written. -/
def text (w : Numeral) : Bytes := w.sign.text ++ w.whole ++ tail w.fraction

/-- The digits of the fraction. -/
def fractionDigits (w : Numeral) : Bytes := w.fraction.getD []

/-- The number of fraction digits. -/
def places (w : Numeral) : ℕ := w.fractionDigits.length

/-- The number written, times ten to the number of its fraction digits. -/
def units (w : Numeral) : ℤ :=
  w.sign.apply (value w.whole * 10 ^ w.places + value w.fractionDigits)

/-- The fraction is written in digits. -/
theorem fractionDigits_digits (w : Numeral) : AllDigits w.fractionDigits := by
  unfold fractionDigits
  cases hfraction : w.fraction with
  | none => simp [AllDigits]
  | some digits => exact w.fraction_digits digits hfraction

end Numeral

/-- The text of an integer is a sign and digits. -/
theorem integerText_iff {text : Bytes} {v : ℤ} : IntegerText text v ↔
    ∃ (sign : Sign) (digits : Bytes), text = sign.text ++ digits ∧ AllDigits digits ∧
      digits ≠ [] ∧ v = sign.apply (value digits) := by
  constructor
  · rintro (⟨hdigits, hsome⟩ | ⟨hdigits, hsome⟩ | ⟨hdigits, hsome⟩)
    · exact ⟨.none, _, rfl, hdigits, hsome, rfl⟩
    · exact ⟨.plus, _, rfl, hdigits, hsome, rfl⟩
    · exact ⟨.minus, _, rfl, hdigits, hsome, rfl⟩
  · rintro ⟨sign, digits, rfl, hdigits, hsome, rfl⟩
    cases sign with
    | none => exact .plain hdigits hsome
    | plus => exact .plus hdigits hsome
    | minus => exact .minus hdigits hsome

/-- A byte of the whole part and its sign is a digit or a sign. -/
theorem whole_bytes {sign : Sign} {digits : Bytes} (h : AllDigits digits) {b : UInt8}
    (hb : b ∈ sign.text ++ digits) : b = 43 ∨ b = 45 ∨ (48 ≤ b.toNat ∧ b.toNat ≤ 57) := by
  rw [List.mem_append] at hb
  obtain hb | hb := hb
  · cases sign with
    | none => cases hb
    | plus => exact .inl (List.mem_singleton.mp hb)
    | minus => exact .inr (.inl (List.mem_singleton.mp hb))
  · exact .inr (.inr (h b hb))

/-- No dot stands in the whole part. -/
theorem whole_no_dot (sign : Sign) {digits : Bytes} (h : AllDigits digits) :
    (46 : UInt8) ∉ sign.text ++ digits := by
  intro hb
  have hcases := whole_bytes h hb
  revert hcases
  decide

/-- A byte of a number is no white space. -/
theorem Numeral.not_space (w : Numeral) {b : UInt8} (hb : b ∈ w.text) : isSpace b = false := by
  have hcases : b = 43 ∨ b = 45 ∨ b = 46 ∨ (48 ≤ b.toNat ∧ b.toNat ≤ 57) := by
    rw [Numeral.text, List.mem_append] at hb
    obtain hb | hb := hb
    · obtain hb | hb | hb := whole_bytes w.whole_digits hb
      · exact .inl hb
      · exact .inr (.inl hb)
      · exact .inr (.inr (.inr hb))
    · cases hfraction : w.fraction with
      | none => rw [hfraction] at hb; cases hb
      | some digits =>
        rw [hfraction, Numeral.tail, List.mem_cons] at hb
        obtain hb | hb := hb
        · exact .inr (.inr (.inl hb))
        · exact .inr (.inr (.inr (w.fraction_digits digits hfraction b hb)))
  obtain rfl | rfl | rfl | hb := hcases
  · rfl
  · rfl
  · rfl
  · have hne : b ≠ 32 := by
      rintro rfl
      revert hb
      decide
    simp only [isSpace, hne, decide_false, Bool.false_or, Bool.and_eq_false_iff,
      decide_eq_false_iff_not]
    omega

/-- No blank stands in a number. -/
theorem Numeral.no_blank (w : Numeral) : (32 : UInt8) ∉ w.text := by
  intro hb
  have hspace := w.not_space hb
  revert hspace
  decide

end Numerals

section Reading

/-- What the parser makes of a number: the sign goes with the whole part, and the
fraction is added to it. -/
def Numeral.read (w : Numeral) : ℤ :=
  wrap64 (w.sign.apply (value w.whole) * 10 ^ w.places + value w.fractionDigits)

/-- The number is one that the parser accepts: fewer than 15 decimals and a whole part
that fits. -/
structure Numeral.Readable (w : Numeral) : Prop where
  places : w.places < 15
  fits : FitsInt64 (w.sign.apply (value w.whole))

/-- A dot behind the space is refused. -/
theorem readNumber_late (lib : TextLib) (s : Bytes) {spacePos dotPos : ℕ} (h : ¬ dotPos < spacePos)
    (r : ℤ × Symbol) : readNumber lib s spacePos (some dotPos) ≠ .ok r := by
  intro hr
  unfold readNumber at hr
  obtain ⟨u, hu, -⟩ := Program.bind_eq_ok hr
  exact h (of_decide_eq_true (fcAssert_eq_ok hu))

/-- The one in front of a fraction leaves only digits to be read behind it. -/
theorem lead_text {digits : Bytes} {u : ℤ} : IntegerText (49 :: digits) u ↔
    AllDigits digits ∧ u = 10 ^ digits.length + value digits := by
  have hvalue : value (49 :: digits) = 10 ^ digits.length + value digits := by
    rw [value_cons]
    simp
  have hlead : AllDigits (49 :: digits) ↔ AllDigits digits := by
    unfold AllDigits
    rw [List.forall_mem_cons]
    simp
  have hread : readInteger (49 :: digits) =
      if AllDigits digits then some ((10 ^ digits.length + value digits : ℕ) : ℤ) else none := by
    simp only [readInteger, hlead, hvalue]
    rfl
  rw [← readInteger_eq_some, hread]
  push_cast
  constructor
  · intro h
    split at h
    · next hdigits => exact ⟨hdigits, (Option.some.inj h).symm⟩
    · cases h
  · rintro ⟨hdigits, rfl⟩
    rw [if_pos hdigits]

/-- A fraction that fits behind the one has at most eighteen digits, so that their number
is not cut when it is stored in a byte. -/
theorem lead_short {digits : Bytes} (h : FitsInt64 (10 ^ digits.length + value digits)) :
    digits.length ≤ 18 := by
  by_contra hlong
  have hpow : 10 ^ 19 ≤ 10 ^ digits.length := Nat.pow_le_pow_right (by omega) (by omega)
  have hfits : (10 ^ digits.length + value digits : ℕ) < 2 ^ 63 := by exact_mod_cast h.2
  omega

/-- Fewer than 15 digits behind the one fit. -/
theorem lead_fits {digits : Bytes} (h : AllDigits digits) (hshort : digits.length < 15) :
    FitsInt64 (10 ^ digits.length + value digits) := by
  have hvalue := value_lt h
  have hpow : 10 ^ digits.length ≤ 10 ^ 14 := Nat.pow_le_pow_right (by omega) (by omega)
  have hsum : (10 ^ digits.length + value digits : ℕ) < 2 ^ 63 := by omega
  have hcast : (10 ^ digits.length + value digits : ℤ) < 2 ^ 63 := by exact_mod_cast hsum
  have hnonneg : (0 : ℤ) ≤ 10 ^ digits.length + value digits := by positivity
  exact ⟨by omega, hcast⟩

variable {lib : TextLib} (hexact : lib.Exact)
include hexact

/-- Reading a number without a dot: the text up to the space. -/
theorem readNumber_whole {before rest : Bytes} {r : ℤ × Symbol} :
    readNumber lib (before ++ 32 :: rest) before.length none = .ok r ↔
      IntegerText before r.1 ∧ FitsInt64 r.1 ∧ r.2 = symbolOf 0 [] := by
  have hsubstr : substr (before ++ 32 :: rest) 0 before.length = before :=
    substr_part [] before (32 :: rest)
  have hsymbol := setDecimals_zero (d := 0) (by omega)
  unfold readNumber
  rw [hsubstr, hsymbol]
  constructor
  · intro h
    obtain ⟨v, hv, hr⟩ := Program.bind_eq_ok h
    cases hr
    obtain ⟨htext, hfits⟩ := (hexact.toInt64_eq_ok before v).mp hv
    exact ⟨htext, hfits, rfl⟩
  · rintro ⟨htext, hfits, hr⟩
    obtain ⟨v, symbol⟩ := r
    cases hr
    rw [(hexact.toInt64_eq_ok before v).mpr ⟨htext, hfits⟩]
    rfl

/-- Reading a number with a dot: the text before it and the digits behind it. -/
theorem readNumber_fraction {before digits rest : Bytes} {r : ℤ × Symbol} :
    readNumber lib (before ++ 46 :: (digits ++ 32 :: rest)) (before.length + 1 + digits.length)
        (some before.length) = .ok r ↔
      ∃ v, IntegerText before v ∧ FitsInt64 v ∧ AllDigits digits ∧ digits.length < 15 ∧
        r = (wrap64 (v * 10 ^ digits.length + value digits), symbolOf digits.length []) := by
  have hint : substr (before ++ 46 :: (digits ++ 32 :: rest)) 0 before.length = before :=
    substr_part [] before _
  have hfract : substr (before ++ 46 :: (digits ++ 32 :: rest)) (before.length + 1)
      (before.length + 1 + digits.length - before.length - 1) = digits := by
    have hcount : before.length + 1 + digits.length - before.length - 1 = digits.length := by omega
    have hpart := substr_part (before ++ [46]) digits (32 :: rest)
    rw [List.length_append, List.length_singleton, List.append_assoc] at hpart
    rw [hcount]
    exact hpart
  have hbefore : decide (before.length < before.length + 1 + digits.length) = true :=
    decide_eq_true (by omega)
  have hsize : (49 :: digits).length - 1 = digits.length := by
    rw [List.length_cons]
    omega
  simp only [readNumber, hint, hfract, hsize, fcAssert_of hbefore]
  constructor
  · intro h
    obtain ⟨_, -, h⟩ := Program.bind_eq_ok h
    obtain ⟨symbol, hsymbol, h⟩ := Program.bind_eq_ok h
    obtain ⟨v, hv, h⟩ := Program.bind_eq_ok h
    obtain ⟨prec, hprec, h⟩ := Program.bind_eq_ok h
    obtain ⟨u, hu, h⟩ := Program.bind_eq_ok h
    obtain ⟨htext, hfits⟩ := (hexact.toInt64_eq_ok before v).mp hv
    obtain ⟨hlead, hsum⟩ := (hexact.toInt64_eq_ok (49 :: digits) u).mp hu
    obtain ⟨hdigits, rfl⟩ := lead_text.mp hlead
    -- the length is not cut to a byte, so the check of the decimals is about the length
    have hlength := lead_short hsum
    have hshort : digits.length < 15 := by
      obtain ⟨_, hcheck, -⟩ := Program.bind_eq_ok hsymbol
      have hmod := of_decide_eq_true (fcAssert_eq_ok hcheck)
      omega
    rw [setDecimals_zero hshort] at hsymbol
    cases hsymbol
    rw [precision_symbolOf [] hshort] at hprec
    cases hprec
    cases h
    refine ⟨v, htext, hfits, hdigits, hshort, ?_⟩
    rw [wrap64_steps]
    congr 2
    ring
  · rintro ⟨v, htext, hfits, hdigits, hshort, rfl⟩
    have hv := (hexact.toInt64_eq_ok before v).mpr ⟨htext, hfits⟩
    have hu := (hexact.toInt64_eq_ok (49 :: digits) _).mpr
      ⟨lead_text.mpr ⟨hdigits, rfl⟩, lead_fits hdigits hshort⟩
    rw [setDecimals_zero hshort, hv, hu]
    have hsum : v * 10 ^ digits.length + (10 ^ digits.length + value digits) -
        10 ^ digits.length = v * 10 ^ digits.length + value digits := by ring
    rw [← hsum, ← wrap64_steps]
    change (precision (symbolOf digits.length []) >>= fun prec => _) = _
    rw [precision_symbolOf [] hshort]
    rfl

omit hexact in
/-- Without a blank nothing is read; with one, the number before it and the name behind. -/
theorem assetFromString_split {source : Bytes} {a : Asset} :
    assetFromString lib source = .ok a ↔ ∃ (before name : Bytes) (r : ℤ × Symbol),
      lib.trim source = before ++ 32 :: name ∧ (32 : UInt8) ∉ before ∧
      readNumber lib (before ++ 32 :: name) before.length
        (findFrom (before ++ 32 :: name) 46 0) = .ok r ∧
      name.length ≤ 6 ∧ a = ⟨r.1, copyName r.2 name⟩ := by
  unfold assetFromString
  obtain habsent | ⟨before, name, hs, hbefore⟩ := absent_or_split (32 : UInt8) (lib.trim source)
  · have hnone : findFrom (lib.trim source) 32 0 = none := findFrom_absent [] habsent
    simp only [hnone]
    constructor
    · nofun
    · rintro ⟨before, name, r, hs, -⟩
      rw [hs] at habsent
      simp at habsent
  · have hsome := findFrom_start name hbefore
    have hname : (before ++ 32 :: name).drop (before.length + 1) = name := by
      rw [← List.drop_drop, List.drop_left]
      rfl
    have hend : ∀ r : ℤ × Symbol,
        ((if 0 < name.length then do
            fcAssert (name.length ≤ 6) "symbol_size <= 6"
            pure (⟨r.1, copyName r.2 name⟩ : Asset)
          else pure ⟨r.1, r.2⟩) = Except.ok a) ↔
          name.length ≤ 6 ∧ a = ⟨r.1, copyName r.2 name⟩ := by
      intro r
      cases name with
      | nil =>
        simp only [List.length_nil, copyName, ofBytes]
        constructor
        · intro h
          cases h
          exact ⟨by omega, rfl⟩
        · rintro ⟨-, rfl⟩
          rfl
      | cons b rest =>
        rw [if_pos (by simp)]
        constructor
        · intro h
          obtain ⟨_, hcheck, hr⟩ := Program.bind_eq_ok h
          cases hr
          exact ⟨of_decide_eq_true (fcAssert_eq_ok hcheck), rfl⟩
        · rintro ⟨hlength, rfl⟩
          rw [fcAssert_of (decide_eq_true hlength)]
          rfl
    rw [hs]
    simp only [hsome, hname]
    constructor
    · intro h
      obtain ⟨r, hr, h⟩ := Program.bind_eq_ok h
      obtain ⟨hlength, ha⟩ := (hend r).mp h
      exact ⟨before, name, r, rfl, hbefore, hr, hlength, ha⟩
    · rintro ⟨before', name', r, hsplit, hbefore', hr, hlength, ha⟩
      obtain ⟨rfl, rfl⟩ := split_unique hbefore hbefore' hsplit
      rw [hr]
      exact (hend r).mpr ⟨hlength, ha⟩

/-- A number without a dot and a name without one, as they are found. -/
theorem numeral_whole {before name : Bytes} {r : ℤ × Symbol} (hbefore : (46 : UInt8) ∉ before)
    (hr : readNumber lib (before ++ 32 :: name) before.length
      (findFrom (before ++ 32 :: name) 46 0) = .ok r) :
    ∃ w : Numeral, before = w.text ∧ w.Readable ∧ (46 : UInt8) ∉ name ∧
      r = (w.read, symbolOf w.places []) := by
  obtain hname | ⟨first, second, rfl, hfirst⟩ := absent_or_split (46 : UInt8) name
  · have hnone : findFrom (before ++ 32 :: name) 46 0 = none :=
      findFrom_absent [] (by simp [hbefore, hname])
    rw [hnone, readNumber_whole hexact] at hr
    obtain ⟨htext, hfits, hsymbol⟩ := hr
    obtain ⟨sign, digits, rfl, hdigits, hsome, hvalue⟩ := integerText_iff.mp htext
    rw [hvalue] at hfits
    refine ⟨⟨sign, digits, none, hdigits, hsome, nofun⟩, ?_, ⟨Nat.zero_lt_succ _, hfits⟩, hname, ?_⟩
    · rw [Numeral.text, Numeral.tail, List.append_nil]
    · have hread : wrap64 (sign.apply (value digits) * 10 ^ 0 + (0 : ℕ)) = r.1 := by
        rw [pow_zero, mul_one, Nat.cast_zero, add_zero, wrap64_of_fits hfits, hvalue]
      exact Prod.ext hread.symm hsymbol
  -- the first dot stands behind the space
  · have habsent : (46 : UInt8) ∉ before ++ 32 :: first := by simp [hbefore, hfirst]
    have hlate := findFrom_start second habsent
    rw [List.append_assoc, List.cons_append] at hlate
    rw [hlate] at hr
    refine absurd hr (readNumber_late lib _ ?_ r)
    rw [List.length_append]
    omega

/-- A number with a dot, as it is found. -/
theorem numeral_fraction {int digits name : Bytes} {r : ℤ × Symbol} (hint : (46 : UInt8) ∉ int)
    (hr : readNumber lib (int ++ 46 :: digits ++ 32 :: name) (int ++ 46 :: digits).length
      (findFrom (int ++ 46 :: digits ++ 32 :: name) 46 0) = .ok r) :
    ∃ w : Numeral, int ++ 46 :: digits = w.text ∧ w.Readable ∧ w.fraction ≠ none ∧
      r = (w.read, symbolOf w.places []) := by
  have hpos : (int ++ 46 :: digits).length = int.length + 1 + digits.length := by
    rw [List.length_append, List.length_cons]
    omega
  rw [hpos, List.append_assoc, List.cons_append, findFrom_start _ hint,
    readNumber_fraction hexact] at hr
  obtain ⟨v, htext, hfits, hdigits, hshort, rfl⟩ := hr
  obtain ⟨sign, whole, rfl, hwhole, hsome, rfl⟩ := integerText_iff.mp htext
  have hsame : ∀ text ∈ some digits, AllDigits text := by
    rintro _ ⟨⟩
    exact hdigits
  exact ⟨⟨sign, whole, some digits, hwhole, hsome, hsame⟩, rfl, ⟨hshort, hfits⟩, nofun, rfl⟩

/-- A number that the parser reads, in front of a space. -/
theorem readNumber_text {w : Numeral} (hw : w.Readable) {name : Bytes}
    (hname : w.fraction = none → (46 : UInt8) ∉ name) :
    readNumber lib (w.text ++ 32 :: name) w.text.length (findFrom (w.text ++ 32 :: name) 46 0) =
      .ok (w.read, symbolOf w.places []) := by
  obtain ⟨hplaces, hfits⟩ := hw
  have htext : IntegerText (w.sign.text ++ w.whole) (w.sign.apply (value w.whole)) :=
    integerText_iff.mpr ⟨w.sign, w.whole, rfl, w.whole_digits, w.whole_some, rfl⟩
  have hdot := whole_no_dot w.sign w.whole_digits
  cases hfraction : w.fraction with
  | none =>
    have hw : w.text = w.sign.text ++ w.whole := by
      rw [Numeral.text, hfraction, Numeral.tail, List.append_nil]
    have habsent : (46 : UInt8) ∉ w.text ++ 32 :: name := by
      rw [List.mem_append, List.mem_cons, hw]
      rintro (h | h | h)
      · exact hdot h
      · cases h
      · exact hname hfraction h
    have hnone : findFrom (w.text ++ 32 :: name) 46 0 = none := findFrom_absent [] habsent
    have hplain : w.places = 0 ∧ w.read = w.sign.apply (value w.whole) := by
      simp [Numeral.read, Numeral.places, Numeral.fractionDigits, hfraction, wrap64_of_fits hfits]
    rw [hnone, readNumber_whole hexact, hplain.1, hplain.2, hw]
    exact ⟨htext, hfits, rfl⟩
  | some digits =>
    have hw : w.text ++ 32 :: name = w.sign.text ++ w.whole ++ 46 :: (digits ++ 32 :: name) := by
      simp [Numeral.text, hfraction, Numeral.tail]
    have hpos : w.text.length = (w.sign.text ++ w.whole).length + 1 + digits.length := by
      simp only [Numeral.text, hfraction, Numeral.tail, List.length_append, List.length_cons]
      omega
    have hdigits : w.fractionDigits = digits := by
      rw [Numeral.fractionDigits, hfraction, Option.getD_some]
    rw [Numeral.places, hdigits] at hplaces
    rw [hw, hpos, findFrom_start _ hdot, readNumber_fraction hexact]
    refine ⟨_, htext, hfits, w.fraction_digits digits hfraction, hplaces, ?_⟩
    rw [Numeral.read, Numeral.places, hdigits]

/-- The texts that are accepted, and what is read from them: a number that the parser
reads, a blank, and at most six bytes of a name, which has no dot where the number has
none. -/
theorem assetFromString_eq_ok {source : Bytes} {a : Asset} :
    assetFromString lib source = .ok a ↔ ∃ (w : Numeral) (name : Bytes),
      lib.trim source = w.text ++ 32 :: name ∧ w.Readable ∧ name.length ≤ 6 ∧
      (w.fraction = none → (46 : UInt8) ∉ name) ∧ a = ⟨w.read, symbolOf w.places name⟩ := by
  have hcopy : ∀ (d : ℕ) (name : Bytes), copyName (symbolOf d []) name = symbolOf d name :=
    fun _ _ => rfl
  rw [assetFromString_split]
  constructor
  · rintro ⟨before, name, r, hs, -, hr, hlength, rfl⟩
    obtain habsent | ⟨int, digits, rfl, hint⟩ := absent_or_split (46 : UInt8) before
    · obtain ⟨w, rfl, hw, hname, rfl⟩ := numeral_whole hexact habsent hr
      exact ⟨w, name, hs, hw, hlength, fun _ => hname, by rw [hcopy]⟩
    · obtain ⟨w, htext, hw, hsome, rfl⟩ := numeral_fraction hexact hint hr
      rw [htext] at hs
      exact ⟨w, name, hs, hw, hlength, fun hnone => absurd hnone hsome, by rw [hcopy]⟩
  · rintro ⟨w, name, hs, hw, hlength, hname, rfl⟩
    exact ⟨w.text, name, _, hs, w.no_blank, readNumber_text hexact hw hname, hlength,
      by rw [hcopy]⟩

end Reading

section RoundTrip

/-- A letter of the alphabet. -/
def isAlpha (b : UInt8) : Bool :=
  (65 ≤ b.toNat && b.toNat ≤ 90) || (97 ≤ b.toNat && b.toNat ≤ 122)

/-- A letter is no zero byte and no white space, nor is it a dot. -/
theorem isAlpha_plain {b : UInt8} (h : isAlpha b) : b ≠ 0 ∧ isSpace b = false ∧ b ≠ 46 := by
  refine ⟨?_, ?_, ?_⟩
  · rintro rfl
    revert h
    decide
  · have hne : b ≠ 32 := by
      rintro rfl
      revert h
      decide
    simp only [isAlpha, Bool.or_eq_true, Bool.and_eq_true, decide_eq_true_eq] at h
    simp only [isSpace, hne, decide_false, Bool.false_or, Bool.and_eq_false_iff,
      decide_eq_false_iff_not]
    omega
  · rintro rfl
    revert h
    decide

/-- The number that is printed for an amount with `d` decimals. -/
def printed (d amount : ℕ) : Numeral where
  sign := .none
  whole := digits (amount / 10 ^ d)
  fraction := if d = 0 then none else some (fixed d (amount % 10 ^ d))
  whole_digits := digits_allDigits _
  whole_some := digits_ne_nil _
  fraction_digits := by
    intro text htext
    split at htext
    · cases htext
    · rw [← Option.some.inj htext]
      exact fixed_allDigits _ _

/-- The fraction of a printed amount is its rest in as many digits. -/
theorem printed_fractionDigits (d amount : ℕ) :
    (printed d amount).fractionDigits = fixed d (amount % 10 ^ d) := by
  change (if d = 0 then none else some (fixed d (amount % 10 ^ d))).getD [] = _
  by_cases hd : d = 0
  · rw [if_pos hd, hd]
    rfl
  · rw [if_neg hd, Option.getD_some]

/-- A printed amount has as many places as asked for. -/
theorem printed_places (d amount : ℕ) : (printed d amount).places = d := by
  rw [Numeral.places, printed_fractionDigits, fixed_length]

/-- The printed text is the whole part, and the fraction behind a point. -/
theorem printed_text (d amount : ℕ) : (printed d amount).text =
    digits (amount / 10 ^ d) ++ if d = 0 then [] else 46 :: fixed d (amount % 10 ^ d) := by
  change digits (amount / 10 ^ d) ++
    Numeral.tail (if d = 0 then none else some (fixed d (amount % 10 ^ d))) = _
  by_cases hd : d = 0
  · rw [if_pos hd, if_pos hd]
    rfl
  · rw [if_neg hd, if_neg hd]
    rfl

/-- Nothing is lost in what is printed. -/
theorem printed_magnitude (d amount : ℕ) :
    value (printed d amount).whole * 10 ^ d + value (printed d amount).fractionDigits = amount := by
  have hmod : amount % 10 ^ d < 10 ^ d := Nat.mod_lt _ (Nat.pow_pos (by omega))
  have hwhole : value (printed d amount).whole = amount / 10 ^ d := value_digits _
  rw [printed_fractionDigits, value_fixed hmod, hwhole, Nat.div_add_mod']

variable {lib : TextLib} (hexact : lib.Exact)
include hexact

/-- A text without white space at its ends is kept. -/
theorem trim_eq {text : Bytes} (hhead : ∀ b ∈ text.head?, isSpace b = false)
    (hlast : ∀ b ∈ text.getLast?, isSpace b = false) : lib.trim text = text := by
  obtain ⟨left, right, hsplit, hleft, hright, -, -⟩ := hexact.trim_spec text
  have hnoleft : left = [] := by
    cases left with
    | nil => rfl
    | cons b rest =>
      have hb := hhead b (by rw [hsplit]; rfl)
      rw [hleft b (List.mem_cons_self ..)] at hb
      cases hb
  have hnoright : right = [] := by
    cases right using List.reverseRecOn with
    | nil => rfl
    | append_singleton front b =>
      have hb := hlast b (by rw [hsplit, ← List.append_assoc, ← List.append_assoc]; simp)
      rw [hright b (by simp)] at hb
      cases hb
  rw [hnoleft, hnoright, List.nil_append, List.append_nil] at hsplit
  exact hsplit.symm

/-- What is printed for an asset: the number, a blank and the name. -/
theorem assetToString_eq {d amount : ℕ} {name : Bytes} (hd : d < 15) (hamount : amount < 2 ^ 63)
    (hlength : name.length ≤ 6) (hname : ∀ b ∈ name, b ≠ 0) :
    assetToString lib ⟨amount, symbolOf d name⟩ = .ok ((printed d amount).text ++ 32 :: name) := by
  have hpos : 0 < 10 ^ d := Nat.pow_pos (by omega)
  have hpow : 10 ^ d ≤ 10 ^ 14 := Nat.pow_le_pow_right (by omega) (by omega)
  have hdiv : amount / 10 ^ d ≤ amount := Nat.div_le_self _ _
  have hmod : amount % 10 ^ d < 10 ^ d := Nat.mod_lt _ hpos
  have hprinted : ∀ n : ℕ, n < 2 ^ 63 → lib.toString n = digits n := by
    intro n hn
    rw [hexact.toString_eq n ⟨by omega, by exact_mod_cast hn⟩]
    simp [integerDigits]
  have hwhole : lib.toString (Int.tdiv amount (10 ^ d)) = digits (amount / 10 ^ d) := by
    have hcast : Int.tdiv amount (10 ^ d) = ((amount / 10 ^ d : ℕ) : ℤ) := by
      rw [Int.natCast_div, Int.tdiv_eq_ediv_of_nonneg (by omega)]
      push_cast
      rfl
    rw [hcast, hprinted _ (by omega)]
  have hfraction : (lib.toString (10 ^ d + Int.tmod amount (10 ^ d))).drop 1 =
      fixed d (amount % 10 ^ d) := by
    have hcast : (10 ^ d : ℤ) + Int.tmod amount (10 ^ d) = ((10 ^ d + amount % 10 ^ d : ℕ) : ℤ) := by
      rw [Int.tmod_eq_emod_of_nonneg (by omega)]
      push_cast
      rfl
    rw [hcast, hprinted _ (by omega), digits_lead hmod, List.drop_one, List.tail_cons]
  have hsymbol := symbolName_symbolOf (d := d) (by omega) hlength hname
  have hprec := precision_symbolOf name hd
  have hrun : assetToString lib ⟨amount, symbolOf d name⟩ =
      .ok ((if (1 : ℤ) < 10 ^ d then
          lib.toString (Int.tdiv amount (10 ^ d)) ++
            46 :: (lib.toString (10 ^ d + Int.tmod amount (10 ^ d))).drop 1
        else lib.toString (Int.tdiv amount (10 ^ d))) ++ 32 :: name) := by
    simp only [assetToString, hprec, hsymbol]
    rfl
  rw [hrun, hwhole, hfraction, printed_text]
  by_cases hzero : d = 0
  · have hone : ¬ (1 : ℤ) < 10 ^ d := by simp [hzero]
    rw [if_neg hone, if_pos hzero, List.append_nil]
  · have hone : (1 : ℤ) < 10 ^ d := one_lt_pow₀ (by omega) hzero
    rw [if_pos hone, if_neg hzero]

/-- What is printed for an asset is read as that asset. -/
theorem assetFromString_assetToString {d : ℕ} {amount : ℤ} {name : Bytes} (hd : d < 15)
    (hnonneg : 0 ≤ amount) (hfits : amount < 2 ^ 63) (hsome : name ≠ []) (hlength : name.length ≤ 6)
    (hname : ∀ b ∈ name, isAlpha b) :
    (assetToString lib ⟨amount, symbolOf d name⟩ >>= assetFromString lib) =
      .ok ⟨amount, symbolOf d name⟩ := by
  obtain ⟨n, rfl⟩ := Int.eq_ofNat_of_zero_le hnonneg
  have hn : n < 2 ^ 63 := by exact_mod_cast hfits
  have hzero : ∀ b ∈ name, b ≠ 0 := fun b hb => (isAlpha_plain (hname b hb)).1
  have hdot : (46 : UInt8) ∉ name := fun hb => (isAlpha_plain (hname 46 hb)).2.2 rfl
  have hplaces := printed_places d n
  have hmagnitude := printed_magnitude d n
  -- neither end of the text is white space
  have htrim : lib.trim ((printed d n).text ++ 32 :: name) = (printed d n).text ++ 32 :: name := by
    refine trim_eq hexact ?_ ?_
    · intro b hb
      refine (printed d n).not_space ?_
      cases htext : (printed d n).text with
      | nil =>
        have hnil := digits_ne_nil (n / 10 ^ d)
        rw [printed_text, List.append_eq_nil_iff] at htext
        exact absurd htext.1 hnil
      | cons c rest =>
        rw [htext] at hb
        cases hb
        exact List.mem_cons_self ..
    · intro b hb
      have hb' : b ∈ name := by
        rw [List.getLast?_append_of_ne_nil _ (List.cons_ne_nil _ _), List.getLast?_cons_of_ne_nil hsome]
          at hb
        exact List.mem_of_getLast? hb
      exact (isAlpha_plain (hname b hb')).2.1
  have hwhole : value (printed d n).whole ≤ n := by
    have hdigits : value (printed d n).whole = n / 10 ^ d := value_digits _
    rw [hdigits]
    exact Nat.div_le_self _ _
  have hreadable : (printed d n).Readable := by
    refine ⟨by rwa [hplaces], ?_⟩
    change FitsInt64 ((value (printed d n).whole : ℕ) : ℤ)
    exact ⟨by omega, by omega⟩
  have hread : (printed d n).read = n := by
    have hsum : ((value (printed d n).whole : ℕ) : ℤ) * 10 ^ d +
        ((value (printed d n).fractionDigits : ℕ) : ℤ) = n := by exact_mod_cast hmagnitude
    unfold Numeral.read
    rw [hplaces]
    change wrap64 (((value (printed d n).whole : ℕ) : ℤ) * 10 ^ d + _) = _
    rw [hsum]
    exact wrap64_of_fits ⟨by omega, hfits⟩
  have hparsed := (assetFromString_eq_ok hexact (a := ⟨n, symbolOf d name⟩)).mpr
    ⟨printed d n, name, htrim, hreadable, hlength, fun _ => hdot, by rw [hread, hplaces]⟩
  rw [assetToString_eq hexact hd hn hlength hzero]
  exact hparsed

omit hexact in
/-- An amount of the token with three places is read back. -/
theorem assetFromString_assetToString_wls :
    (assetToString plainText ⟨1234567, symbolOf 3 [87, 76, 83]⟩ >>= assetFromString plainText) =
      .ok ⟨1234567, symbolOf 3 [87, 76, 83]⟩ :=
  have hletters : [87, 76, 83].all isAlpha = true := by decide
  assetFromString_assetToString plainText_exact (by decide) (by decide) (by decide) (by decide)
    (by decide) (List.all_eq_true.mp hletters)

end RoundTrip

end Whaleshares.AssetText
