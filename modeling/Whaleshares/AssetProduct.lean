import Whaleshares.ChainRun
import Whaleshares.VestingLedger

/-!
# The product of an asset and a price

`operator*` of `protocol/asset.cpp` asserts that its 128-bit quotient fits into 64 bits
and then makes a signed 64-bit amount of it. The conversion keeps the bits, so a quotient
from `2 ^ 63` on comes out as a negative amount. On every other input the product is the
quotient rounded down, or the operator throws.
-/

namespace Whaleshares.AssetProduct

open Fc Assets Program Evaluators VestingLedger ChainRun

/-- The conversion of a `uint64_t` keeps its bits. -/
def StoresBits (fc : FcLib) : Prop := ∀ n < 2 ^ 64, fc.ofUInt64 n = some (int64 n)

section Conversion

variable {fc : FcLib} {message : String} {a source target : ℤ}

/-- The 128-bit quotient is the quotient of the amounts. -/
theorem convert_quotient (fc : FcLib) (message : String) (ha : 0 ≤ a) (haLt : a < 2 ^ 63) (hsource : 0 < source)
    (hsourceLt : source < 2 ^ 63) (htarget : 0 < target) (htargetLt : target < 2 ^ 63) :
    ∃ q : ℕ, (q : ℤ) = a * target / source ∧
      convert fc message a source target = toUint64 q >>= fc.stored := by
  have hA := uint128_of_nonneg ha (by omega)
  have hS := uint128_of_nonneg hsource.le (by omega)
  have hT := uint128_of_nonneg htarget.le (by omega)
  have hdivisor : uint128 source ≠ 0 := by omega
  have hbound : uint128 a * uint128 target < uint128Bound := by
    have hleft : uint128 a < 2 ^ 63 := by omega
    have hright : uint128 target < 2 ^ 63 := by omega
    calc uint128 a * uint128 target < 2 ^ 63 * 2 ^ 63 := Nat.mul_lt_mul'' hleft hright
      _ ≤ uint128Bound := by unfold uint128Bound; norm_num
  have hproduct : uint128Mul (uint128 a) (uint128 target) = uint128 a * uint128 target :=
    Nat.mod_eq_of_lt hbound
  refine ⟨uint128 a * uint128 target / uint128 source, ?_, ?_⟩
  · rw [Int.natCast_div, Int.natCast_mul, hA, hT, hS]
  · unfold convert fcAssert uint128Div
    rw [if_pos (by simpa using hsource), hproduct, if_neg hdivisor]
    rfl

/-- A conversion throws where the quotient has more than 64 bits, and else stores the bits of
the quotient. -/
theorem convert_stores (hstores : StoresBits fc) (ha : 0 ≤ a) (haLt : a < 2 ^ 63)
    (hsource : 0 < source) (hsourceLt : source < 2 ^ 63) (htarget : 0 < target)
    (htargetLt : target < 2 ^ 63) :
    convert fc message a source target =
      if a * target / source < 2 ^ 64 then .ok (int64 (a * target / source))
      else .error (failed "hi == 0") := by
  obtain ⟨q, hq, hconvert⟩ :=
    convert_quotient fc message ha haLt hsource hsourceLt htarget htargetLt
  rw [hconvert, ← hq]
  unfold toUint64
  by_cases hlt : q < 2 ^ 64
  · have hcast : (q : ℤ) < 2 ^ 64 := by omega
    rw [if_pos hlt, if_pos hcast]
    change fc.stored q = .ok (int64 q)
    unfold FcLib.stored
    rw [hstores q hlt]
  · have hcast : ¬ (q : ℤ) < 2 ^ 64 := by omega
    rw [if_neg hlt, if_neg hcast]
    rfl

end Conversion

section Product

variable {fc : FcLib} {a : Asset} {b : Price} {source target : Asset}

/-- The direction of a product: from the base to the quote of the price where the asset is of
the base, else from the quote to the base where it is of the quote. -/
inductive Direction (a : Asset) (b : Price) : Asset → Asset → Prop where
  | baseToQuote (name : Bytes) (hname : symbolName a.symbol = .ok name)
      (hbase : symbolName b.base.symbol = .ok name) : Direction a b b.base b.quote
  | quoteToBase (name base : Bytes) (hname : symbolName a.symbol = .ok name)
      (hbase : symbolName b.base.symbol = .ok base) (hne : name ≠ base)
      (hquote : symbolName b.quote.symbol = .ok name) : Direction a b b.quote b.base

/-- The product throws, or it is the exact quotient rounded down, in the other symbol, and not
negative. -/
def ProductCorrect (fc : FcLib) (a : Asset) (b : Price) : Prop :=
  ∀ r, a.times fc b = .ok r →
    ∃ source target, Direction a b source target ∧ r.symbol = target.symbol ∧
      r.amount = a.amount * target.amount / source.amount ∧ 0 ≤ r.amount ∧ r.amount < 2 ^ 63

/-- A product that returns has a direction, in which it converts. -/
theorem times_direction {r : Asset} (h : a.times fc b = .ok r) :
    ∃ source target message, Direction a b source target ∧ r.symbol = target.symbol ∧
      convert fc message a.amount source.amount target.amount = .ok r.amount := by
  obtain ⟨name, hname, h⟩ := bind_eq_ok h
  obtain ⟨base, hbase, h⟩ := bind_eq_ok h
  split at h
  next heq =>
    obtain ⟨amount, hamount, h⟩ := bind_eq_ok h
    rw [← Except.ok.inj h]
    rw [← heq] at hbase
    exact ⟨b.base, b.quote, _, .baseToQuote name hname hbase, rfl, hamount⟩
  next hne =>
    obtain ⟨quote, hquote, h⟩ := bind_eq_ok h
    split at h
    next heq =>
      obtain ⟨amount, hamount, h⟩ := bind_eq_ok h
      rw [← Except.ok.inj h]
      rw [← heq] at hquote
      exact ⟨b.quote, b.base, _, .quoteToBase name base hname hbase hne hquote, rfl, hamount⟩
    next => cases h

/-- A product in a direction is the conversion in that direction. -/
theorem Direction.times (fc : FcLib) (h : Direction a b source target) :
    ∃ message, a.times fc b =
      (convert fc message a.amount source.amount target.amount).map fun amount =>
        ⟨amount, target.symbol⟩ := by
  have hbind : ∀ (m : Except Exc ℤ) (symbol : Symbol),
      (m >>= fun amount => pure (⟨amount, symbol⟩ : Asset)) = m.map fun amount => ⟨amount, symbol⟩ := by
    intro m symbol
    cases m <;> rfl
  cases h with
  | baseToQuote name hname hbase =>
    refine ⟨"b.base.amount.value > 0", ?_⟩
    unfold Asset.times
    rw [hname, hbase]
    change (if name = name then _ else _) = _
    rw [if_pos rfl]
    exact hbind _ _
  | quoteToBase name base hname hbase hne hquote =>
    refine ⟨"b.quote.amount.value > 0", ?_⟩
    unfold Asset.times
    rw [hname, hbase, hquote]
    change (if name = base then _ else if name = name then _ else _) = _
    rw [if_neg hne, if_pos rfl]
    exact hbind _ _

/-- Both amounts of a price are positive and have 64 bits. -/
structure PositivePrice (b : Price) : Prop where
  base : 0 < b.base.amount
  base_lt : b.base.amount < 2 ^ 63
  quote : 0 < b.quote.amount
  quote_lt : b.quote.amount < 2 ^ 63

/-- Both sides of a positive price are positive 64-bit numbers. -/
theorem Direction.positive (h : Direction a b source target) (hb : PositivePrice b) :
    (0 < source.amount ∧ source.amount < 2 ^ 63) ∧ 0 < target.amount ∧ target.amount < 2 ^ 63 := by
  cases h with
  | baseToQuote => exact ⟨⟨hb.base, hb.base_lt⟩, hb.quote, hb.quote_lt⟩
  | quoteToBase => exact ⟨⟨hb.quote, hb.quote_lt⟩, hb.base, hb.base_lt⟩

/-- A product has one direction. -/
theorem Direction.unique {source' target' : Asset} (h : Direction a b source target)
    (h' : Direction a b source' target') : source = source' ∧ target = target' := by
  cases h with
  | baseToQuote name hname hbase =>
    cases h' with
    | baseToQuote => exact ⟨rfl, rfl⟩
    | quoteToBase name' base' hname' hbase' hne =>
      have hsame : name = name' := Except.ok.inj (hname.symm.trans hname')
      have hother : name = base' := Except.ok.inj (hbase.symm.trans hbase')
      exact absurd (hsame.symm.trans hother) hne
  | quoteToBase name base hname hbase hne =>
    cases h' with
    | baseToQuote name' hname' hbase' =>
      have hsame : name = name' := Except.ok.inj (hname.symm.trans hname')
      have hother : base = name' := Except.ok.inj (hbase.symm.trans hbase')
      exact absurd (hsame.trans hother.symm) hne
    | quoteToBase => exact ⟨rfl, rfl⟩

/-- With a conversion that keeps the bits, the product of an amount and a positive price throws
or is exact and not negative, if and only if the quotient is not one of those from `2 ^ 63` on
that fit into 64 bits. -/
theorem product_correct_iff (hstores : StoresBits fc) (ha : 0 ≤ a.amount)
    (haLt : a.amount < 2 ^ 63) (hb : PositivePrice b) :
    ProductCorrect fc a b ↔ ∀ source target, Direction a b source target →
      ¬ (2 ^ 63 ≤ a.amount * target.amount / source.amount ∧
        a.amount * target.amount / source.amount < 2 ^ 64) := by
  constructor
  · rintro hcorrect source target hdirection ⟨hge, hlt⟩
    obtain ⟨⟨hs, hsLt⟩, ht, htLt⟩ := hdirection.positive hb
    obtain ⟨message, htimes⟩ := hdirection.times fc
    rw [convert_stores hstores ha haLt hs hsLt ht htLt, if_pos hlt] at htimes
    obtain ⟨source', target', hdirection', -, hamount, hnonneg, -⟩ := hcorrect _ htimes
    -- The stored amount is the quotient less `2 ^ 64`.
    have hstored : int64 (a.amount * target.amount / source.amount) < 0 := by
      unfold int64
      omega
    change 0 ≤ int64 (a.amount * target.amount / source.amount) at hnonneg
    omega
  · intro houtside r hr
    obtain ⟨source, target, message, hdirection, hsymbol, hconvert⟩ := times_direction hr
    obtain ⟨⟨hs, hsLt⟩, ht, htLt⟩ := hdirection.positive hb
    have hnot := houtside source target hdirection
    have hnonneg : 0 ≤ a.amount * target.amount / source.amount :=
      Int.ediv_nonneg (Int.mul_nonneg ha ht.le) hs.le
    rw [convert_stores hstores ha haLt hs hsLt ht htLt] at hconvert
    split at hconvert
    next hlt =>
      have hamount := Except.ok.inj hconvert
      have hexact : int64 (a.amount * target.amount / source.amount) =
          a.amount * target.amount / source.amount := by
        unfold int64
        omega
      rw [hexact] at hamount
      exact ⟨source, target, hdirection, hsymbol, hamount.symm, by omega, by omega⟩
    next => cases hconvert

/-- The libraries of the small instance with a conversion that keeps the bits. -/
def bitsLib : FcLib := { sampleEnv.toFcLib with ofUInt64 := fun n => some (int64 n) }

/-- The product of the instance is correct. -/
theorem product_correct_iff_small : ProductCorrect bitsLib (wls 5) ⟨wls 2, vests 3⟩ := by
  refine (product_correct_iff (fun _ _ => rfl) (by decide) (by decide)
    ⟨by decide, by decide, by decide, by decide⟩).mpr fun source target h => ?_
  have hdirection : Direction (wls 5) ⟨wls 2, vests 3⟩ (wls 2) (vests 3) :=
    .baseToQuote [87, 76, 83] rfl rfl
  obtain ⟨rfl, rfl⟩ := h.unique hdirection
  decide

/-- Two to the power of 62 tokens at a price of two shares for each token. -/
theorem product_negative : ¬ ProductCorrect bitsLib (wls (2 ^ 62)) ⟨wls 1, vests 2⟩ := by
  intro hcorrect
  have htimes : (wls (2 ^ 62)).times bitsLib ⟨wls 1, vests 2⟩ = .ok (vests (-2 ^ 63)) := by
    decide +kernel
  obtain ⟨_, _, -, -, -, hnonneg, -⟩ := hcorrect _ htimes
  exact absurd hnonneg (by decide)

end Product

end Whaleshares.AssetProduct
