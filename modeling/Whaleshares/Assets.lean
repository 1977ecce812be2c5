import Whaleshares.Fc

/-!
# Assets and prices

`protocol/asset.hpp` and `protocol/asset.cpp`: amounts with a symbol, the
comparisons that assert equal symbols, and the product of an asset and a price,
which is computed in 128 bits and must fit into 64.
-/

namespace Whaleshares.Assets

open Fc

/-- `asset_symbol_type`: the number of decimals in the lowest byte, then the name. -/
abbrev Symbol := ℕ

/-- `WLS_SYMBOL`, three decimals. -/
def wlsSymbol : Symbol := 3 + 87 * 2 ^ 8 + 76 * 2 ^ 16 + 83 * 2 ^ 24

/-- `VESTS_SYMBOL`, six decimals. -/
def vestsSymbol : Symbol :=
  6 + 86 * 2 ^ 8 + 69 * 2 ^ 16 + 83 * 2 ^ 24 + 84 * 2 ^ 32 + 83 * 2 ^ 40

/-- An amount of some asset. -/
structure Asset where
  /-- The amount in the smallest unit. -/
  amount : ℤ
  /-- The symbol. -/
  symbol : Symbol
  deriving DecidableEq

/-- An amount of WLS, the default symbol of an asset. -/
def wls (amount : ℤ) : Asset := ⟨amount, wlsSymbol⟩

/-- An amount of VESTS. -/
def vests (amount : ℤ) : Asset := ⟨amount, vestsSymbol⟩

/-- `symbol_name`: the six name bytes up to the first zero. -/
def symbolName (symbol : Symbol) : Except Exc Bytes :=
  if symbol / 2 ^ 56 % 256 = 0 then
    .ok (([1, 2, 3, 4, 5, 6].map fun i => UInt8.ofNat (symbol / 256 ^ i % 256)).takeWhile (· ≠ 0))
  else .error (failed "a[7] == 0")

/-- `a < b` -/
def Asset.lt (a b : Asset) : Except Exc Bool := do
  fcAssert (a.symbol = b.symbol) "a.symbol == b.symbol"
  pure (a.amount < b.amount)

/-- `a <= b` -/
def Asset.le (a b : Asset) : Except Exc Bool := if a = b then .ok true else a.lt b

/-- `a > b` -/
def Asset.gt (a b : Asset) : Except Exc Bool := do
  let le ← a.le b
  pure !le

/-- `a >= b` -/
def Asset.ge (a b : Asset) : Except Exc Bool := do
  let lt ← a.lt b
  pure !lt

/-- `amount += o` for a field whose symbol is `symbol`. -/
def increase (fc : FcLib) (symbol : Symbol) (amount : ℤ) (o : Asset) : Except Exc ℤ := do
  fcAssert (symbol = o.symbol) "symbol == o.symbol"
  fc.add amount o.amount

/-- `amount -= o` for a field whose symbol is `symbol`. -/
def decrease (fc : FcLib) (symbol : Symbol) (amount : ℤ) (o : Asset) : Except Exc ℤ := do
  fcAssert (symbol = o.symbol) "symbol == o.symbol"
  fc.sub amount o.amount

/-- An increase is exact and fits into 64 bits. -/
theorem increase_eq_ok {fc : FcLib} (hexact : fc.SafeExact) {symbol : Symbol} {amount w : ℤ}
    {o : Asset} (h : increase fc symbol amount o = .ok w) :
    w = amount + o.amount ∧ -2 ^ 63 ≤ w ∧ w < 2 ^ 63 := by
  unfold increase at h
  cases hs : fcAssert (symbol = o.symbol) "symbol == o.symbol" with
  | error e =>
    rw [hs] at h
    cases h
  | ok u =>
    rw [hs] at h
    exact hexact.checked h

/-- A decrease is exact and fits into 64 bits. -/
theorem decrease_eq_ok {fc : FcLib} (hexact : fc.SafeExact) {symbol : Symbol} {amount w : ℤ}
    {o : Asset} (h : decrease fc symbol amount o = .ok w) :
    w = amount - o.amount ∧ -2 ^ 63 ≤ w ∧ w < 2 ^ 63 := by
  unfold decrease at h
  cases hs : fcAssert (symbol = o.symbol) "symbol == o.symbol" with
  | error e =>
    rw [hs] at h
    cases h
  | ok u =>
    rw [hs] at h
    exact hexact.checked h

/-- `-a` -/
def Asset.neg (fc : FcLib) (a : Asset) : Except Exc Asset := do
  let amount ← fc.neg a.amount
  pure ⟨amount, a.symbol⟩

/-- A price: `base` per `quote`. -/
structure Price where
  /-- The base amount. -/
  base : Asset
  /-- The quote amount. -/
  quote : Asset

/-- The amount `a` of the asset `source` is of, in units of `target`, in 128 bits. -/
def convert (fc : FcLib) (message : String) (a source target : ℤ) : Except Exc ℤ := do
  fcAssert (0 < source) message
  let result ← uint128Div (uint128Mul (uint128 a) (uint128 target)) (uint128 source)
  let small ← toUint64 result
  fc.stored small

/-- `asset * price` -/
def Asset.times (fc : FcLib) (a : Asset) (b : Price) : Except Exc Asset := do
  let name ← symbolName a.symbol
  let base ← symbolName b.base.symbol
  if name = base then
    let amount ← convert fc "b.base.amount.value > 0" a.amount b.base.amount b.quote.amount
    pure ⟨amount, b.quote.symbol⟩
  else
    let quote ← symbolName b.quote.symbol
    if name = quote then
      let amount ← convert fc "b.quote.amount.value > 0" a.amount b.quote.amount b.base.amount
      pure ⟨amount, b.base.symbol⟩
    else .error (failed "invalid asset * price")

end Whaleshares.Assets
