import Mathlib
import Whaleshares.Config
import Whaleshares.MachineArith

/-!
# The reserve ratio

The witness plugin follows the size of the blocks: after each block it averages the sizes, and at
every twentieth block it lowers or raises the reserve ratio by the distance of the average from a
quarter of the maximum. The operations are carried out in the types of the source. At its
creation the object gets a bandwidth from a product that an `int` does not hold, so no run is
free of a result out of range. Every other step is, until the average reaches what an `int`
holds ninety-nine times.
-/

namespace Whaleshares.ReserveRatio

open MachineArith Config

section Object

/-- `WLS_MAX_RESERVE_RATIO` -/
def wlsMaxReserveRatio : ℤ := 20000

/-- `RESERVE_RATIO_PRECISION` -/
def reserveRatioPrecision : ℤ := 10000

/-- `RESERVE_RATIO_MIN_INCREMENT` -/
def reserveRatioMinIncrement : ℤ := 5000

/-- `DISTANCE_CALC_PRECISION` -/
def distanceCalcPrecision : ℤ := 10000

/-- `WLS_BANDWIDTH_PRECISION` -/
def wlsBandwidthPrecision : ℤ := 1000000

/-- `WLS_BANDWIDTH_AVERAGE_WINDOW_SECONDS` -/
def wlsBandwidthAverageWindowSeconds : ℤ := 60 * 60 * 24 * 7

/-- `reserve_ratio_object` -/
structure ReserveRatioObject where
  /-- An `int32_t`. -/
  averageBlockSize : ℤ := 0
  /-- An `int64_t`. -/
  currentReserveRatio : ℤ := 1
  /-- A `uint128_t`. -/
  maxVirtualBandwidth : ℤ := 0
deriving DecidableEq, Repr

/-- What `on_block` reads of a block that has been applied and of the database. -/
structure BlockNotice where
  /-- `head_block_num()` -/
  headBlockNum : ℕ
  /-- The packed size of the block. -/
  packSize : ℕ
  /-- The maximum that was in force when the size of the block was checked. -/
  sizeLimit : ℕ
  /-- The maximum after the block, which the plugin reads. -/
  maximumBlockSize : ℕ

/-- The object that the first block creates. The first product is one of `int`s. -/
def createReserveRatio : Traced ReserveRatioObject := do
  let ratio ← mul .int64 wlsMaxReserveRatio reserveRatioPrecision
  let largest ← mul .int32 wlsMaxBlockSize wlsMaxReserveRatio
  let widened ← held .uint128 largest
  let precise ← mul .uint128 widened wlsBandwidthPrecision
  let window ← mul .uint128 precise wlsBandwidthAverageWindowSeconds
  let bandwidth ← div .uint128 window wlsBlockInterval
  pure { averageBlockSize := 0, currentReserveRatio := ratio, maxVirtualBandwidth := bandwidth }

/-- The new average: the product is one of `int`s, the sum one of `size_t`s. -/
def averageAfter (average : ℤ) (packSize : ℕ) : Traced ℤ := do
  let weighted ← mul .int32 99 average
  let widened ← held .uint64 weighted
  let total ← add .uint64 widened packSize
  let quotient ← div .uint64 total 100
  held .int32 quotient

/-- The distance of the average from a quarter of the maximum, in parts of the quarter. -/
def distanceOf (average maxBlockSize : ℤ) : Traced ℤ := do
  let quarter ← div .int64 maxBlockSize 4
  let above ← sub .int64 average quarter
  let scaled ← mul .int64 above distanceCalcPrecision
  div .int64 scaled quarter

/-- The ratio for a distance. -/
def ratioAfter (ratio distance : ℤ) : Traced ℤ :=
  if 0 < distance then do
    let product ← mul .int64 ratio distance
    let divisor ← add .int64 distance distanceCalcPrecision
    let share ← div .int64 product divisor
    let lowered ← sub .int64 ratio share
    pure (if lowered < reserveRatioPrecision then reserveRatioPrecision else lowered)
  else do
    let product ← mul .int64 ratio distance
    let divisor ← sub .int64 distance distanceCalcPrecision
    let share ← div .int64 product divisor
    let raised ← add .int64 ratio (max reserveRatioMinIncrement share)
    let limit ← mul .int64 wlsMaxReserveRatio reserveRatioPrecision
    pure (if limit < raised then limit else raised)

/-- The bandwidth for a maximum and a ratio. -/
def virtualBandwidth (maxBlockSize ratio : ℤ) : Traced ℤ := do
  let size ← held .uint128 maxBlockSize
  let widened ← held .uint128 ratio
  let product ← mul .uint128 size widened
  let weight ← mul .uint64 wlsBandwidthPrecision wlsBandwidthAverageWindowSeconds
  let window ← mul .uint128 product weight
  let divisor ← mul .int64 wlsBlockInterval reserveRatioPrecision
  div .uint128 window divisor

/-- The object after a further block. -/
def updateReserveRatio (notice : BlockNotice) (r : ReserveRatioObject) :
    Traced ReserveRatioObject := do
  let average ← averageAfter r.averageBlockSize notice.packSize
  if notice.headBlockNum % 20 = 0 then
    let distance ← distanceOf average notice.maximumBlockSize
    let ratio ← ratioAfter r.currentReserveRatio distance
    let bandwidth ← virtualBandwidth notice.maximumBlockSize ratio
    pure ⟨average, ratio, bandwidth⟩
  else
    pure { r with averageBlockSize := average }

/-- `on_block` -/
def onBlock (notice : BlockNotice) : Option ReserveRatioObject → Traced ReserveRatioObject
  | none => createReserveRatio
  | some r => updateReserveRatio notice r

end Object

section Control

/-- The formula of the bandwidth. -/
def bandwidthOf (maximumBlockSize ratio : ℤ) : ℤ :=
  maximumBlockSize * ratio * (wlsBandwidthPrecision * wlsBandwidthAverageWindowSeconds) /
    (wlsBlockInterval * reserveRatioPrecision)

/-- The sizes that the chain admits. -/
structure BlockNotice.Admitted (notice : BlockNotice) : Prop where
  packed : notice.packSize ≤ notice.sizeLimit
  limit : notice.sizeLimit ≤ wlsMaxBlockSize
  lower : wlsMinBlockSizeLimit ≤ notice.maximumBlockSize
  upper : notice.maximumBlockSize ≤ wlsMaxBlockSize

/-- The object of a run, with what is to be said about it. -/
structure Watch where
  /-- The object, once it has been created. -/
  object : Option ReserveRatioObject := none
  /-- The size of the largest block so far. -/
  largest : ℕ := 0
  /-- The formula at the last update of the bandwidth. -/
  formula : ℤ := 0

/-- The formula after a block: the creation is an update too. -/
def Watch.formulaAfter (w : Watch) (notice : BlockNotice) (ratio : ℤ) : ℤ :=
  match w.object with
  | none => bandwidthOf wlsMaxBlockSize ratio
  | some _ =>
    if notice.headBlockNum % 20 = 0 then bandwidthOf notice.maximumBlockSize ratio else w.formula

/-- The block updates the bandwidth of an object that exists. -/
def BlockNotice.Updates (notice : BlockNotice) : Prop := notice.headBlockNum % 20 = 0

/-- The run after a further block. -/
def Watch.next (w : Watch) (notice : BlockNotice) : Watch :=
  let r := (onBlock notice w.object).value
  ⟨some r, max w.largest notice.packSize, w.formulaAfter notice r.currentReserveRatio⟩

/-- The run after some blocks. -/
def watch (blocks : List BlockNotice) : Watch := blocks.foldl Watch.next {}

/-- The object is under control. -/
structure Steered (w : Watch) (r : ReserveRatioObject) : Prop where
  object : w.object = some r
  ratio_lower : reserveRatioPrecision ≤ r.currentReserveRatio
  ratio_upper : r.currentReserveRatio ≤ wlsMaxReserveRatio * reserveRatioPrecision
  average_nonneg : 0 ≤ r.averageBlockSize
  average_le : r.averageBlockSize ≤ w.largest
  bandwidth : r.maxVirtualBandwidth = w.formula

/-- A property of each step of a run. -/
def EachStep (P : Watch → BlockNotice → Prop) : Watch → List BlockNotice → Prop
  | _, [] => True
  | w, notice :: rest => P w notice ∧ EachStep P (w.next notice) rest

/-- No result of the step is out of range. -/
def StepInRange (w : Watch) (notice : BlockNotice) : Prop :=
  (onBlock notice w.object).inRange = true

/-- No divisor of the step is zero. -/
def StepDivides (w : Watch) (notice : BlockNotice) : Prop :=
  (onBlock notice w.object).divides = true

/-- At the end of the run the object is under control, no result on the way was out of range
and no divisor was zero. -/
structure InControl (blocks : List BlockNotice) : Prop where
  steered : ∃ r, Steered (watch blocks) r
  inRange : EachStep StepInRange {} blocks
  divides : EachStep StepDivides {} blocks

/-- Ninety-nine times the average is an `int`. -/
def AverageFits (w : Watch) (_ : BlockNotice) : Prop :=
  ∀ r ∈ w.object, r.averageBlockSize ≤ 21691754

end Control

section Operations

variable {average ratio distance maximum : ℤ} {packSize : ℕ}

/-- The ratio is in its range. -/
def RatioFits (ratio : ℤ) : Prop :=
  reserveRatioPrecision ≤ ratio ∧ ratio ≤ wlsMaxReserveRatio * reserveRatioPrecision

/-- The new average as an integer. -/
def weightedAverage (average : ℤ) (packSize : ℕ) : ℤ := (99 * average + packSize) / 100

/-- The average of a block in range is exact. -/
theorem averageAfter_exact (hnonneg : 0 ≤ average) (hfits : average ≤ 21691754)
    (hsize : packSize ≤ wlsMaxBlockSize) :
    averageAfter average packSize = pure (weightedAverage average packSize) := by
  have hsize' : (packSize : ℤ) ≤ 393216000 := by exact_mod_cast hsize
  have hweighted : IntType.int32.InRange (99 * average) := IntType.inRange_int32.mpr (by omega)
  have hwidened : IntType.uint64.InRange (99 * average) := IntType.inRange_uint64.mpr (by omega)
  have htotal : IntType.uint64.InRange (99 * average + packSize) :=
    IntType.inRange_uint64.mpr (by omega)
  have hquotient : (99 * average + packSize).tdiv 100 = weightedAverage average packSize :=
    Int.tdiv_eq_ediv_of_nonneg (by omega)
  have hbounds : 0 ≤ weightedAverage average packSize ∧
      weightedAverage average packSize ≤ 25406996 := by
    unfold weightedAverage
    omega
  have hdiv : div .uint64 (99 * average + packSize) 100 =
      pure (weightedAverage average packSize) := by
    rw [← hquotient] at hbounds ⊢
    exact div_of_inRange (by omega) (IntType.inRange_uint64.mpr (by omega))
  have hnarrowed : IntType.int32.InRange (weightedAverage average packSize) :=
    IntType.inRange_int32.mpr (by omega)
  unfold averageAfter
  rw [mul_of_inRange hweighted, Traced.pure_bind, held_of_inRange hwidened, Traced.pure_bind,
    add_of_inRange htotal, Traced.pure_bind, hdiv, Traced.pure_bind, held_of_inRange hnarrowed]

/-- The average stays below the largest block. -/
theorem weightedAverage_le {largest : ℕ} (hle : average ≤ largest) :
    weightedAverage average packSize ≤ (max largest packSize : ℕ) := by
  unfold weightedAverage
  omega

/-- An average that does not overflow came from one that fits. -/
theorem averageAfter_fits (h : (averageAfter average packSize).inRange = true) :
    average ≤ 21691754 := by
  have hweighted := inRange_of_held (Traced.inRange_bind h).1
  have hupper := (IntType.inRange_int32.mp hweighted).2
  omega

/-- Whatever happens, the average is an `int32_t`, and nothing is divided by zero. -/
theorem averageAfter_value (average : ℤ) (packSize : ℕ) :
    IntType.int32.InRange (averageAfter average packSize).value ∧
      (averageAfter average packSize).divides = true :=
  ⟨IntType.wrap_inRange _ _, rfl⟩

/-- A distance is an exact quotient. -/
theorem distanceOf_exact (haverage : IntType.int32.InRange average)
    (hlower : 65536 ≤ maximum) (hupper : maximum ≤ 393216000) :
    ∃ distance, distanceOf average maximum = pure distance ∧
      -2147483648 ≤ distance ∧ distance ≤ 2147483648 := by
  rw [IntType.inRange_int32] at haverage
  have hquarter : maximum.tdiv 4 = maximum / 4 := Int.tdiv_eq_ediv_of_nonneg (by omega)
  have hdiv : div .int64 maximum 4 = pure (maximum / 4) := by
    rw [← hquarter]
    exact div_of_inRange (by omega) (IntType.inRange_int64.mpr (by omega))
  have hquarter_lower : 16384 ≤ maximum / 4 := by omega
  have hquarter_upper : maximum / 4 ≤ 98304000 := by omega
  generalize maximum / 4 = quarter at hdiv hquarter_lower hquarter_upper
  have habove : IntType.int64.InRange (average - quarter) := IntType.inRange_int64.mpr (by omega)
  have hscaled : IntType.int64.InRange ((average - quarter) * distanceCalcPrecision) := by
    unfold distanceCalcPrecision
    exact IntType.inRange_int64.mpr (by omega)
  -- the quotient of the absolute values bounds the distance
  have hbounds : -2147483648 ≤ ((average - quarter) * distanceCalcPrecision).tdiv quarter ∧
      ((average - quarter) * distanceCalcPrecision).tdiv quarter ≤ 2147483648 := by
    have habs : (((average - quarter) * distanceCalcPrecision).tdiv quarter).natAbs ≤
        2147483648 := by
      rw [Int.natAbs_tdiv]
      refine Nat.div_le_of_le_mul ?_
      have hscale : ((average - quarter) * distanceCalcPrecision).natAbs ≤ 16384 * 2147483648 := by
        unfold distanceCalcPrecision
        omega
      refine hscale.trans (Nat.mul_le_mul_right _ ?_)
      omega
    omega
  refine ⟨((average - quarter) * distanceCalcPrecision).tdiv quarter, ?_, hbounds⟩
  unfold distanceOf
  rw [hdiv, Traced.pure_bind, sub_of_inRange habove, Traced.pure_bind, mul_of_inRange hscaled,
    Traced.pure_bind]
  exact div_of_inRange (by omega) (IntType.inRange_int64.mpr (by omega))

/-- A ratio in its range is taken to one in its range. -/
theorem ratioAfter_exact (hratio : RatioFits ratio) (hlower : -2147483648 ≤ distance)
    (hupper : distance ≤ 2147483648) :
    ∃ ratio', ratioAfter ratio distance = pure ratio' ∧ RatioFits ratio' := by
  unfold RatioFits reserveRatioPrecision wlsMaxReserveRatio at hratio
  have hproduct : -429496729600000000 ≤ ratio * distance ∧
      ratio * distance ≤ 429496729600000000 := by
    constructor <;> nlinarith
  have hmul : mul .int64 ratio distance = pure (ratio * distance) :=
    mul_of_inRange (IntType.inRange_int64.mpr (by omega))
  by_cases hpos : 0 < distance
  · have hdivisor : add .int64 distance distanceCalcPrecision =
        pure (distance + distanceCalcPrecision) :=
      add_of_inRange (IntType.inRange_int64.mpr (by unfold distanceCalcPrecision; omega))
    have hshare : 0 ≤ (ratio * distance).tdiv (distance + distanceCalcPrecision) ∧
        (ratio * distance).tdiv (distance + distanceCalcPrecision) ≤ ratio := by
      rw [Int.tdiv_eq_ediv_of_nonneg (by nlinarith)]
      unfold distanceCalcPrecision
      refine ⟨Int.ediv_nonneg (by nlinarith) (by omega), ?_⟩
      exact Int.ediv_le_of_le_mul (by omega) (by nlinarith)
    have hdiv : div .int64 (ratio * distance) (distance + distanceCalcPrecision) =
        pure ((ratio * distance).tdiv (distance + distanceCalcPrecision)) :=
      div_of_inRange (by unfold distanceCalcPrecision; omega)
        (IntType.inRange_int64.mpr (by omega))
    generalize (ratio * distance).tdiv (distance + distanceCalcPrecision) = share at hshare hdiv
    have hlowered : sub .int64 ratio share = pure (ratio - share) :=
      sub_of_inRange (IntType.inRange_int64.mpr (by omega))
    unfold ratioAfter
    rw [if_pos hpos, hmul, Traced.pure_bind, hdivisor, Traced.pure_bind, hdiv, Traced.pure_bind,
      hlowered, Traced.pure_bind]
    refine ⟨_, rfl, ?_⟩
    unfold RatioFits reserveRatioPrecision wlsMaxReserveRatio
    split <;> omega
  · have hdivisor : sub .int64 distance distanceCalcPrecision =
        pure (distance - distanceCalcPrecision) :=
      sub_of_inRange (IntType.inRange_int64.mpr (by unfold distanceCalcPrecision; omega))
    have hshare : 0 ≤ (ratio * distance).tdiv (distance - distanceCalcPrecision) ∧
        (ratio * distance).tdiv (distance - distanceCalcPrecision) ≤ ratio := by
      -- both signs are turned
      rw [← Int.neg_tdiv_neg, Int.tdiv_eq_ediv_of_nonneg (by nlinarith)]
      unfold distanceCalcPrecision
      refine ⟨Int.ediv_nonneg (by nlinarith) (by omega), ?_⟩
      exact Int.ediv_le_of_le_mul (by omega) (by nlinarith)
    have hdiv : div .int64 (ratio * distance) (distance - distanceCalcPrecision) =
        pure ((ratio * distance).tdiv (distance - distanceCalcPrecision)) :=
      div_of_inRange (by unfold distanceCalcPrecision; omega)
        (IntType.inRange_int64.mpr (by omega))
    generalize (ratio * distance).tdiv (distance - distanceCalcPrecision) = share at hshare hdiv
    have hraised : add .int64 ratio (max reserveRatioMinIncrement share) =
        pure (ratio + max reserveRatioMinIncrement share) :=
      add_of_inRange (IntType.inRange_int64.mpr (by unfold reserveRatioMinIncrement; omega))
    have hlimit : mul .int64 wlsMaxReserveRatio reserveRatioPrecision =
        pure (wlsMaxReserveRatio * reserveRatioPrecision) := rfl
    unfold ratioAfter
    rw [if_neg hpos, hmul, Traced.pure_bind, hdivisor, Traced.pure_bind, hdiv, Traced.pure_bind,
      hraised, Traced.pure_bind, hlimit, Traced.pure_bind]
    refine ⟨_, rfl, ?_⟩
    unfold RatioFits reserveRatioPrecision wlsMaxReserveRatio reserveRatioMinIncrement
    split <;> omega

/-- The bandwidth is the one of the formula. -/
theorem virtualBandwidth_exact (hratio : RatioFits ratio) (hlower : 65536 ≤ maximum)
    (hupper : maximum ≤ 393216000) :
    virtualBandwidth maximum ratio = pure (bandwidthOf maximum ratio) := by
  unfold RatioFits reserveRatioPrecision wlsMaxReserveRatio at hratio
  have hproduct : 0 ≤ maximum * ratio ∧ maximum * ratio ≤ 78643200000000000 := by
    constructor <;> nlinarith
  have hweight : mul .uint64 wlsBandwidthPrecision wlsBandwidthAverageWindowSeconds =
      pure (wlsBandwidthPrecision * wlsBandwidthAverageWindowSeconds) := rfl
  have hdivisor : mul .int64 wlsBlockInterval reserveRatioPrecision =
      pure (wlsBlockInterval * reserveRatioPrecision) := rfl
  have hconst : wlsBandwidthPrecision * wlsBandwidthAverageWindowSeconds = 604800000000 := rfl
  have hinterval : (wlsBlockInterval : ℤ) * reserveRatioPrecision = 30000 := rfl
  have hdiv : div .uint128 (maximum * ratio * 604800000000) 30000 =
      pure (maximum * ratio * 604800000000 / 30000) := by
    rw [← Int.tdiv_eq_ediv_of_nonneg (by omega)]
    refine div_of_inRange (by omega) (IntType.inRange_uint128.mpr ?_)
    rw [Int.tdiv_eq_ediv_of_nonneg (by omega)]
    omega
  unfold virtualBandwidth bandwidthOf
  rw [held_of_inRange (IntType.inRange_uint128.mpr (by omega)), Traced.pure_bind,
    held_of_inRange (IntType.inRange_uint128.mpr (by omega)), Traced.pure_bind,
    mul_of_inRange (IntType.inRange_uint128.mpr (by omega)), Traced.pure_bind, hweight,
    Traced.pure_bind, hconst,
    mul_of_inRange (IntType.inRange_uint128.mpr (by omega)), Traced.pure_bind, hdivisor,
    Traced.pure_bind, hinterval]
  exact hdiv

end Operations

section Run

variable {w : Watch} {r : ReserveRatioObject} {notice : BlockNotice} {rest : List BlockNotice}

/-- Only the average can leave its range, and the bandwidth follows the formula where it is
updated. -/
theorem updateReserveRatio_exact (hratio : RatioFits r.currentReserveRatio)
    (hadmitted : notice.Admitted) :
    ∃ r', updateReserveRatio notice r =
        ⟨r', (averageAfter r.averageBlockSize notice.packSize).inRange, true⟩ ∧
      r'.averageBlockSize = (averageAfter r.averageBlockSize notice.packSize).value ∧
      RatioFits r'.currentReserveRatio ∧
      r'.maxVirtualBandwidth = if notice.headBlockNum % 20 = 0 then
        bandwidthOf notice.maximumBlockSize r'.currentReserveRatio else r.maxVirtualBandwidth := by
  obtain ⟨haverage, hdivides⟩ := averageAfter_value r.averageBlockSize notice.packSize
  have hlower : 65536 ≤ (notice.maximumBlockSize : ℤ) := by exact_mod_cast hadmitted.lower
  have hupper : (notice.maximumBlockSize : ℤ) ≤ 393216000 := by exact_mod_cast hadmitted.upper
  unfold updateReserveRatio
  rw [Traced.bind_eq, hdivides]
  generalize averageAfter r.averageBlockSize notice.packSize = a at haverage
  by_cases hupdates : notice.headBlockNum % 20 = 0
  · obtain ⟨distance, hdistance, hdistance_lower, hdistance_upper⟩ :=
      distanceOf_exact haverage hlower hupper
    obtain ⟨ratio, hratioAfter, hfits⟩ := ratioAfter_exact hratio hdistance_lower hdistance_upper
    refine ⟨⟨a.value, ratio, bandwidthOf notice.maximumBlockSize ratio⟩, ?_, rfl, hfits, ?_⟩
    · rw [if_pos hupdates, hdistance, Traced.pure_bind, hratioAfter, Traced.pure_bind,
        virtualBandwidth_exact hfits hlower hupper, Traced.pure_bind, Traced.pure_eq,
        Bool.and_true, Bool.and_true]
    · rw [if_pos hupdates]
  · refine ⟨{ r with averageBlockSize := a.value }, ?_, rfl, hratio, ?_⟩
    · rw [if_neg hupdates, Traced.pure_eq, Bool.and_true, Bool.and_true]
    · rw [if_neg hupdates]

/-- A block keeps the ratio in range and divides by no zero. The bandwidth is that of the formula
if it was before or is updated now. -/
theorem next_exact (hobject : w.object = some r) (hratio : RatioFits r.currentReserveRatio)
    (hadmitted : notice.Admitted) :
    ∃ r', (w.next notice).object = some r' ∧ RatioFits r'.currentReserveRatio ∧
      r'.averageBlockSize = (averageAfter r.averageBlockSize notice.packSize).value ∧
      (r'.maxVirtualBandwidth = (w.next notice).formula ↔
        r.maxVirtualBandwidth = w.formula ∨ notice.Updates) ∧
      StepDivides w notice ∧
      (StepInRange w notice ↔
        (averageAfter r.averageBlockSize notice.packSize).inRange = true) := by
  obtain ⟨r', hupdate, haverage, hfits, hbandwidth⟩ := updateReserveRatio_exact hratio hadmitted
  have hstep : onBlock notice w.object =
      ⟨r', (averageAfter r.averageBlockSize notice.packSize).inRange, true⟩ := by
    rw [hobject]
    exact hupdate
  have hformula : (w.next notice).formula = if notice.headBlockNum % 20 = 0 then
      bandwidthOf notice.maximumBlockSize r'.currentReserveRatio else w.formula := by
    unfold Watch.next Watch.formulaAfter
    rw [hstep, hobject]
  refine ⟨r', ?_, hfits, haverage, ?_, ?_, ?_⟩
  · unfold Watch.next
    rw [hstep]
  · rw [hformula, hbandwidth]
    unfold BlockNotice.Updates
    by_cases hupdates : notice.headBlockNum % 20 = 0
    · simp [hupdates]
    · simp [hupdates]
  · unfold StepDivides
    rw [hstep]
  · unfold StepInRange
    rw [hstep]

/-- The parts that hold whatever the average is. -/
theorem run_exact (hobject : w.object = some r) (hratio : RatioFits r.currentReserveRatio)
    (hadmitted : ∀ notice ∈ rest, notice.Admitted) :
    EachStep StepDivides w rest ∧ ∃ r', (rest.foldl Watch.next w).object = some r' ∧
      RatioFits r'.currentReserveRatio ∧
      (r'.maxVirtualBandwidth = (rest.foldl Watch.next w).formula ↔
        r.maxVirtualBandwidth = w.formula ∨ ∃ notice ∈ rest, notice.Updates) := by
  induction rest generalizing w r with
  | nil => exact ⟨trivial, r, hobject, hratio, by simp⟩
  | cons notice rest ih =>
    obtain ⟨r₁, hobject₁, hratio₁, -, hbandwidth₁, hdivides, -⟩ :=
      next_exact hobject hratio (hadmitted notice List.mem_cons_self)
    obtain ⟨hrest, r', hobject', hratio', hbandwidth'⟩ :=
      ih hobject₁ hratio₁ fun n hn => hadmitted n (List.mem_cons_of_mem _ hn)
    refine ⟨⟨hdivides, hrest⟩, r', hobject', hratio', ?_⟩
    rw [List.foldl_cons, hbandwidth', hbandwidth₁, List.exists_mem_cons_iff, or_assoc]

/-- The average is in its bounds. -/
structure Averaged (w : Watch) (r : ReserveRatioObject) : Prop where
  object : w.object = some r
  ratio : RatioFits r.currentReserveRatio
  nonneg : 0 ≤ r.averageBlockSize
  le : r.averageBlockSize ≤ w.largest

/-- The average fits exactly if that of the reserve ratio does. -/
theorem Averaged.fits_iff (h : Averaged w r) :
    AverageFits w notice ↔ r.averageBlockSize ≤ 21691754 := by
  unfold AverageFits
  rw [h.object]
  exact ⟨fun hfits => hfits r rfl, fun hfits q hq => Option.some.inj hq ▸ hfits⟩

/-- A step is in range exactly if the average fits, and the average stays in its bounds. -/
theorem Averaged.step (h : Averaged w r) (hadmitted : notice.Admitted) :
    (StepInRange w notice ↔ AverageFits w notice) ∧
      (AverageFits w notice → ∃ r', Averaged (w.next notice) r') := by
  obtain ⟨r', hobject, hratio, haverage, -, -, hinRange⟩ :=
    next_exact h.object h.ratio hadmitted
  have hsize : notice.packSize ≤ wlsMaxBlockSize := hadmitted.packed.trans hadmitted.limit
  rw [hinRange, h.fits_iff]
  refine ⟨⟨averageAfter_fits, fun hfits => ?_⟩, fun hfits => ⟨r', hobject, hratio, ?_, ?_⟩⟩
  · rw [averageAfter_exact h.nonneg hfits hsize]
    rfl
  · rw [haverage, averageAfter_exact h.nonneg hfits hsize]
    change 0 ≤ weightedAverage r.averageBlockSize notice.packSize
    have hnonneg := h.nonneg
    unfold weightedAverage
    omega
  · rw [haverage, averageAfter_exact h.nonneg hfits hsize]
    exact weightedAverage_le h.le

/-- Along a run the average stays in range exactly if it fits at each block. -/
theorem Averaged.run (h : Averaged w r) (hadmitted : ∀ notice ∈ rest, notice.Admitted) :
    (EachStep StepInRange w rest ↔ EachStep AverageFits w rest) ∧
      (EachStep AverageFits w rest → ∃ r', Averaged (rest.foldl Watch.next w) r') := by
  induction rest generalizing w r with
  | nil => exact ⟨Iff.rfl, fun _ => ⟨r, h⟩⟩
  | cons notice rest ih =>
    obtain ⟨hstep, hkept⟩ := h.step (hadmitted notice List.mem_cons_self)
    have hrest (hfits : AverageFits w notice) :
        (EachStep StepInRange (w.next notice) rest ↔ EachStep AverageFits (w.next notice) rest) ∧
          (EachStep AverageFits (w.next notice) rest →
            ∃ r', Averaged (rest.foldl Watch.next (w.next notice)) r') := by
      obtain ⟨r₁, h₁⟩ := hkept hfits
      exact ih h₁ fun n hn => hadmitted n (List.mem_cons_of_mem _ hn)
    refine ⟨?_, fun ⟨hfits, hmore⟩ => (hrest hfits).2 hmore⟩
    unfold EachStep
    rw [hstep]
    exact and_congr_right fun hfits => (hrest hfits).1

/-- The average fits as long as no block is larger than what fits. -/
theorem Averaged.fits_of_small (h : Averaged w r) (hlargest : w.largest ≤ 21691754)
    (hadmitted : ∀ notice ∈ rest, notice.Admitted)
    (hsmall : ∀ notice ∈ rest, notice.packSize ≤ 21691754) : EachStep AverageFits w rest := by
  induction rest generalizing w r with
  | nil => trivial
  | cons notice rest ih =>
    have hfits : AverageFits w notice := by
      have hle := h.le
      exact h.fits_iff.mpr (by omega)
    obtain ⟨r₁, h₁⟩ := (h.step (hadmitted notice List.mem_cons_self)).2 hfits
    have hlargest₁ : (w.next notice).largest ≤ 21691754 :=
      max_le hlargest (hsmall notice List.mem_cons_self)
    exact ⟨hfits, ih h₁ hlargest₁ (fun n hn => hadmitted n (List.mem_cons_of_mem _ hn))
      fun n hn => hsmall n (List.mem_cons_of_mem _ hn)⟩

/-- The creation: the average and the ratio are right, and the product of `int`s is not. -/
theorem create_averaged (first : BlockNotice) :
    ∃ r, Averaged (watch [first]) r ∧ r.maxVirtualBandwidth ≠ (watch [first]).formula ∧
      ¬ StepInRange {} first ∧ StepDivides {} first := by
  refine ⟨createReserveRatio.value, ⟨rfl, ?_, le_rfl, Int.natCast_nonneg _⟩, ?_, ?_, ?_⟩
  · exact ⟨by decide, by decide⟩
  · change createReserveRatio.value.maxVirtualBandwidth ≠
      bandwidthOf wlsMaxBlockSize createReserveRatio.value.currentReserveRatio
    decide
  · change createReserveRatio.inRange ≠ true
    decide
  · change createReserveRatio.divides = true
    decide

/-- No run is under control: the creation of the object at its first block leaves the range of an
`int`. The ratio is in its range in every run, and no divisor is zero. From the second block on
the results are in range, and the object ends under control, exactly if the average always fits
and the bandwidth has been updated since the creation. -/
theorem reserve_ratio_control (first : BlockNotice) (rest : List BlockNotice)
    (hadmitted : ∀ notice ∈ first :: rest, notice.Admitted) :
    ¬ InControl (first :: rest) ∧ EachStep StepDivides {} (first :: rest) ∧
      (∃ r, (watch (first :: rest)).object = some r ∧ RatioFits r.currentReserveRatio) ∧
      ((EachStep StepInRange (watch [first]) rest ∧ ∃ r, Steered (watch (first :: rest)) r) ↔
        EachStep AverageFits (watch [first]) rest ∧ ∃ notice ∈ rest, notice.Updates) := by
  obtain ⟨r₀, hcreated, hwrong, hcreation, hdivides⟩ := create_averaged first
  have hadmitted' : ∀ notice ∈ rest, notice.Admitted :=
    fun n hn => hadmitted n (List.mem_cons_of_mem _ hn)
  obtain ⟨hrest, r, hobject, hratio, hbandwidth⟩ :=
    run_exact hcreated.object hcreated.ratio hadmitted'
  obtain ⟨hinRange, haveraged⟩ := hcreated.run hadmitted'
  have hwatch : watch (first :: rest) = rest.foldl Watch.next (watch [first]) := rfl
  rw [← hwatch] at hobject hbandwidth haveraged
  refine ⟨fun hcontrol => hcreation hcontrol.inRange.1, ⟨hdivides, hrest⟩, ⟨r, hobject, hratio⟩,
    ?_⟩
  rw [hinRange]
  refine and_congr_right fun hfits => ?_
  obtain ⟨r', haverage⟩ := haveraged hfits
  have hsame : r' = r := Option.some.inj (haverage.object.symm.trans hobject)
  subst hsame
  constructor
  · rintro ⟨q, hq⟩
    have hqr : q = r' := Option.some.inj (hq.object.symm.trans hobject)
    subst hqr
    exact (hbandwidth.mp hq.bandwidth).resolve_left hwrong
  · intro hupdated
    exact ⟨r', hobject, hratio.1, hratio.2, haverage.nonneg, haverage.le,
      hbandwidth.mpr (.inr hupdated)⟩

/-- A block of a thousand bytes, with the number it has. -/
def smallBlock (num : ℕ) : BlockNotice := ⟨num, 1000, 131072, 131072⟩

/-- A small block is admitted. -/
theorem smallBlock_admitted (num : ℕ) : (smallBlock num).Admitted :=
  ⟨by change 1000 ≤ 131072; decide, by change 131072 ≤ wlsMaxBlockSize; decide,
    by change wlsMinBlockSizeLimit ≤ 131072; decide, by change 131072 ≤ wlsMaxBlockSize; decide⟩

/-- The object is under control after the first twenty blocks of a chain, the last of which updates
the bandwidth. -/
theorem reserve_ratio_control_twenty :
    let rest := (List.range 19).map fun i => smallBlock (i + 2)
    EachStep StepInRange (watch [smallBlock 1]) rest ∧ ∃ r, Steered (watch (smallBlock 1 :: rest)) r := by
  intro rest
  have hrest : ∀ notice ∈ rest, notice.Admitted ∧ notice.packSize ≤ 21691754 := by
    intro notice hnotice
    obtain ⟨i, -, rfl⟩ := List.mem_map.mp hnotice
    exact ⟨smallBlock_admitted _, by change 1000 ≤ 21691754; decide⟩
  have hadmitted : ∀ notice ∈ smallBlock 1 :: rest, notice.Admitted := fun notice hnotice =>
    (List.mem_cons.mp hnotice).elim (fun h => h ▸ smallBlock_admitted 1) fun h => (hrest notice h).1
  have hupdates : smallBlock 20 ∈ rest := List.mem_map.mpr ⟨18, by decide, rfl⟩
  obtain ⟨r₀, hcreated, -⟩ := create_averaged (smallBlock 1)
  have hfits : EachStep AverageFits (watch [smallBlock 1]) rest :=
    hcreated.fits_of_small (by decide) (fun n hn => (hrest n hn).1) fun n hn => (hrest n hn).2
  obtain ⟨-, -, -, hcontrol⟩ := reserve_ratio_control (smallBlock 1) rest hadmitted
  exact hcontrol.mpr ⟨hfits, smallBlock 20, hupdates, rfl⟩

/-- A block of the largest size, with the number it has. -/
def largestBlock (num : ℕ) : BlockNotice := ⟨num, wlsMaxBlockSize, wlsMaxBlockSize, wlsMaxBlockSize⟩

/-- The largest block is admitted. -/
theorem largestBlock_admitted (num : ℕ) : (largestBlock num).Admitted :=
  ⟨le_rfl, le_rfl, by change wlsMinBlockSizeLimit ≤ wlsMaxBlockSize; decide, le_rfl⟩

/-- Blocks of the largest size. -/
def largestBlocks (count : ℕ) : List BlockNotice :=
  (List.range count).map fun i => largestBlock (i + 1)

/-- The first block leaves another bandwidth than that of the formula. After eight blocks of the
largest size the average is negative. -/
theorem creation_overflows :
    (∀ notice ∈ largestBlocks 8, notice.Admitted) ∧ ¬ InControl (largestBlocks 1) ∧
      (watch (largestBlocks 1)).object = some ⟨0, 200000000, 47352014438400000000⟩ ∧
      (watch (largestBlocks 1)).formula = 1585446912000000000000000 ∧
      (watch (largestBlocks 8)).object =
        some ⟨-188035375, 200000000, 47352014438400000000⟩ := by
  refine ⟨fun notice hnotice => ?_, ?_, by decide, by decide, by decide +kernel⟩
  · obtain ⟨i, -, rfl⟩ := List.mem_map.mp hnotice
    exact largestBlock_admitted (i + 1)
  · rintro ⟨⟨r, hr⟩, hinRange, -⟩
    exact absurd hinRange.1 (by change createReserveRatio.inRange ≠ true; decide)

end Run

end Whaleshares.ReserveRatio
