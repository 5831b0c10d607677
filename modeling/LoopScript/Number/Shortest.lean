import LoopScript.Number.Decimal

/-! The shortest decimal that is read back as a given magnitude.

The quotients that round to a magnitude form an interval around it; its ends belong to it when the
significand is even. On the grid of the multiples of a power of ten, only the two neighbours of the
magnitude can be the nearest point of the interval. Grids are tried from the coarsest on, and the
first one with a neighbour in the interval gives the fewest digits. All comparisons are between
natural numbers over one denominator. -/

namespace LoopScript.Number

/-- Which of two equally near decimals is taken. -/
inductive Tie where
  | up | even
deriving DecidableEq

/-- The interval of a magnitude in quarters of a unit of its last place, for the exponent of such a
quarter. The lower neighbour of a power of two is nearer than the upper one. -/
structure Interval where
  low : Nat
  middle : Nat
  high : Nat
  exponent : Int
  closed : Bool
deriving DecidableEq

namespace Interval

/-- The interval of the quotients that round to a finite magnitude other than zero. -/
def ofMagnitude (bits : Magnitude) : Interval :=
  let significand := bits.significand
  let isPowerOfTwo :=
    significand = Nat.pow 2 Magnitude.fractionBits ∧ Magnitude.leastExponent < bits.exponent
  { low := if isPowerOfTwo then 4 * significand - 1 else 4 * significand - 2
    middle := 4 * significand
    high := 4 * significand + 2
    exponent := bits.exponent - 2
    closed := significand % 2 = 0 }

/-- A number of quarters, over the common denominator with the grid of `10 ^ grid`. -/
def scale (interval : Interval) (grid : Int) (quarters : Nat) : Nat :=
  quarters * Nat.pow 2 interval.exponent.toNat * Nat.pow 10 (-grid).toNat

/-- One step of the grid of `10 ^ grid`, over the common denominator with the quarters. -/
def step (interval : Interval) (grid : Int) : Nat :=
  Nat.pow 10 grid.toNat * Nat.pow 2 (-interval.exponent).toNat

/-- Whether a multiple of `10 ^ grid` is in the interval. -/
def contains (interval : Interval) (grid : Int) (multiple : Nat) : Bool :=
  let point := multiple * interval.step grid
  let low := interval.scale grid interval.low
  let high := interval.scale grid interval.high
  if interval.closed then low ≤ point && point ≤ high else low < point && point < high

/-- The greatest multiple of `10 ^ grid` that is not above the middle. -/
def below (interval : Interval) (grid : Int) : Nat :=
  interval.scale grid interval.middle / interval.step grid

/-- The multiple of `10 ^ grid` in the interval that is nearest to the middle, if there is one. -/
def nearest? (tie : Tie) (interval : Interval) (grid : Int) : Option Nat :=
  let lower := interval.below grid
  let remainder := interval.scale grid interval.middle % interval.step grid
  match interval.contains grid lower, interval.contains grid (lower + 1) with
  | false, false => none
  | true, false => some lower
  | false, true => some (lower + 1)
  | true, true =>
      match compare (2 * remainder) (interval.step grid) with
      | .lt => some lower
      | .gt => some (lower + 1)
      | .eq =>
          match tie with
          | .up => some (lower + 1)
          | .even => some (lower + lower % 2)

/-- The greatest `k` with `10 ^ k` not above the middle. -/
def leadingExponent (interval : Interval) : Int :=
  let num := interval.middle * Nat.pow 2 interval.exponent.toNat
  let den := Nat.pow 2 (-interval.exponent).toNat
  if den ≤ num then (Nat.toDigits 10 (num / den)).length - 1
  else -((Nat.toDigits 10 ((den - 1) / num)).length : Int)

/-- The nearest point of the first grid that has one in the interval, with `finer` more grids to
try after this one. The middle is a point of the finest grid. -/
def search (tie : Tie) (interval : Interval) : (finer : Nat) → (grid : Int) → Decimal
  | 0, grid => Decimal.trimZeros (interval.below grid) grid
  | finer + 1, grid =>
      match interval.nearest? tie grid with
      | some multiple => Decimal.trimZeros multiple grid
      | none => search tie interval finer (grid - 1)

end Interval

/-- The decimal with the fewest digits that rounds to a finite magnitude other than zero, and of
those the nearest one. -/
def shortest (tie : Tie) (bits : Magnitude) : Decimal :=
  let interval := Interval.ofMagnitude bits
  let coarsest := interval.leadingExponent
  interval.search tie (coarsest - min interval.exponent 0).toNat coarsest

end LoopScript.Number
