import Formulary.Decimal.Binary

/-!
# The fewest digits that read back

Every number near enough to a floating-point number reads back as it. Among the
decimal grids, from coarse to fine, the first with a point in that interval gives
the fewest digits; on it one of the two neighbours of the number is chosen.
-/
namespace Formulary.Decimal

/-- A positive number and the ends of the interval that reads back as it, each a
multiple of one over `unit`; the ends belong to the interval when it is closed. -/
structure Interval where
  low : Nat
  value : Nat
  high : Nat
  unit : Nat
  closed : Bool
deriving DecidableEq, Repr

namespace Interval

/-- Half a step reaches the next number on either side, except that the numbers
below a power of two are twice as dense. The ends round to an even mantissa. -/
def ofMantissa (mantissa : Nat) (exponent : Int) : Interval :=
  let scale := Nat.pow 2 (exponent - 2).toNat
  { low := (if mantissa = leadingBit then 4 * mantissa - 1 else 4 * mantissa - 2) * scale
    value := 4 * mantissa * scale
    high := (4 * mantissa + 2) * scale
    unit := Nat.pow 2 (2 - exponent).toNat
    closed := mantissa % 2 = 0 }

def onGrid (i : Interval) (grid : Int) : Interval :=
  let finer := Nat.pow 10 (-grid).toNat
  { i with
    low := i.low * finer
    value := i.value * finer
    high := i.high * finer
    unit := i.unit * Nat.pow 10 grid.toNat }

def holds (i : Interval) (point : Nat) : Bool :=
  let x := point * i.unit
  if i.closed then i.low ≤ x && x ≤ i.high else i.low < x && x < i.high

/-- The nearer neighbour of the number among those that read back; when both do
and are equally near, the upper. -/
def neighbour? (i : Interval) : Option Nat :=
  let down := i.value / i.unit
  match i.holds down, i.holds (down + 1) with
  | true, true => some (if 2 * (i.value % i.unit) < i.unit then down else down + 1)
  | true, false => some down
  | false, true => some (down + 1)
  | false, false => none

theorem holds_of_neighbour? {i : Interval} {n : Nat} (h : i.neighbour? = some n) :
    i.holds n = true := by
  unfold neighbour? at h
  simp only at h
  split at h <;> simp only [Option.some.injEq, reduceCtorEq] at h
  · split at h <;> subst h <;> assumption
  · subst h; assumption
  · subst h; assumption

end Interval

def grids (i : Interval) : List Int :=
  let top := (Nat.toDigits 10 (i.value / i.unit)).length
  (List.range (top + 326)).map fun step : Nat => (top : Int) - step

def shortest (i : Interval) : Nat × Int :=
  ((grids i).findSome? fun grid => (i.onGrid grid).neighbour?.map (·, grid)).getD (0, 0)

example : shortest (.ofMantissa 1 (-1074)) = (5, -324) := by decide +kernel
example : shortest (.ofMantissa 0x1999999999999a (-56)) = (1, -1) := by decide +kernel

end Formulary.Decimal
