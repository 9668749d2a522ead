import Formulary.Decimal.Binary
import Formulary.Decimal.Rounding

/-!
# The nearest floating-point number

A decimal is rounded once, in whole numbers. Between two powers of two the numbers stand in
equal steps, and the count of the steps is what their bits say.
-/
namespace Formulary.Decimal

def signBit : Nat := Nat.pow 2 63

def infinityBits : Nat := 2047 * leadingBit

def unitsInOne : Nat := Nat.pow 2 1074

/-- The bits of the number nearest to a quotient. The step is one unit at first and doubles
at each power of two once there are fifty-two bits behind the leading one. -/
def quotientBits (num den : Nat) : Nat :=
  let num := num * unitsInOne
  let step := Nat.log2 (num / den) - 52
  min infinityBits (step * leadingBit + roundDiv .toEven num (den * Nat.pow 2 step))

/-- The bits of the number nearest to `m` times ten to the power `e`. Far out on either side
the power itself is never computed. -/
def nearestBits (m : Nat) (e : Int) : Nat :=
  if m = 0 then 0
  else if 310 < e then infinityBits
  else if e + Nat.log2 m < -330 then 0
  else quotientBits (m * Nat.pow 10 e.toNat) (Nat.pow 10 (-e).toNat)

def nearest (negative : Bool) (m : Nat) (e : Int) : Float :=
  .ofBits (.ofNat (negative.toNat * signBit + nearestBits m e))

end Formulary.Decimal
