/-!
# Floating-point numbers as exact values

A finite number is a sign, a whole mantissa and a power of two.
-/
namespace Formulary.Decimal

inductive Binary where
  | finite (negative : Bool) (mantissa : Nat) (exponent : Int)
  | infinite (negative : Bool)
  | notANumber
deriving DecidableEq, Repr

def leadingBit : Nat := Nat.pow 2 52

/-- One bit of sign, eleven of exponent, fifty-two of mantissa; the smallest
exponent is shared by the numbers that have no leading bit. -/
def Binary.ofBits (bits : Nat) : Binary :=
  let negative := bits / Nat.pow 2 63 % 2 = 1
  let exponent : Nat := bits / leadingBit % Nat.pow 2 11
  let fraction := bits % leadingBit
  if exponent = 2047 then
    if fraction = 0 then .infinite negative else .notANumber
  else if exponent = 0 then .finite negative fraction (-1074)
  else .finite negative (leadingBit + fraction) ((exponent : Int) - 1075)

def Binary.ofFloat (x : Float) : Binary := .ofBits x.toBits.toNat

example : Binary.ofFloat 1.0 = .finite false leadingBit (-52) := by decide
example : Binary.ofFloat (-0.0) = .finite true 0 (-1074) := by decide
example : Binary.ofFloat (-1.0 / 0.0) = .infinite true := by decide
example : Binary.ofFloat (0.0 / 0.0) = .notANumber := by decide

end Formulary.Decimal
