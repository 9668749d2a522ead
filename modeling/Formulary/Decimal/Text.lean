import Formulary.Decimal.Rounding
import Formulary.Decimal.Shortest

/-!
# Numbers as decimal text

Two forms: the fewest digits that read back, always positional, and a fixed count
of places with a sign in front.
-/
namespace Formulary.Decimal

/-- The digits of `n` with a point before the last `places` of them, and a zero
before the point if nothing else stands there. -/
def pointed (n places : Nat) : List Char :=
  let digits := Nat.toDigits 10 n
  let digits := List.replicate (places + 1 - digits.length) '0' ++ digits
  let cut := digits.length - places
  if places = 0 then digits else digits.take cut ++ '.' :: digits.drop cut

def positional (n : Nat) (grid : Int) : List Char :=
  pointed (n * Nat.pow 10 grid.toNat) (-grid).toNat

def infinity : List Char := ['i', 'n', 'f']

def notANumber : List Char := ['N', 'a', 'N']

def plainChars : Binary → List Char
  | .notANumber => notANumber
  | .infinite negative => sign negative ++ infinity
  | .finite negative mantissa exponent =>
    sign negative ++
      if mantissa = 0 then ['0']
      else
        let (n, grid) := shortest (.ofMantissa mantissa exponent)
        positional n grid
where
  sign (negative : Bool) : List Char := if negative then ['-'] else []

/-- Rounded to `places` decimal places, a half to even; the sign is always written. -/
def signedChars (places : Nat) : Binary → List Char
  | .notANumber => notANumber
  | .infinite negative => sign negative :: infinity
  | .finite negative mantissa exponent =>
    sign negative ::
      pointed
        (roundDiv .toEven (mantissa * Nat.pow 2 exponent.toNat * Nat.pow 10 places)
          (Nat.pow 2 (-exponent).toNat))
        places
where
  sign (negative : Bool) : Char := if negative then '-' else '+'

def plain (x : Float) : String := String.ofList (plainChars (.ofFloat x))

def signed (places : Nat) (x : Float) : String := String.ofList (signedChars places (.ofFloat x))

end Formulary.Decimal
