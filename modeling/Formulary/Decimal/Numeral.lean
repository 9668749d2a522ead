import Formulary.Decimal.Nearest

/-!
# Numerals

A numeral is an optional sign, digits with at most one point among or around them,
and an optional exponent, which needs digits of its own once its mark is read. Its
value is the floating-point number nearest to what it says.
-/
namespace Formulary.Decimal

inductive Sign where
  | plus
  | minus
deriving DecidableEq, Repr

def Sign.char : Sign → Char
  | .plus => '+'
  | .minus => '-'

def sign? : List Char → Option Sign × List Char
  | '+' :: rest => (some .plus, rest)
  | '-' :: rest => (some .minus, rest)
  | rest => (none, rest)

def signChars (s : Option Sign) : List Char := s.toList.map Sign.char

@[simp] theorem sign?_spelling (cs : List Char) : signChars (sign? cs).1 ++ (sign? cs).2 = cs := by
  unfold sign?; split <;> rfl

structure Exponent where
  mark : Char
  sign : Option Sign
  digits : List Char
deriving DecidableEq, Repr

structure Numeral where
  sign : Option Sign
  whole : List Char
  fraction : Option (List Char)
  exponent : Option Exponent
deriving DecidableEq, Repr

def Exponent.spelling (e : Exponent) : List Char := e.mark :: (signChars e.sign ++ e.digits)

def fractionChars : Option (List Char) → List Char
  | none => []
  | some digits => '.' :: digits

def exponentChars (e : Option Exponent) : List Char := e.toList.flatMap Exponent.spelling

namespace Numeral

def spelling (n : Numeral) : List Char :=
  signChars n.sign ++ (n.whole ++ (fractionChars n.fraction ++ exponentChars n.exponent))

/-- Digits on at least one side of the point. -/
def mantissa? (cs : List Char) : Option (List Char × Option (List Char) × List Char) :=
  let whole := cs.takeWhile Char.isDigit
  match cs.dropWhile Char.isDigit with
  | '.' :: rest =>
    let fraction := rest.takeWhile Char.isDigit
    if whole = [] ∧ fraction = [] then none
    else some (whole, some fraction, rest.dropWhile Char.isDigit)
  | rest => if whole = [] then none else some (whole, none, rest)

/-- What a mark for an exponent opens has to be one. -/
def exponent? : List Char → Option (Option Exponent × List Char)
  | mark :: rest =>
    if mark = 'e' ∨ mark = 'E' then
      let (sign, rest) := sign? rest
      let digits := rest.takeWhile Char.isDigit
      if digits = [] then none
      else some (some ⟨mark, sign, digits⟩, rest.dropWhile Char.isDigit)
    else some (none, mark :: rest)
  | [] => some (none, [])

def read? (cs : List Char) : Option (Numeral × List Char) := do
  let (sign, rest) := sign? cs
  let (whole, fraction, rest) ← mantissa? rest
  let (exponent, rest) ← exponent? rest
  return (⟨sign, whole, fraction, exponent⟩, rest)

def digitsValue (digits : List Char) : Nat :=
  digits.foldl (fun n c => 10 * n + (c.toNat - '0'.toNat)) 0

def scale (e : Exponent) : Int :=
  if e.sign = some .minus then -digitsValue e.digits else digitsValue e.digits

def value (n : Numeral) : Float :=
  let fraction := n.fraction.getD []
  nearest (n.sign = some .minus) (digitsValue (n.whole ++ fraction))
    (n.exponent.elim 0 scale - fraction.length)

end Numeral

end Formulary.Decimal
