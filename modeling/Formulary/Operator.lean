/-!
# Operators

Five binary operators, which associate to the left, and five functions of one
number.
-/
namespace Formulary

inductive BinaryOp where
  | add
  | subtract
  | multiply
  | divide
  | power
deriving DecidableEq, Repr

namespace BinaryOp

def all : List BinaryOp := [add, subtract, multiply, divide, power]

def char : BinaryOp → Char
  | add => '+'
  | subtract => '-'
  | multiply => '*'
  | divide => '/'
  | power => '^'

def ofChar? (c : Char) : Option BinaryOp := all.find? (·.char = c)

@[simp] theorem ofChar?_char (op : BinaryOp) : ofChar? op.char = some op := by cases op <;> decide

theorem ofChar?_eq_some {c : Char} {op : BinaryOp} : ofChar? c = some op ↔ c = op.char := by
  constructor
  · intro h
    have := List.find?_some h
    simpa [eq_comm] using this
  · rintro rfl
    exact ofChar?_char op

def precedence : BinaryOp → Nat
  | add | subtract => 0
  | multiply | divide => 1
  | power => 2

def apply : BinaryOp → Float → Float → Float
  | add => (· + ·)
  | subtract => (· - ·)
  | multiply => (· * ·)
  | divide => (· / ·)
  | power => Float.pow

end BinaryOp

inductive Function where
  | sin
  | cos
  | tan
  | sqrt
  | exp
deriving DecidableEq, Repr

namespace Function

def all : List Function := [sin, cos, tan, sqrt, exp]

def name : Function → String
  | sin => "sin"
  | cos => "cos"
  | tan => "tan"
  | sqrt => "sqrt"
  | exp => "exp"

def apply : Function → Float → Float
  | sin => Float.sin
  | cos => Float.cos
  | tan => Float.tan
  | sqrt => Float.sqrt
  | exp => Float.exp

end Function

inductive Operator where
  | binary (op : BinaryOp)
  | unary (f : Function)
deriving DecidableEq, Repr

namespace Operator

def all : List Operator := BinaryOp.all.map .binary ++ Function.all.map .unary

def isBinary : Operator → Bool
  | binary _ => true
  | unary _ => false

def arity (op : Operator) : Nat := if op.isBinary then 2 else 1

def precedence : Operator → Nat
  | binary op => op.precedence
  | unary _ => 3

def symbol : Operator → String
  | binary op => String.singleton op.char
  | unary f => f.name

def ofSymbol? (s : String) : Option Operator := all.find? (·.symbol = s)

theorem ofSymbol?_symbol (op : Operator) : ofSymbol? op.symbol = some op := by
  rcases op with op | f
  · cases op <;> decide
  · cases f <;> decide

end Operator

end Formulary
