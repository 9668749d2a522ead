import Formulary.Formula

/-!
# Evaluation

A formula runs on a stack of values. A call is checked before its arguments are
evaluated: its target, the number of its arguments, and the calls that it would stand
inside. The arguments see what the caller sees; the body of the target sees the
coordinates of the caller and the values of the arguments.
-/
namespace Formulary

inductive EvalError where
  | missingCoordinate (index available : Nat)
  | missingArgument (index available : Nat)
  | stackUnderflow (op : Operator) (needed available : Nat)
  | unresolved (name : String)
  | arityMismatch (name : String) (expected found : Nat)
  | callsTooDeep (name : String) (limit : Nat)
  | unbalancedStack (remaining : Nat)
deriving DecidableEq, Repr

namespace EvalError

def message : EvalError → String
  | missingCoordinate index available =>
    s!"implicit parameter {index} is not available ({available} supplied)"
  | missingArgument index available =>
    s!"explicit parameter {index} is not available ({available} supplied)"
  | stackUnderflow op needed available =>
    s!"operator '{op.symbol}' needs {needed} operands, found {available}"
  | unresolved name => s!"'{name}' does not name a known equation"
  | arityMismatch name expected found => s!"'{name}' expects {expected} arguments, found {found}"
  | callsTooDeep name limit => s!"call depth limit of {limit} exceeded while calling '{name}'"
  | unbalancedStack remaining =>
    s!"evaluation left {remaining} values on the stack, expected exactly one"

end EvalError

/-- The stack has its top first, so the right operand comes before the left. -/
def Operator.run : Operator → List Float → Except EvalError (List Float)
  | .binary op, right :: left :: stack => .ok (op.apply left right :: stack)
  | .unary f, x :: stack => .ok (f.apply x :: stack)
  | op, stack => .error (.stackUnderflow op op.arity stack.length)

/-- What becomes of a call: by its name, target and number of arguments, either an
error or what the values of its arguments give. -/
abbrev CallRule := String → Option Nat → Nat → Except EvalError (List Float → Except EvalError Float)

def single : List Float → Except EvalError Float
  | [x] => .ok x
  | stack => .error (.unbalancedStack stack.length)

section
variable (enter : CallRule) (coordinates arguments : List Float)

mutual

def Formula.run : Formula → Except EvalError Float
  | .mk nodes _ => do single (← Node.runAll nodes [])

def Node.runAll : List Node → List Float → Except EvalError (List Float)
  | [], stack => .ok stack
  | n :: rest, stack => do Node.runAll rest (← n.run stack)

def Node.run : Node → List Float → Except EvalError (List Float)
  | .literal value, stack => .ok (value :: stack)
  | .coordinate index, stack =>
    match coordinates[index]? with
    | some x => .ok (x :: stack)
    | none => .error (.missingCoordinate index coordinates.length)
  | .argument index, stack =>
    match arguments[index]? with
    | some x => .ok (x :: stack)
    | none => .error (.missingArgument index arguments.length)
  | .operator op, stack => op.run stack
  | .call name args target, stack => do
    let body ← enter name target args.length
    let values ← Formula.runAll args
    return (← body values) :: stack

def Formula.runAll : List Formula → Except EvalError (List Float)
  | [] => .ok []
  | f :: rest => do
    let x ← f.run
    return x :: (← Formula.runAll rest)

end

end

def enter (table : List Equation) (limit : Nat) (coordinates : List Float) : Nat → CallRule
  | left, name, target, found =>
    match target.bind (table[·]?) with
    | none => .error (.unresolved name)
    | some callee =>
      if found ≠ callee.params.length then
        .error (.arityMismatch name callee.params.length found)
      else
        match left with
        | 0 => .error (.callsTooDeep name limit)
        | left + 1 => .ok (callee.formula.run (enter table limit coordinates left) coordinates)

def Formula.evaluate (table : List Equation) (limit : Nat) (f : Formula)
    (coordinates arguments : List Float) : Except EvalError Float :=
  f.run (enter table limit coordinates limit) coordinates arguments

end Formulary
