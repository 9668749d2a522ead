import Formulary.Fault
import Formulary.Formula

/-!
# From infix to postfix

Operands are written as they come. An operator waits until its right operand is
written: until one comes that binds no tighter, or its group closes. Each node is
written where it is evaluated, so the values that are left can be counted along.
-/
namespace Formulary

structure Postfix where
  nodes : List Node := []
  depth : Nat := 0

namespace Postfix

def write (limit : Nat) (n : Node) (depth : Nat) (s : Span) (out : Postfix) :
    Except Rejection Postfix :=
  if out.nodes.length < limit then .ok ⟨out.nodes ++ [n], depth⟩
  else .error (.spanning (.tooManyNodes limit) s)

def operand (limit : Nat) (n : Node) (s : Span) (out : Postfix) : Except Rejection Postfix :=
  out.write limit n (out.depth + 1) s

def operator (limit : Nat) (op : BinaryOp) (s : Span) (out : Postfix) : Except Rejection Postfix :=
  if out.depth < 2 then .error (.spanning (.operandMissing op) s)
  else out.write limit (.operator (.binary op)) (out.depth - 1) s

end Postfix

/-- What waits for a later token: the close of a group, or the right operand of an
operator. -/
inductive Pending where
  | group
  | operator (op : BinaryOp) (span : Span)
deriving DecidableEq, Repr

structure Yard where
  pending : List Pending := [.group]
  written : Postfix := {}

namespace Yard

def release (limit : Nat) (first : BinaryOp → Bool) :
    List Pending → Postfix → Except Rejection Yard
  | .operator op s :: rest, out =>
    if first op then do release limit first rest (← out.operator limit op s)
    else .ok ⟨.operator op s :: rest, out⟩
  | pending, out => .ok ⟨pending, out⟩

def operand (limit : Nat) (n : Node) (s : Span) (y : Yard) : Except Rejection Yard := do
  return { y with written := ← y.written.operand limit n s }

/-- Operators of the same precedence associate to the left. -/
def operator (limit : Nat) (op : BinaryOp) (s : Span) (y : Yard) : Except Rejection Yard := do
  let y ← release limit (fun top => op.precedence ≤ top.precedence) y.pending y.written
  return { y with pending := .operator op s :: y.pending }

def openGroup (y : Yard) : Yard := { y with pending := .group :: y.pending }

def closeGroup (limit : Nat) (s : Span) (y : Yard) : Except Rejection Yard := do
  let y ← release limit (fun _ => true) y.pending y.written
  match y.pending with
  | .group :: rest => return { y with pending := rest }
  | _ => .error (.spanning .groupNotOpen s)

def finish (limit : Nat) (s : Span) (y : Yard) : Except Rejection Formula := do
  let y ← y.closeGroup limit s
  if y.pending ≠ [] then .error (.spanning .groupLeftOpen s)
  else
    match y.written.depth with
    | 0 => .error (.spanning .expressionExpected s)
    | 1 => .ok (.ofNodes y.written.nodes)
    | _ => .error (.spanning .operatorMissing s)

end Yard

end Formulary
