import Formulary.Formula.Postfix
import Formulary.Token

/-!
# Compiling an expression

The formula of a call's argument is written by itself, while the formula that holds
the call waits. Coordinates and parameters are read directly; any other name is a
call, without arguments if no parameter list follows it.
-/
namespace Formulary

def reference (position : String → Option Nat) (name : String) : Node :=
  match coordinate? name with
  | some index => .coordinate index
  | none =>
    match position name with
    | some index => .argument index
    | none => .call name [] none

/-- The operator that a symbol stands for. The scan makes operator tokens of operators only, and
their type says so: no token leads to the error. -/
def operatorFor (symbol : Char) (s : Span) : Except Rejection BinaryOp :=
  match BinaryOp.ofChar? symbol with
  | some op => .ok op
  | none => .error (.spanning (.unknownOperator symbol) s)

structure OpenCall where
  name : String
  span : Span
  args : List Formula := []
  outer : Yard

def OpenCall.close (limit : Nat) (c : OpenCall) : Except Rejection Yard :=
  c.outer.operand limit (.call c.name c.args none) c.span

/-- What the last token leaves open: nothing, a name that a parameter list may follow,
or an argument in which nothing stands yet. -/
inductive Mode where
  | settled
  | named (name : String) (span : Span)
  | slot
deriving DecidableEq, Repr

structure Reading where
  calls : List OpenCall := []
  yard : Yard := {}
  mode : Mode := .settled

inductive Progress where
  | going (r : Reading)
  | ended (f : Formula)

/-- What stays the same while a line is compiled: the most nodes of one formula, the
positions of the parameters, and the span of the last token. -/
structure Scope where
  limit : Nat
  position : String → Option Nat
  last : Span

namespace Scope

/-- No parameter list follows a name that was left open, and an argument has begun. -/
def settle (s : Scope) (r : Reading) : Except Rejection Reading :=
  match r.mode with
  | .named name span => do
    return { r with yard := ← r.yard.operand s.limit (reference s.position name) span
                    mode := .settled }
  | _ => .ok { r with mode := .settled }

def closeCall (s : Scope) (c : OpenCall) (calls : List OpenCall) : Except Rejection Progress := do
  return .going { calls, yard := ← c.close s.limit }

def advance (s : Scope) (r : Reading) (t : Token) : Except Rejection Progress :=
  let go (yard : Yard) : Progress := .going { r with yard }
  match t.kind with
  | .number value => do return go (← r.yard.operand s.limit (.literal value) t.span)
  | .identifier name => .ok (.going { r with mode := .named name t.span })
  | .operator op => do
    let op ← operatorFor op.char t.span
    return go (← r.yard.operator s.limit op t.span)
  | .groupOpen _ => .ok (go r.yard.openGroup)
  | .groupClose _ => do return go (← r.yard.closeGroup s.limit t.span)
  | .paramOpen => .error (.spanning (.unexpectedToken t.kind.text) t.span)
  | .comma => do
    let f ← r.yard.finish s.limit t.span
    match r.calls with
    | [] => return .ended f
    | c :: calls => return .going ⟨{ c with args := c.args ++ [f] } :: calls, {}, .slot⟩
  | .paramClose => do
    let f ← r.yard.finish s.limit t.span
    match r.calls with
    | [] => return .ended f
    | c :: calls => s.closeCall { c with args := c.args ++ [f] } calls
  | .equals => do
    let f ← r.yard.finish s.limit t.span
    match r.calls with
    | [] => return .ended f
    | _ :: _ => .error (.spanning .argumentSeparatorExpected t.span)

def step (s : Scope) (r : Reading) (t : Token) : Except Rejection Progress :=
  match r.mode, t.kind, r.calls with
  | .named name span, .paramOpen, calls =>
    .ok (.going ⟨{ name, span, outer := r.yard } :: calls, {}, .slot⟩)
  | .slot, .paramClose, c :: calls => s.closeCall c calls
  | _, _, _ => do s.advance (← s.settle r) t

def finish (s : Scope) (r : Reading) : Except Rejection Formula :=
  if r.mode = .slot then .error .exhausted
  else do
    let r ← s.settle r
    let f ← r.yard.finish s.limit s.last
    match r.calls with
    | [] => return f
    | _ :: _ => .error .exhausted

def compile (s : Scope) (r : Reading) : List Token → Except Rejection (Formula × List Token)
  | [] => do return (← s.finish r, [])
  | t :: rest => do
    match ← s.step r t with
    | .going r => s.compile r rest
    | .ended f => return (f, t :: rest)

end Scope

end Formulary
