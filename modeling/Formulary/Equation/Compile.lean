import Formulary.Diagnostic
import Formulary.Formula.Compile
import Formulary.Signature
import Formulary.Token.Scan

/-!
# Compiling a line

A line holds one equation: its signature, if it has one, and one expression.
-/
namespace Formulary.Equation

def compile (limit : Nat) (source : String) : Except Rejection Equation := do
  let tokens ← Token.scan source
  let (signature, body) ← Signature.read tokens
  match body.getLast? with
  | none => .error .exhausted
  | some last =>
    let scope : Scope := { limit, position := signature.position, last := last.span }
    let (formula, rest) ← scope.compile {} body
    match rest with
    | [] => return { name := signature.name, params := signature.params, formula }
    | t :: _ => .error (.spanning (.unexpectedTail t.kind.text) t.span)

def ofLine (limit : Nat) (source : String) : Except Diagnostic Equation :=
  (compile limit source).mapError (·.diagnostic source)

end Formulary.Equation
