import Formulary.Fault
import Formulary.Formula
import Formulary.Token

/-!
# Signatures

A line names its equation before an equal sign: `name` or `name(a, b)`. A line
without an equal sign has no name and no parameters.
-/
namespace Formulary

structure Signature where
  name : String := ""
  params : List String := []
deriving DecidableEq, Repr

namespace Signature

def position (s : Signature) (name : String) : Option Nat := s.params.idxOf? name

/-- A parameter is an identifier that names no coordinate and was not used before. -/
def parameter (seen : List String) (t : Token) : Except Rejection String :=
  match t.kind with
  | .identifier name =>
    if (coordinate? name).isSome then .error (.spanning (.parameterReserved name) t.span)
    else if name ∈ seen then .error (.spanning (.parameterRepeated name) t.span)
    else .ok name
  | _ => .error (.spanning .parameterExpected t.span)

def moreParameters (seen : List String) : List Token → Except Rejection (List String × List Token)
  | [] => .error .exhausted
  | [t] => do
    let _ ← parameter seen t
    .error .exhausted
  | t :: separator :: rest => do
    let name ← parameter seen t
    match separator.kind with
    | .comma => moreParameters (seen ++ [name]) rest
    | .paramClose => .ok (seen ++ [name], rest)
    | _ => .error (.spanning .parameterSeparatorExpected separator.span)

def parameters : List Token → Except Rejection (List String × List Token)
  | [] => .error .exhausted
  | t :: rest => if t.kind = .paramClose then .ok ([], rest) else moreParameters [] (t :: rest)

def declaration : List Token → Except Rejection (Signature × List Token)
  | [] => .error .exhausted
  | t :: rest =>
    match t.kind.identifier? with
    | none => .error (.spanning .nameExpected t.span)
    | some name =>
      match rest with
      | [] => .error .exhausted
      | u :: rest =>
        match u.kind with
        | .equals => .ok ({ name }, rest)
        | .paramOpen => do
          let (params, rest) ← parameters rest
          match rest with
          | [] => .error .exhausted
          | v :: rest =>
            if v.kind = .equals then .ok ({ name, params }, rest)
            else .error (.spanning .equalsExpected v.span)
        | _ => .error (.spanning .parametersExpected u.span)

def read (tokens : List Token) : Except Rejection (Signature × List Token) :=
  match tokens.filter (·.kind = .equals) with
  | [] => .ok ({}, tokens)
  | [_] => declaration tokens
  | _ :: second :: _ => .error (.spanning .secondEquals second.span)

end Signature

end Formulary
