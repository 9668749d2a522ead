import Formulary.Decimal.Text
import Formulary.Operator
import Formulary.Source.Position

/-!
# Tokens

A parenthesis right after an identifier opens a parameter list; any other bracket
opens a group.
-/
namespace Formulary

inductive Bracket where
  | round
  | square
  | curly
deriving DecidableEq, Repr

def Bracket.opening : Bracket → Char
  | round => '('
  | square => '['
  | curly => '\x7b'

def Bracket.closing : Bracket → Char
  | round => ')'
  | square => ']'
  | curly => '\x7d'

namespace Token

inductive Kind where
  | number (value : Float)
  | identifier (name : String)
  | equals
  | operator (op : BinaryOp)
  | comma
  | paramOpen
  | paramClose
  | groupOpen (shape : Bracket)
  | groupClose (shape : Bracket)
deriving DecidableEq

namespace Kind

def text : Kind → String
  | number value => Decimal.plain value
  | identifier name => name
  | equals => "="
  | operator op => String.singleton op.char
  | comma => ","
  | paramOpen => "("
  | paramClose => ")"
  | groupOpen shape => String.singleton shape.opening
  | groupClose shape => String.singleton shape.closing

def label : Kind → String
  | number _ => "Number"
  | identifier _ => "Identifier"
  | equals => "EqualSign"
  | operator _ => "Operator"
  | comma => "Comma"
  | paramOpen => "ParamListStart"
  | paramClose => "ParamListEnd"
  | groupOpen _ => "GroupStart"
  | groupClose _ => "GroupEnd"

def describe (k : Kind) : String :=
  k.label ++ String.ofList (List.replicate (15 - k.label.length) ' ') ++ ": " ++ k.text

def identifier? : Kind → Option String
  | identifier name => some name
  | _ => none

def number? : Kind → Option Float
  | number value => some value
  | _ => none

def endsExpression : Kind → Bool
  | equals | comma | paramClose => true
  | _ => false

end Kind

end Token

structure Token where
  kind : Token.Kind
  span : Span
deriving DecidableEq

end Formulary
