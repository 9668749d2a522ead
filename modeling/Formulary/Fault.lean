import Formulary.Operator
import Formulary.Source.Position

/-!
# Why a line is rejected

A fault is a cause; a rejection is a fault and the place that it is about.
-/
namespace Formulary

inductive Fault where
  | emptyText
  | unknownCharacter (c : Char)
  | unreadableNumber (near : String)
  | strayClosing (c : Char)
  | closesParameterList (c : Char)
  | bracketLeftOpen
  | tokensExhausted
  | secondEquals
  | nameExpected
  | parametersExpected
  | parameterExpected
  | parameterReserved (name : String)
  | parameterRepeated (name : String)
  | parameterSeparatorExpected
  | equalsExpected
  | identifierExpected
  | inputExhausted
  | unknownOperator (symbol : Char)
  | groupNotOpen
  | groupLeftOpen
  | unexpectedToken (text : String)
  | argumentSeparatorExpected
  | operandMissing (op : BinaryOp)
  | expressionExpected
  | operatorMissing
  | tooManyNodes (limit : Nat)
  | unexpectedTail (text : String)
deriving DecidableEq, Repr

namespace Fault

def message : Fault → String
  | emptyText => "Equation was an empty string"
  | unknownCharacter c => s!"Unknown character '{c}'"
  | unreadableNumber near => s!"Cannot parse number near '{near}'"
  | strayClosing c => s!"Too many closing '{c}' brackets"
  | closesParameterList c => s!"Bracket mismatch: '{c}' cannot close a parameter list"
  | bracketLeftOpen => "Bracket mismatch: bracket is never closed"
  | tokensExhausted => "Expected more tokens"
  | secondEquals => "Multiple equal signs"
  | nameExpected => "Expected equation name before '='"
  | parametersExpected => "Expected parameters after equation name"
  | parameterExpected => "Expected parameter name"
  | parameterReserved name =>
    s!"'{name}' is reserved for an implicit coordinate and cannot name a parameter"
  | parameterRepeated name => s!"Duplicate parameter '{name}'"
  | parameterSeparatorExpected => "Expected ',' or ')' after parameter name"
  | equalsExpected => "Expected '=' after parameter list"
  | identifierExpected => "Expected identifier"
  | inputExhausted => "Unexpected end of input"
  | unknownOperator symbol => s!"Unknown operator '{symbol}'"
  | groupNotOpen => "Unbalanced closing bracket"
  | groupLeftOpen => "Bracket mismatch: group is never closed"
  | unexpectedToken text => s!"Unexpected '{text}' in expression"
  | argumentSeparatorExpected => "Expected ',' or ')' after call argument"
  | operandMissing op => s!"Operator '{op.char}' is missing an operand"
  | expressionExpected => "Expected an expression"
  | operatorMissing => "Missing operator between operands"
  | tooManyNodes limit => s!"Equation exceeds the maximum of {limit} nodes"
  | unexpectedTail text => s!"Unexpected '{text}' after expression"

end Fault

inductive Place where
  | whole
  | span (s : Span)
  | ending
deriving DecidableEq, Repr

structure Rejection where
  fault : Fault
  place : Place
deriving DecidableEq, Repr

namespace Rejection

def spanning (fault : Fault) (s : Span) : Rejection := ⟨fault, .span s⟩

def exhausted : Rejection := ⟨.tokensExhausted, .ending⟩

end Rejection

end Formulary
