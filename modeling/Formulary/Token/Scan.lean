import Formulary.Decimal.Numeral
import Formulary.Fault
import Formulary.Token

/-!
# Reading tokens

The scan goes through the characters once. What a sign and a round bracket mean
depends on the token before them; what a closing bracket means depends on the
innermost bracket that is open.
-/
namespace Formulary.Token

def isSpace (c : Char) : Bool := c = ' ' || c = '\t' || c = '\r' || c = '\n'

def startsIdentifier (c : Char) : Bool := c = '_' || c.isAlpha

def continuesIdentifier (c : Char) : Bool := c = '_' || c.isAlphanum

def startsNumeral (c : Char) : Bool := c.isDigit || c = '.'

inductive Enclosure where
  | parameters
  | group
deriving DecidableEq, Repr

structure Opening where
  enclosure : Enclosure
  span : Span
deriving DecidableEq, Repr

/-- Nothing before this point can be the left operand of a sign. -/
def wantsOperand : Option Kind → Bool
  | none => true
  | some (.operator _) | some .comma | some .paramOpen | some (.groupOpen _) | some .equals => true
  | some _ => false

def followsIdentifier : Option Kind → Bool
  | some (.identifier _) => true
  | _ => false

abbrev Lexeme := Kind × List Char

def numeral (p : Position) (cs : List Char) : Except Rejection Lexeme :=
  match Decimal.Numeral.read? cs with
  | some (n, _) => .ok (.number n.value, n.spelling)
  | none =>
    let near := cs.take 3
    .error (.spanning (.unreadableNumber (String.ofList near)) (p.spanOver near))

def identifier? : List Char → Option (List Char)
  | c :: rest => if startsIdentifier c then some (c :: rest.takeWhile continuesIdentifier) else none
  | [] => none

def identifier (p : Position) (cs : List Char) : Except Rejection Lexeme :=
  match identifier? cs with
  | some name => .ok (.identifier (String.ofList name), name)
  | none => .error (.spanning .identifierExpected (p.spanOver []))

def character (p : Position) (kind : Kind) : List Char → Except Rejection Lexeme
  | c :: _ => .ok (kind, [c])
  | [] => .error (.spanning .inputExhausted (p.spanOver []))

/-- A round bracket closes whichever kind is innermost. -/
def closeRound (p : Position) : Option Enclosure → Except Rejection Kind
  | some .parameters => .ok .paramClose
  | some .group => .ok (.groupClose .round)
  | none => .error (.spanning (.strayClosing ')') (p.spanOver [')']))

def closeGroup (p : Position) (shape : Bracket) : Option Enclosure → Except Rejection Kind
  | some .group => .ok (.groupClose shape)
  | some .parameters =>
    .error (.spanning (.closesParameterList shape.closing) (p.spanOver [shape.closing]))
  | none => .error (.spanning (.strayClosing shape.closing) (p.spanOver [shape.closing]))

def single (previous : Option Kind) (innermost : Option Enclosure) (p : Position) (c : Char) :
    Option (Except Rejection Kind) :=
  match c with
  | ',' => some (.ok .comma)
  | '=' => some (.ok .equals)
  | '(' => some (.ok (if followsIdentifier previous then .paramOpen else .groupOpen .round))
  | '[' => some (.ok (.groupOpen .square))
  | '\x7b' => some (.ok (.groupOpen .curly))
  | ')' => some (closeRound p innermost)
  | ']' => some (closeGroup p .square innermost)
  | '\x7d' => some (closeGroup p .curly innermost)
  | c => (BinaryOp.ofChar? c).map fun op => .ok (.operator op)

def lexeme (previous : Option Kind) (innermost : Option Enclosure) (p : Position) (c : Char)
    (rest : List Char) : Except Rejection Lexeme :=
  if startsNumeral c || (wantsOperand previous && (c = '+' || c = '-')) then
    numeral p (c :: rest)
  else if startsIdentifier c then identifier p (c :: rest)
  else
    match single previous innermost p c with
    | some kind => do character p (← kind) (c :: rest)
    | none => .error (.spanning (.unknownCharacter c) (p.spanOver [c]))

def track (opened : List Opening) (t : Token) : List Opening :=
  match t.kind with
  | .paramOpen => ⟨.parameters, t.span⟩ :: opened
  | .groupOpen _ => ⟨.group, t.span⟩ :: opened
  | .paramClose | .groupClose _ => opened.tail
  | _ => opened

def scanFrom (previous : Option Kind) (opened : List Opening) (p : Position) :
    List Char → Except Rejection (List Token)
  | [] =>
    match opened with
    | [] => .ok []
    | innermost :: _ => .error (.spanning .bracketLeftOpen innermost.span)
  | c :: rest =>
    if isSpace c then scanFrom previous opened (p.next c) rest
    else do
      let (kind, text) ← lexeme previous (opened.head?.map (·.enclosure)) p c rest
      let t : Token := ⟨kind, p.spanOver text⟩
      let more ← scanFrom (some kind) (track opened t) (p.after text) (rest.drop (text.length - 1))
      return t :: more
termination_by cs => cs.length
decreasing_by all_goals simp only [List.length_cons, List.length_drop]; omega

def scan (source : String) : Except Rejection (List Token) :=
  if source = "" then .error ⟨.emptyText, .whole⟩ else scanFrom none [] {} source.toList

end Formulary.Token
