import Formulary.Decimal.Text
import Formulary.Formula

/-!
# Formulas as text

Nodes in postfix order with a space between them; the arguments of a call follow its
name in parentheses.
-/
namespace Formulary

def coordinateText (index : Nat) : String := (coordinateNames[index]?).getD s!"x{index}"

mutual

def Formula.text : Formula → String
  | .mk nodes _ => " ".intercalate (Node.texts nodes)

def Node.texts : List Node → List String
  | [] => []
  | n :: rest => n.text :: Node.texts rest

def Node.text : Node → String
  | .literal value => Decimal.plain value
  | .coordinate index => coordinateText index
  | .argument index => s!"${index}"
  | .operator op => op.symbol
  | .call name [] _ => name
  | .call name (first :: rest) _ =>
    name ++ "(" ++ ", ".intercalate (first.text :: Formula.texts rest) ++ ")"

def Formula.texts : List Formula → List String
  | [] => []
  | f :: rest => f.text :: Formula.texts rest

end

end Formulary
