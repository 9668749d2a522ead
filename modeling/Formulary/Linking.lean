import Formulary.Formula

/-!
# Linking

Every call is bound anew to the equation that a look-up gives for its name. The
names are listed from left to right, a call before the calls in its arguments.
-/
namespace Formulary

section
variable (lookup : String → Option Nat)

mutual

def Formula.link : Formula → Formula
  | .mk nodes profile => .mk (Node.linkAll nodes) profile

def Node.linkAll : List Node → List Node
  | [] => []
  | n :: rest => n.link :: Node.linkAll rest

def Node.link : Node → Node
  | .literal value => .literal value
  | .coordinate index => .coordinate index
  | .argument index => .argument index
  | .operator op => .operator op
  | .call name args _ => .call name (Formula.linkAll args) (lookup name)

def Formula.linkAll : List Formula → List Formula
  | [] => []
  | f :: rest => f.link :: Formula.linkAll rest

end

theorem Node.linkAll_eq_map (nodes : List Node) :
    Node.linkAll lookup nodes = nodes.map (Node.link lookup) := by
  induction nodes with
  | nil => rfl
  | cons n rest ih => simp [Node.linkAll, ih]

theorem Formula.linkAll_eq_map (args : List Formula) :
    Formula.linkAll lookup args = args.map (Formula.link lookup) := by
  induction args with
  | nil => rfl
  | cons f rest ih => simp [Formula.linkAll, ih]

end

mutual

def Formula.calledNames : Formula → List String
  | .mk nodes _ => Node.calledNamesAll nodes

def Node.calledNamesAll : List Node → List String
  | [] => []
  | n :: rest => n.calledNames ++ Node.calledNamesAll rest

def Node.calledNames : Node → List String
  | .call name args _ => name :: Formula.calledNamesAll args
  | _ => []

def Formula.calledNamesAll : List Formula → List String
  | [] => []
  | f :: rest => f.calledNames ++ Formula.calledNamesAll rest

end

theorem Node.calledNamesAll_eq_flatMap (nodes : List Node) :
    Node.calledNamesAll nodes = nodes.flatMap Node.calledNames := by
  induction nodes with
  | nil => rfl
  | cons n rest ih => simp [Node.calledNamesAll, ih]

theorem Formula.calledNamesAll_eq_flatMap (args : List Formula) :
    Formula.calledNamesAll args = args.flatMap Formula.calledNames := by
  induction args with
  | nil => rfl
  | cons f rest ih => simp [Formula.calledNamesAll, ih]

namespace Equation

def link (lookup : String → Option Nat) (e : Equation) : Equation :=
  { e with formula := e.formula.link lookup }

def unknownNames (lookup : String → Option Nat) (e : Equation) : List String :=
  e.formula.calledNames.filter fun name => (lookup name).isNone

end Equation

end Formulary
