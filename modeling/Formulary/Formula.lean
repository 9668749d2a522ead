import Formulary.Operator

/-!
# Formulas

A formula is a list of nodes in postfix order. Its calls hold their arguments as
formulas of their own and, once they are linked, the index of the equation that they
name. The profile of a formula says what it needs and whether it can be evaluated; it
is empty until the formula has been stored and linked.
-/
namespace Formulary

structure Arity where
  implicit : Nat := 0
  explicit : Nat := 0
deriving DecidableEq, Repr

structure Profile where
  arity : Arity := {}
  valid : Bool := false
deriving DecidableEq, Repr

mutual

inductive Formula where
  | mk (nodes : List Node) (profile : Profile)

inductive Node where
  | literal (value : Float)
  | coordinate (index : Nat)
  | argument (index : Nat)
  | operator (op : Operator)
  | call (name : String) (args : List Formula) (target : Option Nat)

end

namespace Formula

def nodes : Formula → List Node
  | mk nodes _ => nodes

def profile : Formula → Profile
  | mk _ profile => profile

def ofNodes (nodes : List Node) : Formula := mk nodes {}

@[simp] theorem nodes_mk (nodes : List Node) (profile : Profile) :
    (mk nodes profile).nodes = nodes := rfl

@[simp] theorem profile_mk (nodes : List Node) (profile : Profile) :
    (mk nodes profile).profile = profile := rfl

@[simp] theorem nodes_ofNodes (nodes : List Node) : (ofNodes nodes).nodes = nodes := rfl

end Formula

structure Equation where
  name : String := ""
  params : List String := []
  formula : Formula

/-- The names of the coordinates, in any letter case. -/
def coordinateNames : List String := ["x", "y", "z"]

def coordinate? (name : String) : Option Nat :=
  coordinateNames.findIdx? fun c => c.toList = name.toList.map Char.toLower

theorem coordinate?_lt {name : String} {i : Nat} (h : coordinate? name = some i) : i < 3 := by
  obtain ⟨lt, -⟩ := List.findIdx?_eq_some_iff_findIdx_eq.1 h
  exact lt

end Formulary
