import Formulary.Formula

/-!
# Built-in equations

The five functions, each an equation with one parameter, and two constants.
-/
namespace Formulary.Builtin

def pi : Float := 3.14159265358979323846

def e : Float := 2.71828182845904523536

def function (f : Function) : Equation :=
  { name := f.name
    params := ["value"]
    formula := .ofNodes [.argument 0, .operator (.unary f)] }

def constant (name : String) (value : Float) : Equation :=
  { name, formula := .ofNodes [.literal value] }

def equations : List (Equation × String) :=
  Function.all.map (fun f => (function f, s!"Inbuilt: {f.name}(x)")) ++
    [("pi", pi), ("e", e)].map fun c => (constant c.1 c.2, s!"Inbuilt: {c.1}")

def names : List String := equations.map (·.1.name)

def count : Nat := equations.length

theorem count_eq : count = 7 := rfl

end Formulary.Builtin
