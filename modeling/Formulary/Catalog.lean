import Formulary.Builtin
import Formulary.Equation.Compile
import Formulary.Limits
import Formulary.Linking
import Formulary.Profile
import Std.Data.TreeMap

/-!
# The catalog

Equations in the order in which they were added, the built-in ones first. A name
belongs to the first equation that bears it. Calls are linked and profiles are set
when the catalog is resolved, so equations may name others that are added later.
-/
namespace Formulary

inductive Refusal where
  | rejected (d : Diagnostic)
  | full (limit : Nat)
  | unreadable (path reason : String)
deriving DecidableEq, Repr

namespace Refusal

def message : Refusal → String
  | rejected d => d.render
  | full limit => s!"context is full: at most {limit} equations can be stored"
  | unreadable path reason => s!"failed to load '{path}': {reason}"

def relocate (r : Refusal) (file : String) (line : Nat) : Refusal :=
  match r with
  | rejected d => rejected (d.relocate file line)
  | r => r

end Refusal

namespace Catalog

structure Entry where
  equation : Equation
  source : String

end Catalog

structure Catalog where
  limits : Limits
  entries : List Catalog.Entry := []
  names : Std.TreeMap String Nat := ∅
  /-- How many equations are built in; they are the first. -/
  builtins : Nat := 0

namespace Catalog

def size (c : Catalog) : Nat := c.entries.length

def equations (c : Catalog) : List Equation := c.entries.map (·.equation)

def find? (c : Catalog) (name : String) : Option Nat := c.names[name]?

def store (c : Catalog) (e : Equation) (source : String) : Catalog :=
  { c with
    entries := c.entries ++ [⟨e, source⟩]
    names := if e.name = "" then c.names else c.names.insertIfNew e.name c.size }

def unresolved (c : Catalog) : List String :=
  (c.equations.flatMap (·.unknownNames c.find?)).eraseDups

def withEquations (c : Catalog) (equations : List Equation) : Catalog :=
  { c with entries := c.entries.zipWith (fun entry e => { entry with equation := e }) equations }

def resolve (c : Catalog) : Catalog :=
  c.withEquations (profiled (c.equations.map (·.link c.find?)) c.limits.callDepth)

/-- Stores the built-in equations, which need no room. -/
def storeBuiltins (c : Catalog) : Catalog :=
  let stored := Builtin.equations.foldl (fun c b => c.store b.1 b.2) c
  { stored with builtins := stored.size }

def install (c : Catalog) : Catalog := c.storeBuiltins.resolve

def new (limits : Limits) : Catalog := install { limits }

def clear (c : Catalog) : Catalog := install { c with entries := [], names := ∅ }

def add (c : Catalog) (line : String) : Except Refusal (Nat × Catalog) :=
  if c.limits.equations ≤ c.size then .error (.full c.limits.equations)
  else
    match Equation.ofLine c.limits.nodes line with
    | .ok e => .ok (c.size, c.store e line)
    | .error d => .error (.rejected d)

def evaluate (c : Catalog) (e : Equation) (coordinates arguments : List Float) :
    Except EvalError Float :=
  e.formula.evaluate c.equations c.limits.callDepth coordinates arguments

end Catalog

end Formulary
