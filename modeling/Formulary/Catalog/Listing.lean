import Formulary.Catalog

/-!
# The listing of a catalog

For each equation its source, its profile, and its value if it has one on its own.
-/
namespace Formulary.Catalog

def constant? (c : Catalog) (e : Equation) : Option Float :=
  if e.formula.profile = ⟨⟨0, 0⟩, true⟩ then (c.evaluate e [] []).toOption else none

def entryLines (c : Catalog) (entry : Entry) : List String :=
  let profile := entry.equation.formula.profile
  let verdict := if profile.valid then "Valid" else "Invalid"
  [entry.source,
    s!"{verdict}, implicit: {profile.arity.implicit}, explicit: {profile.arity.explicit}"] ++
    ((c.constant? entry.equation).map fun value => s!"Value: {Decimal.signed 4 value}").toList ++
    [""]

def rule : String := String.ofList (List.replicate 34 '-')

/-- A rule divides the built-in equations from the others, if there are any. -/
def listing (c : Catalog) (builtins : Bool) : String :=
  let own := (c.entries.drop c.builtins).flatMap c.entryLines
  let lines :=
    if builtins then
      (c.entries.take c.builtins).flatMap c.entryLines ++
        (if c.builtins < c.size then [rule] else []) ++ own
    else own
  String.join (lines.map (· ++ "\n"))

end Formulary.Catalog
