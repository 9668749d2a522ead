import Formulary.Arity
import Formulary.Evaluation

/-!
# Profiles

A formula is valid when it can be evaluated on zeros, given as many of them as it
needs. Each equation gets a profile, and so does every argument of a call in it: what
is found out about them is listed first, and written into the equation afterwards.
-/
namespace Formulary

section
variable (judge : Formula → Profile)

mutual

def Formula.annotate (profile : Profile) : Formula → Formula
  | .mk nodes _ => .mk (Node.annotateAll nodes) profile

def Node.annotateAll : List Node → List Node
  | [] => []
  | n :: rest => n.annotate :: Node.annotateAll rest

def Node.annotate : Node → Node
  | .literal value => .literal value
  | .coordinate index => .coordinate index
  | .argument index => .argument index
  | .operator op => .operator op
  | .call name args target => .call name (Formula.annotateAll args) target

def Formula.annotateAll : List Formula → List Formula
  | [] => []
  | f :: rest => f.annotate (judge f) :: Formula.annotateAll rest

end

theorem Node.annotateAll_eq_map (nodes : List Node) :
    Node.annotateAll judge nodes = nodes.map (Node.annotate judge) := by
  induction nodes with
  | nil => rfl
  | cons n rest ih => simp [Node.annotateAll, ih]

theorem Formula.annotateAll_eq_map (args : List Formula) :
    Formula.annotateAll judge args = args.map fun a => a.annotate judge (judge a) := by
  induction args with
  | nil => rfl
  | cons f rest ih => simp [Formula.annotateAll, ih]

end

namespace Formula

def runsOnZeros (table : List Equation) (limit : Nat) (f : Formula) (arity : Arity) : Bool :=
  (f.evaluate table limit (List.replicate arity.implicit 0) (List.replicate arity.explicit 0)).isOk

def profileFor (table : List Equation) (limit : Nat) (arity : Arity) (f : Formula) : Profile :=
  ⟨arity, f.runsOnZeros table limit arity⟩

def judged (table : List Equation) (limit : Nat) (found : Search) (f : Formula) : Profile :=
  f.profileFor table limit (f.arity found.needed)

end Formula

/-- A profile for a formula, and findings for the arguments of all its calls, in the order
in which they stand. -/
inductive Findings where
  | mk (profile : Profile) (arguments : List Findings)

namespace Findings

def profile : Findings → Profile
  | mk profile _ => profile

def arguments : Findings → List Findings
  | mk _ arguments => arguments

end Findings

section
variable (judge : Formula → Profile)

mutual

def Formula.findings (profile : Profile) : Formula → Findings
  | .mk nodes _ => .mk profile (Node.findingsAll nodes)

def Node.findingsAll : List Node → List Findings
  | [] => []
  | n :: rest => n.findings ++ Node.findingsAll rest

def Node.findings : Node → List Findings
  | .call _ args _ => Formula.findingsAll args
  | _ => []

def Formula.findingsAll : List Formula → List Findings
  | [] => []
  | f :: rest => f.findings (judge f) :: Formula.findingsAll rest

end

end

mutual

def Formula.record : Formula → Findings → Formula
  | .mk nodes _, found => .mk (Node.recordAll nodes found.arguments).1 found.profile

def Node.recordAll : List Node → List Findings → List Node × List Findings
  | [], left => ([], left)
  | n :: rest, left =>
    let (n, left) := n.record left
    let (rest, left) := Node.recordAll rest left
    (n :: rest, left)

def Node.record : Node → List Findings → Node × List Findings
  | .call name args target, left =>
    let (args, left) := Formula.recordAll args left
    (.call name args target, left)
  | n, left => (n, left)

/-- Each argument takes the next findings; one for which none are left stays as it is. -/
def Formula.recordAll : List Formula → List Findings → List Formula × List Findings
  | [], left => ([], left)
  | args, [] => (args, [])
  | f :: rest, found :: left =>
    let (rest, left) := Formula.recordAll rest left
    (f.record found :: rest, left)

end

def Findings.all (table : List Equation) (limit : Nat) : List Findings :=
  let found := Search.all table
  table.mapIdx fun id e =>
    e.formula.findings (Formula.judged table limit found)
      (e.formula.profileFor table limit (found.arityAt id))

def profiled (table : List Equation) (limit : Nat) : List Equation :=
  table.zipWith (fun e found => { e with formula := e.formula.record found })
    (Findings.all table limit)

section
variable (judge : Formula → Profile)

mutual

theorem Formula.record_findings :
    ∀ (f : Formula) (profile : Profile), f.record (f.findings judge profile) =
      f.annotate judge profile
  | .mk nodes _, profile => by
    have hnodes := Node.recordAll_findings nodes []
    rw [List.append_nil] at hnodes
    simp only [Formula.findings, Formula.record, Findings.arguments, Findings.profile, hnodes,
      Formula.annotate]

theorem Node.recordAll_findings :
    ∀ (nodes : List Node) (more : List Findings),
      Node.recordAll nodes (Node.findingsAll judge nodes ++ more) =
        (Node.annotateAll judge nodes, more)
  | [], _ => rfl
  | n :: rest, more => by
    simp only [Node.recordAll, Node.findingsAll, List.append_assoc, n.record_findings,
      Node.recordAll_findings rest, Node.annotateAll]

theorem Node.record_findings :
    ∀ (n : Node) (more : List Findings), n.record (n.findings judge ++ more) =
      (n.annotate judge, more)
  | .call _ args _, more => by
    simp only [Node.record, Node.findings, Formula.recordAll_findings args, Node.annotate]
  | .literal _, _ | .coordinate _, _ | .argument _, _ | .operator _, _ => rfl

theorem Formula.recordAll_findings :
    ∀ (args : List Formula) (more : List Findings),
      Formula.recordAll args (Formula.findingsAll judge args ++ more) =
        (Formula.annotateAll judge args, more)
  | [], more => rfl
  | f :: rest, more => by
    simp only [Formula.recordAll, Formula.findingsAll, List.cons_append, f.record_findings,
      Formula.recordAll_findings rest, Formula.annotateAll]

end

end

theorem profiled_eq_mapIdx (table : List Equation) (limit : Nat) :
    profiled table limit = table.mapIdx fun id e => { e with
      formula := e.formula.annotate (Formula.judged table limit (Search.all table))
        (e.formula.profileFor table limit ((Search.all table).arityAt id)) } := by
  apply List.ext_getElem?
  intro id
  simp only [profiled, Findings.all, List.getElem?_zipWith, List.getElem?_mapIdx]
  cases table[id]? with
  | none => rfl
  | some e => simp only [Option.map_some, Formula.record_findings]

end Formulary
