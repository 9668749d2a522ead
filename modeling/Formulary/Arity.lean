import Formulary.Formula

/-!
# Arity

A formula needs the coordinates and arguments that it reads, those that the arguments
of its calls read, and the coordinates that the targets of its calls need. The needs
of the stored equations are found by a depth-first search along the targets; a target
that is still being searched counts as needing nothing.
-/
namespace Formulary

def Arity.max (a b : Arity) : Arity :=
  ⟨Nat.max a.implicit b.implicit, Nat.max a.explicit b.explicit⟩

/-- There are no more coordinates than the named ones. -/
def Arity.capped (a : Arity) : Arity := { a with implicit := min a.implicit coordinateNames.length }

section
variable (needed : Nat → Nat)

mutual

def Formula.arity : Formula → Arity
  | .mk nodes _ => (Node.arityAll nodes).capped

def Node.arityAll : List Node → Arity
  | [] => {}
  | n :: rest => n.arity.max (Node.arityAll rest)

def Node.arity : Node → Arity
  | .literal _ => {}
  | .coordinate index => { implicit := index + 1 }
  | .argument index => { explicit := index + 1 }
  | .operator _ => {}
  | .call _ args target =>
    Arity.max { implicit := (target.map needed).getD 0 } (Formula.arityAll args)

def Formula.arityAll : List Formula → Arity
  | [] => {}
  | f :: rest => f.arity.max (Formula.arityAll rest)

end

end

mutual

/-- The targets of all calls, from left to right, a call before those in its arguments. -/
def Formula.targets : Formula → List Nat
  | .mk nodes _ => Node.targetsAll nodes

def Node.targetsAll : List Node → List Nat
  | [] => []
  | n :: rest => n.targets ++ Node.targetsAll rest

def Node.targets : Node → List Nat
  | .call _ args target => target.toList ++ Formula.targetsAll args
  | _ => []

def Formula.targetsAll : List Formula → List Nat
  | [] => []
  | f :: rest => f.targets ++ Formula.targetsAll rest

end

theorem Node.mem_targetsAll {id : Nat} {nodes : List Node} :
    id ∈ Node.targetsAll nodes ↔ ∃ n ∈ nodes, id ∈ n.targets := by
  induction nodes with
  | nil => simp [Node.targetsAll]
  | cons n rest ih => simp [Node.targetsAll, ih]

theorem Formula.mem_targetsAll {id : Nat} {args : List Formula} :
    id ∈ Formula.targetsAll args ↔ ∃ a ∈ args, id ∈ a.targets := by
  induction args with
  | nil => simp [Formula.targetsAll]
  | cons f rest ih => simp [Formula.targetsAll, ih]

theorem Formula.mem_targets {id : Nat} {f : Formula} :
    id ∈ f.targets ↔ ∃ n ∈ f.nodes, id ∈ n.targets := by
  cases f
  exact Node.mem_targetsAll

theorem Node.mem_targets_call {id : Nat} {name : String} {args : List Formula}
    {target : Option Nat} :
    id ∈ (Node.call name args target).targets ↔ target = some id ∨ ∃ a ∈ args, id ∈ a.targets := by
  simp [Node.targets, Formula.mem_targetsAll]

inductive Visit where
  | pending
  | underWay
  | done (arity : Arity)
deriving DecidableEq, Repr

abbrev Search := List Visit

namespace Search

def arityAt (s : Search) (id : Nat) : Arity :=
  match s[id]? with
  | some (.done arity) => arity
  | _ => {}

def needed (s : Search) (id : Nat) : Nat := (s.arityAt id).implicit

/-- Searches from the equation at `id`. Each step inside another has an equation more
under way, so no more of them than there are equations stand inside one another. -/
def visit (table : List Equation) : Nat → Nat → Search → Search
  | 0, _, s => s
  | bound + 1, id, s =>
    match s[id]?, table[id]? with
    | some .pending, some e =>
      let s := e.formula.targets.foldl (fun s target => visit table bound target s)
        (s.set id .underWay)
      s.set id (.done (e.formula.arity s.needed))
    | _, _ => s

def all (table : List Equation) : Search :=
  (List.range table.length).foldl (fun s id => visit table table.length id s)
    (List.replicate table.length .pending)

end Search

end Formulary
