import Formulary.Formula.Compile
import Formulary.Proofs.Formula.Holds

/-!
# The grammar of expressions

A sum joins products by `+` and `-`, a product joins powers by `*` and `/`, and a power
joins atoms by `^`. All operators associate to the left, so the left operand is of the
level of the operator and the right one of the next. The formula of an expression is its
tree in post-order.
-/
namespace Formulary

inductive Tree where
  | number (value : Float)
  | name (name : String)
  | call (name : String) (args : List Tree)
  | binary (op : BinaryOp) (left right : Tree)

/-- An expression of a level, from the sums at 0 to the atoms at 3, or the arguments of a
call. -/
inductive Phrase where
  | expression (level : Nat) (t : Tree)
  | arguments (args : List Tree)

inductive Spells : Phrase → List Token → Prop
  | next {level : Nat} {t : Tree} {ts : List Token} : level < 3 →
      Spells (.expression (level + 1) t) ts → Spells (.expression level t) ts
  | sum {op : BinaryOp} {l r : Tree} {ts us : List Token} {sign : Token} :
      op = .add ∨ op = .subtract → sign.kind = .operator op →
      Spells (.expression 0 l) ts → Spells (.expression 1 r) us →
      Spells (.expression 0 (.binary op l r)) (ts ++ [sign] ++ us)
  | product {op : BinaryOp} {l r : Tree} {ts us : List Token} {sign : Token} :
      op = .multiply ∨ op = .divide → sign.kind = .operator op →
      Spells (.expression 1 l) ts → Spells (.expression 2 r) us →
      Spells (.expression 1 (.binary op l r)) (ts ++ [sign] ++ us)
  | power {l r : Tree} {ts us : List Token} {sign : Token} : sign.kind = .operator .power →
      Spells (.expression 2 l) ts → Spells (.expression 3 r) us →
      Spells (.expression 2 (.binary .power l r)) (ts ++ [sign] ++ us)
  | number {value : Float} {t : Token} : t.kind = .number value →
      Spells (.expression 3 (.number value)) [t]
  | name {name : String} {t : Token} : t.kind = .identifier name →
      Spells (.expression 3 (.name name)) [t]
  | empty {name : String} {t start stop : Token} : t.kind = .identifier name →
      start.kind = .paramOpen → stop.kind = .paramClose →
      Spells (.expression 3 (.call name [])) [t, start, stop]
  | call {name : String} {args : List Tree} {ts : List Token} {t start stop : Token} :
      t.kind = .identifier name → start.kind = .paramOpen → stop.kind = .paramClose →
      Spells (.arguments args) ts →
      Spells (.expression 3 (.call name args)) ([t, start] ++ (ts ++ [stop]))
  | group {t : Tree} {ts : List Token} {start stop : Token} {opened closed : Bracket} :
      start.kind = .groupOpen opened → stop.kind = .groupClose closed →
      Spells (.expression 0 t) ts → Spells (.expression 3 t) ([start] ++ ts ++ [stop])
  | last {t : Tree} {ts : List Token} : Spells (.expression 0 t) ts → Spells (.arguments [t]) ts
  | comma {t : Tree} {args : List Tree} {ts us : List Token} {separator : Token} :
      separator.kind = .comma → Spells (.expression 0 t) ts → Spells (.arguments args) us →
      Spells (.arguments (t :: args)) (ts ++ [separator] ++ us)

theorem coordinate?_eq_findIdx? (name : String) :
    coordinate? name = coordinateNames.findIdx? fun c => decide (name.toLower = c) := by
  have hlower : name.toList.map Char.toLower = name.toLower.toList := String.toList_map.symm
  have hsame : ∀ c : String, c.toList = name.toLower.toList ↔ name.toLower = c := by
    intro c
    rw [String.toList_inj, eq_comm]
  simp only [coordinate?, hlower, hsame]

section
variable (position : String → Option Nat)

def named (name : String) : Node :=
  if name.toLower = "x" then .coordinate 0
  else if name.toLower = "y" then .coordinate 1
  else if name.toLower = "z" then .coordinate 2
  else
    match position name with
    | some index => .argument index
    | none => .call name [] none

theorem reference_eq_named (name : String) : reference position name = named position name := by
  simp only [reference, named, coordinate?_eq_findIdx?, coordinateNames, List.findIdx?_cons,
    List.findIdx?_nil, decide_eq_true_eq]
  by_cases hx : name.toLower = "x"
  · simp only [hx, ↓reduceIte]
  · by_cases hy : name.toLower = "y"
    · simp [hy]
    · by_cases hz : name.toLower = "z"
      · simp [hz]
      · cases position name <;> simp [hx, hy, hz]

mutual

/-- The operands of an operator come before it, and each argument of a call is a formula
of its own. -/
def Tree.postorder : Tree → List Node
  | .number value => [.literal value]
  | .name n => [named position n]
  | .call n args => [.call n (Tree.formulas args) none]
  | .binary op l r => l.postorder ++ r.postorder ++ [.operator (.binary op)]

def Tree.formulas : List Tree → List Formula
  | [] => []
  | t :: rest => .ofNodes t.postorder :: Tree.formulas rest

end

end

def Formula.Fits (limit : Nat) (f : Formula) : Prop := f.All fun g => g.nodes.length ≤ limit

theorem Formula.fits_iff {limit : Nat} {f : Formula} :
    f.Fits limit ↔ f.nodes.length ≤ limit ∧
      ∀ name args target, .call name args target ∈ f.nodes → ∀ a ∈ args, a.Fits limit := all_iff

end Formulary
