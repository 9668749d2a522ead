import Formulary.Formula

/-!
# Formulas inside formulas

The arguments of a call are formulas of their own. A formula holds itself and the
arguments of its calls, at any depth; what is true of each formula held is proved
once for the nodes of a formula and then carried to the arguments.
-/
namespace Formulary

theorem Formula.induction {motive : Formula → Prop}
    (mk : ∀ nodes profile, (∀ name args target, Node.call name args target ∈ nodes →
      ∀ a ∈ args, motive a) → motive (.mk nodes profile)) : ∀ f : Formula, motive f
  | .mk nodes profile => mk nodes profile fun _ _ _ _ a _ => Formula.induction mk a
decreasing_by
  rename_i hcall ha
  have hc := List.sizeOf_lt_of_mem hcall
  have hs := List.sizeOf_lt_of_mem ha
  simp only [Formula.mk.sizeOf_spec, Node.call.sizeOf_spec] at hc ⊢
  omega

namespace Formula

inductive Holds : Formula → Formula → Prop
  | refl (f : Formula) : Holds f f
  | argument {f g a : Formula} {name : String} {args : List Formula} {target : Option Nat} :
      .call name args target ∈ f.nodes → a ∈ args → Holds a g → Holds f g

def All (P : Formula → Prop) (f : Formula) : Prop := ∀ g, f.Holds g → P g

theorem all_iff {P : Formula → Prop} {f : Formula} :
    f.All P ↔ P f ∧ ∀ name args target, .call name args target ∈ f.nodes →
      ∀ a ∈ args, a.All P := by
  constructor
  · intro h
    exact ⟨h f (.refl f), fun _ _ _ hc a ha g hg => h g (.argument hc ha hg)⟩
  · rintro ⟨hf, hargs⟩ g hg
    cases hg with
    | refl => exact hf
    | argument hc ha hg => exact hargs _ _ _ hc _ ha g hg

theorem All.self {P : Formula → Prop} {f : Formula} (h : f.All P) : P f := h f (.refl f)

theorem All.argument {P : Formula → Prop} {f : Formula} (h : f.All P) {name : String}
    {args : List Formula} {target : Option Nat} (hc : .call name args target ∈ f.nodes)
    {a : Formula} (ha : a ∈ args) : a.All P :=
  (all_iff.1 h).2 _ _ _ hc a ha

theorem All.imp {P Q : Formula → Prop} {f : Formula} (h : f.All P) (hPQ : ∀ g, P g → Q g) :
    f.All Q := fun g hg => hPQ g (h g hg)

end Formula

end Formulary
