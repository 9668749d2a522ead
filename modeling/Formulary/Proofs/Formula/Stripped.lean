import Formulary.Proofs.Formula.Calls
import Formulary.Proofs.Reprofiling

/-!
# What a formula is without its links and profiles

To link a formula replaces every target, and to profile it every profile, in the arguments
of its calls too. So what comes of both depends only on the stripped formula, and nothing that
was linked or profiled before makes a difference.
-/
namespace Formulary

section
variable {lookup lookup' : String → Option Nat} {judge : Formula → Profile}

theorem Formula.link_link {f : Formula} : (f.link lookup).link lookup' = f.link lookup' := by
  induction f using Formula.induction with
  | mk nodes profile ih =>
    have hnodes : ∀ n ∈ nodes, (n.link lookup).link lookup' = n.link lookup' := by
      intro n hn
      cases n with
      | call name args target =>
        simp only [Node.link, linkAll_eq_map, List.map_map, Node.call.injEq, true_and, and_true]
        exact List.map_congr_left fun a ha => ih name args target hn a ha
      | _ => rfl
    simp only [Formula.link, Node.linkAll_eq_map, List.map_map]
    exact congrArg (Formula.mk · profile) (List.map_congr_left hnodes)

theorem Formula.link_bare {f : Formula} : f.bare.link lookup = (f.link lookup).bare := by
  induction f using Formula.induction with
  | mk nodes profile ih =>
    have hnodes : ∀ n ∈ nodes, (n.annotate fun _ => {}).link lookup =
        (n.link lookup).annotate fun _ => {} := by
      intro n hn
      cases n with
      | call name args target =>
        simp only [Node.link, Node.annotate, linkAll_eq_map, annotateAll_eq_map, List.map_map,
          Node.call.injEq, true_and, and_true]
        exact List.map_congr_left fun a ha => ih name args target hn a ha
      | _ => rfl
    simp only [Formula.bare, Formula.link, Formula.annotate, Node.linkAll_eq_map,
      Node.annotateAll_eq_map, List.map_map]
    exact congrArg (Formula.mk · {}) (List.map_congr_left hnodes)

theorem Formula.calledNames_of_nodes_map {f g : Formula} {φ : Node → Node}
    (hg : g.nodes = f.nodes.map φ) (hnode : ∀ n ∈ f.nodes, (φ n).calledNames = n.calledNames) :
    g.calledNames = f.calledNames := by
  cases f with
  | mk nodes profile =>
    cases g with
    | mk nodes' profile' =>
      simp only [nodes_mk] at hg hnode
      subst hg
      simp only [calledNames, Node.calledNamesAll_eq_flatMap, List.flatMap_map]
      exact List.flatMap_congr hnode

theorem Formula.calledNames_link {f : Formula} : (f.link lookup).calledNames = f.calledNames := by
  induction f using Formula.induction with
  | mk nodes profile ih =>
    apply calledNames_of_nodes_map (link_nodes lookup _)
    intro n hn
    cases n with
    | call name args target =>
      simp only [Node.link, Node.calledNames, linkAll_eq_map, calledNamesAll_eq_flatMap,
        List.flatMap_map]
      rw [List.flatMap_congr fun a ha => ih name args target hn a ha]
    | _ => rfl

theorem Formula.calledNames_annotate {f : Formula} {profile : Profile} :
    (f.annotate judge profile).calledNames = f.calledNames := by
  induction f using Formula.induction generalizing profile with
  | mk nodes p ih =>
    apply calledNames_of_nodes_map (annotate_nodes judge profile _)
    intro n hn
    cases n with
    | call name args target =>
      simp only [Node.annotate, Node.calledNames, annotateAll_eq_map, calledNamesAll_eq_flatMap,
        List.flatMap_map]
      rw [List.flatMap_congr fun a ha => ih name args target hn a ha]
    | _ => rfl

def Formula.stripped (f : Formula) : Formula := (f.link fun _ => none).bare

theorem Formula.stripped_link {f : Formula} : (f.link lookup).stripped = f.stripped := by
  rw [stripped, link_link, stripped]

theorem Formula.stripped_annotate {f : Formula} {profile : Profile} :
    (f.annotate judge profile).stripped = f.stripped := by
  rw [stripped, ← link_bare, bare_annotate, link_bare, stripped]

theorem Formula.link_stripped {f : Formula} : f.stripped.link lookup = (f.link lookup).bare := by
  rw [stripped, link_bare, link_link]

theorem Formula.calledNames_stripped {f : Formula} : f.stripped.calledNames = f.calledNames := by
  rw [stripped, bare, calledNames_annotate, calledNames_link]

end

def Equation.stripped (e : Equation) : Equation := { e with formula := e.formula.stripped }

theorem profiled_link_stripped {table : List Equation} {lookup : String → Option Nat}
    {limit : Nat} :
    profiled ((table.map Equation.stripped).map (·.link lookup)) limit =
      profiled (table.map (·.link lookup)) limit := by
  have hbare : (table.map Equation.stripped).map (·.link lookup) =
      (table.map (·.link lookup)).map Equation.bare := by
    rw [List.map_map, List.map_map]
    refine List.map_congr_left fun e _ => ?_
    exact congrArg (fun f => { e with formula := f }) Formula.link_stripped
  rw [hbare, profiled_map_bare]

end Formulary
