import Formulary.Linking
import Formulary.Profile
import Formulary.Proofs.Formula.Sound

/-!
# The calls in a formula

What is true of all calls in a formula, those in the arguments of other calls included,
by their names and targets. To link a formula replaces the targets and to annotate it
changes no call, so a formula whose calls are bound as a look-up says is left by linking
as it is.
-/
namespace Formulary

def Formula.Calls (P : String → Option Nat → Prop) (f : Formula) : Prop :=
  f.All fun g => ∀ name args target, .call name args target ∈ g.nodes → P name target

def Node.Calls (P : String → Option Nat → Prop) : Node → Prop
  | .call name args target => P name target ∧ ∀ a ∈ args, a.Calls P
  | _ => True

namespace Formula

variable {P Q : String → Option Nat → Prop} {lookup : String → Option Nat}

theorem calls_iff {f : Formula} : f.Calls P ↔ ∀ n ∈ f.nodes, n.Calls P := by
  rw [Calls]
  rw [all_iff]
  constructor
  · intro h n hn
    cases n with
    | call name args target => exact ⟨h.1 name args target hn, h.2 name args target hn⟩
    | _ => trivial
  · intro h
    constructor
    · intro name args target hc
      exact (h _ hc).1
    · intro name args target hc
      exact (h _ hc).2

theorem calls_of_nodes_map {f g : Formula} {φ : Node → Node} (hg : g.nodes = f.nodes.map φ)
    (hnode : ∀ n ∈ f.nodes, (φ n).Calls P ↔ n.Calls Q) : g.Calls P ↔ f.Calls Q := by
  rw [calls_iff, calls_iff, hg, List.forall_mem_map]
  exact forall₂_congr hnode

theorem calls_annotate {f : Formula} {judge : Formula → Profile} {profile : Profile} :
    (f.annotate judge profile).Calls P ↔ f.Calls P := by
  induction f using Formula.induction generalizing profile with
  | mk nodes p ih =>
    apply calls_of_nodes_map (annotate_nodes judge profile _)
    intro n hn
    cases n with
    | call name args target =>
      simp only [Node.annotate, Node.Calls, annotateAll_eq_map, List.forall_mem_map]
      exact and_congr_right' (forall₂_congr fun a ha => ih name args target hn a ha)
    | _ => rfl

theorem calls_link {f : Formula} :
    (f.link lookup).Calls P ↔ f.Calls fun name _ => P name (lookup name) := by
  induction f using Formula.induction with
  | mk nodes profile ih =>
    apply calls_of_nodes_map (link_nodes lookup _)
    intro n hn
    cases n with
    | call name args target =>
      simp only [Node.link, Node.Calls, linkAll_eq_map, List.forall_mem_map]
      exact and_congr_right' (forall₂_congr fun a ha => ih name args target hn a ha)
    | _ => rfl

theorem link_eq_self {f : Formula} (h : f.Calls fun name target => lookup name = target) :
    f.link lookup = f := by
  induction f using Formula.induction with
  | mk nodes profile ih =>
    rw [calls_iff] at h
    have hnodes : ∀ n ∈ nodes, n.link lookup = n := by
      intro n hn
      cases n with
      | call name args target =>
        obtain ⟨htarget, hargs⟩ := h _ hn
        have hlinked : ∀ a ∈ args, a.link lookup = a :=
          fun a ha => ih name args target hn a ha (hargs a ha)
        rw [Node.link, linkAll_eq_map, htarget, List.map_congr_left hlinked, List.map_id']
      | _ => rfl
    rw [link, Node.linkAll_eq_map, List.map_congr_left hnodes, List.map_id']

end Formula

end Formulary
