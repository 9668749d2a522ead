import Formulary.Linking
import Formulary.Profile
import Formulary.Proofs.Formula.Holds

/-!
# Sound formulas

A list of nodes is balanced when each operator finds its operands on the stack and one
value is left at the end. A formula is sound for a number of parameters when it and
the arguments in it are balanced, and read only what there is: the coordinates and
those parameters. Linking and annotating keep a formula sound.
-/
namespace Formulary

def Node.heightAfter : Node → Nat → Option Nat
  | .operator op, height => if op.arity ≤ height then some (height - op.arity + 1) else none
  | _, height => some (height + 1)

def heightAfter (nodes : List Node) (height : Nat) : Option Nat :=
  nodes.foldlM (fun height n => n.heightAfter height) height

@[simp] theorem heightAfter_nil (height : Nat) : heightAfter [] height = some height := rfl

theorem heightAfter_cons (n : Node) (rest : List Node) (height : Nat) :
    heightAfter (n :: rest) height = (n.heightAfter height).bind (heightAfter rest) := by
  simp only [heightAfter, List.foldlM_cons]
  rfl

theorem heightAfter_concat {nodes : List Node} {height h : Nat}
    (hn : heightAfter nodes height = some h) (n : Node) :
    heightAfter (nodes ++ [n]) height = n.heightAfter h := by
  rw [heightAfter] at hn ⊢
  rw [List.foldlM_append, hn]
  simp

theorem heightAfter_concat_eq_some {nodes : List Node} {n : Node} {height k : Nat}
    (h : heightAfter (nodes ++ [n]) height = some k) :
    ∃ mid, heightAfter nodes height = some mid ∧ n.heightAfter mid = some k := by
  cases hn : heightAfter nodes height with
  | none =>
    rw [heightAfter] at hn h
    rw [List.foldlM_append, hn] at h
    simp at h
  | some mid => exact ⟨mid, rfl, (heightAfter_concat hn n).symm.trans h⟩

theorem heightAfter_map {φ : Node → Node}
    (hφ : ∀ n height, (φ n).heightAfter height = n.heightAfter height) (nodes : List Node)
    (height : Nat) : heightAfter (nodes.map φ) height = heightAfter nodes height := by
  simp only [heightAfter, List.foldlM_map, hφ]

def Node.InRange (params : Nat) : Node → Prop
  | .coordinate index => index < coordinateNames.length
  | .argument index => index < params
  | _ => True

namespace Formula

def Balanced (f : Formula) : Prop := heightAfter f.nodes 0 = some 1

def Sound (params : Nat) (f : Formula) : Prop :=
  f.All fun g => g.Balanced ∧ ∀ n ∈ g.nodes, n.InRange params

end Formula

def Node.Sound (params : Nat) : Node → Prop
  | .call _ args _ => ∀ a ∈ args, a.Sound params
  | n => n.InRange params

namespace Formula

variable {params : Nat}

theorem sound_iff {f : Formula} :
    f.Sound params ↔ f.Balanced ∧ ∀ n ∈ f.nodes, n.Sound params := by
  rw [Sound]
  rw [all_iff]
  constructor
  · rintro ⟨⟨hb, hr⟩, hargs⟩
    refine ⟨hb, fun n hn => ?_⟩
    cases n with
    | call name args target => exact hargs name args target hn
    | _ => exact hr _ hn
  · rintro ⟨hb, hs⟩
    refine ⟨⟨hb, fun n hn => ?_⟩, fun name args target hc => hs _ hc⟩
    cases n with
    | call name args target => trivial
    | _ => exact hs _ hn

theorem Sound.balanced {f : Formula} (h : f.Sound params) : f.Balanced := h.self.1

theorem link_nodes (lookup : String → Option Nat) (f : Formula) :
    (f.link lookup).nodes = f.nodes.map (Node.link lookup) := by
  cases f
  exact Node.linkAll_eq_map lookup _

theorem annotate_nodes (judge : Formula → Profile) (profile : Profile) (f : Formula) :
    (f.annotate judge profile).nodes = f.nodes.map (Node.annotate judge) := by
  cases f
  exact Node.annotateAll_eq_map judge _

theorem Sound.of_map {f g : Formula} {φ : Node → Node} (hg : g.nodes = f.nodes.map φ)
    (hheight : ∀ n height, (φ n).heightAfter height = n.heightAfter height)
    (hnode : ∀ n ∈ f.nodes, n.Sound params → (φ n).Sound params) (h : f.Sound params) :
    g.Sound params := by
  obtain ⟨hb, hs⟩ := sound_iff.1 h
  refine sound_iff.2 ⟨?_, ?_⟩
  · rw [Balanced, hg, heightAfter_map hheight]
    exact hb
  · rw [hg]
    intro n hn
    obtain ⟨m, hm, rfl⟩ := List.mem_map.1 hn
    exact hnode m hm (hs m hm)

theorem Sound.link (lookup : String → Option Nat) {f : Formula} (h : f.Sound params) :
    (f.link lookup).Sound params := by
  induction f using Formula.induction with
  | mk nodes profile ih =>
    refine h.of_map (link_nodes lookup _) (fun n height => by cases n <;> rfl) fun n hn hs => ?_
    cases n with
    | call name args target =>
      simp only [Node.link, Node.Sound, linkAll_eq_map, List.forall_mem_map]
      exact fun a ha => ih _ _ _ hn a ha (hs a ha)
    | _ => exact hs

theorem Sound.annotate (judge : Formula → Profile) (profile : Profile) {f : Formula}
    (h : f.Sound params) : (f.annotate judge profile).Sound params := by
  induction f using Formula.induction generalizing profile with
  | mk nodes p ih =>
    refine h.of_map (annotate_nodes judge profile _) (fun n height => by cases n <;> rfl)
      fun n hn hs => ?_
    cases n with
    | call name args target =>
      simp only [Node.annotate, Node.Sound, annotateAll_eq_map, List.forall_mem_map]
      exact fun a ha => ih _ _ _ hn a ha _ (hs a ha)
    | _ => exact hs

end Formula

namespace Equation

def Sound (e : Equation) : Prop := e.formula.Sound e.params.length

theorem Sound.link (lookup : String → Option Nat) {e : Equation} (h : e.Sound) :
    (e.link lookup).Sound := Formula.Sound.link lookup h

theorem sound_of_mem_profiled {table : List Equation} (h : ∀ e ∈ table, e.Sound) {limit : Nat}
    {e : Equation} (he : e ∈ profiled table limit) : e.Sound := by
  rw [profiled_eq_mapIdx] at he
  obtain ⟨id, hid, rfl⟩ := List.mem_mapIdx.1 he
  exact Formula.Sound.annotate _ _ (h _ (List.getElem_mem hid))

end Equation

end Formulary
