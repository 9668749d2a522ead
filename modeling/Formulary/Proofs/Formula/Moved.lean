import Formulary.Proofs.Formula.Reaches

/-!
# Equations in other places

A table can hold the same equations in other places, with the targets of their calls moved
along. What an equation reaches is then the same, but for the places.
-/
namespace Formulary

section
variable (place : Nat → Nat)

mutual

def Formula.moved : Formula → Formula
  | .mk nodes profile => .mk (Node.movedAll nodes) profile

def Node.movedAll : List Node → List Node
  | [] => []
  | n :: rest => n.moved :: Node.movedAll rest

def Node.moved : Node → Node
  | .literal value => .literal value
  | .coordinate index => .coordinate index
  | .argument index => .argument index
  | .operator op => .operator op
  | .call name args target => .call name (Formula.movedAll args) (target.map place)

def Formula.movedAll : List Formula → List Formula
  | [] => []
  | f :: rest => f.moved :: Formula.movedAll rest

end

def Equation.moved (e : Equation) : Equation := { e with formula := e.formula.moved place }

theorem Node.movedAll_eq_map (nodes : List Node) :
    Node.movedAll place nodes = nodes.map (Node.moved place) := by
  induction nodes with
  | nil => rfl
  | cons n rest ih => simp [Node.movedAll, ih]

theorem Formula.movedAll_eq_map (args : List Formula) :
    Formula.movedAll place args = args.map (Formula.moved place) := by
  induction args with
  | nil => rfl
  | cons f rest ih => simp [Formula.movedAll, ih]

mutual

theorem Formula.targets_moved : ∀ f : Formula, (f.moved place).targets = f.targets.map place
  | .mk nodes _ => Node.targetsAll_moved nodes

theorem Node.targetsAll_moved : ∀ nodes : List Node,
    Node.targetsAll (Node.movedAll place nodes) = (Node.targetsAll nodes).map place
  | [] => rfl
  | n :: rest => by
    rw [Node.movedAll, Node.targetsAll, Node.targetsAll, List.map_append, n.targets_moved,
      Node.targetsAll_moved rest]

theorem Node.targets_moved : ∀ n : Node, (n.moved place).targets = n.targets.map place
  | .call name args target => by
    rw [Node.moved, Node.targets, Node.targets, List.map_append, Formula.targetsAll_moved args]
    cases target <;> rfl
  | .literal _ | .coordinate _ | .argument _ | .operator _ => rfl

theorem Formula.targetsAll_moved : ∀ args : List Formula,
    Formula.targetsAll (Formula.movedAll place args) = (Formula.targetsAll args).map place
  | [] => rfl
  | f :: rest => by
    rw [Formula.movedAll, Formula.targetsAll, Formula.targetsAll, List.map_append,
      f.targets_moved, Formula.targetsAll_moved rest]

end

end

namespace Formula

variable {place : Nat → Nat} {f g : Formula}

theorem nodes_moved : (f.moved place).nodes = f.nodes.map (Node.moved place) := by
  cases f
  rw [moved, nodes_mk, nodes_mk, Node.movedAll_eq_map]

theorem mem_nodes_moved {n : Node} (h : ∀ m : Node, m.moved place = n ↔ m = n) :
    n ∈ (f.moved place).nodes ↔ n ∈ f.nodes := by
  simp only [nodes_moved, List.mem_map, h, exists_eq_right]

theorem coordinate_mem_moved {i : Nat} :
    .coordinate i ∈ (f.moved place).nodes ↔ .coordinate i ∈ f.nodes :=
  mem_nodes_moved fun m => by cases m <;> simp [Node.moved]

theorem argument_mem_moved {i : Nat} :
    .argument i ∈ (f.moved place).nodes ↔ .argument i ∈ f.nodes :=
  mem_nodes_moved fun m => by cases m <;> simp [Node.moved]

theorem Holds.moved (h : f.Holds g) : (f.moved place).Holds (g.moved place) := by
  induction h with
  | refl => exact .refl _
  | @argument f g a name args target hc ha _ ih =>
    have hcall : Node.call name (args.map (Formula.moved place)) (target.map place) ∈
        (f.moved place).nodes := by
      rw [nodes_moved, ← movedAll_eq_map]
      exact List.mem_map_of_mem hc
    exact .argument hcall (List.mem_map_of_mem ha) ih

theorem holds_moved (h : (f.moved place).Holds g) : ∃ g', f.Holds g' ∧ g = g'.moved place := by
  generalize hf : f.moved place = f' at h
  induction h generalizing f with
  | refl => exact ⟨f, .refl f, hf.symm⟩
  | argument hc ha _ ih =>
    subst hf
    rw [nodes_moved] at hc
    obtain ⟨n, hn, heq⟩ := List.mem_map.1 hc
    cases n with
    | call name args target =>
      obtain ⟨rfl, rfl, rfl⟩ := Node.call.inj heq
      rw [movedAll_eq_map] at ha
      obtain ⟨a, hmem, rfl⟩ := List.mem_map.1 ha
      obtain ⟨g', hg', rfl⟩ := ih rfl
      exact ⟨g', .argument hn hmem hg', rfl⟩
    | _ => simp [Node.moved] at heq

end Formula

structure Moved (place : Nat → Nat) (table table' : List Equation) : Prop where
  injective : Function.Injective place
  stored : ∀ id, table'[place id]? = table[id]?.map (Equation.moved place)

section
variable {place : Nat → Nat} {table table' : List Equation} {f g : Formula}

open Relation

theorem Moved.getElem? (h : Moved place table table') {id : Nat} {e : Equation}
    (he : table[id]? = some e) : table'[place id]? = some (e.moved place) := by
  rw [h.stored, he, Option.map_some]

theorem Moved.reaches (h : Moved place table table') (hg : f.Reaches table g) :
    (f.moved place).Reaches table' (g.moved place) := by
  induction hg with
  | held hg => exact .held hg.moved
  | @target f g id _ hid he _ ih =>
    have hid' : place id ∈ (f.moved place).targets := by
      rw [Formula.targets_moved]
      exact List.mem_map_of_mem hid
    exact .target hid' (h.getElem? he) ih

theorem Moved.of_reaches (h : Moved place table table')
    (hg : (f.moved place).Reaches table' g) : ∃ g', f.Reaches table g' ∧ g = g'.moved place := by
  generalize hf : f.moved place = f' at hg
  induction hg generalizing f with
  | held hg =>
    subst hf
    obtain ⟨g', hg', rfl⟩ := Formula.holds_moved hg
    exact ⟨g', .held hg', rfl⟩
  | target hid he _ ih =>
    subst hf
    rw [Formula.targets_moved] at hid
    obtain ⟨id', hid', rfl⟩ := List.mem_map.1 hid
    rw [h.stored] at he
    obtain ⟨e', he', rfl⟩ := Option.map_eq_some_iff.1 he
    obtain ⟨g', hg', rfl⟩ := ih rfl
    exact ⟨g', .target hid' he' hg', rfl⟩

theorem Moved.of_links (h : Moved place table table') {i j : Nat}
    (hl : Links table' (place i) j) : ∃ j', Links table i j' ∧ j = place j' := by
  obtain ⟨e, he, hj⟩ := hl
  rw [h.stored] at he
  obtain ⟨e', he', rfl⟩ := Option.map_eq_some_iff.1 he
  rw [Equation.moved, Formula.targets_moved] at hj
  obtain ⟨j', hj', rfl⟩ := List.mem_map.1 hj
  exact ⟨j', ⟨e', he', hj'⟩, rfl⟩

theorem Moved.of_reflTransGen (h : Moved place table table') {i j : Nat}
    (hl : ReflTransGen (Links table') (place i) j) :
    ∃ j', ReflTransGen (Links table) i j' ∧ j = place j' := by
  induction hl with
  | refl => exact ⟨i, .refl, rfl⟩
  | tail _ hl ih =>
    obtain ⟨k, hk, rfl⟩ := ih
    obtain ⟨j', hj', rfl⟩ := h.of_links hl
    exact ⟨j', hk.tail hj', rfl⟩

theorem Moved.of_transGen (h : Moved place table table') {i j : Nat}
    (hl : TransGen (Links table') (place i) (place j)) : TransGen (Links table) i j := by
  obtain ⟨k, hk, hl⟩ := TransGen.tail'_iff.1 hl
  obtain ⟨k', hk', rfl⟩ := h.of_reflTransGen hk
  obtain ⟨j', hj', heq⟩ := h.of_links hl
  obtain rfl := h.injective heq
  exact .tail' hk' hj'

theorem Moved.of_cyclic (h : Moved place table table') {id : Nat}
    (hc : Cyclic table' (place id)) : Cyclic table id := by
  obtain ⟨j, hj, hjj⟩ := hc
  obtain ⟨j', hj', rfl⟩ := h.of_reflTransGen hj
  exact ⟨j', hj', h.of_transGen hjj⟩

end

end Formulary
