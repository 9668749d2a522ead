import Formulary.Linking
import Formulary.Proofs.Formula.Holds
import Mathlib

/-!
# The places of calls

A call stands at a node, or at a place in one of the arguments of a call. Places are compared
as lists of numbers are, so a call comes before those in its arguments, and these come before
what stands further right. In this order the called names are told.
-/
namespace Formulary

/-- A name is called at a place: at a node, or in an argument of a node and there at a place. -/
inductive Formula.CalledAt (name : String) : Formula → List Nat → Prop
  | here {f : Formula} {i : Nat} {args : List Formula} {target : Option Nat} :
      f.nodes[i]? = some (.call name args target) → CalledAt name f [i]
  | inside {f g : Formula} {i j : Nat} {outer : String} {args : List Formula}
      {target : Option Nat} {place : List Nat} : f.nodes[i]? = some (.call outer args target) →
      args[j]? = some g → CalledAt name g place → CalledAt name f (i :: j :: place)

/-- The names that are told stand at the places where they are called, all of them, one place
before the next. -/
def InOrder (called : List Nat → String → Prop) (names : List String) : Prop :=
  ∃ told : List (List Nat × String), told.map Prod.snd = names ∧
    told.Pairwise (fun a b => a.1 < b.1) ∧
    ∀ place name, (place, name) ∈ told ↔ called place name

namespace InOrder

theorem of_iff {called called' : List Nat → String → Prop} {names : List String}
    (h : InOrder called names) (hiff : ∀ place name, called place name ↔ called' place name) :
    InOrder called' names := by
  obtain ⟨told, hnames, hsorted, hmem⟩ := h
  exact ⟨told, hnames, hsorted, fun place name => (hmem place name).trans (hiff place name)⟩

theorem nil : InOrder (fun _ _ => False) [] := ⟨[], rfl, .nil, by simp⟩

theorem cons {called : List Nat → String → Prop} {names : List String} (h : InOrder called names)
    (hinside : ∀ place name, called place name → place ≠ []) (first : String) :
    InOrder (fun place name => place = [] ∧ name = first ∨ called place name)
      (first :: names) := by
  obtain ⟨told, hnames, hsorted, hmem⟩ := h
  refine ⟨([], first) :: told, congrArg (first :: ·) hnames, .cons ?_ hsorted, fun place name => ?_⟩
  · intro a ha
    obtain ⟨c, rest, hplace⟩ := List.exists_cons_of_ne_nil
      (hinside a.1 a.2 ((hmem a.1 a.2).1 ha))
    rw [hplace]
    exact List.nil_lt_cons c rest
  · rw [List.mem_cons, Prod.mk.injEq, hmem]

theorem flatMap {α : Type} {items : List α} {called : α → List Nat → String → Prop}
    {names : α → List String} (h : ∀ x ∈ items, InOrder (called x) (names x)) :
    InOrder (fun place name => ∃ i x inner, items[i]? = some x ∧ place = i :: inner ∧
      called x inner name) (items.flatMap names) := by
  induction items using List.reverseRecOn with
  | nil =>
    apply nil.of_iff
    simp
  | append_singleton items x ih =>
    obtain ⟨told, hnames, hsorted, hmem⟩ := ih fun y hy => h y (List.mem_append_left _ hy)
    obtain ⟨last, hlast, hsortedLast, hmemLast⟩ := h x (by simp)
    refine ⟨told ++ last.map fun a => (items.length :: a.1, a.2), ?_, ?_, fun place name => ?_⟩
    · rw [List.map_append, List.flatMap_append, hnames, List.map_map, List.flatMap_singleton, ← hlast]
      rfl
    · rw [List.pairwise_append, List.pairwise_map]
      refine ⟨hsorted, hsortedLast.imp fun hlt => List.cons_lt_cons_self.2 hlt, ?_⟩
      intro a ha b hb
      obtain ⟨i, y, inner, hi, hplace, -⟩ := (hmem a.1 a.2).1 ha
      obtain ⟨d, -, rfl⟩ := List.mem_map.1 hb
      have hlt := (List.getElem?_eq_some_iff.1 hi).1
      rw [hplace]
      exact List.cons_lt_cons_iff.2 (.inl hlt)
    · rw [List.mem_append, hmem, List.mem_map]
      constructor
      · intro htold
        rcases htold with ⟨i, y, inner, hi, hplace, hcalled⟩ | ⟨⟨inner, _⟩, ha, heq⟩
        · have hlt := (List.getElem?_eq_some_iff.1 hi).1
          exact ⟨i, y, inner, (List.getElem?_append_left hlt).trans hi, hplace, hcalled⟩
        · obtain ⟨rfl, rfl⟩ := Prod.mk.inj heq
          exact ⟨items.length, x, inner, List.getElem?_concat_length, rfl, (hmemLast _ _).1 ha⟩
      · intro hcalled
        obtain ⟨i, y, inner, hi, hplace, hcalled⟩ := hcalled
        by_cases hlt : i < items.length
        · rw [List.getElem?_append_left hlt] at hi
          exact .inl ⟨i, y, inner, hi, hplace, hcalled⟩
        · have hbound := (List.getElem?_eq_some_iff.1 hi).1
          rw [List.length_append, List.length_singleton] at hbound
          obtain rfl : i = items.length := by omega
          obtain rfl := Option.some.inj (hi.symm.trans List.getElem?_concat_length)
          exact .inr ⟨(inner, name), (hmemLast _ _).2 hcalled, by rw [hplace]⟩

theorem mem_iff {called : List Nat → String → Prop} {names : List String} (h : InOrder called names)
    {name : String} : name ∈ names ↔ ∃ place, called place name := by
  obtain ⟨told, rfl, -, hmem⟩ := h
  simp [← hmem]

theorem lt_of_idxOf_lt {called : List Nat → String → Prop} {names : List String}
    (h : InOrder called names) {a b : String} (hlt : names.idxOf a < names.idxOf b) :
    ∃ place, called place a ∧ ∀ place', called place' b → place < place' := by
  obtain ⟨told, rfl, hsorted, hmem⟩ := h
  have ha := hlt.trans_le List.idxOf_le_length
  have hname := List.getElem_idxOf ha
  generalize (told.map Prod.snd).idxOf a = i at hlt ha hname
  rw [List.length_map] at ha
  rw [List.getElem_map] at hname
  refine ⟨told[i].1, (hmem _ _).1 ?_, fun place' hb => ?_⟩
  · rw [← hname]
    exact List.getElem_mem ha
  · obtain ⟨k, hk, hget⟩ := List.getElem_of_mem ((hmem place' b).2 hb)
    have hle : (told.map Prod.snd).idxOf b ≤ k := by
      by_contra hbefore
      have hnot := List.not_of_lt_findIdx (Nat.lt_of_not_le hbefore)
      simp [hget] at hnot
    have hless := List.pairwise_iff_getElem.1 hsorted i k ha hk (hlt.trans_le hle)
    rwa [hget] at hless

end InOrder

def Node.CalledAt : Node → List Nat → String → Prop
  | .call called args _, place, name => place = [] ∧ name = called ∨
      ∃ i a inner, args[i]? = some a ∧ place = i :: inner ∧ a.CalledAt name inner
  | _, _, _ => False

theorem Formula.calledAt_iff {f : Formula} {place : List Nat} {name : String} :
    f.CalledAt name place ↔ ∃ i n inner, f.nodes[i]? = some n ∧ place = i :: inner ∧
      n.CalledAt inner name := by
  constructor
  · intro h
    cases h with
    | here hi => exact ⟨_, _, [], hi, rfl, .inl ⟨rfl, rfl⟩⟩
    | inside hi hj hplace => exact ⟨_, _, _, hi, rfl, .inr ⟨_, _, _, hj, rfl, hplace⟩⟩
  · intro h
    obtain ⟨i, n, inner, hi, rfl, hcalled⟩ := h
    cases n with
    | call called args target =>
      rcases hcalled with ⟨rfl, rfl⟩ | ⟨j, a, inner, hj, rfl, hcalled⟩
      · exact .here hi
      · exact .inside hi hj hcalled
    | _ => exact absurd hcalled id

theorem Formula.calledNames_inOrder (f : Formula) :
    InOrder (fun place name => f.CalledAt name place) f.calledNames := by
  induction f using Formula.induction with
  | mk nodes profile ih =>
    rw [calledNames, Node.calledNamesAll_eq_flatMap]
    refine (InOrder.flatMap fun n hn => ?_).of_iff
      fun _ _ => (@calledAt_iff (.mk nodes profile) _ _).symm
    cases n with
    | call called args target =>
      rw [Node.calledNames, calledNamesAll_eq_flatMap]
      refine (InOrder.flatMap fun a ha => ih called args target hn a ha).cons ?_ called
      intro place name hcalled
      obtain ⟨i, a, inner, -, rfl, -⟩ := hcalled
      exact List.cons_ne_nil i inner
    | _ => exact InOrder.nil

end Formulary
