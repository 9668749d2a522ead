import Formulary.Proofs.Evaluation.Depth
import Formulary.Proofs.Formula.Moved
import Formulary.Proofs.Reprofiling
import Mathlib

/-!
# What an equation needs

The arity in a profile says what the equation reads: the greatest argument in its formula and
the greatest coordinate that is reached from it. The search for it need not begin anywhere in
particular. On a cycle coordinates may be left out, but there the equation is not valid.
-/
namespace Formulary

section
variable {P : Nat → Prop} {a : Nat}

/-- One more than the greatest index with the property, or zero if there is none. -/
noncomputable def extent (P : Nat → Prop) : ℕ∞ := ⨆ i : Nat, ⨆ _ : P i, (i + 1 : ℕ∞)

theorem extent_le {m : Nat} : extent P ≤ m ↔ ∀ i, P i → i < m := by
  simp only [extent, iSup_le_iff]
  refine forall₂_congr fun i _ => ?_
  rw [← Nat.cast_one, ← Nat.cast_add, Nat.cast_le, Nat.succ_le_iff]

theorem le_extent (h : ∀ m : Nat, (∀ i, P i → i < m) → a ≤ m) : (a : ℕ∞) ≤ extent P := by
  cases hn : extent P with
  | top => exact le_top
  | coe n => exact Nat.cast_le.2 (h n (extent_le.1 hn.le))

theorem eq_extent (h : ∀ m, a ≤ m ↔ ∀ i, P i → i < m) : (a : ℕ∞) = extent P :=
  le_antisymm (le_extent fun m => (h m).2) (extent_le.2 ((h a).1 le_rfl))

theorem le_min_extent (hthree : a ≤ 3) (h : ∀ m : Nat, (∀ i, P i → i < m) → a ≤ m) :
    (a : ℕ∞) ≤ min 3 (extent P) :=
  le_min (Nat.cast_le.2 hthree) (le_extent h)

theorem eq_min_extent (h : ∀ m, a ≤ m ↔ 3 ≤ m ∨ ∀ i, P i → i < m) :
    (a : ℕ∞) = min 3 (extent P) := by
  refine le_antisymm (le_min_extent ((h 3).2 (.inl le_rfl)) fun m hm => (h m).2 (.inr hm)) ?_
  rcases (h a).1 le_rfl with hthree | hbelow
  · exact (min_le_left _ _).trans (Nat.cast_le.2 hthree)
  · exact (min_le_right _ _).trans (extent_le.2 hbelow)

end

namespace Formula

def ReadsArgument (f : Formula) (i : Nat) : Prop := ∃ g, f.Holds g ∧ .argument i ∈ g.nodes

def ReadsCoordinate (table : List Equation) (f : Formula) (i : Nat) : Prop :=
  ∃ g, f.Reaches table g ∧ .coordinate i ∈ g.nodes

variable {table table' : List Equation} {place : Nat → Nat} {f : Formula} {m : Nat}

theorem all_argumentsBelow_iff :
    f.All (ArgumentsBelow m) ↔ ∀ i, f.ReadsArgument i → i < m :=
  ⟨fun h i ⟨g, hg, hi⟩ => h g hg i hi, fun h g hg i hi => h i ⟨g, hg, hi⟩⟩

theorem allReached_coordinatesBelow_iff :
    f.AllReached table (CoordinatesBelow m) ↔ ∀ i, f.ReadsCoordinate table i → i < m :=
  ⟨fun h i ⟨g, hg, hi⟩ => h g hg i hi, fun h g hg i hi => h i ⟨g, hg, hi⟩⟩

theorem readsArgument_moved {i : Nat} : (f.moved place).ReadsArgument i ↔ f.ReadsArgument i := by
  constructor
  · intro h
    obtain ⟨g, hg, hi⟩ := h
    obtain ⟨g', hg', rfl⟩ := holds_moved hg
    exact ⟨g', hg', argument_mem_moved.1 hi⟩
  · intro h
    obtain ⟨g, hg, hi⟩ := h
    exact ⟨_, hg.moved, argument_mem_moved.2 hi⟩

theorem readsCoordinate_moved (h : Moved place table table') {i : Nat} :
    (f.moved place).ReadsCoordinate table' i ↔ f.ReadsCoordinate table i := by
  constructor
  · intro hread
    obtain ⟨g, hg, hi⟩ := hread
    obtain ⟨g', hg', rfl⟩ := h.of_reaches hg
    exact ⟨g', hg', coordinate_mem_moved.1 hi⟩
  · intro hread
    obtain ⟨g, hg, hi⟩ := hread
    exact ⟨_, h.reaches hg, coordinate_mem_moved.2 hi⟩

end Formula

section
variable {table table' : List Equation} {place : Nat → Nat} {limit id id' : Nat}
  {e e' : Equation} {a a' : Arity}

theorem Exact.explicit_eq (h : Exact table id a) (he : table[id]? = some e) :
    (a.explicit : ℕ∞) = extent e.formula.ReadsArgument :=
  eq_extent fun m => (h.explicit e he m).trans Formula.all_argumentsBelow_iff

theorem Exact.implicit_eq (h : Exact table id a) (he : table[id]? = some e)
    (hc : ¬ Cyclic table id) :
    (a.implicit : ℕ∞) = min 3 (extent (e.formula.ReadsCoordinate table)) := by
  refine eq_min_extent fun m => ?_
  rw [h.implicit e he hc, Formula.allReached_coordinatesBelow_iff]

theorem Exact.eq (h : Exact table id a) (h' : Exact table' id' a') (he : table[id]? = some e)
    (he' : table'[id']? = some e') (hc : ¬ Cyclic table id) (hc' : ¬ Cyclic table' id')
    (hargs : e'.formula.ReadsArgument = e.formula.ReadsArgument)
    (hcoords : e'.formula.ReadsCoordinate table' = e.formula.ReadsCoordinate table) : a' = a := by
  have hexplicit := h'.explicit_eq he'
  have himplicit := h'.implicit_eq he' hc'
  rw [hargs, ← h.explicit_eq he, Nat.cast_inj] at hexplicit
  rw [hcoords, ← h.implicit_eq he hc, Nat.cast_inj] at himplicit
  cases a
  cases a'
  rw [Arity.mk.injEq]
  exact ⟨himplicit, hexplicit⟩

theorem profiled_profile (limit : Nat) (he : table[id]? = some e) :
    ∃ e', (profiled table limit)[id]? = some e' ∧
      e'.formula.profile.arity = (Search.all table).arityAt id ∧
      e'.formula.profile.valid =
        e.formula.runsOnZeros table limit ((Search.all table).arityAt id) :=
  ⟨_, profiled_eq_some he, congrArg Profile.arity annotate_profile,
    congrArg Profile.valid annotate_profile⟩

theorem Search.implicit_le (he : table[id]? = some e) (roots : List Nat) {m : Nat}
    (hm : ∀ i, e.formula.ReadsCoordinate table i → i < m) :
    ((inOrder table roots).arityAt id).implicit ≤ m := by
  refine sparing_inOrder m roots id fun d hd => ?_
  obtain rfl := Option.some.inj (he.symm.trans hd)
  exact Formula.allReached_coordinatesBelow_iff.2 hm

theorem Moved.arityAt (h : Moved place table table') (he : table[id]? = some e)
    (hc : ¬ Cyclic table id) :
    (Search.all table').arityAt (place id) = (Search.all table).arityAt id := by
  have he' := h.getElem? he
  have hexact := Search.exact_all (List.getElem?_eq_some_iff.1 he).1
  have hexact' := Search.exact_all (List.getElem?_eq_some_iff.1 he').1
  exact hexact.eq hexact' he he' hc (fun hc' => hc (h.of_cyclic hc'))
    (funext fun _ => propext Formula.readsArgument_moved)
    (funext fun _ => propext (Formula.readsCoordinate_moved h))

/-- Each equation stored needs what it reads; the greatest index decides, and no more than three
coordinates count. Neither the roots of the search nor the places in the table make a difference,
except where the targets lead to a cycle. There nothing is valid. -/
theorem profiled_needs (he : table[id]? = some e) :
    ∃ e', (profiled table limit)[id]? = some e' ∧
      (e'.formula.profile.arity.explicit : ℕ∞) = extent e.formula.ReadsArgument ∧
      (Cyclic table id →
        (e'.formula.profile.arity.implicit : ℕ∞) ≤
          min 3 (extent (e.formula.ReadsCoordinate table)) ∧
        e'.formula.profile.valid = false) ∧
      (¬ Cyclic table id →
        (e'.formula.profile.arity.implicit : ℕ∞) =
          min 3 (extent (e.formula.ReadsCoordinate table)) ∧
        (∀ roots, id ∈ roots →
          (Search.inOrder table roots).arityAt id = e'.formula.profile.arity) ∧
        ∀ place table', Moved place table table' → ∃ e'',
          (profiled table' limit)[place id]? = some e'' ∧
            e''.formula.profile.arity = e'.formula.profile.arity) := by
  have hlt : id < table.length := (List.getElem?_eq_some_iff.1 he).1
  have hexact := Search.exact_all hlt
  obtain ⟨e', he', harity, hvalid⟩ := profiled_profile limit he
  refine ⟨e', he', ?_⟩
  rw [harity, hvalid]
  refine ⟨hexact.explicit_eq he, fun hc => ⟨?_, hc.runsOnZeros he _⟩,
    fun hc => ⟨hexact.implicit_eq he hc, fun roots hroot => ?_, fun place table' hmoved => ?_⟩⟩
  · exact le_min_extent hexact.capped fun m hm => Search.implicit_le he _ hm
  · exact hexact.eq (Search.exact_inOrder hroot hlt) he he hc hc rfl rfl
  · obtain ⟨e'', he'', harity', -⟩ := profiled_profile limit (hmoved.getElem? he)
    exact ⟨e'', he'', harity'.trans (hmoved.arityAt he hc)⟩

end

def knot : List Equation :=
  [⟨"a", [], .ofNodes [.call "b" [] (some 1)]⟩,
    ⟨"b", [], .ofNodes [.coordinate 1, .call "a" [] (some 0), .operator (.binary .add)]⟩,
    ⟨"c", ["v"], .ofNodes [.argument 0, .coordinate 1, .operator (.binary .add)]⟩]

theorem profiled_needs_knot :
    (∃ e, (profiled knot 8)[0]? = some e ∧ e.formula.profile.valid = false) ∧
      ∃ e, (profiled knot 8)[2]? = some e ∧ e.formula.profile.arity = ⟨2, 1⟩ ∧
        (Search.inOrder knot [1, 2]).arityAt 2 = e.formula.profile.arity := by
  have hab : Links knot 0 1 := ⟨_, rfl, by decide⟩
  have hba : Links knot 1 0 := ⟨_, rfl, by decide⟩
  have hcyclic : Cyclic knot 0 := ⟨0, .refl, .head hab (.single hba)⟩
  have hnone : ∀ j, ¬ Links knot 2 j := by
    intro j h
    obtain ⟨e, he, hj⟩ := h
    obtain rfl := Option.some.inj he
    exact absurd hj List.not_mem_nil
  have hacyclic : ¬ Cyclic knot 2 := by
    intro h
    obtain ⟨j, hj, hjj⟩ := h
    obtain ⟨k, hk, -⟩ := Relation.TransGen.head'_iff.1 (.trans_right hj hjj)
    exact hnone k hk
  obtain ⟨e, he, -, hknot, -⟩ := @profiled_needs knot 8 0 _ rfl
  obtain ⟨e', he', -, -, hloose⟩ := @profiled_needs knot 8 2 _ rfl
  obtain ⟨-, hroots, -⟩ := hloose hacyclic
  have harity : (profiled knot 8)[2]?.map (·.formula.profile.arity) = some ⟨2, 1⟩ := rfl
  rw [he'] at harity
  exact ⟨⟨e, he, (hknot hcyclic).2⟩, e', he', Option.some.inj harity, hroots [1, 2] (by simp)⟩

end Formulary
