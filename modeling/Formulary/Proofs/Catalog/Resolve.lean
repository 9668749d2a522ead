import Formulary.Proofs.Catalog.Sound
import Formulary.Proofs.Formula.Calls
import Formulary.Proofs.Profiles

/-!
# What resolving does

A resolved catalog has the entries of before with the equations linked and profiled anew.
Each call is bound as the catalog finds its name, and the names stay what they were.
-/
namespace Formulary.Catalog

theorem find?_resolve (c : Catalog) (name : String) : c.resolve.find? name = c.find? name := rfl

theorem names_resolve (c : Catalog) :
    c.resolve.equations.map (·.name) = c.equations.map (·.name) := by
  rw [equations_resolve]
  apply List.ext_getElem?
  intro i
  rw [List.getElem?_map, profiled_getElem?, List.getElem?_map, List.getElem?_map]
  cases c.equations[i]? <;> rfl

theorem getElem?_equations (c : Catalog) (id : Nat) :
    c.equations[id]? = c.entries[id]?.map (·.equation) := List.getElem?_map

theorem equations_of_entry {c : Catalog} {id : Nat} {entry : Entry}
    (h : c.entries[id]? = some entry) : c.equations[id]? = some entry.equation := by
  rw [getElem?_equations, h]
  rfl

theorem entries_resolve (c : Catalog) (id : Nat) :
    c.resolve.entries[id]? = c.entries[id]?.bind fun entry =>
      c.resolve.equations[id]?.map fun e => { entry with equation := e } := by
  rw [equations_resolve]
  simp only [resolve, withEquations, List.getElem?_zipWith]
  cases c.entries[id]? with
  | none => rfl
  | some entry => cases (profiled (c.equations.map (·.link c.find?)) c.limits.callDepth)[id]? <;> rfl

theorem resolve_entry {c : Catalog} {id : Nat} {entry : Entry} (h : c.entries[id]? = some entry) :
    ∃ e, c.resolve.equations[id]? = some e ∧
      c.resolve.entries[id]? = some { entry with equation := e } := by
  obtain ⟨e, he⟩ : ∃ e, c.resolve.equations[id]? = some e := by
    rw [equations_resolve, profiled_getElem?, List.getElem?_map, equations_of_entry h]
    exact ⟨_, rfl⟩
  refine ⟨e, he, ?_⟩
  rw [entries_resolve, h, he]
  rfl

theorem mem_resolve {c : Catalog} {e : Equation} (he : e ∈ c.resolve.equations) :
    ∃ d ∈ c.equations, ∃ judge profile,
      e = { d with formula := (d.formula.link c.find?).annotate judge profile } := by
  obtain ⟨id, hid⟩ := List.mem_iff_getElem?.1 he
  rw [equations_resolve, profiled_getElem?, List.getElem?_map] at hid
  obtain ⟨linked, hlinked, rfl⟩ := Option.map_eq_some_iff.1 hid
  obtain ⟨d, hd, rfl⟩ := Option.map_eq_some_iff.1 hlinked
  exact ⟨d, List.mem_of_getElem? hd, _, _, rfl⟩

theorem calls_resolve (c : Catalog) {e : Equation} (he : e ∈ c.resolve.equations) :
    e.formula.Calls fun name target => target = c.find? name := by
  obtain ⟨d, -, judge, profile, rfl⟩ := mem_resolve he
  rw [Formula.calls_annotate]
  exact Formula.calls_link.2 fun _ _ _ _ _ _ => rfl

end Formulary.Catalog
