import Formulary.Proofs.Catalog.Names
import Formulary.Proofs.Formula.Stripped

/-!
# What a catalog is before it is resolved

What resolving sets depends on the stripped equations only, and a line is added to a catalog by
its limits, its size and its names alone. So a catalog that was resolved in between goes on
like one that was not.
-/
namespace Formulary.Catalog

def Entry.stripped (entry : Entry) : Entry := { entry with equation := entry.equation.stripped }

def stripped (c : Catalog) : Catalog := { c with entries := c.entries.map Entry.stripped }

section
variable {c d : Catalog}

theorem equations_stripped : c.stripped.equations = c.equations.map Equation.stripped := by
  simp only [equations, stripped, List.map_map]
  rfl

theorem size_stripped : c.stripped.size = c.size := List.length_map _

theorem find?_stripped : c.stripped.find? = c.find? := rfl

theorem limits_of_stripped (h : d.stripped = c.stripped) : d.limits = c.limits := by
  have hlimits : d.stripped.limits = c.stripped.limits := by rw [h]
  exact hlimits

theorem size_of_stripped (h : d.stripped = c.stripped) : d.size = c.size := by
  rw [← size_stripped, h, size_stripped]

theorem stripped_store {e : Equation} {source : String} :
    (c.store e source).stripped = c.stripped.store e.stripped source := by
  have hname : e.stripped.name = e.name := rfl
  simp only [stripped, store, List.map_append, List.map_singleton, size, List.length_map, hname]
  rfl

theorem resolve_stripped : c.stripped.resolve = c.resolve := by
  have hequations :
      profiled (c.stripped.equations.map (·.link c.stripped.find?)) c.stripped.limits.callDepth =
        profiled (c.equations.map (·.link c.find?)) c.limits.callDepth := by
    rw [equations_stripped]
    exact profiled_link_stripped
  have hentries (es : List Equation) : c.stripped.withEquations es = c.withEquations es := by
    simp only [withEquations, stripped, List.zipWith_map_left]
    rfl
  rw [resolve, hequations, hentries, resolve]

theorem stripped_resolve : c.resolve.stripped = c.stripped := by
  have hentries : c.resolve.entries.map Entry.stripped = c.entries.map Entry.stripped := by
    apply List.ext_getElem?
    intro id
    rw [List.getElem?_map, List.getElem?_map, entries_resolve, equations_resolve, profiled_getElem?,
      List.getElem?_map, getElem?_equations]
    cases c.entries[id]? with
    | none => rfl
    | some entry =>
      simp only [Option.bind_some, Option.map_some, Entry.stripped, Equation.stripped,
        Equation.link, Formula.stripped_annotate, Formula.stripped_link]
  rw [stripped, hentries]
  rfl

theorem resolve_of_stripped (h : d.stripped = c.stripped) : d.resolve = c.resolve := by
  rw [← resolve_stripped, h, resolve_stripped]

theorem unresolved_stripped : c.stripped.unresolved = c.unresolved := by
  rw [unresolved, unresolved, equations_stripped, find?_stripped, List.flatMap_map]
  congr 1
  refine List.flatMap_congr fun e _ => ?_
  rw [Equation.unknownNames, Equation.unknownNames, Equation.stripped, Formula.calledNames_stripped]

theorem unresolved_of_stripped (h : d.stripped = c.stripped) : d.unresolved = c.unresolved := by
  rw [← unresolved_stripped, h, unresolved_stripped]

theorem add_of_stripped (h : d.stripped = c.stripped) (line : String) :
    (∃ refusal, c.add line = .error refusal ∧ d.add line = .error refusal) ∨
      ∃ id c' d', c.add line = .ok (id, c') ∧ d.add line = .ok (id, d') ∧
        d'.stripped = c'.stripped := by
  rw [add, add, limits_of_stripped h, size_of_stripped h]
  split
  · exact .inl ⟨_, rfl, rfl⟩
  · cases Equation.ofLine c.limits.nodes line with
    | error diagnostic => exact .inl ⟨_, rfl, rfl⟩
    | ok e =>
      refine .inr ⟨_, _, _, rfl, rfl, ?_⟩
      rw [stripped_store, stripped_store, h]

end

end Formulary.Catalog
