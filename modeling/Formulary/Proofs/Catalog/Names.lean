import Formulary.Proofs.Catalog.Resolve

/-!
# The names of a catalog

A name that is in the map stays where it is, and a name that is not gets the place of the
equation that is stored. So the map says for each name, the empty one apart, which
equation is the first to bear it.
-/
namespace Formulary.Catalog

theorem find?_store {c : Catalog} {e : Equation} {source name : String} :
    (c.store e source).find? name =
      (c.find? name).or (if name ≠ "" ∧ e.name = name then some c.size else none) := by
  simp only [store, find?]
  by_cases hempty : e.name = ""
  · have hnone : ¬ (name ≠ "" ∧ e.name = name) := by
      rw [hempty]
      exact fun h => h.1 h.2.symm
    rw [if_pos hempty, if_neg hnone, Option.or_none]
  · rw [if_neg hempty, Std.TreeMap.getElem?_insertIfNew]
    by_cases hname : e.name = name
    · subst hname
      simp only [Std.TreeMap.mem_iff_isSome_getElem?]
      cases c.names[e.name]? <;> simp [hempty]
    · simp [hname]

def Named (c : Catalog) : Prop :=
  ∀ name, c.find? name = if name = "" then none else (c.equations.map (·.name)).idxOf? name

theorem named_empty (limits : Limits) : Named { limits } := by
  intro name
  have hnone : find? { limits } name = none := Std.TreeMap.getElem?_emptyc
  rw [hnone]
  split <;> rfl

theorem Named.store {c : Catalog} (h : c.Named) (e : Equation) (source : String) :
    (c.store e source).Named := by
  intro name
  rw [find?_store, h name, equations_store]
  by_cases hempty : name = ""
  · simp [hempty]
  · have hsize : c.size = (c.equations.map (·.name)).length := by simp [size, equations]
    simp only [hempty, List.map_append, List.idxOf?, List.findIdx?_append, hsize]
    simp [hempty, List.findIdx?_singleton]

theorem Named.resolve {c : Catalog} (h : c.Named) : c.resolve.Named := by
  intro name
  rw [find?_resolve, names_resolve]
  exact h name

theorem Named.storeAll {c : Catalog} (h : c.Named) (stored : List (Equation × String)) :
    (c.storeAll stored).Named :=
  storeAll_induction (fun _ b _ hc => hc.store b.1 b.2) h

theorem named_new (limits : Limits) : (new limits).Named :=
  Named.resolve (storeBuiltins_induction (fun _ b _ hc => hc.store b.1 b.2) (fun _ _ hc => hc)
    (named_empty limits))

theorem names_new (limits : Limits) : (new limits).equations.map (·.name) = Builtin.names := by
  have hentries : (storeBuiltins { limits }).entries =
      (storeAll { limits } Builtin.equations).entries := rfl
  rw [new, install, names_resolve, equations, hentries, entries_storeAll]
  simp [Builtin.names]

theorem size_new (limits : Limits) : (new limits).size = Builtin.count := by
  have hlength := congrArg List.length (names_new limits)
  simpa [equations, size, Builtin.names, Builtin.count] using hlength

theorem builtins_new (limits : Limits) : (new limits).builtins = Builtin.count := by
  change (storeAll { limits } Builtin.equations).size = Builtin.count
  rw [size, entries_storeAll]
  simp [Builtin.count]

theorem limits_new (limits : Limits) : (new limits).limits = limits :=
  limits_storeAll { limits } Builtin.equations

theorem Reachable.named {c : Catalog} (h : Reachable c) : c.Named := by
  apply h.induction
  · intro c line id c' hc ha
    obtain ⟨-, e, -, -, rfl⟩ := add_eq_ok.1 ha
    exact hc.store e line
  · exact named_new
  · exact fun c hc => hc.resolve

theorem Named.bind_getElem? {c : Catalog} (h : c.Named) (name : String) :
    (c.find? name).bind (c.equations[·]?) =
      if name = "" then none else c.equations.find? (·.name = name) := by
  rw [h name]
  split
  · rfl
  · rw [List.find?_eq_bind_findIdx?_getElem?, List.idxOf?, List.findIdx?_map]
    congr 1

theorem Named.find?_eq_none {c : Catalog} (h : c.Named) {name : String} :
    c.find? name = none ↔ name = "" ∨ ∀ e ∈ c.equations, e.name ≠ name := by
  rw [h name]
  split
  · simp [*]
  · simp [*]

theorem mem_unresolved {c : Catalog} {name : String} :
    name ∈ c.unresolved ↔
      c.find? name = none ∧ ∃ e ∈ c.equations, name ∈ e.formula.calledNames := by
  simp only [unresolved, List.mem_eraseDups, List.mem_flatMap, Equation.unknownNames,
    List.mem_filter, Option.isNone_iff_eq_none]
  constructor
  · rintro ⟨e, he, hcalled, hnone⟩
    exact ⟨hnone, e, he, hcalled⟩
  · rintro ⟨hnone, e, he, hcalled⟩
    exact ⟨e, he, hcalled, hnone⟩

end Formulary.Catalog
