import Formulary.Proofs.Catalog.Growth

/-!
# Built-in equations and room

The built-in equations need no room, call nothing and read no coordinate, so they are valid
under any limits, and nothing that happens to a catalog disturbs them. Lines are added only
while there is room, so a catalog outgrows its limit by the built-in equations at most.
-/
namespace Formulary

def Node.Plain : Node → Prop
  | .coordinate _ | .call _ _ _ => False
  | _ => True

theorem Formula.runnable_of_plain {table : List Equation} {left : Nat} {f : Formula}
    (h : ∀ n ∈ f.nodes, n.Plain) : f.Runnable table 0 left := by
  rw [runnable_iff]
  constructor
  · rw [all_iff]
    exact ⟨fun i hi => (h _ hi).elim, fun name args target hc => (h _ hc).elim⟩
  · rw [all_iff]
    exact ⟨fun name args target hc => (h _ hc).elim, fun name args target hc => (h _ hc).elim⟩

theorem Builtin.plain {b : Equation × String} (hb : b ∈ equations) :
    ∀ n ∈ b.1.formula.nodes, n.Plain := by
  rcases List.mem_append.1 hb with hb | hb
  · obtain ⟨f, -, rfl⟩ := List.mem_map.1 hb
    simp [function, Node.Plain]
  · obtain ⟨c, -, rfl⟩ := List.mem_map.1 hb
    simp [constant, Node.Plain]

theorem Builtin.names_distinct : ∀ i (h : i < names.length),
    names[i] ≠ "" ∧ names.idxOf? names[i] = some i := by decide

namespace Catalog

theorem plain_resolve {c : Catalog} (h : ∀ e ∈ c.equations, ∀ n ∈ e.formula.nodes, n.Plain) :
    ∀ e ∈ c.resolve.equations, ∀ n ∈ e.formula.nodes, n.Plain := by
  intro e he n hn
  obtain ⟨d, hd, judge, profile, rfl⟩ := mem_resolve he
  rw [Formula.annotate_nodes, Formula.link_nodes, List.map_map] at hn
  obtain ⟨m, hm, rfl⟩ := List.mem_map.1 hn
  have hplain := h d hd m hm
  cases m with
  | coordinate => exact hplain
  | call => exact hplain
  | _ => trivial

theorem plain_new (limits : Limits) :
    ∀ e ∈ (new limits).equations, ∀ n ∈ e.formula.nodes, n.Plain := by
  apply plain_resolve
  refine storeBuiltins_induction (P := fun c => ∀ e ∈ c.equations, ∀ n ∈ e.formula.nodes, n.Plain)
    (fun c b hb h => ?_) (fun _ _ h => h) fun e he => absurd he List.not_mem_nil
  rw [equations_store]
  exact List.forall_mem_append.2 ⟨h, List.forall_mem_singleton.2 (Builtin.plain hb)⟩

theorem valid_new {limits : Limits} {entry : Entry} (h : entry ∈ (new limits).entries) :
    entry.equation.formula.profile.valid = true := by
  obtain ⟨id, hid⟩ := List.mem_iff_getElem?.1 h
  have he := equations_of_entry hid
  have hsettled : Settled (new limits) := .new limits
  have hplain := plain_new limits _ (List.mem_of_getElem? he)
  rw [← hsettled.profiled] at he
  exact valid_of_runnable hsettled.sound he (Formula.runnable_of_plain hplain)

theorem find?_new {limits : Limits} {i : Nat} {name : String}
    (h : Builtin.names[i]? = some name) : (new limits).find? name = some i := by
  have hnamed := named_new limits name
  obtain ⟨hi, rfl⟩ := List.getElem?_eq_some_iff.1 h
  obtain ⟨hne, hfirst⟩ := Builtin.names_distinct i hi
  rw [hnamed, names_new, if_neg hne, hfirst]

theorem size_resolve (c : Catalog) : c.resolve.size = c.size := by
  have hlength := congrArg List.length (names_resolve c)
  simpa [equations, size] using hlength

theorem builtins_add {c c' : Catalog} {line : String} {id : Nat}
    (ha : c.add line = .ok (id, c')) : c'.builtins = c.builtins := by
  obtain ⟨-, e, -, -, rfl⟩ := add_eq_ok.1 ha
  rfl

/-- What a catalog keeps of a fresh one with these limits. -/
structure Kept (limits : Limits) (c : Catalog) : Prop where
  keeps : Keeps (new limits) c
  size : c.size ≤ max limits.equations Builtin.count
  builtins : c.builtins = Builtin.count

namespace Kept

variable {limits : Limits} {c : Catalog}

theorem fresh (limits : Limits) : Kept limits (new limits) := by
  have hsettled : Settled (new limits) := .new limits
  refine ⟨.refl hsettled.sound, ?_, builtins_new limits⟩
  rw [size_new]
  exact le_max_right _ _

theorem limits_eq (h : Kept limits c) : c.limits = limits :=
  h.keeps.limits.trans (limits_new limits)

theorem add (h : Kept limits c) {c' : Catalog} {line : String} {id : Nat}
    (ha : c.add line = .ok (id, c')) : Kept limits c' := by
  refine ⟨h.keeps.add ha, ?_, (builtins_add ha).trans h.builtins⟩
  obtain ⟨hroom, e, -, -, rfl⟩ := add_eq_ok.1 ha
  have hsize : (c.store e line).size = c.size + 1 := by simp [Catalog.size, store]
  rw [h.limits_eq] at hroom
  rw [hsize]
  exact le_max_of_le_left hroom

theorem resolve (h : Kept limits c) : Kept limits c.resolve := by
  refine ⟨h.keeps.resolve (.new limits), ?_, h.builtins⟩
  rw [size_resolve]
  exact h.size

theorem act (h : Kept limits c) (a : Action) : Kept limits (c.act a) := by
  have hadd : ∀ c line id c', Kept limits c → c.add line = .ok (id, c') → Kept limits c' :=
    fun _ _ _ _ h ha => h.add ha
  cases a with
  | add line => exact add_induction hadd h
  | resolve => exact h.resolve
  | clear =>
    rw [Catalog.act, clear_eq, h.limits_eq]
    exact fresh limits
  | load file lines => exact resolve (takeAll_induction hadd h)

theorem run (limits : Limits) (actions : List Action) :
    Kept limits (actions.foldl Catalog.act (new limits)) :=
  List.foldlRecOn actions Catalog.act (fresh limits) fun _ h a _ => h.act a

theorem entries (h : Kept limits c) : c.entries.take Builtin.count = (new limits).entries := by
  have hlength : (new limits).entries.length = Builtin.count := size_new limits
  refine List.ext_getElem? fun i => ?_
  rw [List.getElem?_take]
  split
  · rename_i hi
    obtain ⟨entry, hentry⟩ : ∃ entry, (new limits).entries[i]? = some entry :=
      ⟨_, List.getElem?_eq_getElem (by omega)⟩
    rw [hentry]
    exact h.keeps.entries i entry hentry (valid_new (List.mem_of_getElem? hentry))
  · exact (List.getElem?_eq_none (by omega)).symm

end Kept

theorem add_eq_full {c : Catalog} {line : String} {limit : Nat} :
    c.add line = .error (.full limit) ↔
      limit = c.limits.equations ∧ c.limits.equations ≤ c.size := by
  rw [add]
  split
  · rename_i hfull
    simp [hfull, eq_comm]
  · rename_i hroom
    cases Equation.ofLine c.limits.nodes line with
    | ok e => simp [hroom]
    | error d => simp [hroom]

theorem act_of_refused {c : Catalog} {line : String} {refusal : Refusal}
    (h : c.add line = .error refusal) : c.act (.add line) = c := by
  simp only [act, h]

/-- Whatever is done to a catalog, the built-in equations stay as they are in a fresh one, the
limit of equations holds beside them, and what is refused changes nothing. -/
theorem builtins_kept (limits : Limits) (actions : List Action) :
    let c := actions.foldl act (new limits)
    c.limits = limits ∧ c.clear = new limits ∧
      (Builtin.count = 7 ∧ c.builtins = 7 ∧ (new limits).size = 7 ∧
        c.entries.take 7 = (new limits).entries ∧
        ∀ i name, Builtin.names[i]? = some name → c.find? name = some i) ∧
      c.size ≤ max limits.equations 7 ∧
      ∀ line,
        (∀ limit, c.add line = .error (.full limit) ↔
          limit = limits.equations ∧ limits.equations ≤ c.size) ∧
        ∀ refusal, c.add line = .error refusal → c.act (.add line) = c := by
  intro c
  have hkept : Kept limits c := Kept.run limits actions
  have hlimits := hkept.limits_eq
  refine ⟨hlimits, ?_, ⟨Builtin.count_eq, hkept.builtins, size_new limits, hkept.entries,
    fun i name hname => ?_⟩, hkept.size, fun line => ⟨fun limit => ?_, fun refusal => act_of_refused⟩⟩
  · rw [clear_eq, hlimits]
  · exact hkept.keeps.names name i (find?_new hname)
  · rw [add_eq_full, hlimits]

end Catalog

end Formulary
