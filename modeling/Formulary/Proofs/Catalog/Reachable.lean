import Formulary.Catalog.Load

/-!
# Reachable catalogs

A catalog starts with the built-in equations and changes by actions. It is settled
when the last thing that happened to it was that it was resolved. A load adds its
lines one by one and then resolves, so three cases are enough for an induction.
-/
namespace Formulary.Catalog

inductive Action where
  | add (line : String)
  | resolve
  | clear
  | load (file : String) (lines : List String)

/-- A line that is refused changes nothing. -/
def act (c : Catalog) : Action → Catalog
  | .add line =>
    match c.add line with
    | .ok (_, c') => c'
    | .error _ => c
  | .resolve => c.resolve
  | .clear => c.clear
  | .load file lines => (c.load file lines).1

def storeAll (c : Catalog) (stored : List (Equation × String)) : Catalog :=
  stored.foldl (fun c b => c.store b.1 b.2) c

theorem storeAll_induction {P : Catalog → Prop} {stored : List (Equation × String)}
    (hstore : ∀ c, ∀ b ∈ stored, P c → P (c.store b.1 b.2)) {c : Catalog} (h : P c) :
    P (c.storeAll stored) :=
  List.foldlRecOn stored _ h fun c hc b hb => hstore c b hb hc

theorem entries_storeAll (c : Catalog) (stored : List (Equation × String)) :
    (c.storeAll stored).entries = c.entries ++ stored.map fun b => ⟨b.1, b.2⟩ := by
  induction stored generalizing c with
  | nil => exact (List.append_nil _).symm
  | cons b rest ih =>
    refine (ih (c.store b.1 b.2)).trans ?_
    rw [store, List.append_assoc, List.singleton_append, List.map_cons]

theorem limits_storeAll (c : Catalog) (stored : List (Equation × String)) :
    (c.storeAll stored).limits = c.limits :=
  storeAll_induction (P := fun c' => c'.limits = c.limits) (fun _ _ _ h => h) rfl

theorem storeBuiltins_induction {P : Catalog → Prop}
    (hstore : ∀ c, ∀ b ∈ Builtin.equations, P c → P (c.store b.1 b.2))
    (hcount : ∀ c n, P c → P { c with builtins := n }) {c : Catalog} (h : P c) :
    P c.storeBuiltins := by
  apply hcount
  exact storeAll_induction hstore h

theorem storeAll_builtins (c : Catalog) (n : Nat) (stored : List (Equation × String)) :
    storeAll { c with builtins := n } stored = { c.storeAll stored with builtins := n } := by
  induction stored generalizing c with
  | nil => rfl
  | cons b rest ih => exact ih (c.store b.1 b.2)

theorem storeBuiltins_count (c : Catalog) (n : Nat) :
    storeBuiltins { c with builtins := n } = c.storeBuiltins := by
  have hstored := storeAll_builtins c n Builtin.equations
  unfold storeAll at hstored
  rw [storeBuiltins, hstored]
  rfl

/-- A cleared catalog is a fresh one: what was counted before is counted anew. -/
theorem clear_eq (c : Catalog) : c.clear = new c.limits :=
  congrArg resolve (storeBuiltins_count { limits := c.limits } c.builtins)

inductive Reachable : Catalog → Prop
  | new (limits : Limits) : Reachable (new limits)
  | act {c : Catalog} (a : Action) : Reachable c → Reachable (c.act a)

inductive Settled : Catalog → Prop
  | new (limits : Limits) : Settled (new limits)
  | resolve {c : Catalog} : Reachable c → Settled c.resolve
  | clear {c : Catalog} : Reachable c → Settled c.clear
  | load {c : Catalog} (file : String) (lines : List String) : Reachable c →
      Settled (c.load file lines).1

theorem loadWith_eq_ok {c c' : Catalog} {path : String} {fetched : Except String String}
    {report : LoadReport} (h : c.loadWith (m := Id) path (fun _ => fetched) = .ok (c', report)) :
    ∃ text, fetched = .ok text ∧ c.loadText path text = (c', report) := by
  cases fetched with
  | ok text => exact ⟨text, rfl, Except.ok.inj h⟩
  | error reason =>
    have herror : Except.error (Refusal.unreadable path reason) = Except.ok (c', report) := h
    exact nomatch herror

theorem Settled.loadWith {c c' : Catalog} (h : Reachable c) {path : String}
    {fetched : Except String String} {report : LoadReport}
    (hl : c.loadWith (m := Id) path (fun _ => fetched) = .ok (c', report)) : Settled c' := by
  obtain ⟨text, -, hc⟩ := loadWith_eq_ok hl
  have hsettled : Settled (c.loadText path text).1 := .load path _ h
  rw [hc] at hsettled
  exact hsettled

section
variable {P : Catalog → Prop} (hadd : ∀ c line id c', P c → c.add line = .ok (id, c') → P c')

include hadd

theorem take_induction {file text : String} {line : Nat} {b : Batch} (h : P b.catalog) :
    P (b.take file text line).catalog := by
  rw [Batch.take]
  split
  · exact h
  · cases ha : b.catalog.add text with
    | ok stored => exact hadd _ _ _ _ h ha
    | error refusal => exact h

theorem takeAll_induction {file : String} {lines : List String} {b : Batch} (h : P b.catalog) :
    P (b.takeAll file lines).catalog := by
  rw [Batch.takeAll]
  generalize lines.zipIdx 1 = numbered
  induction numbered generalizing b with
  | nil => exact h
  | cons l rest ih => exact ih (take_induction hadd h)

theorem add_induction {c : Catalog} {line : String} (h : P c) : P (c.act (.add line)) := by
  cases ha : c.add line with
  | ok stored => simpa only [act, ha] using hadd _ _ _ _ h ha
  | error refusal => simpa only [act, ha] using h

theorem Reachable.induction (hnew : ∀ limits, P (Catalog.new limits))
    (hresolve : ∀ c, P c → P c.resolve) {c : Catalog} (h : Reachable c) : P c := by
  induction h with
  | new limits => exact hnew limits
  | @act c a _ ih =>
    cases a with
    | add line => exact add_induction hadd ih
    | resolve => exact hresolve c ih
    | clear =>
      rw [Catalog.act, clear_eq]
      exact hnew c.limits
    | load file lines => exact hresolve _ (takeAll_induction hadd ih)

end

theorem add_eq_ok {c c' : Catalog} {line : String} {id : Nat} :
    c.add line = .ok (id, c') ↔ c.size < c.limits.equations ∧
      ∃ e, Equation.ofLine c.limits.nodes line = .ok e ∧ id = c.size ∧ c' = c.store e line := by
  rw [add]
  split
  · simp; omega
  · cases he : Equation.ofLine c.limits.nodes line with
    | ok e =>
      constructor
      · intro h
        obtain ⟨rfl, rfl⟩ := Prod.mk.inj (Except.ok.inj h)
        exact ⟨by omega, e, rfl, rfl, rfl⟩
      · rintro ⟨-, e', he', rfl, rfl⟩
        rw [Except.ok.inj he']
    | error d => simp

theorem act_add {c : Catalog} {line : String} {e : Equation}
    (hroom : c.size < c.limits.equations) (he : Equation.ofLine c.limits.nodes line = .ok e) :
    c.act (.add line) = c.store e line := by
  have hadd : c.add line = .ok (c.size, c.store e line) :=
    add_eq_ok.2 ⟨hroom, e, he, rfl, rfl⟩
  simp only [act, hadd]

theorem equations_store (c : Catalog) (e : Equation) (source : String) :
    (c.store e source).equations = c.equations ++ [e] := by
  simp [store, equations]

theorem equations_withEquations {c : Catalog} {es : List Equation}
    (h : es.length = c.size) : (c.withEquations es).equations = es := by
  have hz : List.zipWith (fun _ e => e) c.entries es = es := by
    refine List.ext_getElem (by simp [h, size]) fun i _ _ => ?_
    rw [List.getElem_zipWith]
  simpa only [withEquations, equations, List.map_zipWith] using hz

end Formulary.Catalog
