import Formulary.Proofs.Catalog.Names
import Formulary.Proofs.Reprofiling
import Mathlib

/-!
# Valid equations stay as they are

A catalog grows when lines are added or loaded and when it is resolved; only clearing it
takes equations away. Names keep their places, so the calls of a valid equation keep
their targets, and the equations that it leads to are valid as well. Nothing that is
stored later changes what they are or what they evaluate to.
-/
namespace Formulary.Catalog

inductive Growth where
  | add (line : String)
  | resolve
  | load (file : String) (lines : List String)
  | loadText (name text : String)
  | loadWith (path : String) (fetched : Except String String)

def grow (c : Catalog) : Growth → Catalog
  | .add line => c.act (.add line)
  | .resolve => c.resolve
  | .load file lines => (c.load file lines).1
  | .loadText name text => (c.loadText name text).1
  | .loadWith path fetched =>
    match c.loadWith (m := Id) path fun _ => fetched with
    | .ok loaded => loaded.1
    | .error _ => c

theorem grow_induction {P : Catalog → Prop}
    (hadd : ∀ c line id c', P c → c.add line = .ok (id, c') → P c')
    (hresolve : ∀ c, P c → P c.resolve) {c : Catalog} (g : Growth) (h : P c) : P (c.grow g) := by
  have hload : ∀ file lines, P (c.load file lines).1 :=
    fun file lines => hresolve _ (takeAll_induction hadd h)
  cases g with
  | add line => exact add_induction hadd h
  | resolve => exact hresolve c h
  | load file lines => exact hload file lines
  | loadText name text => exact hload name (Source.lines text)
  | loadWith path fetched =>
    cases fetched with
    | ok text => exact hload path (Source.lines text)
    | error reason => exact h

section
variable {c c' : Catalog}

theorem Settled.calls (h : Settled c) {e : Equation} (he : e ∈ c.equations) :
    e.formula.Calls fun name target => target = c.find? name := by
  obtain ⟨b, -, rfl⟩ := h.eq_resolve
  exact calls_resolve b he

theorem Settled.profiled (h : Settled c) :
    profiled c.equations c.limits.callDepth = c.equations := by
  obtain ⟨b, -, rfl⟩ := h.eq_resolve
  rw [equations_resolve]
  exact profiled_profiled

def ValidAt (c : Catalog) (id : Nat) : Prop :=
  ∃ entry, c.entries[id]? = some entry ∧ entry.equation.formula.profile.valid = true

theorem validAt_iff {id : Nat} :
    c.ValidAt id ↔ ∃ e, c.equations[id]? = some e ∧ e.formula.profile.valid = true := by
  simp only [getElem?_equations, Option.map_eq_some_iff, ValidAt]
  constructor
  · rintro ⟨entry, he, hv⟩
    exact ⟨_, ⟨entry, he, rfl⟩, hv⟩
  · rintro ⟨_, ⟨entry, he, rfl⟩, hv⟩
    exact ⟨entry, he, hv⟩

theorem Settled.validAt_target (h : Settled c) {id t : Nat} {e : Equation} (hid : c.ValidAt id)
    (he : c.equations[id]? = some e) (ht : t ∈ e.formula.targets) : c.ValidAt t := by
  obtain ⟨d, hd, hv⟩ := validAt_iff.1 hid
  obtain rfl := Option.some.inj (hd.symm.trans he)
  rw [← h.profiled] at he
  obtain ⟨d, hd, hdv⟩ := valid_of_mem_targets h.sound he hv ht
  rw [h.profiled] at hd
  exact validAt_iff.2 ⟨d, hd, hdv⟩

theorem Settled.link_of_valid (h : Settled c) {lookup : String → Option Nat}
    (hlookup : ∀ name id, c.find? name = some id → lookup name = some id) {id : Nat} {e : Equation}
    (he : c.equations[id]? = some e) (hv : e.formula.profile.valid = true) : e.link lookup = e := by
  have hcalls := h.calls (List.mem_of_getElem? he)
  rw [← h.profiled] at he
  have hbound := (Formula.allReached_iff.1 (profiled_runnable h.sound he hv).bound).1
  have hlink : e.formula.link lookup = e.formula := by
    apply Formula.link_eq_self
    intro g hg name args target hc
    obtain ⟨t, -, rfl, -, -⟩ := hbound g hg name args target hc
    exact hlookup name t (hcalls g hg name args _ hc).symm
  rw [Equation.link, hlink]

/-- What is valid in `c` is the same in `c'`, and so are the places of its names. -/
structure Keeps (c c' : Catalog) : Prop where
  limits : c'.limits = c.limits
  names : ∀ name id, c.find? name = some id → c'.find? name = some id
  entries : ∀ (id : Nat) (entry : Entry), c.entries[id]? = some entry →
    entry.equation.formula.profile.valid = true → c'.entries[id]? = some entry
  sound : c'.Sound

theorem Keeps.refl (h : c.Sound) : Keeps c c :=
  ⟨rfl, fun _ _ hid => hid, fun _ _ he _ => he, h⟩

theorem Keeps.add (h : Keeps c c') {c'' : Catalog} {line : String} {id : Nat}
    (ha : c'.add line = .ok (id, c'')) : Keeps c c'' := by
  have hsound := h.sound.add ha
  obtain ⟨-, e, -, -, rfl⟩ := add_eq_ok.1 ha
  refine ⟨h.limits, fun name id hid => ?_, fun id entry he hv => ?_, hsound⟩
  · rw [find?_store, h.names name id hid]
    rfl
  · have hkept := h.entries id entry he hv
    have hlt := (List.getElem?_eq_some_iff.1 hkept).1
    exact (List.getElem?_append_left hlt).trans hkept

theorem Keeps.same (h : Keeps c c') {id : Nat} (hid : c.ValidAt id) :
    c'.equations[id]? = c.equations[id]? := by
  obtain ⟨entry, he, hv⟩ := hid
  rw [equations_of_entry he, equations_of_entry (h.entries id entry he hv)]

theorem Keeps.agreeOn (hc : Settled c) (h : Keeps c c') :
    AgreeOn c.ValidAt c.equations c'.equations :=
  ⟨fun _ hid => h.same hid, fun _ _ hid he _ ht => hc.validAt_target hid he ht⟩

theorem Keeps.agreeOn_linked (hc : Settled c) (h : Keeps c c') :
    AgreeOn c.ValidAt c.equations (c'.equations.map (·.link c'.find?)) := by
  refine ⟨fun id hid => ?_, fun _ _ hid he _ ht => hc.validAt_target hid he ht⟩
  rw [List.getElem?_map, h.same hid]
  obtain ⟨e, he, hv⟩ := validAt_iff.1 hid
  rw [he, Option.map_some, hc.link_of_valid h.names he hv]

theorem Keeps.resolve (hc : Settled c) (h : Keeps c c') : Keeps c c'.resolve := by
  refine ⟨h.limits, h.names, fun id entry he hv => ?_, h.sound.resolve⟩
  have hvalid : ∀ id e, c.ValidAt id →
      (Formulary.profiled c.equations c.limits.callDepth)[id]? = some e →
        e.formula.profile.valid = true := by
    intro id e hid he
    obtain ⟨d, hd, hv⟩ := validAt_iff.1 hid
    rw [hc.profiled, hd] at he
    exact Option.some.inj he ▸ hv
  have hsame := profiled_agree hc.sound h.sound.linked (h.agreeOn_linked hc) hvalid ⟨entry, he, hv⟩
  rw [hc.profiled, equations_of_entry he] at hsame
  rw [entries_resolve, h.entries id entry he hv, equations_resolve, h.limits, hsame]
  rfl

theorem keeps_grow (hc : Settled c) (later : List Growth) : Keeps c (later.foldl grow c) := by
  have hstep : ∀ c' g, Keeps c c' → Keeps c (c'.grow g) := fun c' g h =>
    grow_induction (fun _ _ _ _ h ha => h.add ha) (fun _ h => h.resolve hc) g h
  have hrun : ∀ c', Keeps c c' → Keeps c (later.foldl grow c') := by
    induction later with
    | nil => exact fun c' h => h
    | cons g rest ih => exact fun c' h => ih _ (hstep c' g h)
  exact hrun c (.refl hc.sound)

theorem valid_undisturbed (hc : Settled c) {id : Nat} {entry : Entry}
    (he : c.entries[id]? = some entry) (hv : entry.equation.formula.profile.valid = true)
    (later : List Growth) :
    (later.foldl grow c).entries[id]? = some entry ∧
    ∀ coordinates arguments, (later.foldl grow c).evaluate entry.equation coordinates arguments =
      c.evaluate entry.equation coordinates arguments := by
  have hkeeps := keeps_grow hc later
  refine ⟨hkeeps.entries id entry he hv, fun coordinates arguments => ?_⟩
  rw [evaluate, evaluate, hkeeps.limits]
  apply (hkeeps.agreeOn hc).evaluate
  intro t ht
  exact hc.validAt_target ⟨entry, he, hv⟩ (equations_of_entry he) ht

end

def shiftedSine : Equation :=
  ⟨"f", ["a"], .ofNodes
    [.call "sin" [.ofNodes [.argument 0]] none, .coordinate 0, .operator (.binary .add)]⟩

theorem valid_undisturbed_shiftedSine :
    let c := ((new {}).act (.add "f(a) = sin(a) + x")).resolve
    let later : List Growth := [.add "f(a) = 1", .load "more" ["sin(v) = f(", "g = f(1)"],
      .loadWith "gone" (.error "no such file"), .resolve]
    Settled c ∧ ∃ entry, c.entries[7]? = some entry ∧ entry.equation.name = "f" ∧
      entry.equation.formula.profile.valid = true ∧
      (later.foldl grow c).entries[7]? = some entry ∧
      ∀ coordinates arguments,
        (later.foldl grow c).evaluate entry.equation coordinates arguments =
          c.evaluate entry.equation coordinates arguments := by
  intro c later
  have hline : Equation.ofLine 100 "f(a) = sin(a) + x" = .ok shiftedSine := by cbv
  have hc : c = ((new {}).store shiftedSine "f(a) = sin(a) + x").resolve := by
    have hadd := act_add (c := new {}) (by decide) hline
    rw [← hadd]
  have hsettled : Settled c := .resolve (.act _ (.new {}))
  obtain ⟨entry, he, hname, hv⟩ : ∃ entry, c.entries[7]? = some entry ∧
      entry.equation.name = "f" ∧ entry.equation.formula.profile.valid = true := by
    rw [hc]
    exact ⟨_, rfl, rfl, rfl⟩
  exact ⟨hsettled, entry, he, hname, hv, valid_undisturbed hsettled he hv later⟩

end Formulary.Catalog
