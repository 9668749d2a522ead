import Formulary.Proofs.Catalog.Sound
import Formulary.Proofs.Profiles
import Mathlib

/-!
# The profiles of a settled catalog

When a catalog is settled, the profile of an equation is a contract for its callers: it
has a value on exactly the inputs that are long enough. It is valid when all calls that
it reaches are bound and none of them stands too deep.
-/
namespace Formulary.Catalog

theorem Sound.resolve_contract {b : Catalog} (hb : b.Sound) {e : Equation} {i : Nat}
    (he : b.resolve.equations[i]? = some e) :
    e.formula.profile.arity.implicit ≤ 3 ∧ e.formula.profile.arity.explicit ≤ e.params.length ∧
    ∀ coordinates arguments,
      (∃ x, b.resolve.evaluate e coordinates arguments = .ok x) ↔
        e.formula.profile.valid = true ∧
        e.formula.profile.arity.implicit ≤ coordinates.length ∧
        e.formula.profile.arity.explicit ≤ arguments.length := by
  have hlimits : b.resolve.limits = b.limits := rfl
  simp only [evaluate, equations_resolve, hlimits] at he ⊢
  exact profiled_contract hb.linked he

theorem evaluate_isOk_iff {c : Catalog} (h : Settled c) {e : Equation} (he : e ∈ c.equations)
    (coordinates arguments : List Float) :
    (∃ x, c.evaluate e coordinates arguments = .ok x) ↔
      e.formula.profile.valid = true ∧
      e.formula.profile.arity.implicit ≤ coordinates.length ∧
      e.formula.profile.arity.explicit ≤ arguments.length := by
  obtain ⟨b, hb, rfl⟩ := h.eq_resolve
  obtain ⟨i, hi⟩ := List.mem_iff_getElem?.1 he
  obtain ⟨-, -, hcontract⟩ := hb.resolve_contract hi
  exact hcontract coordinates arguments

def nestedSine : Equation :=
  ⟨"f", ["a"], .ofNodes [.call "sin" [.ofNodes [.call "cos" [.ofNodes [.argument 0]] none,
    .coordinate 0, .operator (.binary .add)]] none]⟩

theorem evaluate_isOk_iff_nestedSine :
    let c := ((new {}).act (.add "f(a) = sin(cos(a) + x)")).resolve
    Settled c ∧ ∃ e ∈ c.equations, e.name = "f" ∧
      (∃ x, c.evaluate e [7] [1] = .ok x) ∧ (¬ ∃ x, c.evaluate e [] [1] = .ok x) ∧
      ¬ ∃ x, c.evaluate e [7] [] = .ok x := by
  intro c
  have hline : Equation.ofLine 100 "f(a) = sin(cos(a) + x)" = .ok nestedSine := by cbv
  have hc : c = ((new {}).store nestedSine "f(a) = sin(cos(a) + x)").resolve := by
    have hadd := act_add (c := new {}) (by decide) hline
    rw [← hadd]
  have hsettled : Settled c := .resolve (.act _ (.new {}))
  have hfound : c.equations[7]?.map (fun e => (e.name, e.formula.profile)) =
      some ("f", ⟨⟨1, 1⟩, true⟩) := by
    rw [hc]
    decide +kernel
  obtain ⟨e, he, hsame⟩ := Option.map_eq_some_iff.1 hfound
  obtain ⟨hname, hprofile⟩ := Prod.mk.inj hsame
  have hmem := List.mem_of_getElem? he
  refine ⟨hsettled, e, hmem, hname, ?_⟩
  rw [evaluate_isOk_iff hsettled hmem, evaluate_isOk_iff hsettled hmem,
    evaluate_isOk_iff hsettled hmem, hprofile]
  decide

theorem valid_iff {c : Catalog} (h : Settled c) {i : Nat} {e : Equation}
    (he : c.equations[i]? = some e) :
    (e.formula.profile.valid = true ↔
      e.formula.AllReached c.equations (Formula.Bound c.equations) ∧
        e.formula.nesting c.equations ≤ c.limits.callDepth) ∧
    (Cyclic c.equations i → e.formula.profile.valid = false) := by
  have hmem := List.mem_of_getElem? he
  have hsound := h.sound e hmem
  have hvalid : e.formula.profile.valid = true ↔
      e.formula.AllReached c.equations (Formula.Bound c.equations) ∧
        e.formula.nesting c.equations ≤ c.limits.callDepth := by
    obtain ⟨b, hb, rfl⟩ := h.eq_resolve
    obtain ⟨himplicit, hexplicit, hcontract⟩ := hb.resolve_contract he
    -- Three coordinates and a value for each parameter are always enough.
    have hzeros := hcontract [0, 0, 0] (List.replicate e.params.length 0)
    simp only [List.length_replicate, himplicit, hexplicit, List.length_cons, List.length_nil,
      Nat.zero_add, and_self, and_true] at hzeros
    rw [← hzeros, evaluate, Formula.evaluate_isOk hb.resolve hsound.all_balanced]
    simp only [List.length_replicate, List.length_cons, List.length_nil, Nat.zero_add]
    constructor
    · intro h
      exact ⟨h.1.bound, h.1.shallow⟩
    · intro h
      exact ⟨⟨h.1, hsound.allReached hb.resolve, h.2⟩, hsound.all_argumentsBelow⟩
  refine ⟨hvalid, fun hc => ?_⟩
  rw [← Bool.not_eq_true, hvalid, ← callDepth_eq he, hc.callDepth_eq_top]
  exact fun h => absurd (top_le_iff.1 h.2) (ENat.natCast_ne_top _)

def sine : Equation := ⟨"f", ["a"], .ofNodes [.call "sin" [.ofNodes [.argument 0]] none]⟩

def sineOfX : Equation := ⟨"g", [], .ofNodes [.call "f" [.ofNodes [.coordinate 0]] none]⟩

def recursive : Equation := ⟨"h", ["a"], .ofNodes [.call "h" [.ofNodes [.argument 0]] none]⟩

/-- At the limit, one call beyond it, and on a cycle. -/
theorem valid_iff_limit :
    let c := ((((new { callDepth := 1 }).act (.add "f(a) = sin(a)")).act (.add "g = f(x)")).act
      (.add "h(a) = h(a)")).resolve
    Settled c ∧ ∃ f g h, c.equations[7]? = some f ∧ c.equations[8]? = some g ∧
      c.equations[9]? = some h ∧
      (f.formula.profile.valid = true ∧ f.formula.nesting c.equations ≤ 1) ∧
      (g.formula.profile.valid = false ∧ ¬ g.formula.nesting c.equations ≤ 1) ∧
      Cyclic c.equations 9 ∧ h.formula.profile.valid = false := by
  intro c
  have hc : c = ((((new { callDepth := 1 }).store sine "f(a) = sin(a)").store sineOfX
      "g = f(x)").store recursive "h(a) = h(a)").resolve := by
    have hsine : Equation.ofLine 100 "f(a) = sin(a)" = .ok sine := by cbv
    have hsineOfX : Equation.ofLine 100 "g = f(x)" = .ok sineOfX := by cbv
    have hrecursive : Equation.ofLine 100 "h(a) = h(a)" = .ok recursive := by cbv
    rw [← act_add (by decide) hrecursive, ← act_add (by decide) hsineOfX,
      ← act_add (by decide) hsine]
  have hsettled : Settled c := .resolve (.act _ (.act _ (.act _ (.new _))))
  have hlimit : c.limits.callDepth = 1 := by
    rw [hc]
    rfl
  have hfound : (c.equations.drop 7).map (fun e => (e.formula.profile.valid, e.formula.targets)) =
      [(true, [0]), (false, [7]), (false, [9])] := by
    rw [hc]
    decide +kernel
  have hat (i : Nat) : c.equations[7 + i]?.map (fun e =>
      (e.formula.profile.valid, e.formula.targets)) =
        [(true, [0]), (false, [7]), (false, [9])][i]? := by
    rw [← hfound, List.getElem?_map, List.getElem?_drop]
  obtain ⟨f, hf, hsame⟩ := Option.map_eq_some_iff.1 (hat 0)
  obtain ⟨hvalid, hsin⟩ := Prod.mk.inj hsame
  obtain ⟨g, hg, hsame⟩ := Option.map_eq_some_iff.1 (hat 1)
  have hsine := (Prod.mk.inj hsame).2
  obtain ⟨h, hh, hsame⟩ := Option.map_eq_some_iff.1 (hat 2)
  have hself := (Prod.mk.inj hsame).2
  have hdepth := ((valid_iff hsettled hf).1.1 hvalid).2
  rw [hlimit] at hdepth
  have hbeyond : ¬ g.formula.nesting c.equations ≤ 1 := by
    intro hle
    have hcallee : 1 + callDepth c.equations 7 ≤ 1 :=
      Formula.nesting_le.1 hle 7 (hsine ▸ List.mem_singleton_self 7)
    have hlink : Links c.equations 7 0 := ⟨f, hf, hsin ▸ List.mem_singleton_self 0⟩
    have hone := (add_le_add_right hlink.callDepth_lt 1).trans hcallee
    rw [← add_assoc] at hone
    exact absurd (le_self_add.trans hone) (by norm_num)
  have hinvalid : g.formula.profile.valid = false := by
    rw [← Bool.not_eq_true, (valid_iff hsettled hg).1, hlimit]
    exact fun hvalid => hbeyond hvalid.2
  have hcyclic : Cyclic c.equations 9 :=
    ⟨9, .refl, .single ⟨h, hh, hself ▸ List.mem_singleton_self 9⟩⟩
  exact ⟨hsettled, f, g, h, hf, hg, hh, ⟨hvalid, hdepth⟩, ⟨hinvalid, hbeyond⟩, hcyclic,
    (valid_iff hsettled hh).2 hcyclic⟩

end Formulary.Catalog
