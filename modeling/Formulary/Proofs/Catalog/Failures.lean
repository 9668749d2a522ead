import Formulary.Proofs.Catalog.Sound
import Formulary.Proofs.Evaluation.Failures
import Mathlib

/-!
# How stored equations fail

Every stored equation is sound, so no operator of it lacks an operand and no value is
left over. What is missing is missing from the input, and only from what the equation
itself declares.
-/
namespace Formulary.Catalog

theorem evaluate_failures {c : Catalog} (h : Reachable c) {e : Equation} (he : e ∈ c.equations)
    (coordinates arguments : List Float) :
    (∀ op needed available,
      c.evaluate e coordinates arguments ≠ .error (.stackUnderflow op needed available)) ∧
    (∀ remaining, c.evaluate e coordinates arguments ≠ .error (.unbalancedStack remaining)) ∧
    (∀ index available,
      c.evaluate e coordinates arguments = .error (.missingCoordinate index available) →
        available = coordinates.length ∧ coordinates.length ≤ index ∧ index < 3) ∧
    (∀ index available,
      c.evaluate e coordinates arguments = .error (.missingArgument index available) →
        available = arguments.length ∧ arguments.length ≤ index ∧ index < e.params.length) ∧
    -- The body of a target, at any depth, has all its arguments.
    (∀ left name target values body,
      enter c.equations c.limits.callDepth coordinates left name target values.length = .ok body →
        ∀ index available, body values ≠ .error (.missingArgument index available)) := by
  have hrule : ∀ left, (enter c.equations c.limits.callDepth coordinates left).Proper
      coordinates.length := enter_proper h.sound
  have hown : ∀ error, c.evaluate e coordinates arguments = .error error →
      error.Own coordinates.length arguments.length e.params.length :=
    fun error herror => Formula.run_error_own (hrule _) (h.sound e he) herror
  refine ⟨fun op needed available herror => hown _ herror,
    fun remaining herror => hown _ herror, fun index available herror => hown _ herror,
    fun index available herror => hown _ herror, ?_⟩
  intro left name target values body hbody index available herror
  obtain ⟨-, -, hlt⟩ := (hrule left).body hbody rfl herror 0 0
  omega

def quotient : Equation :=
  ⟨"f", ["a"], .ofNodes [.argument 0, .coordinate 0, .operator (.binary .divide)]⟩

theorem evaluate_failures_quotient :
    let c := (new {}).act (.add "f(a) = a / x")
    Reachable c ∧ quotient ∈ c.equations ∧
      c.evaluate quotient [2] [] = .error (.missingArgument 0 0) ∧
      (0 = ([] : List Float).length ∧ ([] : List Float).length ≤ 0 ∧
        0 < quotient.params.length) := by
  have hline : Equation.ofLine 100 "f(a) = a / x" = .ok quotient := by cbv
  have hc : (new {}).act (.add "f(a) = a / x") = (new {}).store quotient "f(a) = a / x" :=
    act_add (by decide) hline
  have hreach : Reachable ((new {}).act (.add "f(a) = a / x")) := .act _ (.new {})
  have hmem : quotient ∈ ((new {}).act (.add "f(a) = a / x")).equations := by
    rw [hc, equations_store]
    simp
  have herror : ((new {}).act (.add "f(a) = a / x")).evaluate quotient [2] [] =
      .error (.missingArgument 0 0) := rfl
  exact ⟨hreach, hmem, herror, (evaluate_failures hreach hmem [2] []).2.2.2.1 0 0 herror⟩

end Formulary.Catalog
