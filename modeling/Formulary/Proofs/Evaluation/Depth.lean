import Formulary.Profile
import Formulary.Proofs.Evaluation.Success

/-!
# Runs end above the bottom

A run that gives a value has entered each call that it holds, with one call less to go inside
every time. So nothing that leads to a cycle ever has a value, balanced or not.
-/
namespace Formulary

def CallRule.Passed (rule : CallRule) (f : Formula) : Prop :=
  ∀ name args target, .call name args target ∈ f.nodes → ∃ body,
    rule name target args.length = .ok body ∧ ∃ values x, body values = .ok x

section
variable {rule : CallRule} {coordinates arguments : List Float}

theorem Node.run_of_runAll {nodes : List Node} {stack stack' : List Float}
    (h : Node.runAll rule coordinates arguments nodes stack = .ok stack') :
    ∀ n ∈ nodes, ∃ found left, n.run rule coordinates arguments found = .ok left := by
  induction nodes generalizing stack with
  | nil => exact fun n hn => absurd hn List.not_mem_nil
  | cons n rest ih =>
    obtain ⟨mid, hn, hrest⟩ := bind_eq_ok.1 h
    exact List.forall_mem_cons.2 ⟨⟨stack, mid, hn⟩, ih hrest⟩

theorem Formula.passed_of_run {f : Formula} {x : Float}
    (h : f.run rule coordinates arguments = .ok x) : f.All rule.Passed := by
  induction f using Formula.induction generalizing x with
  | mk nodes profile ih =>
    have hruns := Node.run_of_runAll (Formula.run_eq_ok.1 h)
    refine all_iff.2 ⟨fun name args target hc => ?_, fun name args target hc a ha => ?_⟩
    · obtain ⟨_, _, hrun⟩ := hruns _ hc
      obtain ⟨body, hbody, values, -, y, hy, -⟩ := Node.run_call_eq_ok.1 hrun
      exact ⟨body, hbody, values, y, hy⟩
    · obtain ⟨_, _, hrun⟩ := hruns _ hc
      obtain ⟨_, -, values, hvalues, -⟩ := Node.run_call_eq_ok.1 hrun
      obtain ⟨y, hy⟩ := Formula.runAll_isOk.1 ⟨values, hvalues⟩ a ha
      exact ih name args target hc a ha hy

end

section
variable {table : List Equation} {limit : Nat} {coordinates arguments : List Float}

theorem Formula.nesting_le_of_run {f : Formula} {left : Nat} {x : Float}
    (h : f.run (enter table limit coordinates left) coordinates arguments = .ok x) :
    f.nesting table ≤ left := by
  -- The body of a target runs with fewer calls left, on values that are not known here.
  induction left using Nat.strong_induction_on generalizing f arguments x with
  | _ left ih =>
    rw [nesting_le, forall_mem_targets]
    intro g hg name args id hc
    obtain ⟨body, hbody, values, y, hy⟩ := passed_of_run h g hg name args (some id) hc
    obtain ⟨callee, deeper, hcallee, -, rfl, rfl⟩ := enter_eq_ok.1 hbody
    rw [Option.bind_some] at hcallee
    have hdeep := ih deeper (Nat.lt_succ_self deeper) hy
    rw [← callDepth_eq hcallee] at hdeep
    exact one_add_le_cast.2 ⟨deeper, rfl, hdeep⟩

theorem Cyclic.runsOnZeros {id : Nat} {e : Equation} (h : Cyclic table id)
    (he : table[id]? = some e) (arity : Arity) : e.formula.runsOnZeros table limit arity = false := by
  rw [← Bool.not_eq_true, Formula.runsOnZeros, isOk_iff]
  intro hrun
  obtain ⟨x, hx⟩ := hrun
  exact h.not_nesting_le he limit (Formula.nesting_le_of_run hx)

end

end Formulary
