import Formulary.Proofs.Evaluation.Run
import Formulary.Proofs.Formula.Reaches

/-!
# Evaluation on two tables

A run sees other equations only through what becomes of its calls. So a formula evaluates
alike on two tables that agree on what its targets lead to, and on two tables that are
linked by look-ups under which each name denotes the same equation.
-/
namespace Formulary

def CallRule.linked (rule : CallRule) (lookup : String → Option Nat) : CallRule :=
  fun name _ found => rule name (lookup name) found

section
variable {rule rule' : CallRule} {coordinates arguments : List Float}

theorem Formula.run_link {lookup : String → Option Nat} {f : Formula} :
    (f.link lookup).run rule coordinates arguments =
      f.run (rule.linked lookup) coordinates arguments := by
  induction f using Formula.induction with
  | mk nodes profile ih =>
    have hnodes : ∀ n ∈ nodes, ∀ stack, (n.link lookup).run rule coordinates arguments stack =
        n.run (rule.linked lookup) coordinates arguments stack := by
      intro n hn stack
      cases n with
      | call name args target =>
        have hargs := runAll_map fun a ha => ih name args target hn a ha
        simp only [Node.link, Node.run, linkAll_eq_map, List.length_map, hargs, CallRule.linked]
      | _ => rfl
    simp only [Formula.link, Formula.run, Node.linkAll_eq_map, Node.runAll_map hnodes]

theorem Formula.run_congr {f : Formula}
    (h : f.All fun g => ∀ name args target, .call name args target ∈ g.nodes →
      rule' name target args.length = rule name target args.length) :
    f.run rule' coordinates arguments = f.run rule coordinates arguments := by
  induction f using Formula.induction with
  | mk nodes profile ih =>
    have hnodes : ∀ n ∈ nodes, ∀ stack, (id n).run rule' coordinates arguments stack =
        n.run rule coordinates arguments stack := by
      intro n hn stack
      cases n with
      | call name args target =>
        have hcall := h.self name args target hn
        have hargs : Formula.runAll rule' coordinates arguments (args.map id) =
            Formula.runAll rule coordinates arguments args :=
          runAll_map fun a ha => ih name args target hn a ha (h.argument hn ha)
        rw [List.map_id] at hargs
        simp only [id_eq, Node.run, hargs, hcall]
      | _ => rfl
    have hrun := Node.runAll_map hnodes []
    rw [List.map_id] at hrun
    simp only [Formula.run, hrun]

end

/-- Two tables are the same where the targets lead to from certain places. -/
structure AgreeOn (places : Nat → Prop) (table table' : List Equation) : Prop where
  same : ∀ id, places id → table'[id]? = table[id]?
  closed : ∀ id e, places id → table[id]? = some e → ∀ t ∈ e.formula.targets, places t

section
variable {places : Nat → Prop} {table table' : List Equation} {limit left : Nat}
  {coordinates arguments : List Float}

theorem AgreeOn.enter (h : AgreeOn places table table') {name : String} {target : Option Nat}
    {found : Nat} (ht : ∀ id, target = some id → places id) :
    enter table' limit coordinates left name target found =
      enter table limit coordinates left name target found := by
  induction left generalizing name target found with
  | zero =>
    cases target with
    | none => rfl
    | some id => simp only [Formulary.enter, Option.bind_some, h.same id (ht id rfl)]
  | succ left ih =>
    cases target with
    | none => rfl
    | some id =>
      simp only [Formulary.enter, Option.bind_some, h.same id (ht id rfl)]
      cases he : table[id]? with
      | none => rfl
      | some e =>
        have hcalls := Formula.forall_mem_targets.1 (h.closed id e (ht id rfl) he)
        have hrun : e.formula.run (Formulary.enter table' limit coordinates left) coordinates =
            e.formula.run (Formulary.enter table limit coordinates left) coordinates := by
          funext values
          apply Formula.run_congr
          intro g hg name args target hc
          apply ih
          intro t ht
          exact hcalls g hg name args t (ht ▸ hc)
        simp only [hrun]

theorem AgreeOn.evaluate (h : AgreeOn places table table') {f : Formula}
    (hf : ∀ t ∈ f.targets, places t) :
    f.evaluate table' limit coordinates arguments =
      f.evaluate table limit coordinates arguments := by
  have hcalls := Formula.forall_mem_targets.1 hf
  apply Formula.run_congr
  intro g hg name args target hc
  apply h.enter
  intro t ht
  exact hcalls g hg name args t (ht ▸ hc)

end

section
variable {table table' : List Equation} {lookup lookup' : String → Option Nat} {limit left : Nat}
  {coordinates arguments : List Float}

theorem bind_getElem?_link (name : String) :
    (lookup name).bind ((table.map (·.link lookup))[·]?) =
      ((lookup name).bind (table[·]?)).map (·.link lookup) := by
  cases lookup name with
  | none => rfl
  | some id => simp

theorem enter_linked (h : ∀ name, (lookup name).bind (table[·]?) = (lookup' name).bind (table'[·]?)) :
    (enter (table.map (·.link lookup)) limit coordinates left).linked lookup =
      (enter (table'.map (·.link lookup')) limit coordinates left).linked lookup' := by
  induction left with
  | zero =>
    funext name _ found
    simp only [CallRule.linked, enter, bind_getElem?_link, h name]
    cases (lookup' name).bind (table'[·]?) <;> rfl
  | succ left ih =>
    funext name _ found
    simp only [CallRule.linked, enter, bind_getElem?_link, h name]
    cases (lookup' name).bind (table'[·]?) with
    | none => rfl
    | some e =>
      have hparams : (e.link lookup).params = (e.link lookup').params := rfl
      have hrun : (e.link lookup).formula.run
            (enter (table.map (·.link lookup)) limit coordinates left) coordinates =
          (e.link lookup').formula.run
            (enter (table'.map (·.link lookup')) limit coordinates left) coordinates := by
        funext values
        change (e.formula.link lookup).run _ coordinates values =
          (e.formula.link lookup').run _ coordinates values
        rw [Formula.run_link, Formula.run_link, ih]
      simp only [Option.map_some, hparams, hrun]

theorem Formula.evaluate_linked
    (h : ∀ name, (lookup name).bind (table[·]?) = (lookup' name).bind (table'[·]?)) (f : Formula) :
    (f.link lookup).evaluate (table.map (·.link lookup)) limit coordinates arguments =
      (f.link lookup').evaluate (table'.map (·.link lookup')) limit coordinates arguments := by
  rw [evaluate, evaluate, run_link, run_link, enter_linked h]

end

end Formulary
