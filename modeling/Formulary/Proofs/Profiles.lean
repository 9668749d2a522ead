import Formulary.Proofs.Evaluation.Success
import Formulary.Proofs.Search

/-!
# What profiles say

A run does not look at profiles, so a profiled table evaluates as it did before. A
formula is valid when it runs on as many zeros as it needs; since success depends on
no value, it then runs on any values that are as many.
-/
namespace Formulary

section
variable {rule : CallRule} {coordinates arguments : List Float} {judge : Formula → Profile}

theorem Formula.run_annotate {f : Formula} {profile : Profile} :
    (f.annotate judge profile).run rule coordinates arguments =
      f.run rule coordinates arguments := by
  induction f using Formula.induction generalizing profile with
  | mk nodes p ih =>
    have hnodes : ∀ n ∈ nodes, ∀ stack, (n.annotate judge).run rule coordinates arguments stack =
        n.run rule coordinates arguments stack := by
      intro n hn stack
      cases n with
      | call name args target =>
        have hargs := runAll_map fun a ha => @ih name args target hn a ha (judge a)
        simp only [Node.annotate, Node.run, annotateAll_eq_map, List.length_map, hargs]
      | _ => rfl
    simp only [Formula.annotate, Formula.run, Node.annotateAll_eq_map, Node.runAll_map hnodes]

theorem Formula.annotate_annotate {judge' : Formula → Profile} {f : Formula}
    {profile profile' : Profile} :
    (f.annotate judge profile).annotate judge' profile' =
      f.annotate (fun g => judge' (g.annotate judge (judge g))) profile' := by
  induction f using Formula.induction generalizing profile profile' with
  | mk nodes p ih =>
    have hnodes : ∀ n ∈ nodes, (n.annotate judge).annotate judge' =
        n.annotate fun g => judge' (g.annotate judge (judge g)) := by
      intro n hn
      cases n with
      | call name args target =>
        simp only [Node.annotate, annotateAll_eq_map, List.map_map, Node.call.injEq, true_and,
          and_true]
        exact List.map_congr_left fun a ha => ih name args target hn a ha
      | _ => rfl
    simp only [Formula.annotate, Node.annotateAll_eq_map, List.map_map]
    exact congrArg (Formula.mk · profile') (List.map_congr_left hnodes)

def Formula.bare (f : Formula) : Formula := f.annotate (fun _ => {}) {}

def Equation.bare (e : Equation) : Equation := { e with formula := e.formula.bare }

theorem Formula.bare_annotate {f : Formula} {profile : Profile} :
    (f.annotate judge profile).bare = f.bare := annotate_annotate

theorem Formula.annotate_bare {f : Formula} {profile : Profile}
    (h : ∀ g, judge g.bare = judge g) :
    f.bare.annotate judge profile = f.annotate judge profile := by
  have hjudge : (fun g => judge (g.annotate (fun _ => {}) {})) = judge := funext h
  rw [bare, annotate_annotate, hjudge]

end

section
variable {table : List Equation} {limit id : Nat}

theorem profiled_getElem? :
    (profiled table limit)[id]? = table[id]?.map fun e => { e with
      formula := e.formula.annotate (Formula.judged table limit (Search.all table))
        (e.formula.profileFor table limit ((Search.all table).arityAt id)) } := by
  rw [profiled_eq_mapIdx]
  exact List.getElem?_mapIdx

theorem profiled_eq_some {e : Equation} (h : table[id]? = some e) :
    (profiled table limit)[id]? = some { e with
      formula := e.formula.annotate (Formula.judged table limit (Search.all table))
        (e.formula.profileFor table limit ((Search.all table).arityAt id)) } := by
  rw [profiled_getElem?, h]
  rfl

theorem enter_map_bare {depth left : Nat} {coordinates : List Float} :
    enter (table.map Equation.bare) depth coordinates left =
      enter table depth coordinates left := by
  induction left with
  | zero =>
    funext name target found
    cases target with
    | none => rfl
    | some id =>
      simp only [enter, Option.bind_some, List.getElem?_map]
      cases table[id]? <;> rfl
  | succ left ih =>
    funext name target found
    cases target with
    | none => rfl
    | some id =>
      simp only [enter, Option.bind_some, List.getElem?_map, ih]
      cases table[id]? with
      | none => rfl
      | some e =>
        have hrun : e.bare.formula.run (enter table depth coordinates left) coordinates =
            e.formula.run (enter table depth coordinates left) coordinates :=
          funext fun values => Formula.run_annotate
        have hparams : e.bare.params = e.params := rfl
        simp only [Option.map_some, hrun, hparams]

theorem map_bare_profiled : (profiled table limit).map Equation.bare = table.map Equation.bare := by
  apply List.ext_getElem?
  intro id
  rw [List.getElem?_map, profiled_getElem?, Option.map_map, List.getElem?_map]
  congr 1
  funext e
  simp only [Function.comp_apply, Equation.bare, Formula.bare_annotate]

theorem enter_profiled {depth left : Nat} {coordinates : List Float} :
    enter (profiled table limit) depth coordinates left = enter table depth coordinates left := by
  rw [← enter_map_bare, map_bare_profiled, enter_map_bare]

theorem Formula.evaluate_annotate {f : Formula} {judge : Formula → Profile} {profile : Profile}
    {depth : Nat} {coordinates arguments : List Float} :
    (f.annotate judge profile).evaluate (profiled table limit) depth coordinates arguments =
      f.evaluate table depth coordinates arguments := by
  simp only [evaluate, enter_profiled, run_annotate]

theorem Formula.Sound.allReached (htable : ∀ e ∈ table, e.Sound) {f : Formula} {params : Nat}
    (hf : f.Sound params) : f.AllReached table (CoordinatesBelow 3) := by
  intro g hg
  induction hg generalizing params with
  | held hg => exact fun i hi => (hf _ hg).2 _ hi
  | target _ he _ ih => exact ih (htable _ (List.mem_of_getElem? he))

theorem Formula.Runnable.mono {f : Formula} {left m n : Nat} (h : f.Runnable table m left)
    (hmn : m ≤ n) : f.Runnable table n left :=
  ⟨h.bound, h.supplied.imp fun _ hg i hi => (hg i hi).trans_le hmn, h.shallow⟩

theorem Formula.runsOnZeros_iff (htable : ∀ e ∈ table, e.Sound) {f : Formula} (hb : f.All Balanced)
    {arity : Arity} : f.runsOnZeros table limit arity = true ↔
      f.Runnable table arity.implicit limit ∧ f.All (ArgumentsBelow arity.explicit) := by
  rw [runsOnZeros, isOk_iff, evaluate_isOk htable hb, List.length_replicate, List.length_replicate]

theorem evaluate_iff_valid (htable : ∀ e ∈ table, e.Sound) {e : Equation}
    (he : table[id]? = some e) {a : Arity} (ha : Exact table id a)
    (coordinates arguments : List Float) :
    (∃ x, e.formula.evaluate table limit coordinates arguments = .ok x) ↔
      e.formula.runsOnZeros table limit a = true ∧ a.implicit ≤ coordinates.length ∧
        a.explicit ≤ arguments.length := by
  have hsound : e.formula.Sound e.params.length := htable e (List.mem_of_getElem? he)
  have hexplicit := ha.explicit e he
  rw [Formula.runsOnZeros_iff htable hsound.all_balanced,
    Formula.evaluate_isOk htable hsound.all_balanced]
  constructor
  · intro h
    obtain ⟨hrun, hargs⟩ := h
    -- What is shallow enough leads to no cycle, so its coordinates were all counted.
    have hcyclic : ¬ Cyclic table id := fun hc => hc.not_nesting_le he limit hrun.shallow
    have himplicit := ha.implicit e he hcyclic
    have hsupplied : e.formula.AllReached table (Formula.CoordinatesBelow a.implicit) := by
      rcases (himplicit a.implicit).1 le_rfl with hle | hsupplied
      · exact (hsound.allReached htable).imp fun _ hg i hi => (hg i hi).trans_le hle
      · exact hsupplied
    exact ⟨⟨⟨hrun.bound, hsupplied, hrun.shallow⟩, (hexplicit _).1 le_rfl⟩,
      (himplicit _).2 (.inr hrun.supplied), (hexplicit _).2 hargs⟩
  · intro h
    obtain ⟨⟨hrun, -⟩, himplicit, hle⟩ := h
    exact ⟨hrun.mono himplicit, (hexplicit _).1 hle⟩

theorem annotate_profile {f : Formula} {judge : Formula → Profile} {profile : Profile} :
    (f.annotate judge profile).profile = profile := by
  cases f
  rfl

theorem profiled_contract (htable : ∀ e ∈ table, e.Sound) {e : Equation}
    (he : (profiled table limit)[id]? = some e) :
    e.formula.profile.arity.implicit ≤ 3 ∧ e.formula.profile.arity.explicit ≤ e.params.length ∧
    ∀ coordinates arguments,
      (∃ x, e.formula.evaluate (profiled table limit) limit coordinates arguments = .ok x) ↔
        e.formula.profile.valid = true ∧
        e.formula.profile.arity.implicit ≤ coordinates.length ∧
        e.formula.profile.arity.explicit ≤ arguments.length := by
  rw [profiled_getElem?] at he
  obtain ⟨d, hd, rfl⟩ := Option.map_eq_some_iff.1 he
  have hlt : id < table.length := (List.getElem?_eq_some_iff.1 hd).1
  have hexact := Search.exact_all hlt
  have hsound : d.formula.Sound d.params.length := htable d (List.mem_of_getElem? hd)
  simp only [annotate_profile, Formula.evaluate_annotate]
  exact ⟨hexact.capped, (hexact.explicit d hd _).2 hsound.all_argumentsBelow,
    evaluate_iff_valid htable hd hexact⟩

end

end Formulary
