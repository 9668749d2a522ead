import Formulary.Proofs.Profiles

/-!
# Findings at their places

What is found about the arguments of all calls of a formula comes in one list, and is
written back from it one by one. Both passes go through the calls in the same order, so
each argument, at any depth, gets what was found about it and nothing is left over.
-/
namespace Formulary

def Node.arguments : Node → List Formula
  | .call _ args _ => args
  | _ => []

def Formula.arguments (f : Formula) : List Formula := f.nodes.flatMap Node.arguments

def Formula.argumentAt? (f : Formula) (node arg : Nat) : Option Formula :=
  f.nodes[node]?.bind fun n => n.arguments[arg]?

/-- The formula at the end of a path. Each step goes to an argument of a node, and says
which node and which of its arguments. -/
def Formula.at? : List (Nat × Nat) → Formula → Option Formula
  | [], f => some f
  | (node, arg) :: path, f => (f.argumentAt? node arg).bind (Formula.at? path)

section
variable {judge : Formula → Profile}

theorem Node.arguments_annotate (n : Node) :
    (n.annotate judge).arguments = n.arguments.map fun a => a.annotate judge (judge a) := by
  cases n with
  | call name args target => exact Formula.annotateAll_eq_map judge args
  | _ => rfl

theorem Formula.argumentAt?_annotate (f : Formula) (profile : Profile) (node arg : Nat) :
    (f.annotate judge profile).argumentAt? node arg =
      (f.argumentAt? node arg).map fun a => a.annotate judge (judge a) := by
  rw [argumentAt?, annotate_nodes, List.getElem?_map, Option.bind_map, argumentAt?,
    Option.map_bind]
  congr 1
  funext n
  simp only [Function.comp_apply, Node.arguments_annotate, List.getElem?_map]

theorem Formula.at?_annotate {path : List (Nat × Nat)} (hne : path ≠ []) (f : Formula)
    (profile : Profile) :
    (f.annotate judge profile).at? path =
      (f.at? path).map fun a => a.annotate judge (judge a) := by
  induction path generalizing f profile with
  | nil => exact absurd rfl hne
  | cons place path ih =>
    obtain ⟨node, arg⟩ := place
    rw [at?, argumentAt?_annotate, Option.bind_map, at?, Option.map_bind]
    congr 1
    funext a
    cases path with
    | nil => rfl
    | cons next path => exact ih (List.cons_ne_nil next path) a (judge a)

theorem Formula.findingsAll_eq_map (args : List Formula) :
    Formula.findingsAll judge args = args.map fun a => a.findings judge (judge a) := by
  induction args with
  | nil => rfl
  | cons a rest ih => simp only [findingsAll, ih, List.map_cons]

theorem Node.findings_eq_map (n : Node) :
    n.findings judge = n.arguments.map fun a => a.findings judge (judge a) := by
  cases n with
  | call name args target => exact Formula.findingsAll_eq_map args
  | _ => rfl

theorem Formula.arguments_findings (f : Formula) (profile : Profile) :
    (f.findings judge profile).arguments =
      f.arguments.map fun a => a.findings judge (judge a) := by
  obtain ⟨nodes, p⟩ := f
  change Node.findingsAll judge nodes = (nodes.flatMap Node.arguments).map _
  induction nodes with
  | nil => rfl
  | cons n rest ih =>
    rw [Node.findingsAll, ih, n.findings_eq_map, List.flatMap_cons, List.map_append]

theorem Formula.recordAll_left (f : Formula) (profile : Profile) :
    (Node.recordAll f.nodes (f.findings judge profile).arguments).2 = [] := by
  obtain ⟨nodes, p⟩ := f
  have hnodes := Node.recordAll_findings judge nodes []
  rw [List.append_nil] at hnodes
  exact congrArg Prod.snd hnodes

end

section
variable {table : List Equation} {id : Nat} {e : Equation}

/-- An equation keeps all but its profiles. It gets its own profile, and each argument in it
the profile that the argument has by itself: what it needs when the whole table has been
searched, and whether it then runs on that many zeros. -/
theorem profiled_places (limit : Nat) (he : table[id]? = some e) :
    let found := Search.all table
    let judge : Formula → Profile := fun a =>
      ⟨a.arity found.needed, a.runsOnZeros table limit (a.arity found.needed)⟩
    (∀ i < table.length, ∃ a, found[i]? = some (.done a)) ∧
    ∃ d, (profiled table limit)[id]? = some d ∧ d.bare = e.bare ∧
      d.formula.profile =
        ⟨found.arityAt id, e.formula.runsOnZeros table limit (found.arityAt id)⟩ ∧
      (∀ path ≠ [], (d.formula.at? path).map Formula.profile = (e.formula.at? path).map judge) ∧
      (Findings.all table limit)[id]? = some (e.formula.findings judge d.formula.profile) ∧
      ∀ (g : Formula) (profile : Profile),
        (g.findings judge profile).arguments =
          g.arguments.map (fun a => a.findings judge (judge a)) ∧
        (Node.recordAll g.nodes (g.findings judge profile).arguments).2 = [] := by
  intro found judge
  refine ⟨fun i hi => Search.done_all hi, _, profiled_eq_some he, ?bare, ?own, ?places, ?listed,
    fun g profile => ⟨g.arguments_findings profile, g.recordAll_left profile⟩⟩
  case bare => exact congrArg (Equation.mk e.name e.params) Formula.bare_annotate
  case own => exact annotate_profile
  case places =>
    intro path hne
    rw [Formula.at?_annotate hne, Option.map_map]
    congr 1
    funext a
    exact annotate_profile
  case listed =>
    rw [annotate_profile, Findings.all, List.getElem?_mapIdx, he]
    rfl

end

def nest : List Equation :=
  [⟨"add", ["a", "b"], .ofNodes [.argument 0, .argument 1, .operator (.binary .add)]⟩,
    ⟨"twice", ["a"], .ofNodes
      [.call "add" [.ofNodes [.argument 0], .ofNodes [.argument 0]] (some 0)]⟩,
    ⟨"mix", [], .ofNodes
      [.call "add" [.ofNodes [.coordinate 1], .ofNodes [.argument 4]] (some 0),
        .call "twice" [.ofNodes [.call "lost" [.ofNodes [.coordinate 2]] none]] (some 1),
        .operator (.binary .add)]⟩]

theorem profiled_places_nest :
    ∃ d, (profiled nest 8)[2]? = some d ∧ d.formula.profile = ⟨⟨3, 5⟩, false⟩ ∧
      (d.formula.at? [(0, 0)]).map Formula.profile = some ⟨⟨2, 0⟩, true⟩ ∧
      (d.formula.at? [(0, 1)]).map Formula.profile = some ⟨⟨0, 5⟩, true⟩ ∧
      (d.formula.at? [(1, 0)]).map Formula.profile = some ⟨⟨3, 0⟩, false⟩ ∧
      (d.formula.at? [(1, 0), (0, 0)]).map Formula.profile = some ⟨⟨3, 0⟩, true⟩ := by
  obtain ⟨-, d, hd, -, hown, hplaces, -⟩ := @profiled_places nest 2 _ 8 rfl
  refine ⟨d, hd, ?_, ?_, ?_, ?_, ?_⟩
  · rw [hown]
    rfl
  all_goals
    rw [hplaces _ (List.cons_ne_nil _ _)]
    rfl

end Formulary
