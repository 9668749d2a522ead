import Formulary.Proofs.Evaluation.Agreement
import Formulary.Proofs.Profiles

/-!
# Profiling again

Profiles are computed from the nodes alone, so a table that is profiled already stays as
it is. The profile of a valid equation says on how many values it can be evaluated, and
this is the same in every table with the same equations where its targets lead to; so
such tables give it the same profile, whatever else they hold.
-/
namespace Formulary

section
variable {judge judge' : Formula → Profile} {needed needed' : Nat → Nat}

theorem Node.targetsAll_map {nodes : List Node} {φ : Node → Node}
    (h : ∀ n ∈ nodes, (φ n).targets = n.targets) :
    Node.targetsAll (nodes.map φ) = Node.targetsAll nodes := by
  induction nodes with
  | nil => rfl
  | cons n rest ih =>
    rw [List.forall_mem_cons] at h
    simp only [List.map_cons, Node.targetsAll, h.1, ih h.2]

theorem Formula.targetsAll_map {args : List Formula} {φ : Formula → Formula}
    (h : ∀ a ∈ args, (φ a).targets = a.targets) :
    Formula.targetsAll (args.map φ) = Formula.targetsAll args := by
  induction args with
  | nil => rfl
  | cons a rest ih =>
    rw [List.forall_mem_cons] at h
    simp only [List.map_cons, Formula.targetsAll, h.1, ih h.2]

theorem Formula.targets_annotate {f : Formula} {profile : Profile} :
    (f.annotate judge profile).targets = f.targets := by
  induction f using Formula.induction generalizing profile with
  | mk nodes p ih =>
    simp only [Formula.annotate, Formula.targets, Node.annotateAll_eq_map]
    apply Node.targetsAll_map
    intro n hn
    cases n with
    | call name args target =>
      have hargs := targetsAll_map fun a ha => @ih name args target hn a ha (judge a)
      simp only [Node.annotate, Node.targets, annotateAll_eq_map, hargs]
    | _ => rfl

theorem Node.arityAll_map {nodes : List Node} {φ : Node → Node}
    (h : ∀ n ∈ nodes, (φ n).arity needed = n.arity needed) :
    Node.arityAll needed (nodes.map φ) = Node.arityAll needed nodes := by
  induction nodes with
  | nil => rfl
  | cons n rest ih =>
    rw [List.forall_mem_cons] at h
    simp only [List.map_cons, Node.arityAll, h.1, ih h.2]

theorem Formula.arityAll_map {args : List Formula} {φ : Formula → Formula}
    (h : ∀ a ∈ args, (φ a).arity needed = a.arity needed) :
    Formula.arityAll needed (args.map φ) = Formula.arityAll needed args := by
  induction args with
  | nil => rfl
  | cons a rest ih =>
    rw [List.forall_mem_cons] at h
    simp only [List.map_cons, Formula.arityAll, h.1, ih h.2]

theorem Formula.arity_annotate {f : Formula} {profile : Profile} :
    (f.annotate judge profile).arity needed = f.arity needed := by
  induction f using Formula.induction generalizing profile with
  | mk nodes p ih =>
    simp only [Formula.annotate, Formula.arity, Node.annotateAll_eq_map]
    rw [Node.arityAll_map]
    intro n hn
    cases n with
    | call name args target =>
      have hargs := arityAll_map fun a ha => @ih name args target hn a ha (judge a)
      simp only [Node.annotate, Node.arity, annotateAll_eq_map, hargs]
    | _ => rfl

theorem Arity.eq_of_le {a b : Arity} (himplicit : ∀ m, a.implicit ≤ m ↔ b.implicit ≤ m)
    (hexplicit : ∀ m, a.explicit ≤ m ↔ b.explicit ≤ m) : a = b := by
  cases a
  cases b
  rw [Arity.mk.injEq]
  exact ⟨eq_of_forall_ge_iff himplicit, eq_of_forall_ge_iff hexplicit⟩

theorem Formula.arity_congr {f : Formula} (h : ∀ id ∈ f.targets, needed' id = needed id) :
    f.arity needed' = f.arity needed := by
  apply Arity.eq_of_le
  · intro m
    rw [implicit_arity_le, implicit_arity_le]
    have hneeded : (∀ id ∈ f.targets, needed' id ≤ m) ↔ ∀ id ∈ f.targets, needed id ≤ m :=
      forall₂_congr fun id hid => by rw [h id hid]
    rw [hneeded]
  · intro m
    rw [explicit_arity_le, explicit_arity_le]

theorem Formula.annotate_congr {f : Formula} (h : f.All fun g => judge' g = judge g)
    {profile : Profile} : f.annotate judge' profile = f.annotate judge profile := by
  induction f using Formula.induction generalizing profile with
  | mk nodes p ih =>
    have hnodes : ∀ n ∈ nodes, n.annotate judge' = n.annotate judge := by
      intro n hn
      cases n with
      | call name args target =>
        have hargs : ∀ a ∈ args, a.annotate judge' (judge' a) = a.annotate judge (judge a) := by
          intro a ha
          have hall := h.argument hn ha
          rw [hall.self, ih name args target hn a ha hall]
        simp only [Node.annotate, annotateAll_eq_map, List.map_congr_left hargs]
      | _ => rfl
    simp only [Formula.annotate, Node.annotateAll_eq_map, List.map_congr_left hnodes]

theorem Formula.all_targets {P : Nat → Prop} {f : Formula} (h : ∀ id ∈ f.targets, P id) :
    f.All fun g => ∀ id ∈ g.targets, P id := by
  intro g hg
  induction hg with
  | refl f => exact h
  | argument hc ha _ ih =>
    apply ih
    intro id hid
    exact h id (mem_targets.2 ⟨_, hc, Node.mem_targets_call.2 (.inr ⟨_, ha, hid⟩)⟩)

end

section
variable {table table' : List Equation} {limit : Nat}

theorem Search.visit_map_bare {bound id : Nat} {s : Search} :
    visit (table.map Equation.bare) bound id s = visit table bound id s := by
  induction bound generalizing id s with
  | zero => rfl
  | succ bound ih =>
    by_cases hp : s[id]? = some .pending
    · cases he : table[id]? with
      | none => simp only [visit, hp, List.getElem?_map, he, Option.map_none]
      | some e =>
        have he' : (table.map Equation.bare)[id]? = some e.bare := by
          rw [List.getElem?_map, he]
          rfl
        rw [visit_succ hp he, visit_succ hp he']
        simp only [Equation.bare, Formula.bare, Formula.targets_annotate, Formula.arity_annotate,
          ih]
    · rw [visit_of_ne_pending hp, visit_of_ne_pending hp]

theorem Search.all_map_bare : Search.all (table.map Equation.bare) = Search.all table := by
  simp only [Search.all, List.length_map, Search.visit_map_bare]

theorem Formula.profileFor_map_bare {f : Formula} {arity : Arity} :
    f.profileFor (table.map Equation.bare) limit arity = f.profileFor table limit arity := by
  simp only [profileFor, runsOnZeros, evaluate, enter_map_bare]

theorem Formula.profileFor_bare {f : Formula} {arity : Arity} :
    f.bare.profileFor table limit arity = f.profileFor table limit arity := by
  simp only [profileFor, runsOnZeros, evaluate, bare, run_annotate]

theorem Formula.judged_bare {found : Search} (f : Formula) :
    judged table limit found f.bare = judged table limit found f := by
  rw [judged, judged, profileFor_bare, bare, arity_annotate]

theorem profiled_map_bare : profiled (table.map Equation.bare) limit = profiled table limit := by
  have hjudged : Formula.judged (table.map Equation.bare) limit
      (Search.all (table.map Equation.bare)) =
        Formula.judged table limit (Search.all table) := by
    funext f
    rw [Formula.judged, Formula.judged, Search.all_map_bare, Formula.profileFor_map_bare]
  apply List.ext_getElem?
  intro id
  rw [profiled_getElem?, profiled_getElem?, List.getElem?_map, Option.map_map, hjudged,
    Search.all_map_bare]
  congr 1
  funext e
  simp only [Function.comp_apply, Equation.bare, Formula.profileFor_map_bare,
    Formula.profileFor_bare, Formula.annotate_bare Formula.judged_bare]

theorem profiled_profiled : profiled (profiled table limit) limit = profiled table limit := by
  rw [← profiled_map_bare, map_bare_profiled, profiled_map_bare]

def Profile.Allows (p : Profile) (coordinates arguments : Nat) : Prop :=
  p.valid = true ∧ p.arity.implicit ≤ coordinates ∧ p.arity.explicit ≤ arguments

theorem Profile.Allows.valid {p : Profile} {coordinates arguments : Nat}
    (h : p.Allows coordinates arguments) : p.valid = true := h.1

theorem Profile.allows_self {p : Profile} (h : p.valid = true) :
    p.Allows p.arity.implicit p.arity.explicit := ⟨h, le_rfl, le_rfl⟩

theorem Profile.eq_of_allows {p q : Profile}
    (h : ∀ coordinates arguments, p.Allows coordinates arguments ↔ q.Allows coordinates arguments) :
    p.valid = q.valid ∧ (p.valid = true → p = q) := by
  have hvalid : p.valid = q.valid := by
    rw [Bool.eq_iff_iff]
    constructor
    · intro hp
      exact ((h _ _).1 (allows_self hp)).valid
    · intro hq
      exact ((h _ _).2 (allows_self hq)).valid
  refine ⟨hvalid, fun hp => ?_⟩
  obtain ⟨-, himplicit, hexplicit⟩ := (h _ _).1 (allows_self hp)
  obtain ⟨-, himplicit', hexplicit'⟩ := (h _ _).2 (allows_self (hvalid ▸ hp))
  have harity : p.arity = q.arity := by
    apply Arity.eq_of_le
    · intro m
      omega
    · intro m
      omega
  cases p
  cases q
  rw [Profile.mk.injEq]
  exact ⟨harity, hvalid⟩

theorem Profile.eq_of_contracts {p q : Profile}
    {run run' : List Float → List Float → Except EvalError Float}
    (hp : ∀ coordinates arguments, (∃ x, run coordinates arguments = .ok x) ↔
      p.Allows coordinates.length arguments.length)
    (hq : ∀ coordinates arguments, (∃ x, run' coordinates arguments = .ok x) ↔
      q.Allows coordinates.length arguments.length)
    (h : ∀ coordinates arguments, run coordinates arguments = run' coordinates arguments) :
    p.valid = q.valid ∧ (p.valid = true → p = q) := by
  apply eq_of_allows
  intro coordinates arguments
  have hzeros := hp (List.replicate coordinates 0) (List.replicate arguments 0)
  have hzeros' := hq (List.replicate coordinates 0) (List.replicate arguments 0)
  rw [h, hzeros'] at hzeros
  rw [List.length_replicate, List.length_replicate] at hzeros
  exact hzeros.symm

theorem profiled_allows (htable : ∀ e ∈ table, e.Sound) {id : Nat} {e : Equation}
    (he : (profiled table limit)[id]? = some e) (coordinates arguments : List Float) :
    (∃ x, e.formula.evaluate (profiled table limit) limit coordinates arguments = .ok x) ↔
      e.formula.profile.Allows coordinates.length arguments.length :=
  (profiled_contract htable he).2.2 coordinates arguments

theorem sound_profiled (htable : ∀ e ∈ table, e.Sound) : ∀ e ∈ profiled table limit, e.Sound :=
  fun _ he => Equation.sound_of_mem_profiled htable he

theorem profiled_runnable (htable : ∀ e ∈ table, e.Sound) {id : Nat} {e : Equation}
    (he : (profiled table limit)[id]? = some e) (hv : e.formula.profile.valid = true) :
    e.formula.Runnable (profiled table limit) e.formula.profile.arity.implicit limit := by
  have hsound : e.Sound := sound_profiled htable e (List.mem_of_getElem? he)
  have hzeros := (profiled_allows htable he
    (List.replicate e.formula.profile.arity.implicit 0)
    (List.replicate e.formula.profile.arity.explicit 0)).2
  simp only [List.length_replicate] at hzeros
  have hrun := (Formula.evaluate_isOk (sound_profiled htable) hsound.all_balanced _ _).1
    (hzeros (Profile.allows_self hv))
  rw [List.length_replicate] at hrun
  exact hrun.1

theorem valid_of_runnable (htable : ∀ e ∈ table, e.Sound) {id coordinates : Nat} {e : Equation}
    (he : (profiled table limit)[id]? = some e)
    (hr : e.formula.Runnable (profiled table limit) coordinates limit) :
    e.formula.profile.valid = true := by
  have hsound : e.Sound := sound_profiled htable e (List.mem_of_getElem? he)
  refine ((profiled_allows htable he (List.replicate coordinates 0)
    (List.replicate e.params.length 0)).1 ?_).valid
  rw [Formula.evaluate_isOk (sound_profiled htable) hsound.all_balanced]
  rw [List.length_replicate, List.length_replicate]
  exact ⟨hr, hsound.all_argumentsBelow⟩

theorem valid_of_mem_targets (htable : ∀ e ∈ table, e.Sound) {id t : Nat} {e : Equation}
    (he : (profiled table limit)[id]? = some e) (hv : e.formula.profile.valid = true)
    (ht : t ∈ e.formula.targets) :
    ∃ d, (profiled table limit)[t]? = some d ∧ d.formula.profile.valid = true := by
  obtain ⟨d, deeper, hd, hlimit, hrun⟩ := (profiled_runnable htable he hv).target ht
  have hle : deeper ≤ limit := by omega
  exact ⟨d, hd, valid_of_runnable htable hd (hrun.deepen hle)⟩

variable {places : Nat → Prop}

theorem profileFor_agree (limit : Nat) (htable : ∀ e ∈ table, e.Sound)
    (htable' : ∀ e ∈ table', e.Sound) (h : AgreeOn places table table') {id : Nat} {e : Equation}
    (hid : places id) (he : table[id]? = some e) :
    let p := e.formula.profileFor table limit ((Search.all table).arityAt id)
    let p' := e.formula.profileFor table' limit ((Search.all table').arityAt id)
    p'.valid = p.valid ∧ (p'.valid = true → p' = p) := by
  intro p p'
  have he' : table'[id]? = some e := (h.same id hid).trans he
  have hexact := Search.exact_all (List.getElem?_eq_some_iff.1 he).1
  have hexact' := Search.exact_all (List.getElem?_eq_some_iff.1 he').1
  refine Profile.eq_of_contracts (evaluate_iff_valid htable' he' hexact')
    (evaluate_iff_valid htable he hexact) fun coordinates arguments => ?_
  exact h.evaluate (h.closed id e hid he)

/-- The profiles of valid equations do not depend on equations elsewhere in the table. -/
theorem profiled_agree (htable : ∀ e ∈ table, e.Sound) (htable' : ∀ e ∈ table', e.Sound)
    (h : AgreeOn places table table')
    (hvalid : ∀ id e, places id → (profiled table limit)[id]? = some e →
      e.formula.profile.valid = true) {id : Nat} (hid : places id) :
    (profiled table' limit)[id]? = (profiled table limit)[id]? := by
  have hprofile : ∀ id e, places id → table[id]? = some e →
      e.formula.profileFor table' limit ((Search.all table').arityAt id) =
        e.formula.profileFor table limit ((Search.all table).arityAt id) := by
    intro id e hid he
    obtain ⟨hsame, heq⟩ := profileFor_agree limit htable htable' h hid he
    have hv := hvalid id _ hid (profiled_eq_some he)
    rw [annotate_profile] at hv
    exact heq (hsame.trans hv)
  rw [profiled_getElem?, profiled_getElem?, h.same id hid]
  apply Option.map_congr
  intro e he
  have htargets : ∀ t ∈ e.formula.targets,
      places t ∧ (Search.all table').needed t = (Search.all table).needed t := by
    intro t ht
    have hplace := h.closed id e hid he t ht
    rw [← Formula.targets_annotate] at ht
    obtain ⟨_, hd, -⟩ :=
      valid_of_mem_targets htable (profiled_eq_some he) (hvalid id _ hid (profiled_eq_some he)) ht
    rw [profiled_getElem?] at hd
    obtain ⟨d, hd, -⟩ := Option.map_eq_some_iff.1 hd
    have harity := congrArg Profile.arity (hprofile t d hplace hd)
    simp only [Formula.profileFor] at harity
    exact ⟨hplace, by rw [Search.needed, Search.needed, harity]⟩
  have hjudged : e.formula.All fun g => Formula.judged table' limit (Search.all table') g =
      Formula.judged table limit (Search.all table) g := by
    intro g hg
    have hplaces := Formula.all_targets htargets g hg
    have harity := Formula.arity_congr fun t ht => (hplaces t ht).2
    have hevaluate := fun coordinates arguments =>
      @AgreeOn.evaluate _ _ _ limit coordinates arguments h g fun t ht => (hplaces t ht).1
    simp only [Formula.judged, Formula.profileFor, Formula.runsOnZeros, harity, hevaluate]
  simp only [hprofile id e hid he, Formula.annotate_congr hjudged]

end

end Formulary
