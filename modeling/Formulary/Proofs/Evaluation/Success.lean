import Formulary.Proofs.Evaluation.Failures
import Formulary.Proofs.Formula.Reaches

/-!
# When an evaluation succeeds

A balanced formula has a value exactly when all that it reads is there and each of its
calls passes. Whether a call passes depends on its target and on the number of its
arguments, not on any value: the target must be bound, and what it reaches must be
bound, supplied and not too deep.
-/
namespace Formulary

def Formula.CallsPass (Allowed : Option Nat → Nat → Prop) (f : Formula) : Prop :=
  ∀ name args target, .call name args target ∈ f.nodes → Allowed target args.length

/-- Whether a call gives a value, once its arguments have theirs, is known beforehand. -/
def CallRule.Decided (rule : CallRule) (Allowed : Option Nat → Nat → Prop) : Prop :=
  ∀ name target (values : List Float),
    (∃ body, rule name target values.length = .ok body ∧ ∃ x, body values = .ok x) ↔
      Allowed target values.length

section
variable {rule : CallRule} {Allowed : Option Nat → Nat → Prop} {coordinates arguments : List Float}

def Node.Runs (rule : CallRule) (Allowed : Option Nat → Nat → Prop)
    (coordinates arguments : List Float) : Node → Prop
  | .coordinate i => i < coordinates.length
  | .argument i => i < arguments.length
  | .call _ args target =>
    Allowed target args.length ∧ ∀ a ∈ args, ∃ x, a.run rule coordinates arguments = .ok x
  | _ => True

theorem Node.run_isOk (hrule : rule.Decided Allowed) {n : Node} {stack : List Float}
    (hh : (n.heightAfter stack.length).isSome) :
    (∃ stack', n.run rule coordinates arguments stack = .ok stack') ↔
      n.Runs rule Allowed coordinates arguments := by
  cases n with
  | literal value => exact ⟨fun _ => trivial, fun _ => ⟨_, rfl⟩⟩
  | coordinate i =>
    simp only [Node.run, Runs]
    cases hi : coordinates[i]? with
    | none => simpa using List.getElem?_eq_none_iff.1 hi
    | some x => simpa using (List.getElem?_eq_some_iff.1 hi).1
  | argument i =>
    simp only [Node.run, Runs]
    cases hi : arguments[i]? with
    | none => simpa using List.getElem?_eq_none_iff.1 hi
    | some x => simpa using (List.getElem?_eq_some_iff.1 hi).1
  | operator op =>
    have hle : op.arity ≤ stack.length := by simpa [heightAfter] using hh
    exact ⟨fun _ => trivial, fun _ => Operator.run_of_arity_le hle⟩
  | call name args target =>
    simp only [run_call_eq_ok, Runs]
    constructor
    · rintro ⟨stack', body, hbody, values, hvalues, x, hx, -⟩
      have hlen := Formula.runAll_length hvalues
      rw [← hlen] at hbody ⊢
      exact ⟨(hrule name target values).1 ⟨body, hbody, x, hx⟩,
        Formula.runAll_isOk.1 ⟨values, hvalues⟩⟩
    · rintro ⟨hpass, hargs⟩
      obtain ⟨values, hvalues⟩ := Formula.runAll_isOk.2 hargs
      have hlen := Formula.runAll_length hvalues
      rw [← hlen] at hpass ⊢
      obtain ⟨body, hbody, x, hx⟩ := (hrule name target values).2 hpass
      exact ⟨_, body, hbody, values, hvalues, x, hx, rfl⟩

theorem Node.runAll_isOk (hrule : rule.Decided Allowed) {nodes : List Node} {stack : List Float}
    (hh : (Formulary.heightAfter nodes stack.length).isSome) :
    (∃ stack', Node.runAll rule coordinates arguments nodes stack = .ok stack') ↔
      ∀ n ∈ nodes, n.Runs rule Allowed coordinates arguments := by
  induction nodes generalizing stack with
  | nil => exact ⟨fun _ n hn => absurd hn List.not_mem_nil, fun _ => ⟨stack, rfl⟩⟩
  | cons n rest ih =>
    rw [heightAfter_cons] at hh
    rw [List.forall_mem_cons, ← run_isOk hrule (Option.isSome_of_isSome_bind hh)]
    constructor
    · rintro ⟨stack', h⟩
      obtain ⟨mid, hn, hrest⟩ := bind_eq_ok.1 h
      rw [Node.run_length hn] at hh
      exact ⟨⟨mid, hn⟩, (ih hh).1 ⟨stack', hrest⟩⟩
    · rintro ⟨⟨mid, hn⟩, hrest⟩
      rw [Node.run_length hn] at hh
      obtain ⟨stack', h⟩ := (ih hh).2 hrest
      exact ⟨stack', bind_eq_ok.2 ⟨mid, hn, h⟩⟩

theorem Formula.run_isOk_iff_nodes (hrule : rule.Decided Allowed) {f : Formula} (hb : f.Balanced) :
    (∃ x, f.run rule coordinates arguments = .ok x) ↔
      ∀ n ∈ f.nodes, n.Runs rule Allowed coordinates arguments := by
  have hsome : (heightAfter f.nodes ([] : List Float).length).isSome := Option.isSome_of_eq_some hb
  rw [← Node.runAll_isOk hrule hsome]
  simp only [run_eq_ok]
  constructor
  · intro h
    obtain ⟨x, hx⟩ := h
    exact ⟨[x], hx⟩
  · intro h
    obtain ⟨stack, hs⟩ := h
    have hlen : stack.length = 1 := Option.some.inj ((Node.runAll_length hs).symm.trans hb)
    obtain ⟨x, rfl⟩ := List.length_eq_one_iff.1 hlen
    exact ⟨x, hs⟩

theorem Formula.run_isOk (hrule : rule.Decided Allowed) {f : Formula} (hb : f.All Balanced) :
    (∃ x, f.run rule coordinates arguments = .ok x) ↔
      f.All (CoordinatesBelow coordinates.length) ∧ f.All (ArgumentsBelow arguments.length) ∧
        f.All (CallsPass Allowed) := by
  induction f using Formula.induction with
  | mk nodes profile ih =>
    rw [run_isOk_iff_nodes hrule hb.self, nodes_mk]
    constructor
    · intro h
      have hargs : ∀ name args target, .call name args target ∈ nodes → ∀ a ∈ args,
          a.All (CoordinatesBelow coordinates.length) ∧ a.All (ArgumentsBelow arguments.length) ∧
            a.All (CallsPass Allowed) := fun name args target hc a ha =>
        (ih name args target hc a ha (hb.argument hc ha)).1 ((h _ hc).2 a ha)
      refine ⟨all_iff.2 ⟨fun i hi => h _ hi, fun name args target hc a ha => ?_⟩,
        all_iff.2 ⟨fun i hi => h _ hi, fun name args target hc a ha => ?_⟩,
        all_iff.2 ⟨fun name args target hc => (h _ hc).1, fun name args target hc a ha => ?_⟩⟩
      · exact (hargs name args target hc a ha).1
      · exact (hargs name args target hc a ha).2.1
      · exact (hargs name args target hc a ha).2.2
    · rintro ⟨hcoord, harg, hcalls⟩ n hn
      cases n with
      | coordinate i => exact hcoord.self i hn
      | argument i => exact harg.self i hn
      | call name args target =>
        refine ⟨hcalls.self name args target hn, fun a ha => ?_⟩
        exact (ih name args target hn a ha (hb.argument hn ha)).2
          ⟨hcoord.argument hn ha, harg.argument hn ha, hcalls.argument hn ha⟩
      | _ => trivial

end

/-- What a formula needs to be evaluated, beside its own arguments, with `left` more calls
allowed inside one another. -/
structure Formula.Runnable (table : List Equation) (coordinates left : Nat) (f : Formula) :
    Prop where
  bound : f.AllReached table (Bound table)
  supplied : f.AllReached table (CoordinatesBelow coordinates)
  shallow : f.nesting table ≤ left

section
variable {table : List Equation} {limit : Nat}

theorem one_add_le_cast {depth : ℕ∞} {left : Nat} :
    1 + depth ≤ left ↔ ∃ deeper : Nat, left = deeper + 1 ∧ depth ≤ deeper := by
  constructor
  · intro h
    cases left with
    | zero => simp at h
    | succ deeper =>
      refine ⟨deeper, rfl, ?_⟩
      rw [Nat.cast_add, Nat.cast_one, add_comm] at h
      exact (ENat.add_le_add_iff_right ENat.one_ne_top).1 h
  · rintro ⟨deeper, rfl, h⟩
    rw [Nat.cast_add, Nat.cast_one, add_comm]
    exact add_le_add_left h 1

def Passes (table : List Equation) (coordinates left : Nat) (target : Option Nat) (found : Nat) :
    Prop :=
  ∃ id callee deeper, target = some id ∧ table[id]? = some callee ∧ found = callee.params.length ∧
    left = deeper + 1 ∧ callee.formula.Runnable table coordinates deeper

theorem Formula.CallsPass.targets {f : Formula} {coordinates left : Nat}
    (h : f.All (CallsPass (Passes table coordinates left))) :
    ∀ id ∈ f.targets, ∃ callee deeper, table[id]? = some callee ∧
      left = deeper + 1 ∧ callee.formula.Runnable table coordinates deeper := by
  refine forall_mem_targets.2 fun g hg name args id hc => ?_
  obtain ⟨_, callee, deeper, hid, hcallee, -, hleft, hrun⟩ := h g hg name args _ hc
  obtain rfl := Option.some.inj hid
  exact ⟨callee, deeper, hcallee, hleft, hrun⟩

theorem Formula.runnable_iff {f : Formula} {coordinates left : Nat} :
    f.Runnable table coordinates left ↔
      f.All (CoordinatesBelow coordinates) ∧ f.All (CallsPass (Passes table coordinates left)) := by
  constructor
  · rintro ⟨hb, hs, hn⟩
    obtain ⟨hb, hbt⟩ := allReached_iff.1 hb
    obtain ⟨hs, hst⟩ := allReached_iff.1 hs
    refine ⟨hs, fun g hg name args target hc => ?_⟩
    obtain ⟨id, callee, rfl, hcallee, hlen⟩ := hb g hg name args target hc
    have hid : id ∈ f.targets := mem_targets_of_holds hg hc
    obtain ⟨deeper, rfl, hdeep⟩ := one_add_le_cast.1 (nesting_le.1 hn id hid)
    rw [callDepth_eq hcallee] at hdeep
    exact ⟨id, callee, deeper, rfl, hcallee, hlen, rfl,
      hbt id hid callee hcallee, hst id hid callee hcallee, hdeep⟩
  · rintro ⟨hs, hp⟩
    have hpass := CallsPass.targets hp
    refine ⟨allReached_iff.2 ⟨fun g hg name args target hc => ?_, fun id hid e he => ?_⟩,
      allReached_iff.2 ⟨hs, fun id hid e he => ?_⟩, nesting_le.2 fun id hid => ?_⟩
    · obtain ⟨id, callee, deeper, htarget, hcallee, hlen, -, -⟩ := hp g hg name args target hc
      exact ⟨id, callee, htarget, hcallee, hlen⟩
    · obtain ⟨callee, deeper, hcallee, -, hrun⟩ := hpass id hid
      obtain rfl := Option.some.inj (hcallee.symm.trans he)
      exact hrun.bound
    · obtain ⟨callee, deeper, hcallee, -, hrun⟩ := hpass id hid
      obtain rfl := Option.some.inj (hcallee.symm.trans he)
      exact hrun.supplied
    · obtain ⟨callee, deeper, hcallee, hleft, hrun⟩ := hpass id hid
      refine one_add_le_cast.2 ⟨deeper, hleft, ?_⟩
      rw [callDepth_eq hcallee]
      exact hrun.shallow

theorem Formula.Runnable.target {f : Formula} {coordinates left id : Nat}
    (h : f.Runnable table coordinates left) (hid : id ∈ f.targets) :
    ∃ callee deeper, table[id]? = some callee ∧ left = deeper + 1 ∧
      callee.formula.Runnable table coordinates deeper :=
  CallsPass.targets (runnable_iff.1 h).2 id hid

theorem Formula.Runnable.deepen {f : Formula} {coordinates left left' : Nat}
    (h : f.Runnable table coordinates left) (hle : left ≤ left') :
    f.Runnable table coordinates left' :=
  ⟨h.bound, h.supplied, h.shallow.trans (Nat.cast_le.2 hle)⟩

theorem Formula.Sound.all_balanced {params : Nat} {f : Formula} (h : f.Sound params) :
    f.All Balanced := h.imp fun _ hg => hg.1

theorem Formula.Sound.all_argumentsBelow {params : Nat} {f : Formula} (h : f.Sound params) :
    f.All (ArgumentsBelow params) := h.imp fun _ hg _ hi => hg.2 _ hi

theorem enter_decided (htable : ∀ e ∈ table, e.Sound) (coordinates : List Float) (left : Nat) :
    (enter table limit coordinates left).Decided (Passes table coordinates.length left) := by
  induction left with
  | zero =>
    intro name target values
    constructor
    · rintro ⟨body, hbody, -⟩
      obtain ⟨_, _, -, -, hleft, -⟩ := enter_eq_ok.1 hbody
      simp at hleft
    · rintro ⟨_, _, _, -, -, -, hleft, -⟩
      simp at hleft
  | succ left ih =>
    intro name target values
    -- The target has all its arguments, so it runs when what it reaches allows it.
    have hcallee : ∀ {id : Nat} {callee : Equation}, table[id]? = some callee →
        values.length = callee.params.length →
        ((∃ x, callee.formula.run (enter table limit coordinates left) coordinates values = .ok x) ↔
          callee.formula.Runnable table coordinates.length left) := by
      intro id callee hid hlen
      have hsound : callee.Sound := htable callee (List.mem_of_getElem? hid)
      rw [Formula.run_isOk ih hsound.all_balanced, Formula.runnable_iff, hlen]
      exact ⟨fun h => ⟨h.1, h.2.2⟩, fun h => ⟨h.1, hsound.all_argumentsBelow, h.2⟩⟩
    constructor
    · rintro ⟨body, hbody, hx⟩
      obtain ⟨callee, deeper, htarget, hlen, hleft, rfl⟩ := enter_eq_ok.1 hbody
      obtain rfl := Nat.succ.inj hleft
      obtain ⟨id, rfl, hid⟩ := Option.bind_eq_some_iff.1 htarget
      exact ⟨id, callee, left, rfl, hid, hlen, rfl, (hcallee hid hlen).1 hx⟩
    · rintro ⟨id, callee, deeper, rfl, hid, hlen, hleft, hrun⟩
      obtain rfl := Nat.succ.inj hleft
      exact ⟨_, enter_eq_ok.2 ⟨callee, left, hid, hlen, rfl, rfl⟩, (hcallee hid hlen).2 hrun⟩

theorem Formula.evaluate_isOk (htable : ∀ e ∈ table, e.Sound) {f : Formula}
    (hb : f.All Balanced) (coordinates arguments : List Float) :
    (∃ x, f.evaluate table limit coordinates arguments = .ok x) ↔
      f.Runnable table coordinates.length limit ∧ f.All (ArgumentsBelow arguments.length) := by
  rw [evaluate]
  rw [run_isOk (enter_decided htable coordinates limit) hb, runnable_iff]
  exact ⟨fun h => ⟨⟨h.1, h.2.2⟩, h.2.1⟩, fun h => ⟨h.1.1, h.2, h.1.2⟩⟩

end

end Formulary
