import Formulary.Equation.Compile
import Formulary.Proofs.Formula.Calls
import Formulary.Proofs.Formula.Sound
import Formulary.Proofs.Formula.Steps

/-!
# Compiled formulas are sound

The depth that is counted while nodes are written is the height of the stack behind
them. It is kept for every yard of a reading, those of the open calls included, so the
formula of a line and the arguments in it are balanced. Along with it goes what each node
has by the way it is written: that it reads only what is there, or that it is not linked.
-/
namespace Formulary

section
variable {P : Node → Prop}

def Formula.Composed (P : Node → Prop) (f : Formula) : Prop := f.Balanced ∧ ∀ n ∈ f.nodes, P n

/-- Nodes have the property when they are written, calls if their arguments are made of such
nodes. -/
structure Node.Written (position : String → Option Nat) (P : Node → Prop) : Prop where
  literal : ∀ value, P (.literal value)
  operator : ∀ op, P (.operator (.binary op))
  reference : ∀ name, P (reference position name)
  call : ∀ name args, (∀ a ∈ args, a.Composed P) → P (.call name args none)

def Postfix.Composed (P : Node → Prop) (out : Postfix) : Prop :=
  heightAfter out.nodes 0 = some out.depth ∧ ∀ n ∈ out.nodes, P n

namespace Postfix

theorem composed_empty : Composed P {} := ⟨rfl, fun _ hn => absurd hn List.not_mem_nil⟩

theorem Composed.concat {out : Postfix} (h : out.Composed P) {n : Node} {depth : Nat}
    (hd : n.heightAfter out.depth = some depth) (hn : P n) :
    Composed P ⟨out.nodes ++ [n], depth⟩ := by
  refine ⟨(heightAfter_concat h.1 n).trans hd, fun m hm => ?_⟩
  rcases List.mem_append.1 hm with hm | hm
  · exact h.2 m hm
  · obtain rfl := List.mem_singleton.1 hm
    exact hn

theorem Composed.operator {out out' : Postfix} (h : out.Composed P)
    (hop : ∀ op, P (.operator (.binary op))) {limit : Nat} {op : BinaryOp} {s : Span}
    (ho : out.operator limit op s = .ok out') : out'.Composed P := by
  obtain ⟨hd, -, rfl⟩ := operator_eq_ok.1 ho
  refine h.concat ?_ (hop op)
  have ha : (Operator.binary op).arity = 2 := rfl
  simp only [Node.heightAfter, ha, hd, ↓reduceIte, Option.some.injEq]
  omega

end Postfix

namespace Yard

theorem release_induction {limit : Nat} {first : BinaryOp → Bool} {P : Postfix → Prop}
    (hP : ∀ out op s out', P out → out.operator limit op s = .ok out' → P out')
    {pending : List Pending} : ∀ {out : Postfix} {y : Yard}, P out →
      release limit first pending out = .ok y → P y.written := by
  induction pending with
  | nil =>
    intro out y h hr
    obtain rfl := Except.ok.inj hr
    exact h
  | cons top rest ih =>
    intro out y h hr
    cases top with
    | group =>
      obtain rfl := Except.ok.inj hr
      exact h
    | operator op s =>
      rw [release] at hr
      split at hr
      · obtain ⟨out', ho, hr⟩ := bind_eq_ok.1 hr
        exact ih (hP _ _ _ _ h ho) hr
      · obtain rfl := Except.ok.inj hr
        exact h

section
variable {limit : Nat} {s : Span} {y y' : Yard}

theorem composed_of_release (hop : ∀ op, P (.operator (.binary op))) {first : BinaryOp → Bool}
    {pending : List Pending} {out : Postfix} (h : out.Composed P)
    (hr : release limit first pending out = .ok y) : y.written.Composed P :=
  release_induction (fun _ _ _ _ hs ho => hs.operator hop ho) h hr

theorem composed_of_operand {n : Node} (h : y.written.Composed P)
    (ho : y.operand limit n s = .ok y') (hd : ∀ depth, n.heightAfter depth = some (depth + 1))
    (hn : P n) : y'.written.Composed P := by
  obtain ⟨-, rfl⟩ := operand_eq_ok.1 ho
  exact h.concat (hd _) hn

theorem composed_of_operator (hop : ∀ op, P (.operator (.binary op))) {op : BinaryOp}
    (h : y.written.Composed P) (ho : y.operator limit op s = .ok y') : y'.written.Composed P := by
  obtain ⟨z, hz, rfl⟩ := operator_eq_ok.1 ho
  have hs : z.written.Composed P := composed_of_release hop h hz
  exact hs

theorem composed_of_closeGroup (hop : ∀ op, P (.operator (.binary op)))
    (h : y.written.Composed P) (hc : y.closeGroup limit s = .ok y') : y'.written.Composed P := by
  obtain ⟨rest, out, hz, rfl⟩ := closeGroup_eq_ok.1 hc
  have hs : out.Composed P := composed_of_release hop h hz
  exact hs

theorem composed_of_finish (hop : ∀ op, P (.operator (.binary op))) {f : Formula}
    (h : y.written.Composed P) (hf : y.finish limit s = .ok f) : f.Composed P := by
  obtain ⟨nodes, hc, rfl⟩ := finish_eq_ok.1 hf
  exact composed_of_closeGroup hop h hc

end

end Yard

theorem reference_heightAfter (position : String → Option Nat) (name : String) (height : Nat) :
    (reference position name).heightAfter height = some (height + 1) :=
  reference_cases (P := fun n => n.heightAfter height = some (height + 1)) (fun _ _ => rfl)
    (fun _ _ => rfl) rfl

structure Reading.Composed (P : Node → Prop) (r : Reading) : Prop where
  yard : r.yard.written.Composed P
  calls : ∀ c ∈ r.calls, c.outer.written.Composed P ∧ ∀ a ∈ c.args, a.Composed P

namespace Scope

variable {s : Scope} {r q : Reading}

theorem composed_of_settle (hp : Node.Written s.position P) (h : r.Composed P)
    (hq : s.settle r = .ok q) : q.Composed P := by
  rw [settle] at hq
  split at hq
  · obtain ⟨y, hy, hq⟩ := bind_eq_ok.1 hq
    obtain rfl := pure_eq_ok.1 hq
    exact ⟨Yard.composed_of_operand h.yard hy (reference_heightAfter _ _) (hp.reference _),
      h.calls⟩
  · obtain rfl := Except.ok.inj hq
    exact ⟨h.yard, h.calls⟩

theorem composed_of_close (hp : Node.Written s.position P) {c : OpenCall} {y : Yard}
    (hy : c.close s.limit = .ok y) (ho : c.outer.written.Composed P)
    (ha : ∀ a ∈ c.args, a.Composed P) : y.written.Composed P :=
  Yard.composed_of_operand ho hy (fun _ => rfl) (hp.call _ _ ha)

theorem composed_of_advances (hp : Node.Written s.position P) {t : Token} (h : r.Composed P)
    (ha : Advances s r t (.going q)) : q.Composed P := by
  cases ha with
  | number _ hy =>
    exact ⟨Yard.composed_of_operand h.yard hy (fun _ => rfl) (hp.literal _), h.calls⟩
  | name => exact ⟨h.yard, h.calls⟩
  | operator _ hy => exact ⟨Yard.composed_of_operator hp.operator h.yard hy, h.calls⟩
  | openGroup => exact ⟨h.yard, h.calls⟩
  | closeGroup _ hy => exact ⟨Yard.composed_of_closeGroup hp.operator h.yard hy, h.calls⟩
  | argument _ hf hc =>
    have hcalls := h.calls
    rw [hc, List.forall_mem_cons] at hcalls
    refine ⟨Postfix.composed_empty, List.forall_mem_cons.2 ⟨⟨hcalls.1.1, ?_⟩, hcalls.2⟩⟩
    exact List.forall_mem_append.2 ⟨hcalls.1.2,
      List.forall_mem_singleton.2 (Yard.composed_of_finish hp.operator h.yard hf)⟩
  | closeCall _ hf hc hy =>
    have hcalls := h.calls
    rw [hc, List.forall_mem_cons] at hcalls
    refine ⟨composed_of_close hp hy hcalls.1.1 ?_, hcalls.2⟩
    exact List.forall_mem_append.2 ⟨hcalls.1.2,
      List.forall_mem_singleton.2 (Yard.composed_of_finish hp.operator h.yard hf)⟩

theorem composed_of_moves (hp : Node.Written s.position P) {t : Token} (h : r.Composed P)
    (hm : Moves s r t (.going q)) : q.Composed P := by
  cases hm with
  | openCall =>
    exact ⟨Postfix.composed_empty,
      List.forall_mem_cons.2 ⟨⟨h.yard, fun a ha => absurd ha List.not_mem_nil⟩, h.calls⟩⟩
  | closeCall _ _ hc hy =>
    have hcalls := h.calls
    rw [hc, List.forall_mem_cons] at hcalls
    exact ⟨composed_of_close hp hy hcalls.1.1 hcalls.1.2, hcalls.2⟩
  | advance _ hq ha => exact composed_of_advances hp (composed_of_settle hp h hq) ha

theorem composed_of_ended (hp : Node.Written s.position P) {t : Token} {f : Formula}
    (h : r.Composed P) (hm : Moves s r t (.ended f)) : f.Composed P := by
  cases hm with
  | advance _ hq ha =>
    cases ha with
    | ends _ hf => exact Yard.composed_of_finish hp.operator (composed_of_settle hp h hq).yard hf

theorem composed_of_compile (hp : Node.Written s.position P) {ts rest : List Token} {f : Formula}
    (h : s.compile {} ts = .ok (f, rest)) : f.Composed P := by
  have h₀ : Reading.Composed P {} :=
    ⟨Postfix.composed_empty, fun c hc => absurd hc List.not_mem_nil⟩
  refine compile_induction (fun _ _ _ hr hm => composed_of_moves hp hr hm)
    (fun _ _ _ hr hm => composed_of_ended hp hr hm) (fun r g hr hf => ?_) h₀ h
  obtain ⟨-, q, hq, hg, -⟩ := finish_eq_ok.1 hf
  exact Yard.composed_of_finish hp.operator (composed_of_settle hp hr hq).yard hg

end Scope

end

theorem Node.Sound.written {params : Nat} {position : String → Option Nat}
    (hp : ∀ name i, position name = some i → i < params) :
    Node.Written position (Node.Sound params) where
  literal _ := trivial
  operator _ := trivial
  reference name :=
    reference_cases (P := Node.Sound params) (fun _ hi => coordinate?_lt hi) (hp name)
      fun _ ha => absurd ha List.not_mem_nil
  call _ _ h a ha := Formula.sound_iff.2 (h a ha)

theorem Node.Calls.written (position : String → Option Nat) :
    Node.Written position (Node.Calls fun _ target => target = none) where
  literal _ := trivial
  operator _ := trivial
  reference _ :=
    reference_cases (P := Node.Calls fun _ target => target = none) (fun _ _ => trivial)
      (fun _ _ => trivial) ⟨rfl, fun _ ha => absurd ha List.not_mem_nil⟩
  call _ _ h := ⟨rfl, fun a ha => Formula.calls_iff.2 (h a ha).2⟩

namespace Equation

theorem compile_eq_ok {limit : Nat} {source : String} {e : Equation}
    (h : compile limit source = .ok e) :
    ∃ tokens signature body last, Token.scan source = .ok tokens ∧
      Signature.read tokens = .ok (signature, body) ∧ body.getLast? = some last ∧
      Scope.compile ⟨limit, signature.position, last.span⟩ {} body = .ok (e.formula, []) ∧
      e.name = signature.name ∧ e.params = signature.params := by
  rw [compile] at h
  obtain ⟨tokens, hscan, h⟩ := bind_eq_ok.1 h
  obtain ⟨⟨signature, body⟩, hread, h⟩ := bind_eq_ok.1 h
  simp only at h
  split at h
  · simp at h
  · rename_i last hlast
    obtain ⟨⟨formula, rest⟩, hc, h⟩ := bind_eq_ok.1 h
    cases rest with
    | nil =>
      obtain rfl := pure_eq_ok.1 h
      exact ⟨tokens, signature, body, last, hscan, hread, hlast, hc, rfl, rfl⟩
    | cons t rest => simp at h

theorem composed_of_compile {limit : Nat} {source : String} {e : Equation} {P : Node → Prop}
    (hP : ∀ position, (∀ name i, position name = some i → i < e.params.length) →
      Node.Written position P)
    (h : compile limit source = .ok e) : e.formula.Composed P := by
  obtain ⟨_, signature, _, last, -, -, -, hc, -, hparams⟩ := compile_eq_ok h
  refine Scope.composed_of_compile (hP _ fun name i hi => ?_) hc
  rw [hparams]
  exact (List.findIdx?_eq_some_iff_findIdx_eq.1 hi).1

theorem compile_sound {limit : Nat} {source : String} {e : Equation}
    (h : compile limit source = .ok e) : e.formula.Sound e.params.length :=
  Formula.sound_iff.2 (composed_of_compile (fun _ hp => Node.Sound.written hp) h)

theorem ofLine_sound {limit : Nat} {source : String} {e : Equation}
    (h : ofLine limit source = .ok e) : e.formula.Sound e.params.length :=
  compile_sound (mapError_eq_ok.1 h)

theorem calls_of_ofLine {limit : Nat} {source : String} {e : Equation}
    (h : ofLine limit source = .ok e) : e.formula.Calls fun _ target => target = none :=
  Formula.calls_iff.2
    (composed_of_compile (fun position _ => Node.Calls.written position) (mapError_eq_ok.1 h)).2

end Equation

end Formulary
