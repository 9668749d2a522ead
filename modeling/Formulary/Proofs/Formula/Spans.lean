import Formulary.Proofs.Formula.Steps
import Mathlib.Data.List.Forall2

/-!
# Spans do not decide

Spans go into rejections only. Two readings that differ in nothing else take tokens of the same
kinds alike, so both compile to the same formula.
-/
namespace Formulary

inductive Pending.Alike : Pending → Pending → Prop
  | group : Alike .group .group
  | operator {op : BinaryOp} {s s' : Span} : Alike (.operator op s) (.operator op s')

structure Yard.Alike (y y' : Yard) : Prop where
  pending : List.Forall₂ Pending.Alike y.pending y'.pending
  written : y.written = y'.written

namespace Yard

variable {limit : Nat} {s s' : Span} {y y' z : Yard}

theorem Alike.start : Alike {} {} := ⟨.cons .group .nil, rfl⟩

theorem Alike.release {first : BinaryOp → Bool} {pending pending' : List Pending}
    (h : List.Forall₂ Pending.Alike pending pending') {out : Postfix}
    (hz : release limit first pending out = .ok z) :
    ∃ z', release limit first pending' out = .ok z' ∧ z.Alike z' := by
  induction h generalizing out with
  | nil =>
    obtain rfl := Except.ok.inj hz
    exact ⟨_, rfl, .nil, rfl⟩
  | cons htop hrest ih =>
    cases htop with
    | group =>
      obtain rfl := Except.ok.inj hz
      exact ⟨_, rfl, .cons .group hrest, rfl⟩
    | @operator op s s' =>
      by_cases hop : first op = true
      · simp only [Yard.release, hop, ↓reduceIte] at hz ⊢
        obtain ⟨out', hout, hz⟩ := bind_eq_ok.1 hz
        have hout' : out.operator limit op s' = .ok out' :=
          Postfix.operator_eq_ok.2 (Postfix.operator_eq_ok.1 hout)
        rw [hout', ok_bind]
        exact ih hz
      · simp only [Yard.release, hop, Bool.false_eq_true, ↓reduceIte] at hz ⊢
        obtain rfl := Except.ok.inj hz
        exact ⟨_, rfl, .cons .operator hrest, rfl⟩

theorem Alike.operand (h : y.Alike y') {n : Node} (hz : y.operand limit n s = .ok z)
    (s' : Span) : ∃ z', y'.operand limit n s' = .ok z' ∧ z.Alike z' := by
  obtain ⟨hfew, rfl⟩ := operand_eq_ok.1 hz
  rw [h.written] at hfew
  exact ⟨_, operand_eq_ok.2 ⟨hfew, rfl⟩, h.pending, by rw [h.written]⟩

theorem Alike.operator (h : y.Alike y') {op : BinaryOp} (hz : y.operator limit op s = .ok z) :
    ∃ z', y'.operator limit op s' = .ok z' ∧ z.Alike z' := by
  obtain ⟨w, hw, rfl⟩ := operator_eq_ok.1 hz
  rw [h.written] at hw
  obtain ⟨w', hw', halike⟩ := release h.pending hw
  exact ⟨_, operator_eq_ok.2 ⟨w', hw', rfl⟩, .cons .operator halike.pending, halike.written⟩

theorem Alike.openGroup (h : y.Alike y') : y.openGroup.Alike y'.openGroup :=
  ⟨.cons .group h.pending, h.written⟩

theorem Alike.closeGroup (h : y.Alike y') (hz : y.closeGroup limit s = .ok z) :
    ∃ z', y'.closeGroup limit s' = .ok z' ∧ z.Alike z' := by
  obtain ⟨rest, out, hrelease, rfl⟩ := closeGroup_eq_ok.1 hz
  rw [h.written] at hrelease
  obtain ⟨⟨pending', out'⟩, hrelease', hpending, rfl⟩ := release h.pending hrelease
  cases hpending with
  | cons htop hrest =>
    cases htop
    exact ⟨_, closeGroup_eq_ok.2 ⟨_, _, hrelease', rfl⟩, hrest, rfl⟩

theorem Alike.finish (h : y.Alike y') {f : Formula} (hf : y.finish limit s = .ok f) :
    y'.finish limit s' = .ok f := by
  obtain ⟨nodes, hclose, rfl⟩ := finish_eq_ok.1 hf
  obtain ⟨⟨pending', out'⟩, hclose', hpending, rfl⟩ := h.closeGroup hclose
  cases hpending
  exact finish_eq_ok.2 ⟨nodes, hclose', rfl⟩

end Yard

structure OpenCall.Alike (c c' : OpenCall) : Prop where
  name : c.name = c'.name
  args : c.args = c'.args
  outer : c.outer.Alike c'.outer

theorem OpenCall.Alike.close {limit : Nat} {c c' : OpenCall} {y : Yard} (h : c.Alike c')
    (hy : c.close limit = .ok y) : ∃ y', c'.close limit = .ok y' ∧ y.Alike y' := by
  rw [OpenCall.close, ← h.name, ← h.args]
  exact h.outer.operand hy _

theorem OpenCall.Alike.concat {c c' : OpenCall} (h : c.Alike c') (f : Formula) :
    Alike { c with args := c.args ++ [f] } { c' with args := c'.args ++ [f] } :=
  ⟨h.name, congrArg (· ++ [f]) h.args, h.outer⟩

inductive Mode.Alike : Mode → Mode → Prop
  | settled : Alike .settled .settled
  | named {name : String} {s s' : Span} : Alike (.named name s) (.named name s')
  | slot : Alike .slot .slot

theorem Mode.Alike.slot_iff {m m' : Mode} (h : m.Alike m') : m = .slot ↔ m' = .slot := by
  cases h <;> simp

theorem Mode.Alike.eq_named {name : String} {s : Span} {m : Mode} (h : Alike (.named name s) m) :
    ∃ s', m = .named name s' := by
  cases h
  exact ⟨_, rfl⟩

structure Reading.Alike (r r' : Reading) : Prop where
  calls : List.Forall₂ OpenCall.Alike r.calls r'.calls
  yard : r.yard.Alike r'.yard
  mode : r.mode.Alike r'.mode

inductive Progress.Alike : Progress → Progress → Prop
  | going {r r' : Reading} : r.Alike r' → Alike (.going r) (.going r')
  | ended {f : Formula} : Alike (.ended f) (.ended f)

theorem Reading.Alike.start : Alike {} {} := ⟨.nil, .start, .settled⟩

namespace Scope

variable {s : Scope} {r r' : Reading} {t t' : Token}

theorem alike_of_settle (last : Span) {q : Reading} (h : r.Alike r') (hq : s.settle r = .ok q) :
    ∃ q', settle { s with last } r' = .ok q' ∧ q.Alike q' := by
  obtain ⟨calls, yard, mode⟩ := r
  obtain ⟨calls', yard', mode'⟩ := r'
  obtain ⟨hcalls, hyard, hmode⟩ := h
  cases hmode with
  | settled | slot =>
    obtain rfl := Except.ok.inj hq
    exact ⟨_, rfl, hcalls, hyard, .settled⟩
  | @named name span span' =>
    obtain ⟨y, hy, hq⟩ := bind_eq_ok.1 hq
    obtain rfl := pure_eq_ok.1 hq
    obtain ⟨y', hy', halike⟩ := hyard.operand hy span'
    exact ⟨⟨calls', y', .settled⟩, by simp only [settle, hy', ok_bind]; rfl, hcalls, halike,
      .settled⟩

theorem alike_of_advances (last : Span) {p : Progress} (h : r.Alike r') (hk : t'.kind = t.kind)
    (ha : Advances s r t p) : ∃ p', Advances { s with last } r' t' p' ∧ p.Alike p' := by
  have hcalls := h.calls
  cases ha with
  | number ht hy =>
    obtain ⟨y', hy', hyard⟩ := h.yard.operand hy t'.span
    exact ⟨_, .number (hk.trans ht) hy', .going ⟨hcalls, hyard, h.mode⟩⟩
  | name ht => exact ⟨_, .name (hk.trans ht), .going ⟨hcalls, h.yard, .named⟩⟩
  | operator ht hy =>
    obtain ⟨y', hy', hyard⟩ := h.yard.operator hy
    exact ⟨_, .operator (hk.trans ht) hy', .going ⟨hcalls, hyard, h.mode⟩⟩
  | openGroup ht =>
    exact ⟨_, .openGroup (hk.trans ht), .going ⟨hcalls, h.yard.openGroup, h.mode⟩⟩
  | closeGroup ht hy =>
    obtain ⟨y', hy', hyard⟩ := h.yard.closeGroup hy
    exact ⟨_, .closeGroup (hk.trans ht) hy', .going ⟨hcalls, hyard, h.mode⟩⟩
  | ends ht hf hc =>
    rw [hc, List.forall₂_nil_left_iff] at hcalls
    rw [← hk] at ht
    exact ⟨_, .ends ht (h.yard.finish hf) hcalls, .ended⟩
  | argument ht hf hc =>
    rw [hc] at hcalls
    obtain ⟨c', calls', hcall, hcalls, hc'⟩ := List.forall₂_cons_left_iff.1 hcalls
    exact ⟨_, .argument (hk.trans ht) (h.yard.finish hf) hc',
      .going ⟨.cons (hcall.concat _) hcalls, .start, .slot⟩⟩
  | closeCall ht hf hc hy =>
    rw [hc] at hcalls
    obtain ⟨c', calls', hcall, hcalls, hc'⟩ := List.forall₂_cons_left_iff.1 hcalls
    obtain ⟨y', hy', hyard⟩ := (hcall.concat _).close hy
    exact ⟨_, .closeCall (hk.trans ht) (h.yard.finish hf) hc' hy',
      .going ⟨hcalls, hyard, .settled⟩⟩

theorem alike_of_moves (last : Span) {p : Progress} (h : r.Alike r') (hk : t'.kind = t.kind)
    (hm : Moves s r t p) : ∃ p', Moves { s with last } r' t' p' ∧ p.Alike p' := by
  have hcalls := h.calls
  cases hm with
  | openCall hmode ht =>
    have halike := h.mode
    rw [hmode] at halike
    obtain ⟨span', hmode'⟩ := halike.eq_named
    exact ⟨_, .openCall hmode' (hk.trans ht),
      .going ⟨.cons ⟨rfl, rfl, h.yard⟩ hcalls, .start, .slot⟩⟩
  | closeCall hmode ht hc hy =>
    rw [hc] at hcalls
    obtain ⟨c', calls', hcall, hcalls, hc'⟩ := List.forall₂_cons_left_iff.1 hcalls
    obtain ⟨y', hy', hyard⟩ := hcall.close hy
    exact ⟨_, .closeCall (h.mode.slot_iff.1 hmode) (hk.trans ht) hc' hy',
      .going ⟨hcalls, hyard, .settled⟩⟩
  | advance hslot hq ha =>
    obtain ⟨q', hq', halike⟩ := alike_of_settle last h hq
    obtain ⟨p', ha', hp⟩ := alike_of_advances last halike hk ha
    refine ⟨p', .advance (fun hmode ht => ?_) hq' ha', hp⟩
    rw [hslot (h.mode.slot_iff.2 hmode) (hk.symm.trans ht)] at hcalls
    exact List.forall₂_nil_left_iff.1 hcalls

theorem finish_of_alike (last : Span) {f : Formula} (h : r.Alike r') (hf : s.finish r = .ok f) :
    finish { s with last } r' = .ok f := by
  obtain ⟨hslot, q, hq, hfinish, hc⟩ := finish_eq_ok.1 hf
  obtain ⟨q', hq', halike⟩ := alike_of_settle last h hq
  have hcalls := halike.calls
  rw [hc, List.forall₂_nil_left_iff] at hcalls
  exact finish_eq_ok.2
    ⟨fun hm => hslot (h.mode.slot_iff.2 hm), q', hq', halike.yard.finish hfinish, hcalls⟩

theorem compile_of_alike (last : Span) {ts ts' rest : List Token} {f : Formula} (h : r.Alike r')
    (hkinds : ts'.map (·.kind) = ts.map (·.kind)) (hc : s.compile r ts = .ok (f, rest)) :
    ∃ rest', compile { s with last } r' ts' = .ok (f, rest') ∧
      rest'.map (·.kind) = rest.map (·.kind) := by
  induction ts generalizing r r' ts' with
  | nil =>
    obtain rfl := List.map_eq_nil_iff.1 hkinds
    obtain ⟨g, hg, hc⟩ := bind_eq_ok.1 hc
    obtain ⟨rfl, rfl⟩ := Prod.mk.inj (pure_eq_ok.1 hc)
    exact ⟨[], by simp only [compile, finish_of_alike last h hg, ok_bind]; rfl, rfl⟩
  | cons t ts ih =>
    obtain ⟨t', us', rfl, hk, hmore⟩ := List.map_eq_cons_iff.1 hkinds
    obtain ⟨p, hp, hc⟩ := bind_eq_ok.1 hc
    obtain ⟨p', hp', halike⟩ := alike_of_moves last h hk (step_eq_ok.1 hp)
    rw [compile, step_eq_ok.2 hp', ok_bind]
    cases halike with
    | going halike => exact ih halike hmore hc
    | ended =>
      obtain ⟨rfl, rfl⟩ := Prod.mk.inj (pure_eq_ok.1 hc)
      exact ⟨_, rfl, hkinds⟩

end Scope

end Formulary
