import Formulary.Formula.Compile
import Formulary.Proofs.Outcome

/-!
# The steps of a compilation

What each operation on a yard needs to succeed and what it leaves, what one token can
do to a reading, and the induction over the tokens of a whole compilation.
-/
namespace Formulary

theorem reference_cases {position : String → Option Nat} {name : String} {P : Node → Prop}
    (coordinate : ∀ i, coordinate? name = some i → P (.coordinate i))
    (argument : ∀ i, position name = some i → P (.argument i)) (call : P (.call name [] none)) :
    P (reference position name) := by
  rw [reference]
  split
  · rename_i hi
    exact coordinate _ hi
  · split
    · rename_i hi
      exact argument _ hi
    · exact call

namespace Postfix

theorem write_eq_ok {limit depth : Nat} {n : Node} {s : Span} {out out' : Postfix} :
    out.write limit n depth s = .ok out' ↔
      out.nodes.length < limit ∧ out' = ⟨out.nodes ++ [n], depth⟩ := by
  rw [write]
  split
  · simp_all [eq_comm]
  · simp; omega

theorem operand_eq_ok {limit : Nat} {n : Node} {s : Span} {out out' : Postfix} :
    out.operand limit n s = .ok out' ↔
      out.nodes.length < limit ∧ out' = ⟨out.nodes ++ [n], out.depth + 1⟩ :=
  write_eq_ok

theorem operator_eq_ok {limit : Nat} {op : BinaryOp} {s : Span} {out out' : Postfix} :
    out.operator limit op s = .ok out' ↔ 2 ≤ out.depth ∧ out.nodes.length < limit ∧
      out' = ⟨out.nodes ++ [.operator (.binary op)], out.depth - 1⟩ := by
  rw [operator]
  split
  · simp; omega
  · rw [write_eq_ok]
    simp; omega

end Postfix

namespace Yard

theorem operand_eq_ok {limit : Nat} {n : Node} {s : Span} {y y' : Yard} :
    y.operand limit n s = .ok y' ↔ y.written.nodes.length < limit ∧
      y' = ⟨y.pending, ⟨y.written.nodes ++ [n], y.written.depth + 1⟩⟩ := by
  simp only [operand, bind_eq_ok, pure_eq_ok, Postfix.operand_eq_ok]
  grind

theorem operator_eq_ok {limit : Nat} {op : BinaryOp} {s : Span} {y y' : Yard} :
    y.operator limit op s = .ok y' ↔ ∃ z, release limit (fun top => op.precedence ≤ top.precedence)
      y.pending y.written = .ok z ∧ y' = { z with pending := .operator op s :: z.pending } := by
  simp only [operator, bind_eq_ok, pure_eq_ok]

theorem closeGroup_eq_ok {limit : Nat} {s : Span} {y y' : Yard} :
    y.closeGroup limit s = .ok y' ↔ ∃ rest out,
      release limit (fun _ => true) y.pending y.written = .ok ⟨.group :: rest, out⟩ ∧
        y' = ⟨rest, out⟩ := by
  simp only [closeGroup, bind_eq_ok]
  constructor
  · rintro ⟨⟨pending, out⟩, hz, h⟩
    cases pending with
    | nil => simp at h
    | cons top rest =>
      cases top with
      | group => exact ⟨rest, out, hz, pure_eq_ok.1 h⟩
      | operator op span => simp at h
  · rintro ⟨rest, out, hz, rfl⟩
    exact ⟨_, hz, rfl⟩

theorem finish_eq_ok {limit : Nat} {s : Span} {y : Yard} {f : Formula} :
    y.finish limit s = .ok f ↔ ∃ nodes, y.closeGroup limit s = .ok ⟨[], ⟨nodes, 1⟩⟩ ∧
      f = .ofNodes nodes := by
  simp only [finish, bind_eq_ok]
  constructor
  · rintro ⟨⟨pending, nodes, depth⟩, hz, h⟩
    split at h
    · simp at h
    · rename_i hp
      obtain rfl : pending = [] := Decidable.not_not.1 hp
      split at h
      · simp at h
      · rename_i hd
        simp only at hd h
        subst hd
        exact ⟨nodes, hz, (Except.ok.inj h).symm⟩
      · simp at h
  · rintro ⟨nodes, hz, rfl⟩
    exact ⟨_, hz, rfl⟩

end Yard

@[simp] theorem operatorFor_char (op : BinaryOp) (s : Span) : operatorFor op.char s = .ok op := by
  rw [operatorFor, BinaryOp.ofChar?_char]

namespace Scope

inductive Advances (s : Scope) (r : Reading) (t : Token) : Progress → Prop
  | number {value : Float} {y : Yard} : t.kind = .number value →
      r.yard.operand s.limit (.literal value) t.span = .ok y →
      Advances s r t (.going { r with yard := y })
  | name {name : String} : t.kind = .identifier name →
      Advances s r t (.going { r with mode := .named name t.span })
  | operator {op : BinaryOp} {y : Yard} : t.kind = .operator op →
      r.yard.operator s.limit op t.span = .ok y → Advances s r t (.going { r with yard := y })
  | openGroup {shape : Bracket} : t.kind = .groupOpen shape →
      Advances s r t (.going { r with yard := r.yard.openGroup })
  | closeGroup {shape : Bracket} {y : Yard} : t.kind = .groupClose shape →
      r.yard.closeGroup s.limit t.span = .ok y → Advances s r t (.going { r with yard := y })
  | ends {f : Formula} : t.kind.endsExpression = true → r.yard.finish s.limit t.span = .ok f →
      r.calls = [] → Advances s r t (.ended f)
  | argument {f : Formula} {c : OpenCall} {calls : List OpenCall} : t.kind = .comma →
      r.yard.finish s.limit t.span = .ok f → r.calls = c :: calls →
      Advances s r t (.going ⟨{ c with args := c.args ++ [f] } :: calls, {}, .slot⟩)
  | closeCall {f : Formula} {c : OpenCall} {calls : List OpenCall} {y : Yard} :
      t.kind = .paramClose → r.yard.finish s.limit t.span = .ok f → r.calls = c :: calls →
      OpenCall.close s.limit { c with args := c.args ++ [f] } = .ok y →
      Advances s r t (.going { calls, yard := y })

theorem closeCall_eq_ok {s : Scope} {c : OpenCall} {calls : List OpenCall} {p : Progress} :
    s.closeCall c calls = .ok p ↔
      ∃ y, c.close s.limit = .ok y ∧ p = .going { calls, yard := y } := by
  simp only [closeCall, bind_eq_ok, pure_eq_ok]

theorem advance_eq_ok {s : Scope} {r : Reading} {t : Token} {p : Progress} :
    s.advance r t = .ok p ↔ Advances s r t p := by
  constructor
  · intro h
    rw [advance] at h
    simp only at h
    split at h
    · rename_i hk
      obtain ⟨y, hy, h⟩ := bind_eq_ok.1 h
      obtain rfl := pure_eq_ok.1 h
      exact .number hk hy
    · rename_i hk
      obtain rfl := Except.ok.inj h
      exact .name hk
    · rename_i hk
      rw [operatorFor_char, ok_bind] at h
      obtain ⟨y, hy, h⟩ := bind_eq_ok.1 h
      obtain rfl := pure_eq_ok.1 h
      exact .operator hk hy
    · rename_i hk
      obtain rfl := Except.ok.inj h
      exact .openGroup hk
    · rename_i hk
      obtain ⟨y, hy, h⟩ := bind_eq_ok.1 h
      obtain rfl := pure_eq_ok.1 h
      exact .closeGroup hk hy
    · simp at h
    · rename_i hk
      obtain ⟨f, hf, h⟩ := bind_eq_ok.1 h
      cases hc : r.calls with
      | nil =>
        rw [hc] at h
        obtain rfl := pure_eq_ok.1 h
        exact .ends (by rw [hk]; rfl) hf hc
      | cons c calls =>
        rw [hc] at h
        obtain rfl := pure_eq_ok.1 h
        exact .argument hk hf hc
    · rename_i hk
      obtain ⟨f, hf, h⟩ := bind_eq_ok.1 h
      cases hc : r.calls with
      | nil =>
        rw [hc] at h
        obtain rfl := pure_eq_ok.1 h
        exact .ends (by rw [hk]; rfl) hf hc
      | cons c calls =>
        rw [hc] at h
        obtain ⟨y, hy, rfl⟩ := closeCall_eq_ok.1 h
        exact .closeCall hk hf hc hy
    · rename_i hk
      obtain ⟨f, hf, h⟩ := bind_eq_ok.1 h
      cases hc : r.calls with
      | nil =>
        rw [hc] at h
        obtain rfl := pure_eq_ok.1 h
        exact .ends (by rw [hk]; rfl) hf hc
      | cons c calls =>
        rw [hc] at h
        simp at h
  · intro h
    cases h with
    | number hk hy => simp only [advance, hk, hy, ok_bind]; rfl
    | name hk => simp only [advance, hk]
    | operator hk hy => simp only [advance, hk, operatorFor_char, hy, ok_bind]; rfl
    | openGroup hk => simp only [advance, hk]
    | closeGroup hk hy => simp only [advance, hk, hy, ok_bind]; rfl
    | ends hk hf hc =>
      cases hkind : t.kind <;>
        simp only [hkind, Token.Kind.endsExpression, Bool.false_eq_true] at hk <;>
        simp only [advance, hkind, hf, ok_bind, hc] <;> rfl
    | argument hk hf hc => simp only [advance, hk, hf, ok_bind, hc]; rfl
    | closeCall hk hf hc hy =>
      simp only [advance, hk, hf, ok_bind, hc]
      exact closeCall_eq_ok.2 ⟨_, hy, rfl⟩

theorem settle_of_named {s : Scope} {r : Reading} {name : String} {span : Span}
    (h : r.mode = .named name span) : s.settle r =
      (r.yard.operand s.limit (reference s.position name) span).map fun y =>
        { r with yard := y, mode := .settled } := by
  simp only [settle, h]
  cases r.yard.operand s.limit (reference s.position name) span <;> rfl

theorem settle_of_ne_named {s : Scope} {r : Reading} (h : ∀ name span, r.mode ≠ .named name span) :
    s.settle r = .ok { r with mode := .settled } := by
  cases hm : r.mode with
  | named name span => exact absurd hm (h name span)
  | settled => simp only [settle, hm]
  | slot => simp only [settle, hm]

inductive Moves (s : Scope) (r : Reading) (t : Token) : Progress → Prop
  | openCall {name : String} {span : Span} : r.mode = .named name span → t.kind = .paramOpen →
      Moves s r t (.going ⟨{ name, span, outer := r.yard } :: r.calls, {}, .slot⟩)
  | closeCall {c : OpenCall} {calls : List OpenCall} {y : Yard} : r.mode = .slot →
      t.kind = .paramClose → r.calls = c :: calls → c.close s.limit = .ok y →
      Moves s r t (.going { calls, yard := y })
  | advance {q : Reading} {p : Progress} :
      (r.mode = .slot → t.kind = .paramClose → r.calls = []) → s.settle r = .ok q →
      Advances s q t p → Moves s r t p

theorem not_advances_of_paramOpen {s : Scope} {r : Reading} {t : Token} {p : Progress}
    (h : t.kind = .paramOpen) : ¬ Advances s r t p := by
  rintro (hk | hk | hk | hk | hk | hk | hk | hk) <;> simp [h, Token.Kind.endsExpression] at hk

theorem step_eq_ok {s : Scope} {r : Reading} {t : Token} {p : Progress} :
    s.step r t = .ok p ↔ Moves s r t p := by
  constructor
  · intro h
    rw [step] at h
    split at h
    · rename_i hm hk
      obtain rfl := Except.ok.inj h
      exact .openCall hm hk
    · rename_i hm hk hc
      obtain ⟨y, hy, rfl⟩ := closeCall_eq_ok.1 h
      exact .closeCall hm hk hc hy
    · rename_i hslot
      obtain ⟨q, hq, h⟩ := bind_eq_ok.1 h
      refine .advance (fun hm hk => ?_) hq (advance_eq_ok.1 h)
      cases hc : r.calls with
      | nil => rfl
      | cons c calls => exact (hslot c calls hm hk hc).elim
  · intro h
    cases h with
    | openCall hm hk => simp only [step, hm, hk]
    | closeCall hm hk hc hy =>
      simp only [step, hm, hk, hc]
      exact closeCall_eq_ok.2 ⟨_, hy, rfl⟩
    | advance hslot hq ha =>
      rw [step]
      split
      · rename_i hk
        exact absurd ha (not_advances_of_paramOpen hk)
      · rename_i hm hk hc
        simp [hslot hm hk] at hc
      · rw [hq, ok_bind]
        exact advance_eq_ok.2 ha

theorem finish_eq_ok {s : Scope} {r : Reading} {f : Formula} :
    s.finish r = .ok f ↔ r.mode ≠ .slot ∧
      ∃ q, s.settle r = .ok q ∧ q.yard.finish s.limit s.last = .ok f ∧ q.calls = [] := by
  rw [finish]
  split
  · simp_all
  · rename_i hm
    simp only [bind_eq_ok, ne_eq, hm, not_false_eq_true, true_and]
    constructor
    · rintro ⟨q, hq, g, hg, h⟩
      cases hc : q.calls with
      | nil =>
        rw [hc] at h
        obtain rfl := pure_eq_ok.1 h
        exact ⟨q, hq, hg, hc⟩
      | cons c calls => simp [hc] at h
    · rintro ⟨q, hq, hg, hc⟩
      exact ⟨q, hq, f, hg, by rw [hc]; rfl⟩

/-- What holds of the reading at first, and is kept by each token, holds until the end; it may
speak of the tokens that were read. -/
theorem compile_trace {s : Scope} {P : List Token → Reading → Prop} {Q : List Token → Formula → Prop}
    (going : ∀ read r t q, P read r → Moves s r t (.going q) → P (read ++ [t]) q)
    (ended : ∀ read r t f, P read r → Moves s r t (.ended f) → Q read f)
    (finished : ∀ read r f, P read r → s.finish r = .ok f → Q read f) {ts : List Token} :
    ∀ (read : List Token) {r : Reading} {f : Formula} {rest : List Token}, P read r →
      s.compile r ts = .ok (f, rest) → ∃ more, ts = more ++ rest ∧ Q (read ++ more) f := by
  induction ts with
  | nil =>
    intro read r f rest hr h
    obtain ⟨g, hg, h⟩ := bind_eq_ok.1 h
    obtain ⟨rfl, rfl⟩ := Prod.mk.inj (pure_eq_ok.1 h)
    refine ⟨[], rfl, ?_⟩
    rw [List.append_nil]
    exact finished read r _ hr hg
  | cons t ts ih =>
    intro read r f rest hr h
    obtain ⟨p, hp, h⟩ := bind_eq_ok.1 h
    cases p with
    | going q =>
      obtain ⟨more, rfl, hq⟩ := ih _ (going read r t q hr (step_eq_ok.1 hp)) h
      refine ⟨t :: more, rfl, ?_⟩
      rw [List.append_assoc] at hq
      exact hq
    | ended g =>
      obtain ⟨rfl, rfl⟩ := Prod.mk.inj (pure_eq_ok.1 h)
      refine ⟨[], rfl, ?_⟩
      rw [List.append_nil]
      exact ended read r t _ hr (step_eq_ok.1 hp)

theorem compile_induction {s : Scope} {P : Reading → Prop} {Q : Formula → Prop}
    (going : ∀ r t q, P r → Moves s r t (.going q) → P q)
    (ended : ∀ r t f, P r → Moves s r t (.ended f) → Q f)
    (finished : ∀ r f, P r → s.finish r = .ok f → Q f) {ts : List Token} {r : Reading}
    {f : Formula} {rest : List Token} (hr : P r) (h : s.compile r ts = .ok (f, rest)) : Q f := by
  obtain ⟨_, -, hq⟩ := compile_trace (P := fun _ r => P r) (Q := fun _ f => Q f)
    (fun _ => going) (fun _ => ended) (fun _ => finished) [] hr h
  exact hq

end Scope

end Formulary
