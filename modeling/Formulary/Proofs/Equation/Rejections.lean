import Formulary.Equation.Compile
import Formulary.Proofs.Formula.Enclosures
import Formulary.Proofs.Signature
import Formulary.Proofs.Token.Places
import Mathlib

/-!
# Why a line can be rejected

Some faults cannot occur: a bracket that closes nothing and a token that does not belong in
an expression are found while the tokens are read, or ruled out by the signature. The
tokens only run out where the expression should begin, and only a comma can follow it.
-/
namespace Formulary

namespace Fault

def Possible : Fault → Prop
  | .identifierExpected | .inputExhausted | .unknownOperator _ | .groupNotOpen
  | .unexpectedToken _ | .argumentSeparatorExpected => False
  | .unexpectedTail text => text = ","
  | _ => True

variable {f : Fault}

theorem Lexical.possible (h : f.Lexical) : f.Possible := by
  cases f <;> trivial

theorem Declarative.possible (h : f.Declarative) : f.Possible := by
  cases f <;> trivial

theorem Structural.possible (h : f.Structural) : f.Possible := by
  cases f <;> trivial

inductive Unheard : String → Prop
  | closing : Unheard "Unbalanced closing bracket"
  | operator (op : String) : Unheard s!"Unknown operator '{op}'"
  | token (text : String) : Unheard s!"Unexpected '{text}' in expression"
  | separator : Unheard "Expected ',' or ')' after call argument"
  | identifier : Unheard "Expected identifier"
  | ending : Unheard "Unexpected end of input"

theorem Possible.message (h : f.Possible) : ¬ Unheard f.message := by
  generalize hm : f.message = m
  intro hu
  cases hu <;> cases f <;> first | exact h | delta Fault.message at hm
  all_goals dsimp only [toString] at hm
  -- Two texts differ behind what they quote, all others before it.
  case token.unexpectedTail =>
    replace hm := congrArg (List.reverse ∘ String.toList) hm
    simp [String.toList_append] at hm
  all_goals
    replace hm := congrArg String.toList hm
    simp [String.toList_append] at hm

theorem message_eq_exhausted (h : f.message = "Expected more tokens") : f = .tokensExhausted := by
  cases f <;> first | rfl | delta message at h
  all_goals
    dsimp only [toString] at h
    replace h := congrArg String.toList h
    simp [String.toList_append] at h

theorem message_eq_tail {text : String} (h : f.message = s!"Unexpected '{text}' after expression") :
    f = .unexpectedTail text := by
  cases f <;> delta message at h <;> dsimp only [toString] at h
  case unexpectedToken =>
    replace h := congrArg (List.reverse ∘ String.toList) h
    simp [String.toList_append] at h
  all_goals
    replace h := congrArg String.toList h
    simp [String.toList_append] at h
  exact congrArg unexpectedTail (String.toList_inj.1 h)

end Fault

namespace Equation

/-- How a line can be rejected. What is shown are characters of the source. -/
inductive Rejects (source : String) : Rejection → Prop
  | empty : source = "" → Rejects source ⟨.emptyText, .whole⟩
  | lexical {r : Rejection} : r.fault.Lexical → r.Shows (·.Within source.toList) →
      Rejects source r
  | declarative {r : Rejection} : r.fault.Declarative → r.Shows (·.Within source.toList) →
      Rejects source r
  | structural {r : Rejection} : r.Structural (·.Within source.toList) → Rejects source r
  | exhausted {tokens : List Token} {signature : Signature} : Token.scan source = .ok tokens →
      Signature.read tokens = .ok (signature, []) → Rejects source .exhausted
  | tail {s : Span} : s.Within source.toList → Rejects source (.spanning (.unexpectedTail ",") s)

variable {limit : Nat} {source : String}

theorem rejects_of_compile {r : Rejection} (h : compile limit source = .error r) :
    Rejects source r := by
  rcases bind_eq_error.1 h with h | ⟨tokens, hscan, h⟩
  · rcases Token.marks_of_scan h with ⟨hempty, rfl⟩ | ⟨text, hmarks⟩
    · exact .empty hempty
    · exact .lexical hmarks.concerns.lexical hmarks.within
  · have hwithin := Token.within_of_scan hscan
    rcases bind_eq_error.1 h with h | ⟨⟨signature, body⟩, hread, h⟩
    · obtain ⟨hfault, t, ht, hplace⟩ := Signature.read_eq_error h
      exact .declarative hfault ⟨_, hplace, hwithin t ht⟩
    · simp only at h
      split at h
      · rename_i hnone
        obtain rfl := List.getLast?_eq_none_iff.1 hnone
        obtain rfl := Except.error.inj h
        exact .exhausted hscan hread
      · rename_i last hlast
        obtain ⟨-, hne, hsplit⟩ := Signature.read_eq_ok hread
        have hbody : ∀ t ∈ body, t.span.Within source.toList := by
          rcases hsplit with ⟨-, rfl⟩ | ⟨front, sign, rfl, -, -⟩
          · exact hwithin
          · exact fun t ht => hwithin t (by simp [ht])
        obtain ⟨previous, hprevious, hnested⟩ :=
          Signature.nested_of_read (Token.nested_of_scan hscan) hread
        have hstart : Reading.Follows (·.Within source.toList) previous [] {} :=
          Reading.follows_start hprevious
        have hlast' := hbody last (List.mem_of_getLast? hlast)
        let scope : Scope := { limit, position := signature.position, last := last.span }
        have hends := scope.ends_compile hstart hnested hbody hne hlast'
        rcases bind_eq_error.1 h with h | ⟨⟨f, rest⟩, hcompile, h⟩
        · rw [h] at hends
          cases hends with
          | rejected hr => exact .structural hr
        · rw [hcompile] at hends
          cases hends with
          | complete => simp [pure, Except.pure] at h
          | comma hk ht =>
            obtain rfl := Except.error.inj h
            rw [hk]
            exact .tail ht

theorem Rejects.shows {r : Rejection} (h : Rejects source r) (hne : source ≠ "") :
    r = .exhausted ∨ r.Shows (·.Within source.toList) := by
  cases h with
  | empty hempty => exact absurd hempty hne
  | lexical _ hshows => exact .inr hshows
  | declarative _ hshows => exact .inr hshows
  | structural hr => exact .inr hr.2
  | exhausted => exact .inl rfl
  | tail hs => exact .inr ⟨_, rfl, hs⟩

theorem Rejects.line_ne_zero {r : Rejection} (h : Rejects source r) (hne : source ≠ "") :
    (r.diagnostic source).line ≠ 0 := by
  rcases h.shows hne with rfl | ⟨s, hplace, hs⟩
  · exact Nat.one_ne_zero
  · rw [Rejection.diagnostic, hplace]
    exact hs.line_ne_zero

theorem Rejects.possible {r : Rejection} (h : Rejects source r) : r.fault.Possible := by
  cases h with
  | lexical hfault _ => exact hfault.possible
  | declarative hfault _ => exact hfault.possible
  | structural hr => exact hr.1.possible
  | tail _ => exact rfl
  | _ => trivial

theorem message_diagnostic (r : Rejection) : (r.diagnostic source).message = r.fault.message := by
  rw [Rejection.diagnostic]
  cases r.place <;> rfl

theorem rejects_of_ofLine {d : Diagnostic} (h : ofLine limit source = .error d) :
    ∃ r, Rejects source r ∧ d = r.diagnostic source := by
  rw [ofLine] at h
  cases hc : compile limit source with
  | ok e => simp [hc, Except.mapError] at h
  | error r =>
    rw [hc] at h
    exact ⟨r, rejects_of_compile hc, (Except.error.inj h).symm⟩

theorem line_ne_zero_of_ofLine {d : Diagnostic} (h : ofLine limit source = .error d)
    (hne : source ≠ "") : d.line ≠ 0 := by
  obtain ⟨r, hr, rfl⟩ := rejects_of_ofLine h
  exact hr.line_ne_zero hne

/-- A line is not rejected for what its tokens rule out: they only run out where nothing stands
behind the signature, and only a comma can stand behind the expression. -/
theorem ofLine_rejections {d : Diagnostic} (h : ofLine limit source = .error d) :
    ¬ Fault.Unheard d.message ∧
      (d.message = "Expected more tokens" → ∃ tokens signature, Token.scan source = .ok tokens ∧
        Signature.read tokens = .ok (signature, [])) ∧
      ∀ text, d.message = s!"Unexpected '{text}' after expression" → text = "," := by
  obtain ⟨r, hr, rfl⟩ := rejects_of_ofLine h
  rw [message_diagnostic]
  refine ⟨hr.possible.message, fun hm => ?_, fun text hm => ?_⟩
  · have hfault := Fault.message_eq_exhausted hm
    cases hr with
    | exhausted hscan hread => exact ⟨_, _, hscan, hread⟩
    | lexical hlexical _ =>
      rw [hfault] at hlexical
      exact hlexical.elim
    | declarative hdeclarative _ =>
      rw [hfault] at hdeclarative
      exact hdeclarative.elim
    | structural hstructural =>
      have hstop := hstructural.1
      rw [hfault] at hstop
      exact hstop.elim
    | _ => simp [Rejection.spanning] at hfault
  · have hfault := Fault.message_eq_tail hm
    have hpossible := hr.possible
    rw [hfault] at hpossible
    exact hpossible

theorem ofLine_rejections_unfinished :
    ∃ d tokens signature, ofLine 100 "f(a) =" = .error d ∧ d.message = "Expected more tokens" ∧
      Token.scan "f(a) =" = .ok tokens ∧ Signature.read tokens = .ok (signature, []) := by
  have hcompile : compile 100 "f(a) =" = .error .exhausted := by cbv
  have hline : ofLine 100 "f(a) =" = .error (Rejection.exhausted.diagnostic "f(a) =") := by
    rw [ofLine, hcompile]
    rfl
  obtain ⟨-, hexhausted, -⟩ := ofLine_rejections hline
  obtain ⟨tokens, signature, hscan, hread⟩ := hexhausted rfl
  exact ⟨_, tokens, signature, hline, rfl, hscan, hread⟩

end Equation

end Formulary
