import Formulary.Proofs.Equation.Rejections
import Formulary.Proofs.Formula.Limit
import Formulary.Proofs.Formula.Transcript

/-!
# Lines under a limit

A formula has no more nodes than tokens, so a limit that is no less than the number of tokens
does not reject a line. What a line comes to under it decides what it comes to under any
other limit: the same if all its formulas fit, and otherwise a failure that names the limit.
-/
namespace Formulary

theorem Node.Fits.read {limit : Nat} {ts : List Token} (hts : ts.length ≤ limit) :
    Node.Read ts (Node.Fits limit) (Formula.Fits limit) where
  literal _ := trivial
  coordinate _ := trivial
  argument _ := trivial
  operator _ := trivial
  call _ _ _ _ _ hargs := hargs
  formula _ hlength hnodes := Formula.fits_iff_nodes.2 ⟨hlength.trans hts, hnodes⟩

namespace Equation

variable {limit wide : Nat} {source : String} {e : Equation}

theorem limited_compile (hwide : limit ≤ wide) (source : String) :
    Limited limit True (compile limit source) (compile wide source) (·.formula.Fits limit) := by
  refine (Limited.unlimited _).bind fun tokens _ => ?_
  refine (Limited.unlimited _).bind fun (signature, body) _ => ?_
  dsimp only
  cases body.getLast? with
  | none => exact .error _ _
  | some last =>
    have hstart : Reading.Fits limit {} ↔ True :=
      iff_true_intro ((Reading.fits_of_empty rfl).2 fun c hc => absurd hc List.not_mem_nil)
    have hformula : Limited limit True
        (Scope.compile ⟨limit, signature.position, last.span⟩ {} body)
        (Scope.compile ⟨wide, signature.position, last.span⟩ {} body) (·.1.Fits limit) :=
      (Scope.limited_compile hwide fun _ => rfl).congr hstart fun _ => Iff.rfl
    refine hformula.bind fun (formula, rest) _ => ?_
    cases rest with
    | nil => exact .ok Iff.rfl
    | cons t rest => exact .error _ _

section
variable (hwide : ∀ tokens, Token.scan source = .ok tokens → tokens.length ≤ wide)

include hwide

theorem fits_of_tokens (h : compile limit source = .ok e) : e.formula.Fits wide := by
  obtain ⟨tokens, _, _, _, hscan, -⟩ := compile_eq_ok h
  exact read_of_compile h hscan (Node.Fits.read (hwide tokens hscan))

theorem compile_iff :
    compile limit source = .ok e ↔ compile wide source = .ok e ∧ e.formula.Fits limit := by
  rcases Nat.le_total limit wide with hle | hle
  · exact (limited_compile hle source).same trivial e
  · -- The other limit is the wider one, but it makes no difference to what fits.
    have hiff := (limited_compile hle source).same trivial e
    constructor
    · intro h
      have hfits := fits_of_tokens hwide h
      exact ⟨hiff.2 ⟨h, hfits⟩, hfits.mono hle⟩
    · rintro ⟨h, -⟩
      exact (hiff.1 h).1

theorem compile_exceeded (h : compile wide source = .ok e) (hfits : ¬ e.formula.Fits limit) :
    ∃ s, compile limit source = .error (.spanning (.tooManyNodes limit) s) := by
  rcases Nat.le_total limit wide with hle | hle
  · exact (limited_compile hle source).exceeded trivial e h hfits
  · exact absurd ((fits_of_tokens hwide h).mono hle) hfits

/-- The limit is exact. What a line compiles to under a limit that is no less than the number of
its tokens is what it compiles to under any limit that all its formulas fit, and the limit is
what it fails for under any other. -/
theorem ofLine_limit (limit : Nat) :
    (∀ e, ofLine limit source = .ok e ↔ ofLine wide source = .ok e ∧ e.formula.Fits limit) ∧
    (∀ e, ofLine wide source = .ok e → ¬ e.formula.Fits limit →
      ∃ d, ofLine limit source = .error d ∧
        d.message = s!"Equation exceeds the maximum of {limit} nodes") ∧
    ∀ more e, limit ≤ more → ofLine limit source = .ok e → ofLine more source = .ok e := by
  simp only [ofLine, mapError_eq_ok]
  refine ⟨fun e => compile_iff hwide, fun e he hfits => ?_, fun more e hmore he => ?_⟩
  · obtain ⟨s, hs⟩ := compile_exceeded hwide he hfits
    let r : Rejection := .spanning (.tooManyNodes limit) s
    refine ⟨r.diagnostic source, ?_, message_diagnostic r⟩
    rw [hs]
    rfl
  · exact (((limited_compile hmore source).same trivial e).1 he).1

end

def total : Equation :=
  ⟨"", [], .ofNodes [.coordinate 0, .coordinate 1, .operator (.binary .add), .coordinate 2,
    .operator (.binary .add)]⟩

theorem ofLine_limit_total :
    (∀ tokens, Token.scan "x+y+z" = .ok tokens → tokens.length ≤ 5) ∧
      ofLine 5 "x+y+z" = .ok total ∧ ¬ total.formula.Fits 4 ∧
      ∃ d, ofLine 4 "x+y+z" = .error d ∧ d.message = "Equation exceeds the maximum of 4 nodes" := by
  have hscan : Token.scan "x+y+z" = .ok [⟨.identifier "x", ⟨0, 1, 1, 1⟩⟩,
      ⟨.operator .add, ⟨1, 2, 1, 2⟩⟩, ⟨.identifier "y", ⟨2, 3, 1, 3⟩⟩,
      ⟨.operator .add, ⟨3, 4, 1, 4⟩⟩, ⟨.identifier "z", ⟨4, 5, 1, 5⟩⟩] := by cbv
  have htokens : ∀ tokens, Token.scan "x+y+z" = .ok tokens → tokens.length ≤ 5 := by
    intro tokens h
    obtain rfl := Except.ok.inj (hscan.symm.trans h)
    decide
  have hline : ofLine 5 "x+y+z" = .ok total := by cbv
  have hfits : ¬ total.formula.Fits 4 := by
    rw [Formula.fits_iff_nodes]
    exact fun h => absurd h.1 (by decide)
  obtain ⟨-, hexceeded, -⟩ := ofLine_limit htokens 4
  exact ⟨htokens, hline, hfits, hexceeded total hline hfits⟩

end Equation

end Formulary
