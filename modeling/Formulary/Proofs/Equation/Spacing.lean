import Formulary.Proofs.Formula.Compiled
import Formulary.Proofs.Formula.Spans
import Formulary.Proofs.Signature.Grammar
import Formulary.Proofs.Token.Spacing

/-!
# Spaces do not change an equation

What a line compiles to is known from the kinds of its tokens. So spaces can be put in before
and behind any token.
-/
namespace Formulary.Equation

theorem compile_of_kinds {limit : Nat} {source source' : String} {tokens tokens' : List Token}
    {e : Equation} (hscan : Token.scan source = .ok tokens)
    (hscan' : Token.scan source' = .ok tokens')
    (hkinds : tokens'.map (·.kind) = tokens.map (·.kind)) (h : compile limit source = .ok e) :
    compile limit source' = .ok e := by
  obtain ⟨_, signature, body, last, hsame, hread, hlast, hc, hname, hparams⟩ := compile_eq_ok h
  obtain rfl := Except.ok.inj (hscan.symm.trans hsame)
  obtain ⟨body', hread', hbody⟩ := Signature.read_of_kinds hread hkinds
  have hlast' : (body'.map (·.kind)).getLast? = some last.kind := by
    rw [hbody, List.getLast?_map, hlast, Option.map_some]
  rw [List.getLast?_map] at hlast'
  obtain ⟨last', hlast', -⟩ := Option.map_eq_some_iff.1 hlast'
  obtain ⟨rest, hc', hrest⟩ := Scope.compile_of_alike last'.span .start hbody hc
  obtain rfl := List.map_eq_nil_iff.1 hrest
  rw [compile, hscan', ok_bind, hread', ok_bind]
  simp only [hlast', hc', ok_bind, pure_eq_ok]
  obtain ⟨name, params, formula⟩ := e
  simp only at hname hparams
  rw [hname, hparams]

/-- Spaces between the tokens of a line are of no account. -/
theorem ofLine_spaced {limit : Nat} {source : String} {e : Equation}
    (h : ofLine limit source = .ok e) : ∃ tokens, Token.scan source = .ok tokens ∧
      ∀ source', Token.Spaced (Token.Between tokens) 0 source.toList source'.toList →
        ∃ tokens', Token.scan source' = .ok tokens' ∧
          tokens'.map (·.kind) = tokens.map (·.kind) ∧ ofLine limit source' = .ok e := by
  have hcompile : compile limit source = .ok e := mapError_eq_ok.1 h
  obtain ⟨tokens, -, -, -, hscan, -⟩ := compile_eq_ok hcompile
  refine ⟨tokens, hscan, fun source' hs => ?_⟩
  obtain ⟨tokens', hscan', hkinds⟩ := Token.scan_spaced hscan hs
  exact ⟨tokens', hscan', hkinds, mapError_eq_ok.2 (compile_of_kinds hscan hscan' hkinds hcompile)⟩

def offset : Equation :=
  ⟨"g", ["a"], .ofNodes [.argument 0, .coordinate 0, .operator (.binary .subtract)]⟩

theorem ofLine_spaced_offset : ofLine 3 "g(a)=a-x" = .ok offset ∧
    ofLine 3 "g (a)= a\n- x" = .ok offset := by
  have h : ofLine 3 "g(a)=a-x" = .ok offset := by cbv
  obtain ⟨tokens, hscan, hspaced⟩ := ofLine_spaced h
  have hknown : Token.scan "g(a)=a-x" = .ok [⟨.identifier "g", ⟨0, 1, 1, 1⟩⟩,
      ⟨.paramOpen, ⟨1, 2, 1, 2⟩⟩, ⟨.identifier "a", ⟨2, 3, 1, 3⟩⟩, ⟨.paramClose, ⟨3, 4, 1, 4⟩⟩,
      ⟨.equals, ⟨4, 5, 1, 5⟩⟩, ⟨.identifier "a", ⟨5, 6, 1, 6⟩⟩,
      ⟨.operator .subtract, ⟨6, 7, 1, 7⟩⟩, ⟨.identifier "x", ⟨7, 8, 1, 8⟩⟩] := by cbv
  obtain rfl := Except.ok.inj (hscan.symm.trans hknown)
  obtain ⟨_, -, -, h'⟩ := hspaced "g (a)= a\n- x" (.keep (.insert (by decide) (by decide)
    (.keep (.keep (.keep (.keep (.insert (by decide) (by decide) (.keep (.insert (by decide)
      (by decide) (.keep (.insert (by decide) (by decide) (.keep .done))))))))))))
  exact ⟨h, h'⟩

end Formulary.Equation
