import Formulary.Proofs.Evaluation.Parallel
import Formulary.Proofs.Profiles

/-!
# Failures do not depend on numbers

The outline of a formula is what is left of it without its literals. Whether an evaluation fails,
and with which error, can be told from the outlines and from how many values there are, so it can
be found out on zeros.
-/
namespace Formulary

def Formula.outline (f : Formula) : Formula := (f.withLiterals fun _ => 0).bare

def Equation.outline (e : Equation) : Equation := { e with formula := e.formula.outline }

section
variable {α β γ ε : Type}

theorem Parallel.alike {x : Except ε α} {y : Except ε β} {z : Except ε γ}
    (hx : Parallel True (fun _ _ => True) x z) (hy : Parallel True (fun _ _ => True) y z) :
    (∃ a b, x = .ok a ∧ y = .ok b) ∨ ∃ e, x = .error e ∧ y = .error e := by
  cases x with
  | ok a =>
    obtain ⟨c, rfl, -⟩ := hx
    cases y with
    | ok b => exact .inl ⟨a, b, rfl, rfl⟩
    | error e => exact nomatch hy trivial
  | error e =>
    obtain rfl := hx trivial
    cases y with
    | ok b =>
      obtain ⟨c, hc, -⟩ := hy
      exact nomatch hc
    | error e' => exact .inr ⟨e, rfl, congrArg Except.error (Except.error.inj (hy trivial)).symm⟩

end

theorem kept_true : Kept fun _ _ => True where
  binary _ _ _ _ _ _ _ := trivial
  unary _ _ _ _ := trivial

theorem Supplies.of_length {strict : Prop} {xs ys : List Float} (h : ys.length = xs.length) :
    Supplies strict (fun _ _ => True) xs ys where
  value i x hx := by
    have hlt : i < ys.length := by
      rw [h]
      exact (List.getElem?_eq_some_iff.1 hx).1
    exact ⟨_, List.getElem?_eq_getElem hlt, trivial⟩
  length _ := h

section
variable {table table' : List Equation} {f f' : Formula} {limit : Nat}
  {coordinates coordinates' arguments arguments' : List Float}

theorem Formula.evaluate_bare :
    f.bare.evaluate (table.map Equation.bare) limit coordinates arguments =
      f.evaluate table limit coordinates arguments := by
  simp only [evaluate, bare, enter_map_bare, run_annotate]

/-- An evaluation goes the same way on the outlines, with zeros for the values. -/
theorem Formula.evaluate_outline :
    Parallel True (fun _ _ => True) (f.evaluate table limit coordinates arguments)
      (f.outline.evaluate (table.map Equation.outline) limit
        (List.replicate coordinates.length 0) (List.replicate arguments.length 0)) := by
  have htable : table.map Equation.outline =
      (table.map (·.withLiterals fun _ => 0)).map Equation.bare := by
    rw [List.map_map]
    rfl
  rw [htable, outline, evaluate_bare]
  exact evaluate_parallel kept_true (fun _ => trivial) (.of_length List.length_replicate)
    (.of_length List.length_replicate) le_rfl (fun _ => rfl) f

/-- Literals and values can be any numbers: as long as there are as many of them, both evaluations
succeed or both fail with the same error. -/
theorem Formula.evaluate_fails_alike
    (htable : table.map Equation.outline = table'.map Equation.outline)
    (hf : f.outline = f'.outline) (hc : coordinates.length = coordinates'.length)
    (ha : arguments.length = arguments'.length) :
    (∃ x x', f.evaluate table limit coordinates arguments = .ok x ∧
        f'.evaluate table' limit coordinates' arguments' = .ok x') ∨
      ∃ e, f.evaluate table limit coordinates arguments = .error e ∧
        f'.evaluate table' limit coordinates' arguments' = .error e := by
  have h := @evaluate_outline table f limit coordinates arguments
  have h' := @evaluate_outline table' f' limit coordinates' arguments'
  rw [htable, hf, hc, ha] at h
  exact h.alike h'

end

def underRoot (numerator : Float) : Formula :=
  .ofNodes [.literal numerator, .call "root" [.ofNodes [.coordinate 0]] (some 0),
    .operator (.binary .divide)]

def shiftedRoot (shift : Float) : List Equation :=
  [⟨"root", ["v"], .ofNodes [.argument 0, .literal shift, .operator (.binary .add),
    .operator (.unary .sqrt)]⟩]

theorem evaluate_fails_alike_root :
    (∃ x x', (underRoot 1).evaluate (shiftedRoot 0) 8 [4] [] = .ok x ∧
      (underRoot (0 / 0)).evaluate (shiftedRoot (-1)) 8 [-9] [] = .ok x') ∧
    (underRoot 1).evaluate (shiftedRoot 0) 0 [4] [] = .error (.callsTooDeep "root" 0) ∧
      (underRoot (0 / 0)).evaluate (shiftedRoot (-1)) 0 [-9] [] =
        .error (.callsTooDeep "root" 0) := by
  have hone : ∃ x, (underRoot 1).evaluate (shiftedRoot 0) 8 [4] [] = .ok x := ⟨_, rfl⟩
  have hdeep : (underRoot 1).evaluate (shiftedRoot 0) 0 [4] [] = .error (.callsTooDeep "root" 0) :=
    rfl
  have halike (limit : Nat) := @Formula.evaluate_fails_alike (shiftedRoot 0) (shiftedRoot (-1))
    (underRoot 1) (underRoot (0 / 0)) limit [4] [-9] [] [] rfl rfl rfl rfl
  obtain ⟨x, hx⟩ := hone
  refine ⟨?_, hdeep, ?_⟩
  · rcases halike 8 with h | ⟨e, he, -⟩
    · exact h
    · rw [hx] at he
      exact nomatch he
  · rcases halike 0 with ⟨x, x', hx, -⟩ | ⟨e, he, he'⟩
    · rw [hdeep] at hx
      exact nomatch hx
    · rw [hdeep] at he
      obtain rfl := Except.error.inj he
      exact he'

end Formulary
