import Formulary.Proofs.Evaluation.Run

/-!
# How the evaluation of sound formulas fails

What is missing is missing from the values that the evaluation was given. A call
supplies as many values as its target has parameters, so in the body of a target no
argument is ever missing.
-/
namespace Formulary

/-- The errors of a formula that reads no parameter from `params` on, given so many
coordinates and arguments. -/
def EvalError.Own (coordinates arguments params : Nat) : EvalError → Prop
  | .missingCoordinate index available =>
    available = coordinates ∧ coordinates ≤ index ∧ index < coordinateNames.length
  | .missingArgument index available =>
    available = arguments ∧ arguments ≤ index ∧ index < params
  | .stackUnderflow _ _ _ | .unbalancedStack _ => False
  | .unresolved _ | .arityMismatch _ _ _ | .callsTooDeep _ _ => True

theorem EvalError.Own.of_supplied {coordinates params : Nat} {e : EvalError}
    (h : e.Own coordinates params params) (arguments params' : Nat) :
    e.Own coordinates arguments params' := by
  cases e with
  | missingArgument index available =>
    obtain ⟨-, hle, hlt⟩ := h
    omega
  | _ => exact h

structure CallRule.Proper (rule : CallRule) (coordinates : Nat) : Prop where
  entering : ∀ {name target found e}, rule name target found = .error e →
    ∀ arguments params, e.Own coordinates arguments params
  body : ∀ {name target found body values e}, rule name target found = .ok body →
    values.length = found → body values = .error e →
    ∀ arguments params, e.Own coordinates arguments params

theorem Formula.run_error_own {rule : CallRule} {coordinates arguments : List Float} {params : Nat}
    (hrule : rule.Proper coordinates.length) {f : Formula} (hf : f.Sound params) {e : EvalError}
    (he : f.run rule coordinates arguments = .error e) :
    e.Own coordinates.length arguments.length params := by
  induction f using Formula.induction generalizing e with
  | mk nodes profile ih =>
    obtain ⟨hb, hs⟩ := sound_iff.1 hf
    have hheight : heightAfter nodes 0 = some 1 := hb
    obtain ⟨n, hn, found, hh, hrun⟩ :=
      Node.runAll_error (Option.isSome_of_eq_some hheight) ((run_error hb).1 he)
    have hsn := hs n hn
    cases n with
    | literal value => simp [Node.run] at hrun
    | coordinate index =>
      simp only [Node.run] at hrun
      split at hrun
      · simp at hrun
      · rename_i hnone
        obtain rfl := Except.error.inj hrun
        exact ⟨rfl, List.getElem?_eq_none_iff.1 hnone, hsn⟩
    | argument index =>
      simp only [Node.run] at hrun
      split at hrun
      · simp at hrun
      · rename_i hnone
        obtain rfl := Except.error.inj hrun
        exact ⟨rfl, List.getElem?_eq_none_iff.1 hnone, hsn⟩
    | operator op =>
      -- The operands were there, so this is no underflow.
      have hle : op.arity ≤ found.length := by
        simpa [Node.heightAfter] using hh
      obtain ⟨stack', hok⟩ := Operator.run_of_arity_le hle
      simp [Node.run, hok] at hrun
    | call name args target =>
      rcases bind_eq_error.1 hrun with hrun | ⟨body, hbody, hrun⟩
      · exact hrule.entering hrun _ _
      rcases bind_eq_error.1 hrun with hrun | ⟨values, hvalues, hrun⟩
      · obtain ⟨a, ha, hrun⟩ := runAll_error hrun
        exact ih _ _ _ hn a ha (hsn a ha) hrun
      exact hrule.body hbody (runAll_length hvalues) (error_of_bind_pure hrun) _ _

section
variable {table : List Equation} {limit : Nat} {coordinates : List Float}

theorem enter_eq_ok {left : Nat} {name : String} {target : Option Nat} {found : Nat}
    {body : List Float → Except EvalError Float} :
    enter table limit coordinates left name target found = .ok body ↔
      ∃ callee deeper, target.bind (table[·]?) = some callee ∧ found = callee.params.length ∧
        left = deeper + 1 ∧
        body = callee.formula.run (enter table limit coordinates deeper) coordinates := by
  rw [enter]
  split
  · rename_i hnone
    simp [hnone]
  · rename_i callee hcallee
    simp only [hcallee, Option.some.injEq]
    split
    · constructor
      · simp
      · rintro ⟨_, _, rfl, hfound, -⟩
        contradiction
    · rename_i hfound
      have hfound := Decidable.not_not.1 hfound
      cases left with
      | zero => simp
      | succ deeper =>
        constructor
        · intro h
          exact ⟨callee, deeper, rfl, hfound, rfl, (Except.ok.inj h).symm⟩
        · rintro ⟨_, _, rfl, -, hd, rfl⟩
          rw [Nat.succ.inj hd]

theorem enter_error_own {left : Nat} {name : String} {target : Option Nat} {found : Nat}
    {e : EvalError} (h : enter table limit coordinates left name target found = .error e)
    (given arguments params : Nat) : e.Own given arguments params := by
  rw [enter] at h
  split at h
  · obtain rfl := Except.error.inj h
    trivial
  · split at h
    · obtain rfl := Except.error.inj h
      trivial
    · split at h
      · obtain rfl := Except.error.inj h
        trivial
      · simp at h

theorem enter_proper (htable : ∀ e ∈ table, e.Sound) (left : Nat) :
    (enter table limit coordinates left).Proper coordinates.length := by
  induction left with
  | zero =>
    refine ⟨fun h => enter_error_own h _, fun h => ?_⟩
    obtain ⟨_, _, -, -, hleft, -⟩ := enter_eq_ok.1 h
    simp at hleft
  | succ left ih =>
    refine ⟨fun h => enter_error_own h _, fun {name target found body values e} h hlen he => ?_⟩
    obtain ⟨callee, deeper, hcallee, hfound, hleft, rfl⟩ := enter_eq_ok.1 h
    obtain rfl := Nat.succ.inj hleft
    obtain ⟨id, -, hid⟩ := Option.bind_eq_some_iff.1 hcallee
    have hsound : callee.Sound := htable callee (List.mem_of_getElem? hid)
    have hown := Formula.run_error_own ih hsound he
    rw [hlen, hfound] at hown
    exact hown.of_supplied

end

end Formulary
