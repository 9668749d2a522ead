/-!
# Rounding a quotient

The nearest whole number to a quotient of natural numbers, with a rule for the
quotients that lie halfway between two of them.
-/
namespace Formulary.Decimal

inductive Tie where
  | up
  | toEven
deriving DecidableEq, Repr

def roundDiv (tie : Tie) (num den : Nat) : Nat :=
  let down := num / den
  match compare (2 * (num % den)) den with
  | .lt => down
  | .gt => down + 1
  | .eq =>
    match tie with
    | .up => down + 1
    | .toEven => down + down % 2

private theorem two_mul_roundDiv (tie : Tie) (num den : Nat) (h : 0 < den) :
    2 * num ≤ 2 * (roundDiv tie num den * den) + den ∧
      2 * (roundDiv tie num den * den) ≤ 2 * num + den := by
  have split := Nat.div_add_mod num den
  have below := Nat.mod_lt num h
  have scaled : (num / den + 1) * den = den * (num / den) + den := by
    rw [Nat.add_mul, Nat.one_mul, Nat.mul_comm]
  have same : num / den * den = den * (num / den) := Nat.mul_comm _ _
  unfold roundDiv
  simp only
  split
  · rename_i lt
    have := Nat.compare_eq_lt.1 lt
    omega
  · rename_i gt
    have := Nat.compare_eq_gt.1 gt
    omega
  · rename_i eq
    have := Nat.compare_eq_eq.1 eq
    cases tie
    · simp only; omega
    · simp only
      rcases Nat.mod_two_eq_zero_or_one (num / den) with even | odd
      · rw [even, Nat.add_zero]; omega
      · rw [odd]; omega

theorem roundDiv_near (tie : Tie) (num den : Nat) (h : 0 < den) :
    2 * num ≤ (2 * roundDiv tie num den + 1) * den ∧
      2 * roundDiv tie num den * den ≤ 2 * num + den := by
  have near := two_mul_roundDiv tie num den h
  constructor
  · rw [Nat.add_mul, Nat.one_mul, Nat.mul_assoc]; exact near.1
  · rw [Nat.mul_assoc]; exact near.2

theorem roundDiv_toEven_of_half (num den : Nat) (h : 2 * (num % den) = den) :
    roundDiv .toEven num den % 2 = 0 := by
  unfold roundDiv
  simp only [Nat.compare_eq_eq.2 h]
  omega

theorem half_of_midway {num den j : Nat} (hden : 0 < den) (h : 2 * num + den = 2 * j * den) :
    2 * (num % den) = den := by
  have split := Nat.div_add_mod num den
  have below := Nat.mod_lt num hden
  have hj : j = num / den + 1 := by
    apply Nat.le_antisymm
    · apply Nat.le_of_lt_add_one
      apply Nat.lt_of_mul_lt_mul_right (a := den)
      rw [Nat.add_mul, Nat.add_mul, Nat.mul_comm (num / den)]
      rw [Nat.mul_assoc] at h
      omega
    · apply Nat.lt_of_mul_lt_mul_right (a := den)
      rw [Nat.mul_comm (num / den)]
      rw [Nat.mul_assoc] at h
      omega
  rw [hj, Nat.mul_assoc, Nat.add_mul, Nat.mul_comm (num / den)] at h
  omega

end Formulary.Decimal
