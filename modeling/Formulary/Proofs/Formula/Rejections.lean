import Formulary.Proofs.Formula.Balance
import Formulary.Proofs.Token.Scan

/-!
# Where a compilation stops

As long as a group is open in each formula that is being written, an operation on one is
rejected only for its operands, its length or a group that is left open, and what is shown
is a token that was read.
-/
namespace Formulary

/-- What can be wrong with an expression whose closing brackets all have an opening one. -/
def Fault.Structural : Fault → Prop
  | .groupLeftOpen | .operandMissing _ | .expressionExpected | .operatorMissing
  | .tooManyNodes _ => True
  | _ => False

def Rejection.Structural (S : Span → Prop) (r : Rejection) : Prop :=
  r.fault.Structural ∧ r.Shows S

section
variable {limit : Nat} {s : Span} {r : Rejection} {S : Span → Prop}

namespace Postfix

theorem write_eq_error {n : Node} {depth : Nat} {out : Postfix}
    (h : out.write limit n depth s = .error r) : r = .spanning (.tooManyNodes limit) s := by
  rw [write] at h
  split at h
  · simp at h
  · exact (Except.error.inj h).symm

theorem operator_eq_error {op : BinaryOp} {out : Postfix}
    (h : out.operator limit op s = .error r) (hs : S s) : r.Structural S := by
  rw [operator] at h
  split at h
  · obtain rfl := Except.error.inj h
    exact ⟨trivial, s, rfl, hs⟩
  · obtain rfl := write_eq_error h
    exact ⟨trivial, s, rfl, hs⟩

end Postfix

namespace Yard

variable {y : Yard}

def Shown (S : Span → Prop) (pending : List Pending) : Prop :=
  ∀ op s, .operator op s ∈ pending → S s

theorem Shown.of_suffix {pending rest : List Pending} (h : Shown S pending)
    (hsuffix : rest <:+ pending) : Shown S rest := fun op s hs => h op s (hsuffix.subset hs)

theorem release_eq_error {first : BinaryOp → Bool} {pending : List Pending} {out : Postfix}
    (h : release limit first pending out = .error r) (hS : Shown S pending) : r.Structural S := by
  induction pending generalizing out with
  | nil => simp [release] at h
  | cons top rest ih =>
    cases top with
    | group => simp [release] at h
    | operator op s =>
      rw [release] at h
      split at h
      · rcases bind_eq_error.1 h with h | ⟨out', -, h⟩
        · exact Postfix.operator_eq_error h (hS op s List.mem_cons_self)
        · exact ih h (hS.of_suffix (List.suffix_cons _ _))
      · simp at h

theorem operand_eq_error {n : Node} (h : y.operand limit n s = .error r) (hs : S s) :
    r.Structural S := by
  obtain rfl := Postfix.write_eq_error (error_of_bind_pure h)
  exact ⟨trivial, s, rfl, hs⟩

theorem operator_eq_error {op : BinaryOp} (h : y.operator limit op s = .error r)
    (hS : Shown S y.pending) : r.Structural S :=
  release_eq_error (error_of_bind_pure h) hS

theorem release_group {pending : List Pending} {out : Postfix} {z : Yard}
    (h : release limit (fun _ => true) pending out = .ok z) (hz : z.groups ≠ 0) :
    ∃ rest, z.pending = .group :: rest := by
  induction pending generalizing out with
  | nil =>
    obtain rfl := Except.ok.inj h
    exact absurd rfl hz
  | cons top rest ih =>
    cases top with
    | group =>
      obtain rfl := Except.ok.inj h
      exact ⟨rest, rfl⟩
    | operator op s =>
      rw [release, if_pos rfl] at h
      obtain ⟨out', -, h⟩ := bind_eq_ok.1 h
      exact ih h

theorem closeGroup_eq_error (h : y.closeGroup limit s = .error r) (hg : y.groups ≠ 0)
    (hS : Shown S y.pending) : r.Structural S := by
  rcases bind_eq_error.1 h with h | ⟨z, hz, h⟩
  · exact release_eq_error h hS
  · obtain ⟨-, hgroups, -⟩ := release_balance hz
    have hopen : z.groups ≠ 0 := hgroups ▸ hg
    obtain ⟨rest, hrest⟩ := release_group hz hopen
    rw [hrest] at h
    simp [pure, Except.pure] at h

theorem finish_eq_error (h : y.finish limit s = .error r) (hg : y.groups ≠ 0)
    (hS : Shown S y.pending) (hs : S s) : r.Structural S := by
  rcases bind_eq_error.1 h with h | ⟨z, -, h⟩
  · exact closeGroup_eq_error h hg hS
  · split at h
    · obtain rfl := Except.error.inj h
      exact ⟨trivial, s, rfl, hs⟩
    · split at h
      · obtain rfl := Except.error.inj h
        exact ⟨trivial, s, rfl, hs⟩
      · simp at h
      · obtain rfl := Except.error.inj h
        exact ⟨trivial, s, rfl, hs⟩

end Yard

end

end Formulary
