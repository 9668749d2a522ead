import Formulary.Proofs.Formula.Steps

/-!
# What is open in a yard

How many groups of a formula are open, and what its values come to once the operators
that wait are written. To write operators changes neither of the two.
-/
namespace Formulary

namespace Yard

variable {limit : Nat} {s : Span} {y y' : Yard}

def groups (y : Yard) : Nat := y.pending.count .group

def waiting (y : Yard) : Nat := y.pending.countP (· ≠ .group)

/-- What the values come to, once each operator that waits has taken two of them and left
one. -/
def balance (y : Yard) : Int := y.written.depth - y.waiting

theorem release_balance {first : BinaryOp → Bool} {pending : List Pending} {out : Postfix}
    (h : release limit first pending out = .ok y) :
    y.pending <:+ pending ∧ y.groups = groups ⟨pending, out⟩ ∧
      y.balance = balance ⟨pending, out⟩ := by
  induction pending generalizing out with
  | nil =>
    obtain rfl := Except.ok.inj h
    exact ⟨List.suffix_rfl, rfl, rfl⟩
  | cons top rest ih =>
    cases top with
    | group =>
      obtain rfl := Except.ok.inj h
      exact ⟨List.suffix_rfl, rfl, rfl⟩
    | operator op span =>
      rw [release] at h
      split at h
      · obtain ⟨out', hout, h⟩ := bind_eq_ok.1 h
        obtain ⟨hdepth, -, rfl⟩ := Postfix.operator_eq_ok.1 hout
        obtain ⟨hsuffix, hgroups, hbalance⟩ := ih h
        refine ⟨hsuffix.trans (List.suffix_cons _ _), ?_, ?_⟩
        · simpa [groups] using hgroups
        · rw [hbalance]
          simp only [balance, waiting, List.countP_cons]
          simp
          omega
      · obtain rfl := Except.ok.inj h
        exact ⟨List.suffix_rfl, rfl, rfl⟩

theorem operand_balance {n : Node} (h : y.operand limit n s = .ok y') :
    y'.pending = y.pending ∧ y'.balance = y.balance + 1 := by
  obtain ⟨-, rfl⟩ := operand_eq_ok.1 h
  refine ⟨rfl, ?_⟩
  simp only [balance, waiting]
  omega

theorem operator_balance {op : BinaryOp} (h : y.operator limit op s = .ok y') :
    (∃ rest, y'.pending = .operator op s :: rest ∧ rest <:+ y.pending) ∧ y'.groups = y.groups ∧
      y'.balance = y.balance - 1 := by
  obtain ⟨z, hz, rfl⟩ := operator_eq_ok.1 h
  obtain ⟨hsuffix, hgroups, hbalance⟩ := release_balance hz
  have hsame : y.balance = z.balance := hbalance.symm
  refine ⟨⟨_, rfl, hsuffix⟩, ?_, ?_⟩
  · simpa [groups] using hgroups
  · rw [hsame]
    simp only [balance, waiting, List.countP_cons]
    simp
    omega

theorem closeGroup_balance (h : y.closeGroup limit s = .ok y') :
    .group :: y'.pending <:+ y.pending ∧ y.groups = y'.groups + 1 ∧ y'.balance = y.balance := by
  obtain ⟨rest, out, hz, rfl⟩ := closeGroup_eq_ok.1 h
  obtain ⟨hsuffix, hgroups, hbalance⟩ := release_balance hz
  refine ⟨hsuffix, ?_, ?_⟩
  · simpa [groups] using hgroups.symm
  · have hsame : y.balance = balance ⟨.group :: rest, out⟩ := hbalance.symm
    rw [hsame]
    simp [balance, waiting]

end Yard

end Formulary
