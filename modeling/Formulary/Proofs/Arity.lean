import Formulary.Proofs.Formula.Reaches

/-!
# What arities count

The arity of a formula is the least one that is enough for what it and the arguments
in it read, and for the coordinates that its targets are said to need. Three
coordinates are always enough.
-/
namespace Formulary

/-- An arity has the property when all arities that it is the greatest of have it. -/
structure Arity.IsBound (P : Arity → Prop) : Prop where
  zero : P {}
  max : ∀ a b, P (a.max b) ↔ P a ∧ P b

theorem Arity.implicit_isBound (m : Nat) : IsBound fun a => a.implicit ≤ m :=
  ⟨Nat.zero_le m, fun _ _ => Nat.max_le⟩

theorem Arity.explicit_isBound (m : Nat) : IsBound fun a => a.explicit ≤ m :=
  ⟨Nat.zero_le m, fun _ _ => Nat.max_le⟩

theorem Arity.implicit_capped_le {a : Arity} {m : Nat} :
    a.capped.implicit ≤ m ↔ 3 ≤ m ∨ a.implicit ≤ m := by
  have hthree : coordinateNames.length = 3 := rfl
  simp only [capped, hthree]
  omega

section
variable {needed : Nat → Nat} {m : Nat}

theorem Arity.IsBound.node_arityAll {P : Arity → Prop} (hP : IsBound P) {nodes : List Node} :
    P (Node.arityAll needed nodes) ↔ ∀ n ∈ nodes, P (n.arity needed) := by
  induction nodes with
  | nil => simp [Node.arityAll, hP.zero]
  | cons n rest ih => rw [Node.arityAll, hP.max, List.forall_mem_cons, ih]

theorem Arity.IsBound.formula_arityAll {P : Arity → Prop} (hP : IsBound P) {args : List Formula} :
    P (Formula.arityAll needed args) ↔ ∀ a ∈ args, P (a.arity needed) := by
  induction args with
  | nil => simp [Formula.arityAll, hP.zero]
  | cons f rest ih => rw [Formula.arityAll, hP.max, List.forall_mem_cons, ih]

theorem Node.explicit_arity_call_le {name : String} {args : List Formula} {target : Option Nat} :
    ((Node.call name args target).arity needed).explicit ≤ m ↔
      ∀ a ∈ args, (a.arity needed).explicit ≤ m := by
  have hbound := Arity.explicit_isBound m
  rw [Node.arity, hbound.max, hbound.formula_arityAll]
  simp

theorem Node.implicit_arity_call_le {name : String} {args : List Formula} {target : Option Nat} :
    ((Node.call name args target).arity needed).implicit ≤ m ↔
      (∀ id, target = some id → needed id ≤ m) ∧ ∀ a ∈ args, (a.arity needed).implicit ≤ m := by
  have hbound := Arity.implicit_isBound m
  rw [Node.arity, hbound.max, hbound.formula_arityAll]
  cases target <;> simp

theorem Formula.explicit_arity_le {f : Formula} :
    (f.arity needed).explicit ≤ m ↔ f.All (ArgumentsBelow m) := by
  induction f using Formula.induction with
  | mk nodes profile ih =>
    rw [Formula.arity, Arity.capped, (Arity.explicit_isBound m).node_arityAll, all_iff]
    constructor
    · intro h
      refine ⟨fun i hi => h _ hi, fun name args target hc a ha => ?_⟩
      exact (ih _ _ _ hc a ha).1 (Node.explicit_arity_call_le.1 (h _ hc) a ha)
    · rintro ⟨hown, hargs⟩ n hn
      cases n with
      | argument i => exact hown i hn
      | call name args target =>
        exact Node.explicit_arity_call_le.2 fun a ha =>
          (ih _ _ _ hn a ha).2 (hargs _ _ _ hn a ha)
      | _ => exact Nat.zero_le m

theorem Formula.implicit_arity_le {f : Formula} :
    (f.arity needed).implicit ≤ m ↔
      3 ≤ m ∨ f.All (CoordinatesBelow m) ∧ ∀ id ∈ f.targets, needed id ≤ m := by
  rw [forall_mem_targets]
  induction f using Formula.induction with
  | mk nodes profile ih =>
    rw [Formula.arity, Arity.implicit_capped_le, (Arity.implicit_isBound m).node_arityAll]
    refine or_congr_right' fun hm => ?_
    simp only [hm, false_or] at ih
    rw [all_iff, all_iff]
    constructor
    · intro h
      have hcall := fun name args target (hc : Node.call name args target ∈ nodes) =>
        Node.implicit_arity_call_le.1 (h _ hc)
      refine ⟨⟨fun i hi => h _ hi, fun name args target hc a ha => ?_⟩,
        fun name args id hc => (hcall _ _ _ hc).1 id rfl, fun name args target hc a ha => ?_⟩
      · exact ((ih _ _ _ hc a ha).1 ((hcall _ _ _ hc).2 a ha)).1
      · exact ((ih _ _ _ hc a ha).1 ((hcall _ _ _ hc).2 a ha)).2
    · rintro ⟨⟨hown, hargs⟩, htarget, htargets⟩ n hn
      cases n with
      | coordinate i => exact hown i hn
      | call name args target =>
        refine Node.implicit_arity_call_le.2 ⟨fun id hid => htarget name args id (hid ▸ hn), ?_⟩
        exact fun a ha => (ih _ _ _ hn a ha).2 ⟨hargs _ _ _ hn a ha, htargets _ _ _ hn a ha⟩
      | _ => exact Nat.zero_le m

end

end Formulary
