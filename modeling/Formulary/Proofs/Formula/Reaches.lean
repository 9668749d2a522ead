import Formulary.Arity
import Formulary.Proofs.Formula.Holds
import Mathlib.Data.ENat.Lattice
import Mathlib.Data.Fintype.Card
import Mathlib.Logic.Relation
import Mathlib.Order.FixedPoints

/-!
# What calls reach

A formula reaches what it holds and what the targets of its calls reach. How deep its
calls nest is the least solution of the equations that the targets give, so it is
infinite where the targets come back to themselves.
-/
namespace Formulary

namespace Formula

theorem forall_mem_targets {P : Nat → Prop} {f : Formula} :
    (∀ id ∈ f.targets, P id) ↔
      f.All fun g => ∀ name args id, .call name args (some id) ∈ g.nodes → P id := by
  induction f using Formula.induction with
  | mk nodes profile ih =>
    rw [all_iff]
    constructor
    · intro h
      refine ⟨fun name args id hc => h id ?_, fun name args target hc a ha => ?_⟩
      · exact mem_targets.2 ⟨_, hc, Node.mem_targets_call.2 (.inl rfl)⟩
      · refine (ih _ _ _ hc a ha).1 fun id hid => h id ?_
        exact mem_targets.2 ⟨_, hc, Node.mem_targets_call.2 (.inr ⟨a, ha, hid⟩)⟩
    · rintro ⟨hown, hargs⟩ id hid
      obtain ⟨n, hn, hid⟩ := mem_targets.1 hid
      cases n with
      | call name args target =>
        rcases Node.mem_targets_call.1 hid with rfl | ⟨a, ha, hid⟩
        · exact hown _ _ _ hn
        · exact (ih _ _ _ hn a ha).2 (hargs _ _ _ hn a ha) id hid
      | _ => exact absurd hid List.not_mem_nil

theorem mem_targets_of_holds {f g : Formula} (hg : f.Holds g) {name : String}
    {args : List Formula} {id : Nat} (hc : .call name args (some id) ∈ g.nodes) :
    id ∈ f.targets :=
  forall_mem_targets.1 (fun _ hid => hid) g hg name args id hc

inductive Reaches (table : List Equation) : Formula → Formula → Prop
  | held {f g : Formula} : f.Holds g → Reaches table f g
  | target {f g : Formula} {id : Nat} {e : Equation} : id ∈ f.targets → table[id]? = some e →
      Reaches table e.formula g → Reaches table f g

def AllReached (table : List Equation) (P : Formula → Prop) (f : Formula) : Prop :=
  ∀ g, f.Reaches table g → P g

variable {table : List Equation}

theorem allReached_iff {P : Formula → Prop} {f : Formula} :
    f.AllReached table P ↔ f.All P ∧ ∀ id ∈ f.targets, ∀ e, table[id]? = some e →
      e.formula.AllReached table P := by
  constructor
  · intro h
    exact ⟨fun g hg => h g (.held hg), fun id hid e he g hg => h g (.target hid he hg)⟩
  · rintro ⟨hf, ht⟩ g hg
    cases hg with
    | held hg => exact hf g hg
    | target hid he hg => exact ht _ hid _ he g hg

def Bound (table : List Equation) (f : Formula) : Prop :=
  ∀ name args target, .call name args target ∈ f.nodes →
    ∃ id callee, target = some id ∧ table[id]? = some callee ∧ args.length = callee.params.length

def CoordinatesBelow (count : Nat) (f : Formula) : Prop := ∀ i, .coordinate i ∈ f.nodes → i < count

def ArgumentsBelow (count : Nat) (f : Formula) : Prop := ∀ i, .argument i ∈ f.nodes → i < count

theorem AllReached.imp {P Q : Formula → Prop} {f : Formula} (h : f.AllReached table P)
    (hPQ : ∀ g, P g → Q g) : f.AllReached table Q := fun g hg => hPQ g (h g hg)

end Formula

section
variable (depth : Nat → ℕ∞)

mutual

noncomputable def Formula.nestingOver : Formula → ℕ∞
  | .mk nodes _ => Node.nestingOverAll nodes

noncomputable def Node.nestingOverAll : List Node → ℕ∞
  | [] => 0
  | n :: rest => max n.nestingOver (Node.nestingOverAll rest)

noncomputable def Node.nestingOver : Node → ℕ∞
  | .call _ args target => max ((target.map (1 + depth ·)).getD 0) (Formula.nestingOverAll args)
  | _ => 0

noncomputable def Formula.nestingOverAll : List Formula → ℕ∞
  | [] => 0
  | f :: rest => max f.nestingOver (Formula.nestingOverAll rest)

end

end

section
variable {depth : Nat → ℕ∞}

theorem Node.nestingOverAll_le {nodes : List Node} {bound : ℕ∞} :
    Node.nestingOverAll depth nodes ≤ bound ↔ ∀ n ∈ nodes, n.nestingOver depth ≤ bound := by
  induction nodes with
  | nil => simp [Node.nestingOverAll]
  | cons n rest ih => simp only [Node.nestingOverAll, max_le_iff, List.forall_mem_cons, ih]

theorem Formula.nestingOverAll_le {args : List Formula} {bound : ℕ∞} :
    Formula.nestingOverAll depth args ≤ bound ↔ ∀ a ∈ args, a.nestingOver depth ≤ bound := by
  induction args with
  | nil => simp [Formula.nestingOverAll]
  | cons f rest ih => simp only [Formula.nestingOverAll, max_le_iff, List.forall_mem_cons, ih]

theorem Node.nestingOver_call_le {name : String} {args : List Formula} {target : Option Nat}
    {bound : ℕ∞} : (Node.call name args target).nestingOver depth ≤ bound ↔
      (∀ id, target = some id → 1 + depth id ≤ bound) ∧
        ∀ a ∈ args, a.nestingOver depth ≤ bound := by
  rw [Node.nestingOver, max_le_iff, Formula.nestingOverAll_le]
  cases target <;> simp

theorem Formula.nestingOver_le {f : Formula} {bound : ℕ∞} :
    f.nestingOver depth ≤ bound ↔ ∀ id ∈ f.targets, 1 + depth id ≤ bound := by
  rw [forall_mem_targets]
  induction f using Formula.induction with
  | mk nodes profile ih =>
    rw [Formula.nestingOver, Node.nestingOverAll_le, all_iff]
    constructor
    · intro h
      refine ⟨fun name args id hc => (Node.nestingOver_call_le.1 (h _ hc)).1 id rfl,
        fun name args target hc a ha => ?_⟩
      exact (ih _ _ _ hc a ha).1 ((Node.nestingOver_call_le.1 (h _ hc)).2 a ha)
    · rintro ⟨hown, hargs⟩ n hn
      cases n with
      | call name args target =>
        refine Node.nestingOver_call_le.2 ⟨fun id hid => hown name args id (hid ▸ hn), ?_⟩
        exact fun a ha => (ih _ _ _ hn a ha).2 (hargs _ _ _ hn a ha)
      | _ => simp [Node.nestingOver]

theorem Formula.nestingOver_mono {f : Formula} {deeper : Nat → ℕ∞}
    (h : ∀ id, depth id ≤ deeper id) :
    f.nestingOver depth ≤ f.nestingOver deeper :=
  nestingOver_le.2 fun id hid => (add_le_add_right (h id) 1).trans (nestingOver_le.1 le_rfl id hid)

end

section
variable (table : List Equation)

noncomputable def deepened (depth : Nat → ℕ∞) (id : Nat) : ℕ∞ :=
  match table[id]? with
  | none => 0
  | some e => e.formula.nestingOver depth

theorem deepened_mono : Monotone (deepened table) := by
  intro depth deeper h id
  rw [deepened, deepened]
  cases table[id]? with
  | none => exact le_rfl
  | some e => exact Formula.nestingOver_mono h

noncomputable def callDepth : Nat → ℕ∞ := OrderHom.lfp ⟨deepened table, deepened_mono table⟩

/-- How deep the calls in a formula nest: nothing without calls, otherwise one more than
in the target of any call, and as deep as in any argument. -/
noncomputable def Formula.nesting (f : Formula) : ℕ∞ := f.nestingOver (callDepth table)

variable {table}

theorem deepened_callDepth : deepened table (callDepth table) = callDepth table :=
  OrderHom.map_lfp ⟨deepened table, deepened_mono table⟩

theorem callDepth_eq {id : Nat} {e : Equation} (h : table[id]? = some e) :
    callDepth table id = e.formula.nesting table := by
  rw [← deepened_callDepth, deepened, h]
  rfl

theorem callDepth_eq_zero {id : Nat} (h : table[id]? = none) : callDepth table id = 0 := by
  rw [← deepened_callDepth, deepened, h]

theorem Formula.nesting_le {f : Formula} {bound : ℕ∞} :
    f.nesting table ≤ bound ↔ ∀ id ∈ f.targets, 1 + callDepth table id ≤ bound := nestingOver_le

end

open Relation

def Links (table : List Equation) (i j : Nat) : Prop :=
  ∃ e, table[i]? = some e ∧ j ∈ e.formula.targets

/-- The targets lead to an equation that leads back to itself. -/
def Cyclic (table : List Equation) (i : Nat) : Prop :=
  ∃ j, ReflTransGen (Links table) i j ∧ TransGen (Links table) j j

section
variable {table : List Equation} {i j : Nat}

theorem Links.callDepth_lt (h : Links table i j) : 1 + callDepth table j ≤ callDepth table i := by
  obtain ⟨e, he, hj⟩ := h
  rw [callDepth_eq he]
  exact Formula.nesting_le.1 le_rfl j hj

theorem callDepth_le_of_reflTransGen (h : ReflTransGen (Links table) i j) :
    callDepth table j ≤ callDepth table i := by
  induction h with
  | refl => exact le_rfl
  | tail _ hl ih => exact (le_add_self.trans hl.callDepth_lt).trans ih

theorem callDepth_lt_of_transGen (h : TransGen (Links table) i j) :
    1 + callDepth table j ≤ callDepth table i := by
  obtain ⟨k, hk, hl⟩ := TransGen.tail'_iff.1 h
  exact hl.callDepth_lt.trans (callDepth_le_of_reflTransGen hk)

theorem Cyclic.callDepth_eq_top (h : Cyclic table i) : callDepth table i = ⊤ := by
  obtain ⟨j, hij, hjj⟩ := h
  have hlt := callDepth_lt_of_transGen hjj
  have htop : callDepth table j = ⊤ := by
    -- No finite depth is one more than itself.
    by_contra hne
    obtain ⟨n, hn⟩ := ENat.ne_top_iff_exists.1 hne
    rw [← hn] at hlt
    have hle : 1 + n ≤ n := by exact_mod_cast hlt
    omega
  exact top_le_iff.1 (htop ▸ callDepth_le_of_reflTransGen hij)

theorem Cyclic.not_nesting_le {e : Equation} (h : Cyclic table i) (he : table[i]? = some e)
    (limit : Nat) : ¬ e.formula.nesting table ≤ limit := by
  rw [← callDepth_eq he, h.callDepth_eq_top]
  exact fun hle => absurd (top_le_iff.1 hle) (ENat.natCast_ne_top limit)

theorem callDepth_ne_top_of_links (he : i < table.length)
    (h : ∀ j, Links table i j → callDepth table j ≠ ⊤) : callDepth table i ≠ ⊤ := by
  have hbound : ∀ ids : List Nat, (∀ id ∈ ids, callDepth table id ≠ ⊤) →
      ∃ n : Nat, ∀ id ∈ ids, 1 + callDepth table id ≤ n := by
    intro ids hids
    induction ids with
    | nil => exact ⟨0, fun id hid => absurd hid List.not_mem_nil⟩
    | cons id rest ih =>
      rw [List.forall_mem_cons] at hids
      obtain ⟨n, hn⟩ := ih hids.2
      obtain ⟨m, hm⟩ := ENat.ne_top_iff_exists.1 hids.1
      refine ⟨max (1 + m) n, List.forall_mem_cons.2 ⟨?_, fun j hj => (hn j hj).trans ?_⟩⟩
      · rw [← hm]
        exact_mod_cast le_max_left (1 + m) n
      · exact_mod_cast le_max_right (1 + m) n
  have hi := List.getElem?_eq_getElem he
  obtain ⟨n, hn⟩ := hbound _ fun j hj => h j ⟨_, hi, hj⟩
  rw [callDepth_eq hi]
  exact ne_top_of_le_ne_top (ENat.natCast_ne_top n) (Formula.nesting_le.2 hn)

theorem callDepth_eq_top_iff : callDepth table i = ⊤ ↔ Cyclic table i := by
  refine ⟨fun htop => ?_, Cyclic.callDepth_eq_top⟩
  by_contra hc
  -- Away from cycles the equations that are led to from `i` can be met in order.
  let below (j k : Fin table.length) : Prop :=
    ReflTransGen (Links table) i k ∧ TransGen (Links table) k j
  have : IsTrans _ below := ⟨fun _ _ _ h h' => ⟨h'.1, h'.2.trans h.2⟩⟩
  have : Std.Irrefl below := ⟨fun j h => hc ⟨j, h.1, h.2⟩⟩
  have hwf : WellFounded below := Finite.wellFounded_of_trans_of_irrefl below
  have hfin : ∀ j : Fin table.length, ReflTransGen (Links table) i j → callDepth table j ≠ ⊤ := by
    intro j
    induction j using hwf.induction with
    | _ j ih =>
      intro hij
      refine callDepth_ne_top_of_links j.isLt fun k hk => ?_
      by_cases hlt : k < table.length
      · exact ih ⟨k, hlt⟩ ⟨hij, .single hk⟩ (hij.tail hk)
      · rw [callDepth_eq_zero (List.getElem?_eq_none_iff.2 (Nat.le_of_not_lt hlt))]
        exact ENat.zero_ne_top
  by_cases hlt : i < table.length
  · exact hfin ⟨i, hlt⟩ .refl htop
  · rw [callDepth_eq_zero (List.getElem?_eq_none_iff.2 (Nat.le_of_not_lt hlt))] at htop
    exact ENat.zero_ne_top htop

theorem Cyclic.of_links (h : Links table i j) (hj : Cyclic table j) : Cyclic table i := by
  obtain ⟨k, hjk, hk⟩ := hj
  exact ⟨k, .head h hjk, hk⟩

end

end Formulary
