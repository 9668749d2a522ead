import Formulary.Evaluation
import Formulary.Proofs.Formula.Holds
import Mathlib.Data.List.Forall2

/-!
# Two runs side by side

A run can be followed by another one, on the same formula with other literals and on other
values, as long as the values of both stay related. Where the first run has a value, the second has
a related one. Where the first fails, a strict follower fails for the same reason; one that is
supplied with more may go on.
-/
namespace Formulary

section
variable {ε α β γ δ : Type} {strict : Prop}

/-- What the second outcome has in common with the first. -/
def Parallel (strict : Prop) (R : α → β → Prop) : Except ε α → Except ε β → Prop
  | .ok a, y => ∃ b, y = .ok b ∧ R a b
  | .error e, y => strict → y = .error e

theorem Parallel.bind {R : α → β → Prop} {S : γ → δ → Prop} {x : Except ε α} {y : Except ε β}
    {f : α → Except ε γ} {g : β → Except ε δ} (h : Parallel strict R x y)
    (hfg : ∀ a b, R a b → Parallel strict S (f a) (g b)) :
    Parallel strict S (x >>= f) (y >>= g) := by
  cases x with
  | error e =>
    intro hs
    rw [h hs]
    rfl
  | ok a =>
    obtain ⟨b, rfl, hab⟩ := h
    exact hfg a b hab

theorem Parallel.error (e : ε) {R : α → β → Prop} : Parallel strict R (.error e) (.error e) :=
  fun _ => rfl

theorem Parallel.ok {a : α} {b : β} {R : α → β → Prop} (h : R a b) :
    Parallel strict R (.ok a : Except ε α) (.ok b) := ⟨b, rfl, h⟩

end

section
variable (replace : Float → Float)

mutual

def Formula.withLiterals : Formula → Formula
  | .mk nodes profile => .mk (Node.withLiteralsAll nodes) profile

def Node.withLiteralsAll : List Node → List Node
  | [] => []
  | n :: rest => n.withLiterals :: Node.withLiteralsAll rest

def Node.withLiterals : Node → Node
  | .literal value => .literal (replace value)
  | .coordinate index => .coordinate index
  | .argument index => .argument index
  | .operator op => .operator op
  | .call name args target => .call name (Formula.withLiteralsAll args) target

def Formula.withLiteralsAll : List Formula → List Formula
  | [] => []
  | f :: rest => f.withLiterals :: Formula.withLiteralsAll rest

end

def Equation.withLiterals (e : Equation) : Equation :=
  { e with formula := e.formula.withLiterals replace }

theorem Node.withLiteralsAll_eq_map (nodes : List Node) :
    Node.withLiteralsAll replace nodes = nodes.map (Node.withLiterals replace) := by
  induction nodes with
  | nil => rfl
  | cons n rest ih => simp [Node.withLiteralsAll, ih]

theorem Formula.withLiteralsAll_eq_map (args : List Formula) :
    Formula.withLiteralsAll replace args = args.map (Formula.withLiterals replace) := by
  induction args with
  | nil => rfl
  | cons f rest ih => simp [Formula.withLiteralsAll, ih]

end

structure Kept (V : Float → Float → Prop) : Prop where
  binary : ∀ (op : BinaryOp) {a a' b b' : Float}, V a a' → V b b' →
    V (op.apply a b) (op.apply a' b')
  unary : ∀ (f : Function) {a a' : Float}, V a a' → V (f.apply a) (f.apply a')

/-- Values for each one that is supplied to the first run; no more of them, for a strict
follower. -/
structure Supplies (strict : Prop) (V : Float → Float → Prop) (xs ys : List Float) : Prop where
  value : ∀ (i : Nat) x, xs[i]? = some x → ∃ y, ys[i]? = some y ∧ V x y
  length : strict → ys.length = xs.length

def CallRule.Parallel (strict : Prop) (V : Float → Float → Prop) (rule rule' : CallRule) : Prop :=
  ∀ name target found, Formulary.Parallel strict
    (fun body body' => ∀ xs ys, List.Forall₂ V xs ys →
      Formulary.Parallel strict V (body xs) (body' ys))
    (rule name target found) (rule' name target found)

section
variable {strict : Prop} {V : Float → Float → Prop}

theorem Supplies.of_forall₂ {xs ys : List Float} (h : List.Forall₂ V xs ys) :
    Supplies strict V xs ys where
  value i x hx := by
    induction h generalizing i with
    | nil => simp at hx
    | @cons a b as bs hab _ ih =>
      cases i with
      | zero =>
        obtain rfl : a = x := by simpa using hx
        exact ⟨b, rfl, hab⟩
      | succ i => simpa using ih i (by simpa using hx)
  length _ := h.length_eq.symm

theorem Supplies.read {xs ys stack stack' : List Float} (hs : Supplies strict V xs ys)
    (h : List.Forall₂ V stack stack') (index : Nat) (missing : Nat → EvalError) :
    Parallel strict (List.Forall₂ V)
      (match xs[index]? with
        | some x => .ok (x :: stack)
        | none => .error (missing xs.length))
      (match ys[index]? with
        | some y => .ok (y :: stack')
        | none => .error (missing ys.length)) := by
  cases hx : xs[index]? with
  | some x =>
    obtain ⟨y, hy, hxy⟩ := hs.value index x hx
    rw [hy]
    exact .ok (.cons hxy h)
  | none =>
    intro hstrict
    have hlength := hs.length hstrict
    have hnone : ys[index]? = none := by
      rw [List.getElem?_eq_none_iff, hlength]
      exact List.getElem?_eq_none_iff.1 hx
    simp only [hnone, hlength]

theorem Operator.run_parallel (hV : Kept V) (op : Operator) {stack stack' : List Float}
    (h : List.Forall₂ V stack stack') :
    Parallel strict (List.Forall₂ V) (op.run stack) (op.run stack') := by
  cases op with
  | binary op =>
    cases h with
    | nil => exact .error _
    | cons hright h =>
      cases h with
      | nil => exact .error _
      | cons hleft h => exact .ok (.cons (hV.binary op hleft hright) h)
  | unary f =>
    cases h with
    | nil => exact .error _
    | cons hx h => exact .ok (.cons (hV.unary f hx) h)

theorem single_parallel {stack stack' : List Float} (h : List.Forall₂ V stack stack') :
    Parallel strict V (single stack) (single stack') := by
  cases h with
  | nil => exact .error _
  | cons hx h =>
    cases h with
    | nil => exact .ok hx
    | cons hy h =>
      simp only [single, List.length_cons, h.length_eq]
      exact .error _

variable {replace : Float → Float} {rule rule' : CallRule}
  {coordinates coordinates' arguments arguments' : List Float}

/-- A node goes the same way on related stacks, once the arguments of a call are known to. -/
theorem Node.run_parallel (hV : Kept V) (hreplace : ∀ x, V x (replace x))
    (hrule : rule.Parallel strict V rule') (hc : Supplies strict V coordinates coordinates')
    (ha : Supplies strict V arguments arguments') {n : Node}
    (hargs : ∀ name args target, n = .call name args target →
      Parallel strict (List.Forall₂ V) (Formula.runAll rule coordinates arguments args)
        (Formula.runAll rule' coordinates' arguments' (args.map (Formula.withLiterals replace))))
    {stack stack' : List Float} (h : List.Forall₂ V stack stack') :
    Parallel strict (List.Forall₂ V) (n.run rule coordinates arguments stack)
      ((n.withLiterals replace).run rule' coordinates' arguments' stack') := by
  cases n with
  | literal value => exact .ok (.cons (hreplace value) h)
  | operator op => exact op.run_parallel hV h
  | coordinate index => exact hc.read h index (.missingCoordinate index)
  | argument index => exact ha.read h index (.missingArgument index)
  | call name args target =>
    simp only [withLiterals, run, Formula.withLiteralsAll_eq_map, List.length_map]
    refine (hrule name target args.length).bind fun body body' hbody => ?_
    refine (hargs name args target rfl).bind fun values values' hvalues => ?_
    exact (hbody values values' hvalues).bind fun x y hxy => .ok (.cons hxy h)

theorem Node.runAll_parallel {nodes : List Node}
    (hnodes : ∀ n ∈ nodes, ∀ stack stack', List.Forall₂ V stack stack' →
      Parallel strict (List.Forall₂ V) (n.run rule coordinates arguments stack)
        ((n.withLiterals replace).run rule' coordinates' arguments' stack'))
    {stack stack' : List Float} (h : List.Forall₂ V stack stack') :
    Parallel strict (List.Forall₂ V) (Node.runAll rule coordinates arguments nodes stack)
      (Node.runAll rule' coordinates' arguments' (nodes.map (Node.withLiterals replace))
        stack') := by
  induction nodes generalizing stack stack' with
  | nil => exact .ok h
  | cons n rest ih =>
    rw [List.forall_mem_cons] at hnodes
    exact (hnodes.1 stack stack' h).bind fun mid mid' hmid => ih hnodes.2 hmid

theorem Formula.runAll_parallel {args : List Formula}
    (hargs : ∀ a ∈ args, Parallel strict V (a.run rule coordinates arguments)
      ((a.withLiterals replace).run rule' coordinates' arguments')) :
    Parallel strict (List.Forall₂ V) (Formula.runAll rule coordinates arguments args)
      (Formula.runAll rule' coordinates' arguments' (args.map (Formula.withLiterals replace))) := by
  induction args with
  | nil => exact .ok .nil
  | cons a rest ih =>
    rw [List.forall_mem_cons] at hargs
    refine hargs.1.bind fun x y hxy => ?_
    exact (ih hargs.2).bind fun xs ys hxys => .ok (.cons hxy hxys)

theorem Formula.run_parallel (hV : Kept V) (hreplace : ∀ x, V x (replace x))
    (hrule : rule.Parallel strict V rule') (hc : Supplies strict V coordinates coordinates')
    (ha : Supplies strict V arguments arguments') (f : Formula) :
    Parallel strict V (f.run rule coordinates arguments)
      ((f.withLiterals replace).run rule' coordinates' arguments') := by
  induction f using Formula.induction with
  | mk nodes profile ih =>
    simp only [withLiterals, run, Node.withLiteralsAll_eq_map]
    refine (Node.runAll_parallel (fun n hn stack stack' h => ?_) .nil).bind
      fun stack stack' h => single_parallel h
    refine Node.run_parallel hV hreplace hrule hc ha (fun name args target hcall => ?_) h
    subst hcall
    exact runAll_parallel fun a ha => ih name args target hn a ha

variable {table : List Equation} {limit limit' left left' : Nat}

theorem bind_getElem?_withLiterals (target : Option Nat) :
    target.bind ((table.map (·.withLiterals replace))[·]?) =
      (target.bind (table[·]?)).map (·.withLiterals replace) := by
  cases target with
  | none => rfl
  | some id => simp

theorem enter_parallel (hV : Kept V) (hreplace : ∀ x, V x (replace x))
    (hc : Supplies strict V coordinates coordinates') (hle : left ≤ left')
    (hsame : strict → left' = left ∧ limit' = limit) :
    (enter table limit coordinates left).Parallel strict V
      (enter (table.map (·.withLiterals replace)) limit' coordinates' left') := by
  induction left generalizing left' with
  | zero =>
    intro name target found
    simp only [enter, bind_getElem?_withLiterals]
    cases target.bind (table[·]?) with
    | none => exact .error _
    | some e =>
      simp only [Option.map_some, Equation.withLiterals]
      split
      · exact .error _
      · intro hs
        obtain ⟨rfl, rfl⟩ := hsame hs
        rfl
  | succ left ih =>
    intro name target found
    obtain ⟨deeper, rfl⟩ : ∃ deeper, left' = deeper + 1 := ⟨left' - 1, by omega⟩
    have hdeeper : (enter table limit coordinates left).Parallel strict V
        (enter (table.map (·.withLiterals replace)) limit' coordinates' deeper) :=
      ih (by omega) fun hs => ⟨by have := (hsame hs).1; omega, (hsame hs).2⟩
    simp only [enter, bind_getElem?_withLiterals]
    cases target.bind (table[·]?) with
    | none => exact .error _
    | some e =>
      simp only [Option.map_some, Equation.withLiterals]
      split
      · exact .error _
      · exact .ok fun xs ys hxys =>
          Formula.run_parallel hV hreplace hdeeper hc (.of_forall₂ hxys) e.formula

theorem Formula.evaluate_parallel (hV : Kept V) (hreplace : ∀ x, V x (replace x))
    (hc : Supplies strict V coordinates coordinates')
    (ha : Supplies strict V arguments arguments') (hle : limit ≤ limit')
    (hsame : strict → limit' = limit) (f : Formula) :
    Parallel strict V (f.evaluate table limit coordinates arguments)
      ((f.withLiterals replace).evaluate (table.map (·.withLiterals replace)) limit' coordinates'
        arguments') :=
  f.run_parallel hV hreplace
    (enter_parallel hV hreplace hc hle fun hs => ⟨hsame hs, hsame hs⟩) hc ha

end

end Formulary
