import Formulary.Proofs.Evaluation.Run
import Formulary.Proofs.Profiles

/-!
# Evaluation as a recursion on trees

An expression is a tree whose post-order is a formula. To evaluate it directly is to go
down the tree, the left operand before the right one, and at a call into the tree of its
target, unless something is wrong with the call. Running the formula on a stack comes to
the same, with the same error where there is one. Every balanced formula is the
post-order of a tree.
-/
namespace Formulary

inductive Expr where
  | literal (value : Float)
  | coordinate (index : Nat)
  | argument (index : Nat)
  | unary (f : Function) (operand : Expr)
  | binary (op : BinaryOp) (left right : Expr)
  | call (name : String) (args : List Expr) (target : Option Nat)

structure Definition where
  params : List String
  body : Expr

theorem Expr.induction {motive : Expr → Prop} (literal : ∀ value, motive (.literal value))
    (coordinate : ∀ index, motive (.coordinate index))
    (argument : ∀ index, motive (.argument index))
    (unary : ∀ f operand, motive operand → motive (.unary f operand))
    (binary : ∀ op left right, motive left → motive right → motive (.binary op left right))
    (call : ∀ name args target, (∀ a ∈ args, motive a) → motive (.call name args target)) :
    ∀ e : Expr, motive e
  | .literal value => literal value
  | .coordinate index => coordinate index
  | .argument index => argument index
  | .unary f operand =>
    unary f operand (operand.induction literal coordinate argument unary binary call)
  | .binary op left right =>
    binary op left right (left.induction literal coordinate argument unary binary call)
      (right.induction literal coordinate argument unary binary call)
  | .call name args target =>
    call name args target fun a _ => a.induction literal coordinate argument unary binary call

mutual

def Expr.postorder : Expr → List Node
  | .literal value => [.literal value]
  | .coordinate index => [.coordinate index]
  | .argument index => [.argument index]
  | .unary f operand => operand.postorder ++ [.operator (.unary f)]
  | .binary op left right => left.postorder ++ right.postorder ++ [.operator (.binary op)]
  | .call name args target => [.call name (Expr.formulas args) target]

def Expr.formulas : List Expr → List Formula
  | [] => []
  | e :: rest => .ofNodes e.postorder :: Expr.formulas rest

end

section
variable (definitions : List Definition) (limit : Nat) (coordinates : List Float)

mutual

def Expr.evaluate (frames : Nat) (arguments : List Float) : Expr → Except EvalError Float
  | .literal value => .ok value
  | .coordinate index =>
    match coordinates[index]? with
    | some x => .ok x
    | none => .error (.missingCoordinate index coordinates.length)
  | .argument index =>
    match arguments[index]? with
    | some x => .ok x
    | none => .error (.missingArgument index arguments.length)
  | .unary f operand => do
    let x ← operand.evaluate frames arguments
    return f.apply x
  | .binary op left right => do
    let x ← left.evaluate frames arguments
    let y ← right.evaluate frames arguments
    return op.apply x y
  | .call name args target =>
    match target.bind (definitions[·]?) with
    | none => .error (.unresolved name)
    | some d =>
      if args.length ≠ d.params.length then
        .error (.arityMismatch name d.params.length args.length)
      else if h : limit ≤ frames then .error (.callsTooDeep name limit)
      else do
        let values ← Expr.evaluateAll frames arguments args
        d.body.evaluate (frames + 1) values
termination_by e => (limit - frames, sizeOf e)

def Expr.evaluateAll (frames : Nat) (arguments : List Float) :
    List Expr → Except EvalError (List Float)
  | [] => .ok []
  | e :: rest => do
    let x ← e.evaluate frames arguments
    let values ← Expr.evaluateAll frames arguments rest
    return x :: values
termination_by args => (limit - frames, sizeOf args)

end

def Definition.enter (frames : Nat) : CallRule := fun name target found =>
  match target.bind (definitions[·]?) with
  | none => .error (.unresolved name)
  | some d =>
    if found ≠ d.params.length then .error (.arityMismatch name d.params.length found)
    else if limit ≤ frames then .error (.callsTooDeep name limit)
    else .ok (d.body.evaluate definitions limit coordinates (frames + 1))

end

namespace Formula

/-- Nothing but profiles tells the formula from the post-order of the tree. -/
def Writes (f : Formula) (e : Expr) : Prop := f.bare = .ofNodes e.postorder

end Formula

def Equation.Writes (e : Equation) (d : Definition) : Prop :=
  e.params = d.params ∧ e.formula.Writes d.body

theorem exists_formulas {args : List Formula} (h : ∀ a ∈ args, ∃ e, Formula.Writes a e) :
    ∃ es, Formula.annotateAll (fun _ => {}) args = Expr.formulas es := by
  induction args with
  | nil => exact ⟨[], rfl⟩
  | cons a rest ih =>
    obtain ⟨⟨e, he⟩, hrest⟩ := List.forall_mem_cons.1 h
    obtain ⟨es, hes⟩ := ih hrest
    refine ⟨e :: es, ?_⟩
    rw [Formula.annotateAll, Expr.formulas, hes]
    exact congrArg (· :: _) he

theorem exists_postorder {nodes : List Node} {height : Nat}
    (hargs : ∀ name args target, .call name args target ∈ nodes →
      ∀ a ∈ args, ∃ e, Formula.Writes a e) (h : heightAfter nodes 0 = some height) :
    ∃ es : List Expr, es.length = height ∧
      nodes.map (Node.annotate fun _ => {}) = es.flatMap Expr.postorder := by
  induction nodes using List.reverseRecOn generalizing height with
  | nil => exact ⟨[], Option.some.inj h, rfl⟩
  | append_singleton nodes n ih =>
    obtain ⟨mid, hmid, hn⟩ := heightAfter_concat_eq_some h
    obtain ⟨es, hlength, hcode⟩ := ih (fun name args target hc =>
      hargs name args target (List.mem_append_left [n] hc)) hmid
    have hleaf : ∀ e : Expr, e.postorder = [n.annotate fun _ => {}] → mid + 1 = height →
        ∃ es : List Expr, es.length = height ∧
          (nodes ++ [n]).map (Node.annotate fun _ => {}) = es.flatMap Expr.postorder := by
      intro e he hheight
      refine ⟨es ++ [e], by simp [hlength, hheight], ?_⟩
      simp [hcode, he]
    cases n with
    | literal value => exact hleaf (.literal value) rfl (Option.some.inj hn)
    | coordinate index => exact hleaf (.coordinate index) rfl (Option.some.inj hn)
    | argument index => exact hleaf (.argument index) rfl (Option.some.inj hn)
    | operator op =>
      obtain ⟨hle, hheight⟩ : op.arity ≤ mid ∧ mid - op.arity + 1 = height := by
        simpa [Node.heightAfter] using hn
      -- The operands are the last trees, and the operator joins them to one.
      cases op with
      | unary f =>
        have hone : (Operator.unary f).arity = 1 := rfl
        obtain rfl | ⟨front, e, rfl⟩ := es.eq_nil_or_concat'
        · rw [List.length_nil] at hlength
          omega
        · rw [List.length_append, List.length_singleton] at hlength
          refine ⟨front ++ [.unary f e], by simp; omega, ?_⟩
          simp [hcode, Expr.postorder, Node.annotate]
      | binary op =>
        have htwo : (Operator.binary op).arity = 2 := rfl
        obtain rfl | ⟨others, right, rfl⟩ := es.eq_nil_or_concat'
        · rw [List.length_nil] at hlength
          omega
        · rw [List.length_append, List.length_singleton] at hlength
          obtain rfl | ⟨front, left, rfl⟩ := others.eq_nil_or_concat'
          · rw [List.length_nil] at hlength
            omega
          · rw [List.length_append, List.length_singleton] at hlength
            refine ⟨front ++ [.binary op left right], by simp; omega, ?_⟩
            simp [hcode, Expr.postorder, Node.annotate]
    | call name args target =>
      obtain ⟨exprs, hexprs⟩ := exists_formulas (hargs name args target (by simp))
      refine hleaf (.call name exprs target) ?_ (Option.some.inj hn)
      rw [Expr.postorder, Node.annotate, hexprs]

theorem Formula.exists_writes {f : Formula} (hb : f.All Balanced) : ∃ e, f.Writes e := by
  induction f using Formula.induction with
  | mk nodes profile ih =>
    obtain ⟨es, hlength, hcode⟩ := exists_postorder
      (fun name args target hc a ha => ih name args target hc a ha (hb.argument hc ha)) hb.self
    obtain ⟨e, rfl⟩ := List.length_eq_one_iff.1 hlength
    refine ⟨e, ?_⟩
    rw [Writes, bare, annotate, Node.annotateAll_eq_map, hcode, List.flatMap_singleton]
    rfl

theorem Equation.exists_definitions {table : List Equation} (h : ∀ e ∈ table, e.Sound) :
    ∃ definitions, List.Forall₂ Equation.Writes table definitions := by
  induction table with
  | nil => exact ⟨[], .nil⟩
  | cons e rest ih =>
    obtain ⟨hsound, hrest⟩ := List.forall_mem_cons.1 h
    obtain ⟨body, hbody⟩ := Formula.exists_writes hsound.all_balanced
    obtain ⟨definitions, hdefinitions⟩ := ih hrest
    exact ⟨⟨e.params, body⟩ :: definitions, .cons ⟨rfl, hbody⟩ hdefinitions⟩

section
variable {definitions : List Definition} {limit frames : Nat} {coordinates arguments : List Float}

theorem Expr.evaluate_call (name : String) (args : List Expr) (target : Option Nat) :
    (Expr.call name args target).evaluate definitions limit coordinates frames arguments = (do
      let body ← Definition.enter definitions limit coordinates frames name target args.length
      let values ← Expr.evaluateAll definitions limit coordinates frames arguments args
      body values) := by
  rw [Expr.evaluate, Definition.enter]
  cases target.bind (definitions[·]?) with
  | none => rfl
  | some d =>
    by_cases hlen : args.length ≠ d.params.length
    · simp only [if_pos hlen]
      rfl
    · by_cases hdeep : limit ≤ frames
      · simp only [if_neg hlen, if_pos hdeep, dif_pos hdeep]
        rfl
      · simp only [if_neg hlen, if_neg hdeep, dif_neg hdeep]
        rfl

theorem Expr.length_formulas (args : List Expr) : (formulas args).length = args.length := by
  induction args with
  | nil => rfl
  | cons e rest ih => simp only [formulas, List.length_cons, ih]

theorem Node.runAll_append {rule : CallRule} (nodes more : List Node) (stack : List Float) :
    Node.runAll rule coordinates arguments (nodes ++ more) stack =
      Node.runAll rule coordinates arguments nodes stack >>=
        Node.runAll rule coordinates arguments more := by
  induction nodes generalizing stack with
  | nil => rfl
  | cons n rest ih =>
    simp only [List.cons_append, Node.runAll]
    cases n.run rule coordinates arguments stack with
    | error e => rfl
    | ok mid => exact ih mid

theorem Node.runAll_singleton {rule : CallRule} (n : Node) (stack : List Float) :
    Node.runAll rule coordinates arguments [n] stack = n.run rule coordinates arguments stack := by
  simp only [Node.runAll]
  cases n.run rule coordinates arguments stack <;> rfl

/-- The code of an expression puts its value on the stack, whatever stands there. -/
theorem Expr.runAll_postorder (e : Expr) (stack : List Float) :
    Node.runAll (Definition.enter definitions limit coordinates frames) coordinates arguments
      e.postorder stack =
        (e.evaluate definitions limit coordinates frames arguments).map (· :: stack) := by
  induction e using Expr.induction generalizing stack with
  | literal value =>
    rw [postorder, Node.runAll_singleton, evaluate]
    rfl
  | coordinate index =>
    rw [postorder, Node.runAll_singleton, evaluate, Node.run]
    cases coordinates[index]? <;> rfl
  | argument index =>
    rw [postorder, Node.runAll_singleton, evaluate, Node.run]
    cases arguments[index]? <;> rfl
  | unary f operand ih =>
    rw [postorder, Node.runAll_append, ih, evaluate]
    cases operand.evaluate definitions limit coordinates frames arguments with
    | error e => rfl
    | ok x =>
      simp only [Except.map, ok_bind, Node.runAll_singleton]
      rfl
  | binary op left right ihl ihr =>
    rw [postorder, Node.runAll_append, Node.runAll_append, ihl, evaluate]
    cases left.evaluate definitions limit coordinates frames arguments with
    | error e => rfl
    | ok x =>
      change Node.runAll _ _ _ right.postorder (x :: stack) >>= _ = _
      rw [ihr]
      cases right.evaluate definitions limit coordinates frames arguments with
      | error e => rfl
      | ok y =>
        simp only [Except.map, ok_bind, Node.runAll_singleton]
        rfl
  | call name args target ih =>
    have hargs : Formula.runAll (Definition.enter definitions limit coordinates frames) coordinates
        arguments (formulas args) =
          evaluateAll definitions limit coordinates frames arguments args := by
      clear stack
      induction args with
      | nil =>
        rw [formulas, evaluateAll]
        rfl
      | cons a rest ihrest =>
        rw [List.forall_mem_cons] at ih
        rw [formulas, evaluateAll, Formula.runAll, ihrest ih.2, Formula.ofNodes, Formula.run,
          ih.1]
        cases a.evaluate definitions limit coordinates frames arguments <;> rfl
    rw [postorder, Node.runAll_singleton, Node.run, evaluate_call, length_formulas, hargs]
    cases Definition.enter definitions limit coordinates frames name target args.length with
    | error e => rfl
    | ok body =>
      cases evaluateAll definitions limit coordinates frames arguments args with
      | error e => rfl
      | ok values =>
        change (do return (← body values) :: stack) = Except.map _ (body values)
        cases body values <;> rfl

theorem Formula.Writes.run {f : Formula} {e : Expr} (h : f.Writes e) :
    f.run (Definition.enter definitions limit coordinates frames) coordinates arguments =
      e.evaluate definitions limit coordinates frames arguments := by
  have hbare : f.bare.run (Definition.enter definitions limit coordinates frames) coordinates
      arguments = f.run (Definition.enter definitions limit coordinates frames) coordinates
        arguments := run_annotate
  rw [← hbare, h, ofNodes, Formula.run, Expr.runAll_postorder]
  cases e.evaluate definitions limit coordinates frames arguments <;> rfl

theorem getElem?_of_writes {table : List Equation}
    (h : List.Forall₂ Equation.Writes table definitions) (id : Nat) :
    table[id]? = none ∧ definitions[id]? = none ∨
      ∃ e d, table[id]? = some e ∧ definitions[id]? = some d ∧ e.Writes d := by
  induction h generalizing id with
  | nil => exact .inl ⟨rfl, rfl⟩
  | cons hed _ ih =>
    cases id with
    | zero => exact .inr ⟨_, _, rfl, rfl, hed⟩
    | succ id => exact ih id

theorem enter_eq_enter {table : List Equation} (h : List.Forall₂ Equation.Writes table definitions)
    {left : Nat} (hle : left ≤ limit) : enter table limit coordinates left =
      Definition.enter definitions limit coordinates (limit - left) := by
  induction left with
  | zero =>
    funext name target found
    rw [enter, Definition.enter]
    cases target with
    | none => rfl
    | some id =>
      obtain ⟨htable, hdef⟩ | ⟨e, d, htable, hdef, hparams, -⟩ := getElem?_of_writes h id
      · simp only [Option.bind_some, htable, hdef]
      · simp [htable, hdef, hparams]
  | succ left ih =>
    funext name target found
    rw [enter, Definition.enter]
    have hdeeper : limit - (left + 1) + 1 = limit - left := by omega
    have hshallow : ¬ limit ≤ limit - (left + 1) := by omega
    cases target with
    | none => rfl
    | some id =>
      obtain ⟨htable, hdef⟩ | ⟨e, d, htable, hdef, hparams, hbody⟩ := getElem?_of_writes h id
      · simp only [Option.bind_some, htable, hdef]
      · have hrun : e.formula.run (enter table limit coordinates left) coordinates =
            d.body.evaluate definitions limit coordinates (limit - left) := by
          funext values
          rw [ih (Nat.le_of_succ_le hle)]
          exact hbody.run
        simp only [Option.bind_some, htable, hdef, hparams, hrun, hdeeper, hshallow, ↓reduceIte]

/-- Running formulas on a stack is evaluating their trees, whether that fails or not. -/
theorem Formula.evaluate_of_writes {table : List Equation}
    (h : List.Forall₂ Equation.Writes table definitions) {f : Formula} {e : Expr}
    (hf : f.Writes e) (limit : Nat) (coordinates arguments : List Float) :
    f.evaluate table limit coordinates arguments =
      e.evaluate definitions limit coordinates 0 arguments := by
  rw [Formula.evaluate, enter_eq_enter h le_rfl, Nat.sub_self]
  exact hf.run

end

def Definition.endless : Definition :=
  ⟨["a"], .call "f" [.binary .add (.argument 0) (.coordinate 0)] (some 0)⟩

theorem Formula.evaluate_of_writes_endless :
    let e : Equation := ⟨"f", ["a"], .ofNodes Definition.endless.body.postorder⟩
    List.Forall₂ Equation.Writes [e] [.endless] ∧
      e.formula.evaluate [e] 2 [1] [0] = .error (.callsTooDeep "f" 2) ∧
      Definition.endless.body.evaluate [.endless] 2 [1] 0 [0] = .error (.callsTooDeep "f" 2) := by
  intro e
  have hwrites : e.formula.Writes Definition.endless.body := rfl
  have htable : List.Forall₂ Equation.Writes [e] [.endless] := .cons ⟨rfl, hwrites⟩ .nil
  have hrun : e.formula.evaluate [e] 2 [1] [0] = .error (.callsTooDeep "f" 2) := rfl
  refine ⟨htable, hrun, ?_⟩
  rw [← Formula.evaluate_of_writes htable hwrites 2 [1] [0]]
  exact hrun

end Formulary
