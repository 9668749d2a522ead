import Formulary.Evaluation
import Formulary.Proofs.Formula.Sound
import Formulary.Proofs.Outcome

/-!
# Running balanced nodes

The height of the stack is known before a run. A run of balanced nodes therefore fails
only where a value that is read is not there, or at a call.
-/
namespace Formulary

theorem Operator.run_length {op : Operator} {stack stack' : List Float}
    (h : op.run stack = .ok stack') :
    op.arity ≤ stack.length ∧ stack'.length = stack.length - op.arity + 1 := by
  unfold Operator.run at h
  split at h
  · obtain rfl := Except.ok.inj h
    simp [arity, isBinary]
  · obtain rfl := Except.ok.inj h
    simp [arity, isBinary]
  · simp at h

theorem Operator.run_of_arity_le {op : Operator} {stack : List Float}
    (h : op.arity ≤ stack.length) : ∃ stack', op.run stack = .ok stack' := by
  cases op with
  | binary op =>
    match stack, h with
    | _ :: _ :: _, _ => exact ⟨_, rfl⟩
  | unary f =>
    match stack, h with
    | _ :: _, _ => exact ⟨_, rfl⟩

theorem single_eq_ok {stack : List Float} {x : Float} : single stack = .ok x ↔ stack = [x] := by
  match stack with
  | [] => simp [single]
  | [y] => simp [single]
  | _ :: _ :: _ => simp [single]

theorem single_of_length {stack : List Float} (h : stack.length = 1) :
    ∃ x, single stack = .ok x := by
  obtain ⟨x, rfl⟩ := List.length_eq_one_iff.1 h
  exact ⟨x, rfl⟩

section
variable {rule : CallRule} {coordinates arguments : List Float}

theorem Formula.runAll_length {args : List Formula} {values : List Float}
    (h : Formula.runAll rule coordinates arguments args = .ok values) :
    values.length = args.length := by
  induction args generalizing values with
  | nil =>
    obtain rfl := Except.ok.inj h
    rfl
  | cons f rest ih =>
    obtain ⟨x, -, h⟩ := bind_eq_ok.1 h
    obtain ⟨xs, hxs, h⟩ := bind_eq_ok.1 h
    obtain rfl := pure_eq_ok.1 h
    simp [ih hxs]

theorem Formula.runAll_error {args : List Formula} {e : EvalError}
    (h : Formula.runAll rule coordinates arguments args = .error e) :
    ∃ a ∈ args, a.run rule coordinates arguments = .error e := by
  induction args with
  | nil => simp [Formula.runAll] at h
  | cons f rest ih =>
    rcases bind_eq_error.1 h with h | ⟨x, -, h⟩
    · exact ⟨f, List.mem_cons_self, h⟩
    · obtain ⟨a, ha, he⟩ := ih (error_of_bind_pure h)
      exact ⟨a, List.mem_cons_of_mem f ha, he⟩

theorem Formula.runAll_isOk {args : List Formula} :
    (∃ values, Formula.runAll rule coordinates arguments args = .ok values) ↔
      ∀ a ∈ args, ∃ x, a.run rule coordinates arguments = .ok x := by
  induction args with
  | nil => simp [Formula.runAll]
  | cons f rest ih =>
    rw [List.forall_mem_cons, ← ih]
    constructor
    · rintro ⟨values, h⟩
      obtain ⟨x, hx, h⟩ := bind_eq_ok.1 h
      obtain ⟨xs, hxs, -⟩ := bind_eq_ok.1 h
      exact ⟨⟨x, hx⟩, xs, hxs⟩
    · rintro ⟨⟨x, hx⟩, xs, hxs⟩
      exact ⟨x :: xs, bind_eq_ok.2 ⟨x, hx, bind_eq_ok.2 ⟨xs, hxs, rfl⟩⟩⟩

theorem Node.run_call_eq_ok {name : String} {args : List Formula} {target : Option Nat}
    {stack stack' : List Float} :
    (Node.call name args target).run rule coordinates arguments stack = .ok stack' ↔
      ∃ body, rule name target args.length = .ok body ∧
      ∃ values, Formula.runAll rule coordinates arguments args = .ok values ∧
      ∃ x, body values = .ok x ∧ stack' = x :: stack := by
  simp only [Node.run, bind_eq_ok, pure_eq_ok]

theorem Node.run_length {n : Node} {stack stack' : List Float}
    (h : n.run rule coordinates arguments stack = .ok stack') :
    n.heightAfter stack.length = some stack'.length := by
  cases n with
  | literal value =>
    obtain rfl := Except.ok.inj h
    rfl
  | coordinate index =>
    simp only [Node.run] at h
    split at h
    · obtain rfl := Except.ok.inj h
      rfl
    · simp at h
  | argument index =>
    simp only [Node.run] at h
    split at h
    · obtain rfl := Except.ok.inj h
      rfl
    · simp at h
  | operator op =>
    obtain ⟨hle, hlen⟩ := Operator.run_length h
    simp only [heightAfter, hle, ↓reduceIte, hlen]
  | call name args target =>
    obtain ⟨_, -, _, -, x, -, rfl⟩ := Node.run_call_eq_ok.1 h
    rfl

theorem Node.runAll_length {nodes : List Node} {stack stack' : List Float}
    (h : Node.runAll rule coordinates arguments nodes stack = .ok stack') :
    Formulary.heightAfter nodes stack.length = some stack'.length := by
  induction nodes generalizing stack with
  | nil =>
    obtain rfl := Except.ok.inj h
    rfl
  | cons n rest ih =>
    obtain ⟨mid, hn, hrest⟩ := bind_eq_ok.1 h
    rw [heightAfter_cons, Node.run_length hn]
    exact ih hrest

theorem Formula.run_eq_ok {f : Formula} {x : Float} :
    f.run rule coordinates arguments = .ok x ↔
      Node.runAll rule coordinates arguments f.nodes [] = .ok [x] := by
  cases f with
  | mk nodes profile =>
    simp only [Formula.run, Formula.nodes_mk, bind_eq_ok, single_eq_ok]
    constructor
    · rintro ⟨stack, h, rfl⟩
      exact h
    · exact fun h => ⟨_, h, rfl⟩

theorem Formula.run_error {f : Formula} (hb : f.Balanced) {e : EvalError} :
    f.run rule coordinates arguments = .error e ↔
      Node.runAll rule coordinates arguments f.nodes [] = .error e := by
  cases f with
  | mk nodes profile =>
    simp only [Formula.run, Formula.nodes_mk, bind_eq_error]
    constructor
    · rintro (h | ⟨stack, h, hs⟩)
      · exact h
      · have hlen : stack.length = 1 :=
          Option.some.inj ((Node.runAll_length h).symm.trans hb)
        obtain ⟨x, hx⟩ := single_of_length hlen
        simp [hx] at hs
    · exact Or.inl

theorem Node.runAll_error {nodes : List Node} {stack : List Float} {e : EvalError}
    (hh : (Formulary.heightAfter nodes stack.length).isSome)
    (h : Node.runAll rule coordinates arguments nodes stack = .error e) :
    ∃ n ∈ nodes, ∃ found : List Float, (n.heightAfter found.length).isSome ∧
      n.run rule coordinates arguments found = .error e := by
  induction nodes generalizing stack with
  | nil => simp [Node.runAll] at h
  | cons n rest ih =>
    rw [heightAfter_cons] at hh
    rcases bind_eq_error.1 h with h | ⟨mid, hn, h⟩
    · exact ⟨n, List.mem_cons_self, stack, Option.isSome_of_isSome_bind hh, h⟩
    · rw [Node.run_length hn] at hh
      obtain ⟨m, hm, found, hf, he⟩ := ih hh h
      exact ⟨m, List.mem_cons_of_mem n hm, found, hf, he⟩

theorem Node.runAll_map {rule' : CallRule} {nodes : List Node} {φ : Node → Node}
    (h : ∀ n ∈ nodes, ∀ stack, (φ n).run rule' coordinates arguments stack =
      n.run rule coordinates arguments stack) (stack : List Float) :
    Node.runAll rule' coordinates arguments (nodes.map φ) stack =
      Node.runAll rule coordinates arguments nodes stack := by
  induction nodes generalizing stack with
  | nil => rfl
  | cons n rest ih =>
    rw [List.forall_mem_cons] at h
    simp only [List.map_cons, Node.runAll, h.1, ih h.2]

theorem Formula.runAll_map {rule' : CallRule} {args : List Formula} {φ : Formula → Formula}
    (h : ∀ a ∈ args, (φ a).run rule' coordinates arguments = a.run rule coordinates arguments) :
    Formula.runAll rule' coordinates arguments (args.map φ) =
      Formula.runAll rule coordinates arguments args := by
  induction args with
  | nil => rfl
  | cons a rest ih =>
    rw [List.forall_mem_cons] at h
    simp only [List.map_cons, Formula.runAll, h.1, ih h.2]

end

end Formulary
