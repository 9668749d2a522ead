import Formulary.Proofs.Formula.Balance
import Formulary.Proofs.Formula.Compiled
import Formulary.Proofs.Signature

/-!
# What tokens are written as

A number, a name and a call are each written as one node, in the order in which they are
read, and each operator as one node, somewhere behind. The brackets of groups leave nothing
behind. The arguments of a call are what stands between its commas, and nothing need stand
behind the last one.
-/
namespace Formulary

def Node.isOperand : Node → Bool
  | .operator _ => false
  | _ => true

/-- The same nodes, and the operands among them in the same order. -/
structure Arranged (ns ms : List Node) : Prop where
  perm : ns.Perm ms
  operands : ns.filter Node.isOperand = ms.filter Node.isOperand

namespace Arranged

variable {ns ms ops : List Node} {n : Node}

theorem refl (ns : List Node) : Arranged ns ns := ⟨.rfl, rfl⟩

theorem append (h : Arranged ns ms) (more : List Node) : Arranged (ns ++ more) (ms ++ more) :=
  ⟨h.perm.append_right more, by rw [List.filter_append, List.filter_append, h.operands]⟩

theorem trans {ls : List Node} (h : Arranged ns ms) (h' : Arranged ms ls) : Arranged ns ls :=
  ⟨h.perm.trans h'.perm, h.operands.trans h'.operands⟩

theorem operand (hops : ops.filter Node.isOperand = []) :
    Arranged (ns ++ [n] ++ ops) (ns ++ ops ++ [n]) := by
  constructor
  · rw [List.append_assoc, List.append_assoc]
    exact List.perm_append_comm.append_left ns
  · simp only [List.filter_append, hops, List.append_nil]

theorem operator (hn : n.isOperand = false) : Arranged (ns ++ n :: ops) (ns ++ ops ++ [n]) := by
  constructor
  · rw [List.append_assoc]
    exact (List.perm_append_singleton n ops).symm.append_left ns
  · simp [List.filter_append, hn]

end Arranged

namespace Token

def Closable (ts : List Token) : Prop := ∃ previous rest, Nested previous [] (ts ++ rest)

theorem Nested.closable {previous : Option Kind} {ts : List Token} (h : Nested previous [] ts) :
    Closable ts := ⟨previous, [], by rwa [List.append_nil]⟩

theorem Closable.front {ts us : List Token} (h : Closable (ts ++ us)) : Closable ts := by
  obtain ⟨previous, rest, hnested⟩ := h
  rw [List.append_assoc] at hnested
  exact ⟨previous, us ++ rest, hnested⟩

theorem Closable.group {ts : List Token} {t : Token} {shape : Bracket} (h : Closable (ts ++ [t]))
    (ht : t.kind = .groupClose shape) : (encloseAll [] ts).head? = some .group := by
  obtain ⟨previous, rest, hnested⟩ := h
  rw [List.append_assoc] at hnested
  obtain ⟨_, hfits, -⟩ := hnested.append
  rw [ht] at hfits
  exact hfits

end Token

namespace Yard

variable {limit : Nat} {s : Span} {y y' : Yard}

def waitingNodes (pending : List Pending) : List Node :=
  pending.filterMap fun
    | .group => none
    | .operator op _ => some (.operator (.binary op))

def nodes (y : Yard) : List Node := y.written.nodes ++ waitingNodes y.pending

theorem filter_waitingNodes (pending : List Pending) :
    (waitingNodes pending).filter Node.isOperand = [] := by
  induction pending with
  | nil => rfl
  | cons top rest ih =>
    cases top with
    | group => exact ih
    | operator op s => exact ih

theorem nodes_of_release {first : BinaryOp → Bool} {pending : List Pending} {out : Postfix}
    (h : release limit first pending out = .ok y) : y.nodes = nodes ⟨pending, out⟩ := by
  induction pending generalizing out with
  | nil =>
    obtain rfl := Except.ok.inj h
    rfl
  | cons top rest ih =>
    cases top with
    | group =>
      obtain rfl := Except.ok.inj h
      rfl
    | operator op span =>
      rw [release] at h
      split at h
      · obtain ⟨out', hout, h⟩ := bind_eq_ok.1 h
        obtain ⟨-, -, rfl⟩ := Postfix.operator_eq_ok.1 hout
        rw [ih h]
        exact List.append_assoc _ _ _
      · obtain rfl := Except.ok.inj h
        rfl

theorem nodes_of_operand {n : Node} (h : y.operand limit n s = .ok y') :
    Arranged y'.nodes (y.nodes ++ [n]) := by
  obtain ⟨-, rfl⟩ := operand_eq_ok.1 h
  exact .operand (filter_waitingNodes y.pending)

theorem nodes_of_operator {op : BinaryOp} (h : y.operator limit op s = .ok y') :
    Arranged y'.nodes (y.nodes ++ [.operator (.binary op)]) := by
  obtain ⟨z, hz, rfl⟩ := operator_eq_ok.1 h
  have hsame : y.nodes = z.nodes := (nodes_of_release hz).symm
  rw [hsame]
  exact .operator rfl

theorem nodes_of_closeGroup (h : y.closeGroup limit s = .ok y') : y'.nodes = y.nodes := by
  obtain ⟨rest, out, hz, rfl⟩ := closeGroup_eq_ok.1 h
  have hsame : nodes ⟨.group :: rest, out⟩ = y.nodes := nodes_of_release hz
  exact hsame

theorem nodes_of_finish {f : Formula} (h : y.finish limit s = .ok f) : f.nodes = y.nodes := by
  obtain ⟨nodes, hc, rfl⟩ := finish_eq_ok.1 h
  have hclosed := nodes_of_closeGroup hc
  rw [← hclosed]
  exact (List.append_nil nodes).symm

theorem groups_of_finish {f : Formula} (h : y.finish limit s = .ok f) : y.groups = 1 := by
  obtain ⟨nodes, hc, -⟩ := finish_eq_ok.1 h
  exact (closeGroup_balance hc).2.1

theorem finish_empty {f : Formula} : finish limit s {} ≠ .ok f := by
  intro h
  obtain ⟨nodes, hc, -⟩ := finish_eq_ok.1 h
  have hclosed : closeGroup limit s {} = .ok ⟨[], {}⟩ := rfl
  simp [hclosed] at hc

end Yard

/-- Tokens stand for the nodes of one formula, in which some groups may be open, for arguments
with a comma behind each, or for all arguments of a call. -/
inductive Passage where
  | nodes (groups : Nat) (ns : List Node)
  | slots (args : List Formula)
  | arguments (args : List Formula)

def Passage.groups : Passage → Nat
  | nodes groups _ => groups
  | _ => 0

/-- What the tokens of a formula stand for. Each call in it, however deep, has the property by
the tokens between its parentheses and by its arguments. -/
inductive Transcribes (position : String → Option Nat) (P : List Token → List Formula → Prop) :
    Passage → List Token → Prop
  | start : Transcribes position P (.nodes 0 []) []
  | number {value : Float} {groups : Nat} {ns : List Node} {ts : List Token} {t : Token} :
      t.kind = .number value → Transcribes position P (.nodes groups ns) ts →
      Transcribes position P (.nodes groups (ns ++ [.literal value])) (ts ++ [t])
  | name {name : String} {groups : Nat} {ns : List Node} {ts : List Token} {t : Token} :
      t.kind = .identifier name → Transcribes position P (.nodes groups ns) ts →
      Transcribes position P (.nodes groups (ns ++ [reference position name])) (ts ++ [t])
  | call {name : String} {args : List Formula} {groups : Nat} {ns : List Node}
      {ts inside : List Token} {t start stop : Token} : t.kind = .identifier name →
      start.kind = .paramOpen → stop.kind = .paramClose →
      Transcribes position P (.nodes groups ns) ts →
      Transcribes position P (.arguments args) inside → P inside args →
      Transcribes position P (.nodes groups (ns ++ [.call name args none]))
        (ts ++ t :: start :: (inside ++ [stop]))
  | operator {op : BinaryOp} {groups : Nat} {ns : List Node} {ts : List Token} {t : Token} :
      t.kind = .operator op → Transcribes position P (.nodes groups ns) ts →
      Transcribes position P (.nodes groups (ns ++ [.operator (.binary op)])) (ts ++ [t])
  | openGroup {shape : Bracket} {groups : Nat} {ns : List Node} {ts : List Token} {t : Token} :
      t.kind = .groupOpen shape → Transcribes position P (.nodes groups ns) ts →
      Transcribes position P (.nodes (groups + 1) ns) (ts ++ [t])
  | closeGroup {shape : Bracket} {groups : Nat} {ns : List Node} {ts : List Token} {t : Token} :
      t.kind = .groupClose shape → Transcribes position P (.nodes (groups + 1) ns) ts →
      Transcribes position P (.nodes groups ns) (ts ++ [t])
  | noSlots : Transcribes position P (.slots []) []
  | slot {args : List Formula} {f : Formula} {ns : List Node} {lead ts : List Token}
      {separator : Token} : separator.kind = .comma → Transcribes position P (.slots args) lead →
      Transcribes position P (.nodes 0 ns) ts → ts ≠ [] → Arranged f.nodes ns →
      Transcribes position P (.slots (args ++ [f])) (lead ++ (ts ++ [separator]))
  | closed {args : List Formula} {ts : List Token} : Transcribes position P (.slots args) ts →
      Transcribes position P (.arguments args) ts
  | last {args : List Formula} {f : Formula} {ns : List Node} {lead ts : List Token} :
      Transcribes position P (.slots args) lead → Transcribes position P (.nodes 0 ns) ts →
      ts ≠ [] → Arranged f.nodes ns → Transcribes position P (.arguments (args ++ [f])) (lead ++ ts)

section
variable {position : String → Option Nat} {P : List Token → List Formula → Prop}

theorem Transcribes.enclosed {passage : Passage} {ts : List Token}
    (h : Transcribes position P passage ts) (opened : List Token.Enclosure) :
    Token.encloseAll opened ts = List.replicate passage.groups .group ++ opened := by
  induction h generalizing opened with
  | start | noSlots => rfl
  | number hk _ ih | name hk _ ih | operator hk _ ih =>
    rw [Token.encloseAll_append, ih]
    simp [Token.Kind.enclose, hk, Passage.groups]
  | call hk hstart hstop _ _ _ ih ihargs =>
    rw [Token.encloseAll_append, ih]
    simp [Token.encloseAll_append, Token.Kind.enclose, hk, hstart, hstop, ihargs, Passage.groups]
  | openGroup hk _ ih | closeGroup hk _ ih =>
    rw [Token.encloseAll_append, ih]
    simp [Token.Kind.enclose, hk, Passage.groups, List.replicate_succ]
  | slot hk _ _ _ _ ihlead ih =>
    rw [Token.encloseAll_append, Token.encloseAll_append, ihlead, ih]
    simp [Token.Kind.enclose, hk, Passage.groups]
  | closed _ ih => exact ih opened
  | last _ _ _ _ ihlead ih =>
    rw [Token.encloseAll_append, ihlead, ih]
    rfl

theorem Transcribes.length_le {groups : Nat} {ns : List Node} {ts : List Token}
    (h : Transcribes position P (.nodes groups ns) ts) : ns.length ≤ ts.length := by
  generalize hp : Passage.nodes groups ns = passage at h
  induction h generalizing groups ns with
  | start =>
    obtain ⟨-, rfl⟩ := Passage.nodes.inj hp
    exact Nat.le_refl _
  | number _ _ ih | name _ _ ih | operator _ _ ih =>
    obtain ⟨-, rfl⟩ := Passage.nodes.inj hp
    have hle := ih rfl
    simp only [List.length_append, List.length_singleton]
    omega
  | call _ _ _ _ _ _ ih =>
    obtain ⟨-, rfl⟩ := Passage.nodes.inj hp
    have hle := ih rfl
    simp only [List.length_append, List.length_cons, List.length_nil]
    omega
  | openGroup _ _ ih | closeGroup _ _ ih =>
    obtain ⟨-, rfl⟩ := Passage.nodes.inj hp
    have hle := ih rfl
    rw [List.length_append]
    omega
  | _ => cases hp

def Passage.Each (Q : Node → Prop) (R : Formula → Prop) : Passage → Prop
  | nodes _ ns => ∀ n ∈ ns, Q n
  | slots args | arguments args => ∀ a ∈ args, R a

structure Node.Read (ts : List Token) (Q : Node → Prop) (R : Formula → Prop) : Prop where
  literal : ∀ value, Q (.literal value)
  coordinate : ∀ index, Q (.coordinate index)
  argument : ∀ index, Q (.argument index)
  operator : ∀ op, Q (.operator (.binary op))
  call : ∀ t ∈ ts, ∀ name args, t.kind = .identifier name → (∀ a ∈ args, R a) →
    Q (.call name args none)
  formula : ∀ f : Formula, f.nodes.length ≤ ts.length → (∀ n ∈ f.nodes, Q n) → R f

section
variable {all : List Token} {Q : Node → Prop} {R : Formula → Prop}

theorem Node.Read.reference (hr : Node.Read all Q R) {t : Token} {name : String} (ht : t ∈ all)
    (hk : t.kind = .identifier name) : Q (reference position name) :=
  reference_cases (fun i _ => hr.coordinate i) (fun i _ => hr.argument i)
    (hr.call t ht name [] hk fun _ ha => absurd ha List.not_mem_nil)

theorem Node.Read.arranged (hr : Node.Read all Q R) {f : Formula} {ns : List Node} {ts : List Token}
    (hns : Transcribes position P (.nodes 0 ns) ts) (hall : ts.Sublist all)
    (ha : Arranged f.nodes ns) (hQ : ∀ n ∈ ns, Q n) : R f := by
  refine hr.formula f ?_ fun n hn => hQ n (ha.perm.mem_iff.1 hn)
  rw [ha.perm.length_eq]
  exact Nat.le_trans hns.length_le hall.length_le

theorem Transcribes.each {passage : Passage} {ts : List Token}
    (h : Transcribes position P passage ts) (hr : Node.Read all Q R) (hall : ts.Sublist all) :
    passage.Each Q R := by
  induction h with
  | start => exact fun n hn => absurd hn List.not_mem_nil
  | noSlots => exact fun a ha => absurd ha List.not_mem_nil
  | number _ _ ih =>
    have hns := ih ((List.sublist_append_left _ _).trans hall)
    exact List.forall_mem_append.2 ⟨hns, List.forall_mem_singleton.2 (hr.literal _)⟩
  | operator _ _ ih =>
    have hns := ih ((List.sublist_append_left _ _).trans hall)
    exact List.forall_mem_append.2 ⟨hns, List.forall_mem_singleton.2 (hr.operator _)⟩
  | name hk _ ih =>
    have hns := ih ((List.sublist_append_left _ _).trans hall)
    have hname : Q (reference position _) := hr.reference (hall.subset (by simp)) hk
    exact List.forall_mem_append.2 ⟨hns, List.forall_mem_singleton.2 hname⟩
  | @call name args _ _ ts inside t start stop hk _ _ _ _ _ ih ihargs =>
    have hns := ih ((List.sublist_append_left _ _).trans hall)
    have hinside : inside.Sublist (ts ++ t :: start :: (inside ++ [stop])) :=
      (((List.sublist_append_left _ _).cons start).cons t).trans (List.sublist_append_right _ _)
    have hcall := hr.call t (hall.subset (by simp)) name args hk (ihargs (hinside.trans hall))
    exact List.forall_mem_append.2 ⟨hns, List.forall_mem_singleton.2 hcall⟩
  | openGroup _ _ ih | closeGroup _ _ ih => exact ih ((List.sublist_append_left _ _).trans hall)
  | slot _ _ hns _ ha ihlead ih =>
    have hlead := ihlead ((List.sublist_append_left _ _).trans hall)
    have hts := (List.sublist_append_left _ _).trans ((List.sublist_append_right _ _).trans hall)
    have hslot := hr.arranged hns hts ha (ih hts)
    exact List.forall_mem_append.2 ⟨hlead, List.forall_mem_singleton.2 hslot⟩
  | closed _ ih => exact ih hall
  | last _ hns _ ha ihlead ih =>
    have hlead := ihlead ((List.sublist_append_left _ _).trans hall)
    have hts := (List.sublist_append_right _ _).trans hall
    have hslot := hr.arranged hns hts ha (ih hts)
    exact List.forall_mem_append.2 ⟨hlead, List.forall_mem_singleton.2 hslot⟩

end

structure Yard.Traces (position : String → Option Nat) (P : List Token → List Formula → Prop)
    (y : Yard) (ts : List Token) : Prop where
  nodes : ∃ groups ns, y.groups = groups + 1 ∧ Transcribes position P (.nodes groups ns) ts ∧
    Arranged y.nodes ns
  fresh : ts = [] → y = {}

namespace Yard.Traces

variable {limit : Nat} {s : Span} {y y' : Yard} {ts : List Token} {t : Token}

theorem start : Traces position P {} [] := ⟨⟨0, [], rfl, .start, .refl []⟩, fun _ => rfl⟩

theorem operand {n : Node} {us : List Token} (h : y.Traces position P ts)
    (ho : y.operand limit n s = .ok y') (hne : us ≠ [])
    (hus : ∀ groups ns, Transcribes position P (.nodes groups ns) ts →
      Transcribes position P (.nodes groups (ns ++ [n])) (ts ++ us)) :
    y'.Traces position P (ts ++ us) := by
  obtain ⟨groups, ns, hgroups, hns, harranged⟩ := h.nodes
  rw [Yard.groups, ← (operand_balance ho).1] at hgroups
  have hwritten := (nodes_of_operand ho).trans (harranged.append [n])
  exact ⟨⟨groups, _, hgroups, hus groups ns hns, hwritten⟩, by simp [hne]⟩

theorem operator {op : BinaryOp} (h : y.Traces position P ts)
    (ho : y.operator limit op s = .ok y') (ht : t.kind = .operator op) :
    y'.Traces position P (ts ++ [t]) := by
  obtain ⟨groups, ns, hgroups, hns, harranged⟩ := h.nodes
  rw [← (operator_balance ho).2.1] at hgroups
  have hwritten := (nodes_of_operator ho).trans (harranged.append [.operator (.binary op)])
  exact ⟨⟨groups, _, hgroups, .operator ht hns, hwritten⟩, by simp⟩

theorem openGroup {shape : Bracket} (h : y.Traces position P ts)
    (ht : t.kind = .groupOpen shape) : y.openGroup.Traces position P (ts ++ [t]) := by
  obtain ⟨groups, ns, hgroups, hns, harranged⟩ := h.nodes
  have hmore : y.openGroup.groups = groups + 1 + 1 := by
    rw [← hgroups]
    exact List.count_cons_self
  exact ⟨⟨groups + 1, ns, hmore, .openGroup ht hns, harranged⟩, by simp⟩

theorem closeGroup {shape : Bracket} {opened : List Token.Enclosure} (h : y.Traces position P ts)
    (hc : y.closeGroup limit s = .ok y') (ht : t.kind = .groupClose shape)
    (hopened : (Token.encloseAll opened ts).head? = some .group)
    (hinner : opened.head? ≠ some .group) : y'.Traces position P (ts ++ [t]) := by
  obtain ⟨groups, ns, hgroups, hns, harranged⟩ := h.nodes
  rw [hns.enclosed] at hopened
  cases groups with
  | zero => exact absurd hopened hinner
  | succ groups =>
    have hfewer : y'.groups = groups + 1 := by
      have hclosed := (closeGroup_balance hc).2.1
      omega
    rw [← nodes_of_closeGroup hc] at harranged
    exact ⟨⟨groups, ns, hfewer, .closeGroup ht hns, harranged⟩, by simp⟩

theorem finish {f : Formula} (h : y.Traces position P ts) (hf : y.finish limit s = .ok f) :
    ts ≠ [] ∧ ∃ ns, Transcribes position P (.nodes 0 ns) ts ∧ Arranged f.nodes ns := by
  obtain ⟨groups, ns, hgroups, hns, harranged⟩ := h.nodes
  constructor
  · intro hempty
    rw [h.fresh hempty] at hf
    exact finish_empty hf
  · obtain rfl : groups = 0 := by
      have hone := groups_of_finish hf
      omega
    rw [nodes_of_finish hf]
    exact ⟨ns, hns, harranged⟩

end Yard.Traces

inductive Underway (position : String → Option Nat) (P : List Token → List Formula → Prop) :
    List OpenCall → Yard → List Token → Prop
  | line {y : Yard} {ts : List Token} : y.Traces position P ts → Underway position P [] y ts
  | call {c : OpenCall} {calls : List OpenCall} {y : Yard} {before lead ts : List Token}
      {t start : Token} : t.kind = .identifier c.name → start.kind = .paramOpen →
      Underway position P calls c.outer before → Transcribes position P (.slots c.args) lead →
      y.Traces position P ts →
      Underway position P (c :: calls) y (before ++ t :: start :: (lead ++ ts))

theorem Underway.append {calls : List OpenCall} {y y' : Yard} {read more : List Token}
    (h : Underway position P calls y read)
    (hy : ∀ ts, y.Traces position P ts → y'.Traces position P (ts ++ more)) :
    Underway position P calls y' (read ++ more) := by
  cases h with
  | line htraces => exact .line (hy _ htraces)
  | call ht hstart houter hlead htraces =>
    have hall := Underway.call ht hstart houter hlead (hy _ htraces)
    simpa only [List.append_assoc, List.cons_append] using hall

theorem Underway.closeGroup {limit : Nat} {s : Span} {calls : List OpenCall} {y y' : Yard}
    {read : List Token} {t : Token} {shape : Bracket} (h : Underway position P calls y read)
    (hc : y.closeGroup limit s = .ok y') (ht : t.kind = .groupClose shape)
    (hopened : (Token.encloseAll [] read).head? = some .group) :
    Underway position P calls y' (read ++ [t]) := by
  cases h with
  | line htraces => exact .line (htraces.closeGroup hc ht hopened (by simp))
  | call hk hstart houter hlead htraces =>
    simp only [Token.encloseAll_append, Token.encloseAll_cons, Token.Kind.enclose, hk, hstart,
      hlead.enclosed] at hopened
    have hinner := htraces.closeGroup hc ht hopened (by simp [Passage.groups])
    have hall := Underway.call hk hstart houter hlead hinner
    simpa only [List.append_assoc, List.cons_append] using hall

/-- A reading and the tokens that led to it. In a slot none has been read yet. -/
inductive Reading.Recalls (position : String → Option Nat)
    (P : List Token → List Formula → Prop) : Reading → List Token → Prop
  | settled {calls : List OpenCall} {y : Yard} {read : List Token} :
      Underway position P calls y read → Recalls position P ⟨calls, y, .settled⟩ read
  | named {calls : List OpenCall} {y : Yard} {name : String} {span : Span} {read : List Token}
      {t : Token} : t.kind = .identifier name → Underway position P calls y read →
      Recalls position P ⟨calls, y, .named name span⟩ (read ++ [t])
  | slot {c : OpenCall} {calls : List OpenCall} {before lead : List Token} {t start : Token} :
      t.kind = .identifier c.name → start.kind = .paramOpen →
      Underway position P calls c.outer before → Transcribes position P (.slots c.args) lead →
      Recalls position P ⟨c :: calls, {}, .slot⟩ (before ++ t :: start :: lead)

namespace Scope

open Reading

variable {s : Scope} {r q : Reading} {calls : List OpenCall} {y : Yard} {read : List Token}
  {t : Token}

theorem underway_of_settle (h : r.Recalls s.position P read) (hq : s.settle r = .ok q) :
    ∃ y, q = ⟨r.calls, y, .settled⟩ ∧ Underway s.position P r.calls y read := by
  cases h with
  | settled hu =>
    obtain rfl := Except.ok.inj hq
    exact ⟨_, rfl, hu⟩
  | named ht hu =>
    obtain ⟨y, hy, hq⟩ := bind_eq_ok.1 hq
    obtain rfl := pure_eq_ok.1 hq
    refine ⟨y, rfl, hu.append fun _ htraces => ?_⟩
    exact htraces.operand hy (List.cons_ne_nil _ _) fun _ _ hns => .name ht hns
  | slot ht hstart houter hlead =>
    obtain rfl := Except.ok.inj hq
    refine ⟨_, rfl, ?_⟩
    have hall := Underway.call ht hstart houter hlead .start
    rwa [List.append_nil] at hall

theorem transcribes_of_finish {f : Formula} {span : Span} (h : r.Recalls s.position P read)
    (hq : s.settle r = .ok q) (hc : q.calls = []) (hf : q.yard.finish s.limit span = .ok f) :
    ∃ ns, Transcribes s.position P (.nodes 0 ns) read ∧ Arranged f.nodes ns := by
  obtain ⟨y, rfl, hu⟩ := underway_of_settle h hq
  simp only at hc
  rw [hc] at hu
  cases hu with
  | line htraces => exact (htraces.finish hf).2

section
variable (hP : ∀ args ts, Transcribes s.position P (.arguments args) ts → P ts args)

include hP

theorem underway_of_close {c : OpenCall} {args : List Formula} {before inside : List Token}
    {t start stop : Token} (hy : OpenCall.close s.limit { c with args } = .ok y)
    (ht : t.kind = .identifier c.name) (hstart : start.kind = .paramOpen)
    (hstop : stop.kind = .paramClose) (houter : Underway s.position P calls c.outer before)
    (hargs : Transcribes s.position P (.arguments args) inside) :
    Underway s.position P calls y (before ++ t :: start :: (inside ++ [stop])) := by
  refine houter.append fun _ htraces => ?_
  refine htraces.operand hy (List.cons_ne_nil _ _) fun _ _ hns => ?_
  exact .call ht hstart hstop hns hargs (hP _ _ hargs)

theorem recalls_of_advances (h : Underway s.position P calls y read)
    (hclosable : Token.Closable (read ++ [t]))
    (ha : Advances s ⟨calls, y, .settled⟩ t (.going q)) :
    q.Recalls s.position P (read ++ [t]) := by
  cases ha with
  | number hk hy =>
    refine .settled (h.append fun _ htraces => ?_)
    exact htraces.operand hy (List.cons_ne_nil _ _) fun _ _ hns => .number hk hns
  | name hk => exact .named hk h
  | operator hk hy => exact .settled (h.append fun _ htraces => htraces.operator hy hk)
  | openGroup hk => exact .settled (h.append fun _ htraces => htraces.openGroup hk)
  | closeGroup hk hy => exact .settled (h.closeGroup hy hk (hclosable.group hk))
  | @argument f _ _ hk hf hc =>
    cases h with
    | line _ => simp at hc
    | @call c _ _ _ _ _ _ _ ht hstart houter hlead htraces =>
      obtain ⟨rfl, rfl⟩ := List.cons.inj hc
      obtain ⟨hne, ns, hns, harranged⟩ := htraces.finish hf
      have hslots := Transcribes.slot hk hlead hns hne harranged
      have hall := Recalls.slot (c := { c with args := c.args ++ [f] }) ht hstart houter hslots
      simpa only [List.append_assoc, List.cons_append] using hall
  | closeCall hk hf hc hy =>
    cases h with
    | line _ => simp at hc
    | call ht hstart houter hlead htraces =>
      obtain ⟨rfl, rfl⟩ := List.cons.inj hc
      obtain ⟨hne, ns, hns, harranged⟩ := htraces.finish hf
      have hclosed := underway_of_close hP hy ht hstart hk houter (.last hlead hns hne harranged)
      apply Recalls.settled
      simpa only [List.append_assoc, List.cons_append] using hclosed

theorem recalls_of_moves (h : r.Recalls s.position P read)
    (hclosable : Token.Closable (read ++ [t])) (hm : Moves s r t (.going q)) :
    q.Recalls s.position P (read ++ [t]) := by
  cases hm with
  | openCall hmode hk =>
    cases h with
    | settled => simp at hmode
    | slot => simp at hmode
    | named ht hu =>
      obtain ⟨rfl, rfl⟩ := Mode.named.inj hmode
      rw [List.append_assoc]
      exact .slot ht hk hu .noSlots
  | closeCall hmode hk hc hy =>
    cases h with
    | settled => simp at hmode
    | named => simp at hmode
    | slot ht hstart houter hlead =>
      obtain ⟨rfl, rfl⟩ := List.cons.inj hc
      have hclosed := underway_of_close hP hy ht hstart hk houter (.closed hlead)
      apply Recalls.settled
      simpa only [List.append_assoc, List.cons_append] using hclosed
  | advance _ hq ha =>
    obtain ⟨y, rfl, hu⟩ := underway_of_settle h hq
    exact recalls_of_advances hP hu hclosable ha

theorem transcribes_of_compile {ts rest : List Token} {f : Formula}
    (h : s.compile {} ts = .ok (f, rest)) : ∃ read, ts = read ++ rest ∧ (Token.Closable read →
      ∃ ns, Transcribes s.position P (.nodes 0 ns) read ∧ Arranged f.nodes ns) := by
  -- Brackets are only known to match if all tokens can be closed, and so can those read so far.
  have hstart : Token.Closable [] → Recalls s.position P {} [] := fun _ => .settled (.line .start)
  refine compile_trace (P := fun read r => Token.Closable read → r.Recalls s.position P read)
    (Q := fun read f => Token.Closable read →
      ∃ ns, Transcribes s.position P (.nodes 0 ns) read ∧ Arranged f.nodes ns)
    ?_ ?_ ?_ [] hstart h
  · intro read r t q hr hm hclosable
    exact recalls_of_moves hP (hr hclosable.front) hclosable hm
  · intro read r t f hr hm hclosable
    cases hm with
    | advance _ hq ha =>
      cases ha with
      | ends _ hf hc => exact transcribes_of_finish (hr hclosable) hq hc hf
  · intro read r f hr hf hclosable
    obtain ⟨-, q, hq, hf, hc⟩ := finish_eq_ok.1 hf
    exact transcribes_of_finish (hr hclosable) hq hc hf

end

end Scope

theorem Equation.transcribes_at {limit : Nat} {source : String} {e : Equation}
    {P : (String → Option Nat) → List Token → List Formula → Prop}
    (hP : ∀ position args ts, Transcribes position (P position) (.arguments args) ts →
      P position ts args)
    (h : compile limit source = .ok e) :
    ∃ tokens signature body ns, Token.scan source = .ok tokens ∧
      Signature.read tokens = .ok (signature, body) ∧
      Transcribes signature.position (P signature.position) (.nodes 0 ns) body ∧
      Arranged e.formula.nodes ns := by
  obtain ⟨tokens, signature, body, last, hscan, hread, -, hcompile, -, -⟩ := compile_eq_ok h
  obtain ⟨read, hbody, hwritten⟩ := Scope.transcribes_of_compile (hP signature.position) hcompile
  rw [List.append_nil] at hbody
  subst hbody
  obtain ⟨previous, -, hnested⟩ := Signature.nested_of_read (Token.nested_of_scan hscan) hread
  obtain ⟨ns, hns, harranged⟩ := hwritten hnested.closable
  exact ⟨tokens, signature, body, ns, hscan, hread, hns, harranged⟩

theorem Equation.transcribes_of_compile {limit : Nat} {source : String} {e : Equation}
    (hP : ∀ position args ts, Transcribes position P (.arguments args) ts → P ts args)
    (h : compile limit source = .ok e) :
    ∃ tokens signature body ns, Token.scan source = .ok tokens ∧
      Signature.read tokens = .ok (signature, body) ∧
      Transcribes signature.position P (.nodes 0 ns) body ∧ Arranged e.formula.nodes ns :=
  transcribes_at (P := fun _ => P) hP h

end

theorem Equation.read_of_compile {limit : Nat} {source : String} {e : Equation}
    {tokens : List Token} {Q : Node → Prop} {R : Formula → Prop} (h : compile limit source = .ok e)
    (hscan : Token.scan source = .ok tokens) (hr : Node.Read tokens Q R) : R e.formula := by
  obtain ⟨tokens', signature, body, ns, hscan', hread, hns, harranged⟩ :=
    transcribes_of_compile (P := fun _ _ => True) (fun _ _ _ _ => trivial) h
  obtain rfl := Except.ok.inj (hscan.symm.trans hscan')
  have hbody : body.Sublist tokens := by
    obtain ⟨-, -, ⟨-, rfl⟩ | ⟨front, sign, rfl, -, -⟩⟩ := Signature.read_eq_ok hread
    · exact .refl _
    · exact ((List.Sublist.refl body).cons sign).trans (List.sublist_append_right _ _)
  exact hr.arranged hns hbody harranged (hns.each hr hbody)

end Formulary
