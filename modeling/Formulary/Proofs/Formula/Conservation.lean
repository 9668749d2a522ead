import Formulary.Proofs.Formula.Slots
import Formulary.Proofs.Token.Places

/-!
# What a formula is made of

The numbers and names of a formula that stand outside of its parameter lists give one node each, in
their order, and so do its operators, each once its operands are there. There are no other nodes. So
it is for the formula of a line and for the arguments of its calls, each by its own tokens.
-/
namespace Formulary

namespace Token

def Kind.isOperand : Kind → Bool
  | number _ | identifier _ => true
  | _ => false

def Kind.operator? : Kind → Option BinaryOp
  | operator op => some op
  | _ => none

def untilClosed (opened : List Enclosure) : List Token → List Token
  | [] => []
  | t :: rest =>
    if t.kind.enclose opened = [] then [] else t :: untilClosed (t.kind.enclose opened) rest

def parameterList? : List Token → Option (List Token)
  | [] => none
  | t :: rest => if t.kind = .paramOpen then some (untilClosed [.parameters] rest) else none

/-- The tokens with no parameter list around them, brackets apart, by the brackets that are open
before. Each goes with the parameter list right behind it. -/
def own (opened : List Enclosure) : List Token → List (Token × Option (List Token))
  | [] => []
  | t :: rest =>
    (if t.kind.isBracket = true ∨ .parameters ∈ opened then [] else [(t, parameterList? rest)]) ++
      own (t.kind.enclose opened) rest

def operands (ts : List Token) : List (Token × Option (List Token)) :=
  (own [] ts).filter (·.1.kind.isOperand)

def operators (ts : List Token) : List BinaryOp := (own [] ts).filterMap (·.1.kind.operator?)

section
variable {opened : List Enclosure}

theorem Kind.enclose_of_not_isBracket {kind : Kind} (h : kind.isBracket = false) :
    kind.enclose opened = opened := by
  cases kind with
  | paramOpen | paramClose | groupOpen | groupClose => simp [isBracket] at h
  | _ => rfl

theorem own_cons {t : Token} (ht : t.kind.isBracket = false) (ho : .parameters ∉ opened)
    (rest : List Token) :
    own opened (t :: rest) = (t, parameterList? rest) :: own opened rest := by
  rw [own, if_neg (by simp [ht, ho]), List.singleton_append, Kind.enclose_of_not_isBracket ht]

theorem own_cons_of_isBracket {t : Token} (ht : t.kind.isBracket = true) (rest : List Token) :
    own opened (t :: rest) = own (t.kind.enclose opened) rest := by
  rw [own, if_pos (.inl ht), List.nil_append]

end

end Token

open Token

inductive Gives (position : String → Option Nat) (R : List Token → List Formula → Prop) :
    Token × Option (List Token) → Node → Prop
  | number {t : Token} {value : Float} : t.kind = .number value →
      Gives position R (t, none) (.literal value)
  | name {t : Token} {name : String} : t.kind = .identifier name →
      Gives position R (t, none) (reference position name)
  | call {t : Token} {name : String} {inside : List Token} {args : List Formula} :
      t.kind = .identifier name → R inside args →
      Gives position R (t, some inside) (.call name args none)

/-- Arguments, each with its tokens, and the commas behind all but the last one, which may have one
too. -/
inductive Itemised (R : List Token → Formula → Prop) : List Token → List Formula → Prop
  | none : Itemised R [] []
  | last {ts : List Token} {f : Formula} : R ts f → Itemised R ts [f]
  | more {ts rest : List Token} {separator : Token} {f : Formula} {args : List Formula} :
      R ts f → separator.kind = .comma → Itemised R rest args →
      Itemised R (ts ++ separator :: rest) (f :: args)

/-- The tokens are those of one formula. Outside of its parameter lists they give its nodes, and
inside of them the arguments of its calls in the same way. -/
inductive Conserves (position : String → Option Nat) : List Token → Formula → Prop
  | intro {ts : List Token} {f : Formula} (closed : encloseAll [] ts = [])
      (single : commas [] ts = 0)
      (operands : List.Forall₂ (Gives position (Itemised (Conserves position))) (operands ts)
        (f.nodes.filter Node.isOperand))
      (operators : (f.nodes.filter (!·.isOperand)).Perm
        ((operators ts).map fun op => .operator (.binary op)))
      (count : f.nodes.length = (Token.operands ts).length + (Token.operators ts).length) :
      Conserves position ts f

def Formula.Supplied (f : Formula) : Prop :=
  ∀ front op back, f.nodes = front ++ .operator op :: back →
    ∃ height, heightAfter front 0 = some height ∧ op.arity ≤ height

structure Lists (position : String → Option Nat) (P : List Token → List Formula → Prop)
    (given : List (Token × Option (List Token))) (ns : List Node) : Prop where
  operands : List.Forall₂ (Gives position P) (given.filter (·.1.kind.isOperand))
    (ns.filter Node.isOperand)
  operators : ns.filter (!·.isOperand) =
    (given.filterMap (·.1.kind.operator?)).map fun op => .operator (.binary op)

def Yields (position : String → Option Nat) (P : List Token → List Formula → Prop) (groups : Nat)
    (ns : List Node) (ts : List Token) : Prop :=
  ∃ given, Lists position P given ns ∧ ∀ us, parameterList? us = none →
    own [] (ts ++ us) = given ++ own (List.replicate groups .group) us

section
variable {position : String → Option Nat} {P : List Token → List Formula → Prop}

theorem Lists.append {given more : List (Token × Option (List Token))} {ns ms : List Node}
    (h : Lists position P given ns) (hmore : Lists position P more ms) :
    Lists position P (given ++ more) (ns ++ ms) := by
  constructor
  · rw [List.filter_append, List.filter_append]
    exact List.rel_append h.operands hmore.operands
  · rw [List.filter_append, List.filterMap_append, List.map_append, h.operators, hmore.operators]

theorem reference_isOperand (position : String → Option Nat) (name : String) :
    (reference position name).isOperand = true :=
  reference_cases (P := fun n => n.isOperand = true) (fun _ _ => rfl) (fun _ _ => rfl) rfl

theorem Gives.lists {u : Token × Option (List Token)} {n : Node} (h : Gives position P u n) :
    Lists position P [u] [n] := by
  obtain ⟨hu, hop, hn⟩ : u.1.kind.isOperand = true ∧ u.1.kind.operator? = none ∧
      n.isOperand = true := by
    cases h with
    | number hk => simp [hk, Kind.isOperand, Kind.operator?, Node.isOperand]
    | name hk => simp [hk, Kind.isOperand, Kind.operator?, reference_isOperand]
    | call hk => simp [hk, Kind.isOperand, Kind.operator?, Node.isOperand]
  constructor
  · simp [hu, hn, h]
  · simp [hop, hn]

theorem lists_operator {t : Token} {op : BinaryOp} (ht : t.kind = .operator op) :
    Lists position P [(t, none)] [.operator (.binary op)] := by
  constructor
  · simp [ht, Kind.isOperand, Node.isOperand]
  · simp [ht, Kind.operator?, Node.isOperand]

theorem not_mem_replicate_group (groups : Nat) :
    .parameters ∉ List.replicate groups Enclosure.group := by simp [List.mem_replicate]

theorem Yields.concat {groups : Nat} {ns : List Node} {ts : List Token} {t : Token} {n : Node}
    (h : Yields position P groups ns ts) (ht : t.kind.isBracket = false)
    (hn : Lists position P [(t, none)] [n]) : Yields position P groups (ns ++ [n]) (ts ++ [t]) := by
  obtain ⟨given, hgiven, hown⟩ := h
  have hopen : t.kind ≠ .paramOpen := by
    intro hk
    simp [hk, Kind.isBracket] at ht
  refine ⟨given ++ [(t, none)], hgiven.append hn, fun us hus => ?_⟩
  rw [List.append_assoc, hown ([t] ++ us) (if_neg hopen), List.singleton_append,
    own_cons ht (not_mem_replicate_group _), hus, List.append_assoc, List.singleton_append]

end

namespace Transcribes

variable {position : String → Option Nat} {P : List Token → List Formula → Prop}
  {groups : Nat} {ns : List Node} {args : List Formula} {ts : List Token}

theorem untilClosed_append {passage : Passage} (h : Transcribes position P passage ts)
    {opened : List Enclosure} (ho : opened ≠ []) (us : List Token) :
    untilClosed opened (ts ++ us) =
      ts ++ untilClosed (List.replicate passage.groups .group ++ opened) us := by
  induction h generalizing opened us with
  | start | noSlots => rfl
  | number hk _ ih | name hk _ ih | operator hk _ ih | openGroup hk _ ih | closeGroup hk _ ih =>
    rw [List.append_assoc, ih ho]
    simp [untilClosed, hk, Kind.enclose, Passage.groups, List.replicate_succ, ho]
  | call hk hstart hstop _ _ _ ih ihargs =>
    rw [List.append_assoc, ih ho]
    simp [untilClosed, hk, hstart, hstop, Kind.enclose, Passage.groups, ho, ihargs]
  | slot hk _ _ _ _ ihlead ih =>
    rw [List.append_assoc, ihlead ho, List.append_assoc]
    simp [untilClosed, hk, Kind.enclose, Passage.groups, ho, ih]
  | closed _ ih => exact ih ho us
  | last _ _ _ _ ihlead ih =>
    rw [List.append_assoc, ihlead ho, List.append_assoc]
    exact congrArg _ (ih ho us)

theorem own_append {passage : Passage} (h : Transcribes position P passage ts)
    {opened : List Enclosure} (ho : .parameters ∈ opened) (us : List Token) :
    own opened (ts ++ us) = own (List.replicate passage.groups .group ++ opened) us := by
  induction h generalizing opened us with
  | start | noSlots => rfl
  | number hk _ ih | name hk _ ih | operator hk _ ih | openGroup hk _ ih | closeGroup hk _ ih =>
    rw [List.append_assoc, ih ho]
    simp [own, hk, Kind.enclose, Passage.groups, List.replicate_succ, ho]
  | call hk hstart hstop _ _ _ ih ihargs =>
    rw [List.append_assoc, ih ho]
    simp [own, hk, hstart, hstop, Kind.enclose, Passage.groups, ho, ihargs]
  | slot hk _ _ _ _ ihlead ih =>
    rw [List.append_assoc, ihlead ho, List.append_assoc]
    simp [own, hk, Kind.enclose, Passage.groups, ho, ih]
  | closed _ ih => exact ih ho us
  | last _ _ _ _ ihlead ih =>
    rw [List.append_assoc, ihlead ho]
    exact ih ho us

theorem parameterList?_arguments {start stop : Token} (hstart : start.kind = .paramOpen)
    (hstop : stop.kind = .paramClose) (h : Transcribes position P (.arguments args) ts)
    (us : List Token) : parameterList? (start :: (ts ++ stop :: us)) = some ts := by
  have hinside := h.untilClosed_append (List.cons_ne_nil .parameters []) (stop :: us)
  rw [parameterList?, if_pos hstart, hinside]
  simp [untilClosed, hstop, Kind.enclose, Passage.groups]

theorem own_call {name : String} {t start stop : Token} (ht : t.kind = .identifier name)
    (hstart : start.kind = .paramOpen) (hstop : stop.kind = .paramClose)
    (h : Transcribes position P (.arguments args) ts) {opened : List Enclosure}
    (ho : .parameters ∉ opened) (us : List Token) :
    own opened (t :: start :: (ts ++ stop :: us)) = (t, some ts) :: own opened us := by
  have hlist : own (.parameters :: opened) (ts ++ stop :: us) = own opened us := by
    rw [h.own_append List.mem_cons_self]
    simp [own, hstop, Kind.enclose, Passage.groups]
  rw [own_cons (by rw [ht]; rfl) ho, parameterList?_arguments hstart hstop h,
    own_cons_of_isBracket (by rw [hstart]; rfl), hstart, Kind.enclose, hlist]

theorem yields (h : Transcribes position P (.nodes groups ns) ts) :
    Yields position P groups ns ts := by
  generalize hp : Passage.nodes groups ns = passage at h
  induction h generalizing groups ns with
  | start =>
    obtain ⟨rfl, rfl⟩ := Passage.nodes.inj hp
    exact ⟨[], ⟨.nil, rfl⟩, fun us _ => rfl⟩
  | number hk _ ih =>
    obtain ⟨rfl, rfl⟩ := Passage.nodes.inj hp
    exact (ih rfl).concat (by rw [hk]; rfl) (Gives.number hk).lists
  | name hk _ ih =>
    obtain ⟨rfl, rfl⟩ := Passage.nodes.inj hp
    exact (ih rfl).concat (by rw [hk]; rfl) (Gives.name hk).lists
  | @call _ _ _ _ _ inside t _ _ hk hstart hstop _ hargs hinside ih =>
    obtain ⟨rfl, rfl⟩ := Passage.nodes.inj hp
    obtain ⟨given, hgiven, hown⟩ := ih rfl
    refine ⟨given ++ [(t, some inside)], hgiven.append (Gives.call hk hinside).lists,
      fun us _ => ?_⟩
    rw [List.append_assoc, hown _ (by simp [parameterList?, hk])]
    simp [hargs.own_call hk hstart hstop (not_mem_replicate_group _)]
  | operator hk _ ih =>
    obtain ⟨rfl, rfl⟩ := Passage.nodes.inj hp
    exact (ih rfl).concat (by rw [hk]; rfl) (lists_operator hk)
  | openGroup hk _ ih | closeGroup hk _ ih =>
    obtain ⟨rfl, rfl⟩ := Passage.nodes.inj hp
    obtain ⟨given, hgiven, hown⟩ := ih rfl
    refine ⟨given, hgiven, fun us _ => ?_⟩
    rw [List.append_assoc, hown _ (by simp [parameterList?, hk]), List.singleton_append,
      own_cons_of_isBracket (by rw [hk]; rfl)]
    simp [hk, Kind.enclose, List.replicate_succ]
  | _ => cases hp

end Transcribes

section
variable {position : String → Option Nat} {ns : List Node} {args : List Formula}
  {ts : List Token}

theorem conserves_of_transcribes {f : Formula}
    (h : Transcribes position (Itemised (Conserves position)) (.nodes 0 ns) ts)
    (ha : Arranged f.nodes ns) : Conserves position ts f := by
  obtain ⟨given, hgiven, hown⟩ := h.yields
  obtain rfl : own [] ts = given := by
    have hnil := hown [] rfl
    rwa [List.append_nil, own, List.append_nil] at hnil
  have hoperands := hgiven.operands
  rw [← ha.operands] at hoperands
  have hoperators := ha.perm.filter (!·.isOperand)
  rw [hgiven.operators] at hoperators
  refine .intro (h.enclosed []) (h.commas_nodes []) hoperands hoperators ?_
  have hlength := List.length_eq_length_filter_add (l := f.nodes) Node.isOperand
  rw [hlength, hoperators.length_eq, ← hoperands.length_eq, List.length_map]
  rfl

theorem itemised_slots {lead rest : List Token} {more : List Formula}
    (h : Transcribes position (Itemised (Conserves position)) (.slots args) lead)
    (hrest : Itemised (Conserves position) rest more) :
    Itemised (Conserves position) (lead ++ rest) (args ++ more) := by
  generalize hp : Passage.slots args = passage at h
  induction h generalizing args rest more with
  | noSlots =>
    obtain rfl := Passage.slots.inj hp
    exact hrest
  | slot hk _ hts _ ha ihlead =>
    obtain rfl := Passage.slots.inj hp
    rw [List.append_assoc, List.append_assoc, List.append_assoc]
    exact ihlead (.more (conserves_of_transcribes hts ha) hk hrest) rfl
  | _ => cases hp

theorem itemised_of_transcribes
    (h : Transcribes position (Itemised (Conserves position)) (.arguments args) ts) :
    Itemised (Conserves position) ts args := by
  cases h with
  | closed hslots =>
    have hitems := itemised_slots hslots .none
    rwa [List.append_nil, List.append_nil] at hitems
  | last hlead hts _ ha => exact itemised_slots hlead (.last (conserves_of_transcribes hts ha))

end

theorem Formula.Balanced.supplied {f : Formula} (h : f.Balanced) : f.Supplied := by
  intro front op back hnodes
  rw [Balanced, hnodes, heightAfter, List.foldlM_append] at h
  obtain ⟨height, hfront, hback⟩ := Option.bind_eq_some_iff.1 h
  rw [← heightAfter, heightAfter_cons] at hback
  obtain ⟨_, hop, -⟩ := Option.bind_eq_some_iff.1 hback
  refine ⟨height, hfront, ?_⟩
  by_contra hless
  simp [Node.heightAfter, hless] at hop

namespace Equation

/-- A line that compiles keeps each number, name and operator once: in its formula those outside of
all calls, in the argument of a call those that stand there. -/
theorem ofLine_conserves {limit : Nat} {source : String} {e : Equation}
    (h : ofLine limit source = .ok e) :
    ∃ tokens signature body, Token.scan source = .ok tokens ∧
      Signature.read tokens = .ok (signature, body) ∧
      Conserves signature.position body e.formula ∧ e.formula.All Formula.Supplied := by
  have hsupplied : e.formula.All Formula.Supplied :=
    (ofLine_sound h).imp fun _ hsound => hsound.1.supplied
  obtain ⟨tokens, signature, body, ns, hscan, hread, hns, ha⟩ :=
    transcribes_at (P := fun position => Itemised (Conserves position))
      (fun _ _ _ => itemised_of_transcribes) (mapError_eq_ok.1 h)
  exact ⟨tokens, signature, body, hscan, hread, conserves_of_transcribes hns ha, hsupplied⟩

def unordered : Equation :=
  ⟨"", [], .ofNodes
    [.call "f" [.ofNodes [.coordinate 2, .coordinate 1, .operator (.binary .multiply)]] none,
      .coordinate 0, .operator (.binary .subtract)]⟩

theorem ofLine_conserves_unordered :
    ofLine 100 "f(z*y) x -" = .ok unordered ∧
      ∃ tokens signature body, Token.scan "f(z*y) x -" = .ok tokens ∧
        Signature.read tokens = .ok (signature, body) ∧
        Conserves signature.position body unordered.formula ∧
        unordered.formula.All Formula.Supplied := by
  have hcompile : compile 100 "f(z*y) x -" = .ok unordered := by cbv
  have hline : ofLine 100 "f(z*y) x -" = .ok unordered := by
    rw [ofLine, hcompile]
    rfl
  exact ⟨hline, ofLine_conserves hline⟩

end Equation

end Formulary
