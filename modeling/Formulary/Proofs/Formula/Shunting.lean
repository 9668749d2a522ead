import Formulary.Proofs.Formula.Grammar
import Formulary.Proofs.Formula.Steps

/-!
# Expressions compile to their trees

While the tokens of an expression are read, some operators of it may wait. Those that
wait bind at least as tightly as the level of the expression, and so they go before
anything that a later token of that level could add. Once they are released, the tree
is written in post-order behind what was there before.
-/
namespace Formulary

def binds (level : Nat) (op : BinaryOp) : Bool := level ≤ op.precedence

theorem binds_of_next {level : Nat} {op : BinaryOp} (h : binds (level + 1) op = true) :
    binds level op = true := by
  simp only [binds, decide_eq_true_eq] at h ⊢
  omega

theorem binds_zero : binds 0 = fun _ => true := by
  funext op
  simp [binds]

namespace Yard

variable {limit : Nat} {first second : BinaryOp → Bool}

def Stops (first : BinaryOp → Bool) : List Pending → Prop
  | .operator op _ :: _ => first op = false
  | _ => True

theorem release_of_stops {pending : List Pending} (h : Stops first pending) (out : Postfix) :
    release limit first pending out = .ok ⟨pending, out⟩ := by
  cases pending with
  | nil => rfl
  | cons top rest =>
    cases top with
    | group => rfl
    | operator op span =>
      have hf : first op = false := h
      simp [release, hf]

theorem Stops.mono (h : ∀ op, first op = true → second op = true) {pending : List Pending}
    (hs : Stops second pending) : Stops first pending := by
  cases pending with
  | nil => trivial
  | cons top rest =>
    cases top with
    | group => trivial
    | operator op span =>
      refine Bool.eq_false_iff.2 fun hf => ?_
      have hsecond : second op = false := hs
      simp [h op hf] at hsecond

theorem release_of_release (h : ∀ op, first op = true → second op = true)
    {pending : List Pending} {out : Postfix} {y : Yard}
    (hr : release limit first pending out = .ok y) :
    release limit second pending out = release limit second y.pending y.written := by
  induction pending generalizing out with
  | nil =>
    obtain rfl := Except.ok.inj hr
    rfl
  | cons top rest ih =>
    cases top with
    | group =>
      obtain rfl := Except.ok.inj hr
      rfl
    | operator op span =>
      by_cases hop : first op = true
      · simp only [release, hop, h op hop, ↓reduceIte] at hr ⊢
        obtain ⟨out', hout, hr⟩ := bind_eq_ok.1 hr
        rw [hout, ok_bind]
        exact ih hr
      · simp only [release, hop, Bool.false_eq_true, ↓reduceIte] at hr
        obtain rfl := Except.ok.inj hr
        rfl

theorem release_operator {op : BinaryOp} {span : Span} {pending : List Pending} {nodes : List Node}
    {depth : Nat} (hop : first op = true) (hs : Stops first pending)
    (hlen : nodes.length < limit) :
    release limit first (.operator op span :: pending) ⟨nodes, depth + 2⟩ =
      .ok ⟨pending, ⟨nodes ++ [.operator (.binary op)], depth + 1⟩⟩ := by
  have hout : Postfix.operator limit op span ⟨nodes, depth + 2⟩ =
      .ok ⟨nodes ++ [.operator (.binary op)], depth + 1⟩ :=
    Postfix.operator_eq_ok.2 ⟨Nat.le_add_left 2 depth, hlen, rfl⟩
  simp only [release, hop, ↓reduceIte, hout, ok_bind]
  exact release_of_stops hs _

def extended (y : Yard) (nodes : List Node) : Yard :=
  ⟨y.pending, ⟨y.written.nodes ++ nodes, y.written.depth + 1⟩⟩

theorem operand_extended {y : Yard} {n : Node} (span : Span)
    (h : y.written.nodes.length < limit) : y.operand limit n span = .ok (y.extended [n]) :=
  operand_eq_ok.2 ⟨h, rfl⟩

end Yard

def OpenCall.closed (c : OpenCall) (args : List Formula) : Yard :=
  c.outer.extended [.call c.name (c.args ++ args) none]

namespace Scope

variable {s : Scope}

def Feeds (s : Scope) (r : Reading) (ts : List Token) (r' : Reading) : Prop :=
  ∀ rest, s.compile r (ts ++ rest) = s.compile r' rest

theorem Feeds.append {r r' r'' : Reading} {ts us : List Token} (h : s.Feeds r ts r')
    (h' : s.Feeds r' us r'') : s.Feeds r (ts ++ us) r'' := by
  intro rest
  rw [List.append_assoc, h, h']

theorem Feeds.of_moves {r r' : Reading} {t : Token} (h : Moves s r t (.going r')) :
    s.Feeds r [t] r' := by
  intro rest
  have hstep := step_eq_ok.2 h
  simp only [List.singleton_append, compile, hstep, ok_bind]

/-- Behind `r` the yard is `y` and then the nodes, once what binds at this level is released. -/
def Reads (s : Scope) (level : Nat) (calls : List OpenCall) (y : Yard) (nodes : List Node)
    (r : Reading) : Prop :=
  r.mode ≠ .slot ∧ ∃ z, s.settle r = .ok { calls, yard := z } ∧
    Yard.release s.limit (binds level) z.pending z.written = .ok (y.extended nodes)

section
variable {level : Nat} {calls : List OpenCall} {y : Yard} {nodes : List Node} {r : Reading}

theorem settle_of_settled (h : r.mode = .settled) : s.settle r = .ok r := by
  rw [settle_of_ne_named (by simp [h]), ← h]

theorem Reads.of_extended (h : Yard.Stops (binds level) y.pending) :
    s.Reads level calls y nodes { calls, yard := y.extended nodes } :=
  ⟨by simp, _, settle_of_settled rfl, Yard.release_of_stops h _⟩

theorem Reads.next (hr : s.Reads (level + 1) calls y nodes r)
    (h : Yard.Stops (binds level) y.pending) : s.Reads level calls y nodes r := by
  obtain ⟨hslot, z, hz, hrel⟩ := hr
  refine ⟨hslot, z, hz, ?_⟩
  rw [Yard.release_of_release (fun _ => binds_of_next) hrel]
  exact Yard.release_of_stops h _

theorem Reads.moves (hr : s.Reads level calls y nodes r) : ∃ z,
    Yard.release s.limit (binds level) z.pending z.written = .ok (y.extended nodes) ∧
    ∀ {t p}, Advances s { calls, yard := z } t p → Moves s r t p := by
  obtain ⟨hslot, z, hz, hrel⟩ := hr
  exact ⟨z, hrel, fun ha => .advance (fun hm _ => absurd hm hslot) hz ha⟩

theorem finish_of_release {z : Yard} (span : Span)
    (h : Yard.release s.limit (binds 0) z.pending z.written = .ok (Yard.extended {} nodes)) :
    z.finish s.limit span = .ok (.ofNodes nodes) := by
  rw [binds_zero] at h
  exact Yard.finish_eq_ok.2 ⟨nodes, Yard.closeGroup_eq_ok.2 ⟨[], _, h, rfl⟩, rfl⟩

end

structure Room (s : Scope) (y : Yard) (nodes : List Node) : Prop where
  few : y.written.nodes.length + nodes.length ≤ s.limit
  arguments : ∀ name args target, .call name args target ∈ nodes → ∀ a ∈ args, a.Fits s.limit

theorem Room.left {y : Yard} {nodes more : List Node} (h : s.Room y (nodes ++ more)) :
    s.Room y nodes := by
  refine ⟨?_, fun name args target hc => h.arguments name args target (List.mem_append_left _ hc)⟩
  have hfew := h.few
  rw [List.length_append] at hfew
  omega

theorem Room.right {y : Yard} {nodes more : List Node} (h : s.Room y (nodes ++ more))
    (pending : List Pending) : s.Room ⟨pending, (y.extended nodes).written⟩ more := by
  refine ⟨?_, fun name args target hc => h.arguments name args target (List.mem_append_right _ hc)⟩
  have hfew := h.few
  rw [List.length_append] at hfew
  simp only [Yard.extended, List.length_append]
  omega

theorem Room.operand {y : Yard} {n : Node} (h : s.Room y [n]) (span : Span) :
    y.operand s.limit n span = .ok (y.extended [n]) := by
  have hfew := h.few
  rw [List.length_singleton] at hfew
  exact Yard.operand_extended span (by omega)

/-- Reading a phrase: from an expression of a level its tree is written, and with the
arguments of a call and its end the call is. -/
def Read (s : Scope) : Phrase → List Token → Prop
  | .expression level t, ts => ∀ calls y mode, (∀ name span, mode ≠ .named name span) →
      Yard.Stops (binds level) y.pending → s.Room y (t.postorder s.position) →
      ∃ r, s.Feeds ⟨calls, y, mode⟩ ts r ∧ s.Reads level calls y (t.postorder s.position) r
  | .arguments args, ts => ∀ (c : OpenCall) calls stop, stop.kind = .paramClose →
      s.Room c.outer [.call c.name (Tree.formulas s.position args) none] →
      s.Feeds ⟨c :: calls, {}, .slot⟩ (ts ++ [stop])
        { calls, yard := c.closed (Tree.formulas s.position args) }

theorem moves_of_advances {calls : List OpenCall} {y : Yard} {mode : Mode} {t : Token}
    {p : Progress} (hmode : ∀ name span, mode ≠ .named name span) (ht : t.kind ≠ .paramClose)
    (h : Advances s { calls, yard := y } t p) : Moves s ⟨calls, y, mode⟩ t p :=
  .advance (fun _ hk => absurd hk ht) (settle_of_ne_named hmode) h

theorem read_next {level : Nat} {t : Tree} {ts : List Token}
    (h : s.Read (.expression (level + 1) t) ts) : s.Read (.expression level t) ts := by
  intro calls y mode hmode hstops hroom
  obtain ⟨r, hfeeds, hreads⟩ := h calls y mode hmode (hstops.mono fun _ => binds_of_next) hroom
  exact ⟨r, hfeeds, hreads.next hstops⟩

theorem read_binary {op : BinaryOp} {l r : Tree} {ts us : List Token} {sign : Token}
    (hsign : sign.kind = .operator op) (hl : s.Read (.expression op.precedence l) ts)
    (hr : s.Read (.expression (op.precedence + 1) r) us) :
    s.Read (.expression op.precedence (.binary op l r)) (ts ++ [sign] ++ us) := by
  intro calls y mode hmode hstops hroom
  rw [Tree.postorder] at hroom ⊢
  obtain ⟨q, hfeeds, hreads⟩ := hl calls y mode hmode hstops hroom.left.left
  obtain ⟨z, hrel, hmoves⟩ := hreads.moves
  -- What of the left operand waits is released, and the operator waits in its place.
  have hop : z.operator s.limit op sign.span =
      .ok ⟨.operator op sign.span :: y.pending, (y.extended (l.postorder s.position)).written⟩ :=
    Yard.operator_eq_ok.2 ⟨_, hrel, rfl⟩
  have hfeeds' := Feeds.of_moves (hmoves (.operator hsign hop))
  have hstops' : Yard.Stops (binds (op.precedence + 1)) (.operator op sign.span :: y.pending) := by
    simp [Yard.Stops, binds]
  obtain ⟨q', hfeeds'', hslot, z', hz', hrel'⟩ :=
    hr calls _ .settled (by simp) hstops' (hroom.left.right _)
  refine ⟨q', (hfeeds.append hfeeds').append hfeeds'', hslot, z', hz', ?_⟩
  have hlen := hroom.few
  simp only [List.length_append, List.length_singleton] at hlen
  have hrelease : Yard.release s.limit (binds op.precedence) (.operator op sign.span :: y.pending)
      ⟨y.written.nodes ++ l.postorder s.position ++ r.postorder s.position, y.written.depth + 2⟩ =
        .ok ⟨y.pending, ⟨y.written.nodes ++ l.postorder s.position ++ r.postorder s.position ++
          [.operator (.binary op)], y.written.depth + 1⟩⟩ :=
    Yard.release_operator (by simp [binds]) hstops (by simp only [List.length_append]; omega)
  rw [Yard.release_of_release (fun _ => binds_of_next) hrel']
  simpa only [Yard.extended, List.append_assoc] using hrelease

theorem read_number {value : Float} {t : Token} (ht : t.kind = .number value) :
    s.Read (.expression 3 (.number value)) [t] := by
  intro calls y mode hmode hstops hroom
  rw [Tree.postorder] at hroom ⊢
  have hmoves : Moves s ⟨calls, y, mode⟩ t
      (.going { calls, yard := y.extended [.literal value] }) :=
    moves_of_advances hmode (by simp [ht]) (.number ht (hroom.operand t.span))
  exact ⟨_, Feeds.of_moves hmoves, .of_extended hstops⟩

theorem moves_name {calls : List OpenCall} {y : Yard} {mode : Mode} {t : Token} {name : String}
    (hmode : ∀ name span, mode ≠ .named name span) (ht : t.kind = .identifier name) :
    Moves s ⟨calls, y, mode⟩ t (.going ⟨calls, y, .named name t.span⟩) :=
  moves_of_advances hmode (by simp [ht]) (.name ht)

theorem read_name {name : String} {t : Token} (ht : t.kind = .identifier name) :
    s.Read (.expression 3 (.name name)) [t] := by
  intro calls y mode hmode hstops hroom
  rw [Tree.postorder] at hroom ⊢
  refine ⟨_, Feeds.of_moves (moves_name hmode ht), by simp, y.extended [named s.position name], ?_,
    Yard.release_of_stops hstops _⟩
  rw [settle_of_named rfl, reference_eq_named, hroom.operand t.span]
  rfl

theorem feeds_call {calls : List OpenCall} {y : Yard} {mode : Mode} {t start : Token}
    {name : String} (hmode : ∀ name span, mode ≠ .named name span) (ht : t.kind = .identifier name)
    (hstart : start.kind = .paramOpen) :
    s.Feeds ⟨calls, y, mode⟩ [t, start] ⟨⟨name, t.span, [], y⟩ :: calls, {}, .slot⟩ :=
  (Feeds.of_moves (moves_name hmode ht)).append (Feeds.of_moves (.openCall rfl hstart))

theorem read_empty {name : String} {t start stop : Token} (ht : t.kind = .identifier name)
    (hstart : start.kind = .paramOpen) (hstop : stop.kind = .paramClose) :
    s.Read (.expression 3 (.call name [])) [t, start, stop] := by
  intro calls y mode hmode hstops hroom
  rw [Tree.postorder] at hroom ⊢
  have hmoves : Moves s ⟨⟨name, t.span, [], y⟩ :: calls, {}, .slot⟩ stop
      (.going { calls, yard := y.extended [.call name [] none] }) :=
    .closeCall rfl hstop rfl (hroom.operand t.span)
  exact ⟨_, (feeds_call hmode ht hstart).append (Feeds.of_moves hmoves), .of_extended hstops⟩

theorem read_call {name : String} {args : List Tree} {ts : List Token} {t start stop : Token}
    (ht : t.kind = .identifier name) (hstart : start.kind = .paramOpen)
    (hstop : stop.kind = .paramClose) (hargs : s.Read (.arguments args) ts) :
    s.Read (.expression 3 (.call name args)) ([t, start] ++ (ts ++ [stop])) := by
  intro calls y mode hmode hstops hroom
  rw [Tree.postorder] at hroom ⊢
  have hfeeds := hargs ⟨name, t.span, [], y⟩ calls stop hstop hroom
  exact ⟨_, (feeds_call hmode ht hstart).append hfeeds, .of_extended hstops⟩

theorem read_group {t : Tree} {ts : List Token} {start stop : Token} {opened closed : Bracket}
    (hstart : start.kind = .groupOpen opened) (hstop : stop.kind = .groupClose closed)
    (h : s.Read (.expression 0 t) ts) : s.Read (.expression 3 t) ([start] ++ ts ++ [stop]) := by
  intro calls y mode hmode hstops hroom
  have hopen : s.Feeds ⟨calls, y, mode⟩ [start] { calls, yard := y.openGroup } :=
    Feeds.of_moves (moves_of_advances hmode (by simp [hstart]) (.openGroup hstart))
  obtain ⟨r, hfeeds, hreads⟩ := h calls y.openGroup .settled (by simp) trivial
    ⟨hroom.few, hroom.arguments⟩
  obtain ⟨z, hrel, hmoves⟩ := hreads.moves
  rw [binds_zero] at hrel
  have hclose : z.closeGroup s.limit stop.span = .ok (y.extended (t.postorder s.position)) :=
    Yard.closeGroup_eq_ok.2 ⟨_, _, hrel, rfl⟩
  have hfeeds' := Feeds.of_moves (hmoves (.closeGroup hstop hclose))
  exact ⟨_, (hopen.append hfeeds).append hfeeds', .of_extended hstops⟩

theorem read_argument {t : Tree} {ts : List Token} (h : s.Read (.expression 0 t) ts)
    (c : OpenCall) (calls : List OpenCall)
    (hfits : (Formula.ofNodes (t.postorder s.position)).Fits s.limit) :
    ∃ r, s.Feeds ⟨c :: calls, {}, .slot⟩ ts r ∧
      s.Reads 0 (c :: calls) {} (t.postorder s.position) r := by
  obtain ⟨hfew, hargs⟩ := Formula.fits_iff.1 hfits
  refine h (c :: calls) {} .slot (by simp) trivial ⟨?_, hargs⟩
  simpa using hfew

theorem read_last {t : Tree} {ts : List Token} (h : s.Read (.expression 0 t) ts) :
    s.Read (.arguments [t]) ts := by
  intro c calls stop hstop hroom
  simp only [Tree.formulas] at hroom ⊢
  have hfits := hroom.arguments _ _ _ List.mem_cons_self _ List.mem_cons_self
  obtain ⟨r, hfeeds, hreads⟩ := read_argument h c calls hfits
  obtain ⟨z, hrel, hmoves⟩ := hreads.moves
  have hfinish := finish_of_release stop.span hrel
  have hclose : OpenCall.close s.limit
      { c with args := c.args ++ [.ofNodes (t.postorder s.position)] } =
        .ok (c.closed [.ofNodes (t.postorder s.position)]) :=
    Yard.operand_extended c.span hroom.few
  exact hfeeds.append (Feeds.of_moves (hmoves (.closeCall hstop hfinish rfl hclose)))

theorem read_comma {t : Tree} {args : List Tree} {ts us : List Token} {separator : Token}
    (hsep : separator.kind = .comma) (h : s.Read (.expression 0 t) ts)
    (hrest : s.Read (.arguments args) us) :
    s.Read (.arguments (t :: args)) (ts ++ [separator] ++ us) := by
  intro c calls stop hstop hroom
  rw [Tree.formulas] at hroom ⊢
  have hfits := hroom.arguments _ _ _ List.mem_cons_self
  obtain ⟨r, hfeeds, hreads⟩ := read_argument h c calls (hfits _ List.mem_cons_self)
  obtain ⟨z, hrel, hmoves⟩ := hreads.moves
  have hfinish := finish_of_release separator.span hrel
  have hfeeds' := Feeds.of_moves (hmoves (.argument hsep hfinish rfl))
  have hroom' : s.Room c.outer [.call c.name (Tree.formulas s.position args) none] := by
    refine ⟨hroom.few, fun name args' target hc a ha => ?_⟩
    obtain ⟨rfl, rfl, rfl⟩ := Node.call.inj (List.mem_singleton.1 hc)
    exact hfits a (List.mem_cons_of_mem _ ha)
  have hfeeds'' := hrest { c with args := c.args ++ [.ofNodes (t.postorder s.position)] } calls stop
    hstop hroom'
  have hall := (hfeeds.append hfeeds').append hfeeds''
  simpa only [List.append_assoc, OpenCall.closed, List.cons_append, List.nil_append] using hall

theorem read_of_spells {p : Phrase} {ts : List Token} (h : Spells p ts) : s.Read p ts := by
  induction h with
  | next _ _ ih => exact read_next ih
  | sum hop hsign _ _ ihl ihr =>
    rcases hop with rfl | rfl
    · exact read_binary hsign ihl ihr
    · exact read_binary hsign ihl ihr
  | product hop hsign _ _ ihl ihr =>
    rcases hop with rfl | rfl
    · exact read_binary hsign ihl ihr
    · exact read_binary hsign ihl ihr
  | power hsign _ _ ihl ihr => exact read_binary hsign ihl ihr
  | number ht => exact read_number ht
  | name ht => exact read_name ht
  | empty ht hstart hstop => exact read_empty ht hstart hstop
  | call ht hstart hstop _ ih => exact read_call ht hstart hstop ih
  | group hstart hstop _ ih => exact read_group hstart hstop ih
  | last _ ih => exact read_last ih
  | comma hsep _ _ ih ihrest => exact read_comma hsep ih ihrest

theorem compile_spells {s : Scope} {t : Tree} {ts rest : List Token}
    (h : Spells (.expression 0 t) ts)
    (hfits : (Formula.ofNodes (t.postorder s.position)).Fits s.limit)
    (hrest : ∀ u ∈ rest.head?, u.kind.endsExpression = true) :
    s.compile {} (ts ++ rest) = .ok (.ofNodes (t.postorder s.position), rest) := by
  obtain ⟨hfew, hargs⟩ := Formula.fits_iff.1 hfits
  obtain ⟨r, hfeeds, hreads⟩ := read_of_spells (s := s) h [] {} .settled (by simp) trivial
    ⟨by simpa using hfew, hargs⟩
  rw [hfeeds rest]
  cases rest with
  | nil =>
    obtain ⟨hslot, z, hz, hrel⟩ := hreads
    have hfinish := finish_eq_ok.2 ⟨hslot, _, hz, finish_of_release s.last hrel, rfl⟩
    simp only [compile, hfinish, ok_bind]
    rfl
  | cons u rest =>
    obtain ⟨z, hrel, hmoves⟩ := hreads.moves
    have hstep := step_eq_ok.2 (hmoves (.ends (hrest u rfl) (finish_of_release u.span hrel) rfl))
    simp only [compile, hstep, ok_bind]
    rfl

/-- `f(X, g) ^ 3 ^ 2` -/
def powers : Tree :=
  .binary .power (.binary .power (.call "f" [.name "X", .name "g"]) (.number 3)) (.number 2)

/-- `2 - a * f(X, g) ^ 3 ^ 2` -/
def difference : Tree := .binary .subtract (.number 2) (.binary .multiply (.name "a") powers)

def bare (k : Token.Kind) : Token := ⟨k, ⟨0, 0, 1, 1⟩⟩

def differenceTokens : List Token :=
  [.number 2, .operator .subtract, .identifier "a", .operator .multiply, .identifier "f",
    .paramOpen, .identifier "X", .comma, .identifier "g", .paramClose, .operator .power,
    .number 3, .operator .power, .number 2].map bare

theorem spells_powers : Spells (.expression 2 powers) (differenceTokens.drop 4) := by
  have hname : ∀ name, Spells (.expression 0 (.name name)) [bare (.identifier name)] :=
    fun name => .next (by decide) (.next (by decide) (.next (by decide) (.name rfl)))
  have hargs : Spells (.arguments [.name "X", .name "g"])
      ([bare (.identifier "X")] ++ [bare .comma] ++ [bare (.identifier "g")]) :=
    .comma rfl (hname "X") (.last (hname "g"))
  have hcall : Spells (.expression 3 (.call "f" [.name "X", .name "g"]))
      ((differenceTokens.drop 4).take 6) := .call rfl rfl rfl hargs
  exact .power rfl (.power rfl (.next (by decide) hcall) (.number rfl)) (.number rfl)

theorem spells_difference : Spells (.expression 0 difference) differenceTokens := by
  have hproduct : Spells (.expression 1 (.binary .multiply (.name "a") powers))
      (differenceTokens.drop 2) :=
    .product (.inl rfl) rfl (.next (by decide) (.next (by decide) (.name rfl))) spells_powers
  have hnumber : Spells (.expression 0 (.number 2)) [bare (.number 2)] :=
    .next (by decide) (.next (by decide) (.next (by decide) (.number rfl)))
  exact .sum (.inr rfl) rfl hnumber hproduct

theorem compile_spells_difference :
    let s : Scope := { limit := 9, position := (["a"].idxOf? ·), last := ⟨0, 0, 1, 1⟩ }
    s.compile {} (differenceTokens ++ [bare .equals]) =
      .ok (.ofNodes [.literal 2, .argument 0,
        .call "f" [.ofNodes [.coordinate 0], .ofNodes [.call "g" [] none]] none,
        .literal 3, .operator (.binary .power), .literal 2, .operator (.binary .power),
        .operator (.binary .multiply), .operator (.binary .subtract)], [bare .equals]) := by
  intro s
  have hpost : difference.postorder s.position = [.literal 2, .argument 0,
      .call "f" [.ofNodes [.coordinate 0], .ofNodes [.call "g" [] none]] none,
      .literal 3, .operator (.binary .power), .literal 2, .operator (.binary .power),
      .operator (.binary .multiply), .operator (.binary .subtract)] := by
    simp only [difference, powers, Tree.postorder, Tree.formulas, ← reference_eq_named]
    rfl
  have hfits : (Formula.ofNodes (difference.postorder s.position)).Fits s.limit := by
    rw [hpost]
    refine Formula.fits_iff.2 ⟨by decide, fun name args target hc a ha => ?_⟩
    obtain ⟨rfl, rfl, rfl⟩ : name = "f" ∧
        args = [.ofNodes [.coordinate 0], .ofNodes [.call "g" [] none]] ∧ target = none := by
      simpa using hc
    have hsmall : a = .ofNodes [.coordinate 0] ∨ a = .ofNodes [.call "g" [] none] := by
      simpa using ha
    rcases hsmall with rfl | rfl
    · exact Formula.fits_iff.2 ⟨by decide, by simp⟩
    · exact Formula.fits_iff.2 ⟨by decide, by rintro _ _ _ hc a ha; simp_all⟩
  have hcompile : s.compile {} (differenceTokens ++ [bare .equals]) =
      .ok (.ofNodes (difference.postorder s.position), [bare .equals]) := by
    refine compile_spells spells_difference hfits fun u hu => ?_
    obtain rfl := Option.some.inj hu
    rfl
  rw [hpost] at hcompile
  exact hcompile

end Scope

end Formulary
