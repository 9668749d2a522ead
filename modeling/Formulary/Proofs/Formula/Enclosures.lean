import Formulary.Proofs.Formula.Rejections
import Formulary.Proofs.Token.Brackets

/-!
# Brackets in a compilation

The brackets that a reading has open are those that are open in the tokens: the groups in
the formula that is being written, then the parameter list of the innermost call, and so on
outwards. So a closing bracket always finds what it closes, a parameter list only opens
behind a name, and behind the last token no call is open.
-/
namespace Formulary

section
variable {S : Span → Prop} {opened : List Token.Enclosure} {previous : Option Token.Kind}

namespace Yard

variable {limit : Nat} {s : Span} {y y' : Yard}

structure Live (S : Span → Prop) (y : Yard) : Prop where
  groups : y.groups ≠ 0
  shown : Shown S y.pending

def inner (y : Yard) : List Token.Enclosure := List.replicate (y.groups - 1) .group

theorem live_start : Live S {} := by
  refine ⟨by decide, fun op s hs => ?_⟩
  simp at hs

theorem Live.of_pending (h : y.Live S) (hp : y'.pending = y.pending) : y'.Live S := by
  refine ⟨?_, ?_⟩
  · rw [Yard.groups, hp]
    exact h.groups
  · rw [hp]
    exact h.shown

theorem inner_of_pending (hp : y'.pending = y.pending) : y'.inner = y.inner := by
  rw [inner, inner, groups, groups, hp]

theorem Live.operator {op : BinaryOp} (h : y.Live S) (hs : S s)
    (ho : y.operator limit op s = .ok y') : y'.Live S ∧ y'.inner = y.inner := by
  obtain ⟨⟨rest, hpending, hsuffix⟩, hgroups, -⟩ := operator_balance ho
  refine ⟨⟨hgroups ▸ h.groups, fun op' s' hmem => ?_⟩, by rw [inner, inner, hgroups]⟩
  rw [hpending] at hmem
  rcases List.mem_cons.1 hmem with hop | hmem
  · obtain ⟨-, rfl⟩ := Pending.operator.inj hop
    exact hs
  · exact h.shown.of_suffix hsuffix op' s' hmem

theorem Live.openGroup (h : y.Live S) :
    y.openGroup.Live S ∧ y.openGroup.inner = .group :: y.inner := by
  have hgroups : y.openGroup.groups = y.groups + 1 := by simp [Yard.groups, Yard.openGroup]
  refine ⟨⟨by omega, fun op s hmem => h.shown op s (by simpa [Yard.openGroup] using hmem)⟩, ?_⟩
  have hpos := h.groups
  rw [inner, inner, ← List.replicate_succ, hgroups]
  congr 1
  omega

theorem Live.closeGroup (h : y.Live S) (hinner : y.inner ≠ [])
    (hc : y.closeGroup limit s = .ok y') : y'.Live S ∧ y.inner = .group :: y'.inner := by
  obtain ⟨hsuffix, hgroups, -⟩ := closeGroup_balance hc
  have hmany : y.groups - 1 ≠ 0 := fun hzero => hinner (by rw [inner, hzero]; rfl)
  refine ⟨⟨by omega, ?_⟩, ?_⟩
  · exact h.shown.of_suffix ((List.suffix_cons _ _).trans hsuffix)
  · rw [inner, inner, ← List.replicate_succ, hgroups]
    congr 1
    omega

theorem inner_of_finish {f : Formula} (hf : y.finish limit s = .ok f) : y.inner = [] := by
  obtain ⟨nodes, hc, -⟩ := finish_eq_ok.1 hf
  obtain ⟨-, hgroups, -⟩ := closeGroup_balance hc
  rw [inner, hgroups]
  rfl

end Yard

namespace Reading

def enclosures (r : Reading) : List Token.Enclosure :=
  r.yard.inner ++ r.calls.flatMap fun c => .parameters :: c.outer.inner

/-- Each formula can go on, and the reading is as deep in brackets as the tokens are. -/
structure Opens (S : Span → Prop) (opened : List Token.Enclosure) (r : Reading) : Prop where
  yard : r.yard.Live S
  calls : ∀ c ∈ r.calls, c.outer.Live S ∧ S c.span
  enclosures : r.enclosures = opened

/-- A name that was read last is still open, and an argument may be missing only in a call. -/
structure Follows (S : Span → Prop) (previous : Option Token.Kind) (opened : List Token.Enclosure)
    (r : Reading) : Prop extends Opens S opened r where
  named : Token.followsIdentifier previous = true → ∃ name span, r.mode = .named name span
  shown : ∀ name span, r.mode = .named name span → S span
  slot : r.mode = .slot → r.calls ≠ []

theorem Opens.of_pending {calls : List OpenCall} {y z : Yard} {mode mode' : Mode}
    (h : Opens S opened ⟨calls, y, mode⟩) (hp : z.pending = y.pending) :
    Opens S opened ⟨calls, z, mode'⟩ := by
  refine ⟨h.yard.of_pending hp, h.calls, ?_⟩
  rw [← h.enclosures, Reading.enclosures, Yard.inner_of_pending hp]
  rfl

theorem Opens.settled {calls : List OpenCall} {y : Yard}
    (h : Opens S opened ⟨calls, y, .settled⟩)
    (hp : Token.followsIdentifier previous = false) :
    Follows S previous opened ⟨calls, y, .settled⟩ where
  toOpens := h
  named := by simp [hp]
  shown := by simp
  slot := by simp

theorem follows_start (h : Token.followsIdentifier previous = false) :
    Follows S previous [] {} :=
  Opens.settled ⟨Yard.live_start, by simp, rfl⟩ h

theorem enclosures_of_inner {calls : List OpenCall} {y : Yard} {mode : Mode} (h : y.inner = []) :
    enclosures ⟨calls, y, mode⟩ = calls.flatMap fun c => .parameters :: c.outer.inner := by
  rw [enclosures, h, List.nil_append]

theorem inner_ne_nil {r : Reading} (h : r.enclosures.head? = some .group) : r.yard.inner ≠ [] := by
  intro hinner
  rw [enclosures_of_inner hinner] at h
  cases hc : r.calls with
  | nil => simp [hc] at h
  | cons c calls => simp [hc] at h

theorem inner_eq_nil {r : Reading} (h : r.enclosures.head? = some .parameters) :
    r.yard.inner = [] := by
  rw [Yard.inner]
  cases hmany : r.yard.groups - 1 with
  | zero => rfl
  | succ n =>
    rw [enclosures, Yard.inner, hmany, List.replicate_succ] at h
    simp at h

theorem calls_ne_nil {r : Reading} (h : r.enclosures.head? = some .parameters) : r.calls ≠ [] := by
  intro hc
  rw [enclosures, inner_eq_nil h, hc] at h
  simp at h

theorem calls_eq_nil {r : Reading} (h : r.enclosures = []) : r.calls = [] := by
  rw [enclosures, List.append_eq_nil_iff, List.flatMap_eq_nil_iff] at h
  refine List.eq_nil_iff_forall_not_mem.2 fun c hc => ?_
  exact List.cons_ne_nil _ _ (h.2 c hc)

theorem Opens.closeCall {limit : Nat} {c : OpenCall} {calls : List OpenCall} {y z : Yard}
    {mode : Mode} {args : List Formula} (h : Opens S opened ⟨c :: calls, y, mode⟩)
    (hinner : y.inner = []) (hc : OpenCall.close limit { c with args } = .ok z) :
    Opens S opened.tail ⟨calls, z, .settled⟩ := by
  obtain ⟨hpending, -⟩ := Yard.operand_balance hc
  have houter := List.forall_mem_cons.1 h.calls
  refine ⟨houter.1.1.of_pending hpending, houter.2, ?_⟩
  have hopened := h.enclosures
  rw [enclosures_of_inner hinner] at hopened
  rw [← hopened, Reading.enclosures, Yard.inner_of_pending hpending]
  rfl

theorem Opens.argument {c : OpenCall} {calls : List OpenCall} {y : Yard} {mode mode' : Mode}
    {args : List Formula} (h : Opens S opened ⟨c :: calls, y, mode⟩) (hinner : y.inner = []) :
    Opens S opened ⟨{ c with args } :: calls, {}, mode'⟩ := by
  refine ⟨Yard.live_start, List.forall_mem_cons.2 (List.forall_mem_cons.1 h.calls), ?_⟩
  rw [← h.enclosures, enclosures_of_inner hinner, enclosures_of_inner rfl]
  rfl

end Reading

namespace Scope

open Reading

variable {s : Scope} {r q : Reading} {t : Token}

theorem opens_of_settle (h : r.Opens S opened) (hq : s.settle r = .ok q) :
    q.Opens S opened ∧ q.mode = .settled ∧ q.calls = r.calls := by
  rw [settle] at hq
  split at hq
  · obtain ⟨y, hy, hq⟩ := bind_eq_ok.1 hq
    obtain rfl := pure_eq_ok.1 hq
    exact ⟨h.of_pending (Yard.operand_balance hy).1, rfl, rfl⟩
  · obtain rfl := Except.ok.inj hq
    exact ⟨h.of_pending rfl, rfl, rfl⟩

theorem follows_of_advances {calls : List OpenCall} {y : Yard}
    (h : Opens S opened ⟨calls, y, .settled⟩)
    (hfits : t.kind.Fits previous opened) (ht : S t.span)
    (ha : Advances s ⟨calls, y, .settled⟩ t (.going q)) :
    q.Follows S (some t.kind) (t.kind.enclose opened) := by
  cases ha with
  | number hk hy =>
    rw [hk]
    exact (h.of_pending (Yard.operand_balance hy).1).settled rfl
  | name hk =>
    rw [hk]
    refine ⟨h.of_pending rfl, fun _ => ⟨_, _, rfl⟩, fun name span hm => ?_, by simp⟩
    obtain ⟨-, rfl⟩ := Mode.named.inj hm
    exact ht
  | operator hk hy =>
    obtain ⟨hlive, hinner⟩ := h.yard.operator ht hy
    rw [hk]
    refine Opens.settled ⟨hlive, h.calls, ?_⟩ rfl
    rw [enclosures, hinner]
    exact h.enclosures
  | openGroup hk =>
    obtain ⟨hlive, hinner⟩ := h.yard.openGroup
    rw [hk]
    refine Opens.settled ⟨hlive, h.calls, ?_⟩ rfl
    rw [enclosures, hinner, ← h.enclosures]
    rfl
  | closeGroup hk hy =>
    rw [hk] at hfits ⊢
    have hmany : y.inner ≠ [] := inner_ne_nil (h.enclosures ▸ hfits)
    obtain ⟨hlive, hinner⟩ := h.yard.closeGroup hmany hy
    refine Opens.settled ⟨hlive, h.calls, ?_⟩ rfl
    rw [← h.enclosures, enclosures, enclosures, hinner]
    rfl
  | argument hk hf hc =>
    subst hc
    rw [hk]
    exact ⟨h.argument (Yard.inner_of_finish hf), by simp [Token.followsIdentifier], by simp,
      by simp⟩
  | closeCall hk hf hc hy =>
    subst hc
    rw [hk]
    exact (h.closeCall (Yard.inner_of_finish hf) hy).settled rfl

theorem follows_of_moves (h : r.Follows S previous opened) (hfits : t.kind.Fits previous opened)
    (ht : S t.span) (hm : Moves s r t (.going q)) :
    q.Follows S (some t.kind) (t.kind.enclose opened) := by
  cases hm with
  | openCall hmode hk =>
    rw [hk]
    refine ⟨⟨Yard.live_start, ?_, ?_⟩, by simp [Token.followsIdentifier], by simp, by simp⟩
    · exact List.forall_mem_cons.2 ⟨⟨h.yard, h.shown _ _ hmode⟩, h.calls⟩
    · rw [enclosures_of_inner rfl, List.flatMap_cons, ← h.enclosures]
      rfl
  | closeCall hmode hk hc hy =>
    rw [hk]
    rw [hk] at hfits
    have hinner : r.yard.inner = [] := inner_eq_nil (h.enclosures ▸ hfits)
    obtain ⟨calls, yard, mode⟩ := r
    subst hc
    exact (h.toOpens.closeCall hinner hy).settled rfl
  | @advance q _ _ hq ha =>
    obtain ⟨hopens, hmode, -⟩ := opens_of_settle h.toOpens hq
    obtain ⟨calls, yard, mode⟩ := q
    subst hmode
    exact follows_of_advances hopens hfits ht ha

/-- Only a comma ends an expression that stands for itself. -/
theorem comma_of_ended {f : Formula} (h : r.Follows S previous opened)
    (hfits : t.kind.Fits previous opened) (hne : t.kind ≠ .equals)
    (hm : Moves s r t (.ended f)) : t.kind = .comma := by
  cases hm with
  | advance _ hq ha =>
    obtain ⟨hopens, -, -⟩ := opens_of_settle h.toOpens hq
    cases ha with
    | ends hk _ hc =>
      cases hkind : t.kind with
      | comma => rfl
      | equals => exact absurd hkind hne
      | paramClose =>
        rw [hkind] at hfits
        exact absurd hc (calls_ne_nil (hopens.enclosures ▸ hfits))
      | _ => simp [hkind, Token.Kind.endsExpression] at hk

variable {e : Rejection}

theorem settle_eq_error (h : r.Follows S previous opened) (he : s.settle r = .error e) :
    e.Structural S := by
  rw [settle] at he
  split at he
  · rename_i hmode
    exact Yard.operand_eq_error (error_of_bind_pure he) (h.shown _ _ hmode)
  · simp at he

theorem closeCall_eq_error {c : OpenCall} {calls : List OpenCall} (hc : S c.span)
    (he : s.closeCall c calls = .error e) : e.Structural S :=
  Yard.operand_eq_error (error_of_bind_pure he) hc

theorem advance_eq_error (h : r.Opens S opened) (ht : S t.span) (hopen : t.kind ≠ .paramOpen)
    (hne : t.kind ≠ .equals) (he : s.advance r t = .error e) : e.Structural S := by
  have hfinish {e : Rejection} (he : r.yard.finish s.limit t.span = .error e) : e.Structural S :=
    Yard.finish_eq_error he h.yard.groups h.yard.shown ht
  rw [advance] at he
  simp only at he
  split at he
  · exact Yard.operand_eq_error (error_of_bind_pure he) ht
  · simp at he
  · rw [operatorFor_char, ok_bind] at he
    exact Yard.operator_eq_error (error_of_bind_pure he) h.yard.shown
  · simp at he
  · exact Yard.closeGroup_eq_error (error_of_bind_pure he) h.yard.groups h.yard.shown
  · rename_i hk
    exact absurd hk hopen
  · rcases bind_eq_error.1 he with he | ⟨f, -, he⟩
    · exact hfinish he
    · split at he <;> simp [pure, Except.pure] at he
  · rcases bind_eq_error.1 he with he | ⟨f, -, he⟩
    · exact hfinish he
    · split at he
      · simp [pure, Except.pure] at he
      · rename_i c calls hcalls
        have hc := h.calls
        rw [hcalls] at hc
        refine closeCall_eq_error ?_ he
        exact (hc c List.mem_cons_self).2
  · rename_i hk
    exact absurd hk hne

theorem step_eq_error (h : r.Follows S previous opened) (hfits : t.kind.Fits previous opened)
    (ht : S t.span) (hne : t.kind ≠ .equals) (he : s.step r t = .error e) : e.Structural S := by
  rw [step] at he
  split at he
  · simp at he
  · rename_i c calls _ _ hcalls
    have hc := h.calls
    rw [hcalls] at hc
    exact closeCall_eq_error (hc c List.mem_cons_self).2 he
  · rename_i hnamed _
    have hopen : t.kind ≠ .paramOpen := by
      intro hk
      rw [hk] at hfits
      obtain ⟨name, span, hmode⟩ := h.named hfits
      exact hnamed name span hmode hk
    rcases bind_eq_error.1 he with he | ⟨q, hq, he⟩
    · exact settle_eq_error h he
    · exact advance_eq_error (opens_of_settle h.toOpens hq).1 ht hopen hne he

theorem finish_eq_error (h : r.Follows S previous []) (hs : S s.last)
    (he : s.finish r = .error e) : e.Structural S := by
  have hcalls : r.calls = [] := calls_eq_nil h.enclosures
  rw [finish] at he
  split at he
  · rename_i hslot
    exact absurd hcalls (h.slot hslot)
  · rcases bind_eq_error.1 he with he | ⟨q, hq, he⟩
    · exact settle_eq_error h he
    · obtain ⟨hopens, -, hsame⟩ := opens_of_settle h.toOpens hq
      rcases bind_eq_error.1 he with he | ⟨f, -, he⟩
      · exact Yard.finish_eq_error he hopens.yard.groups hopens.yard.shown hs
      · rw [hsame, hcalls] at he
        simp [pure, Except.pure] at he

inductive Ends (S : Span → Prop) : Except Rejection (Formula × List Token) → Prop
  | rejected {e : Rejection} : e.Structural S → Ends S (.error e)
  | complete {f : Formula} : Ends S (.ok (f, []))
  | comma {f : Formula} {t : Token} {rest : List Token} : t.kind = .comma → S t.span →
      Ends S (.ok (f, t :: rest))

theorem ends_compile {ts : List Token} (h : r.Follows S previous opened)
    (hn : Token.Nested previous opened ts) (hts : ∀ t ∈ ts, S t.span)
    (hne : ∀ t ∈ ts, t.kind ≠ .equals) (hs : S s.last) : Ends S (s.compile r ts) := by
  induction ts generalizing r previous opened with
  | nil =>
    obtain rfl : opened = [] := hn
    rw [compile]
    cases hf : s.finish r with
    | error e => exact .rejected (finish_eq_error h hs hf)
    | ok f => exact .complete
  | cons t rest ih =>
    obtain ⟨hfits, hrest⟩ := hn
    rw [List.forall_mem_cons] at hts hne
    rw [compile]
    cases hstep : s.step r t with
    | error e => exact .rejected (step_eq_error h hfits hts.1 hne.1 hstep)
    | ok p =>
      have hm := step_eq_ok.1 hstep
      cases p with
      | going q => exact ih (follows_of_moves h hfits hts.1 hm) hrest hts.2 hne.2
      | ended f => exact .comma (comma_of_ended h hfits hne.1 hm) hts.1

end Scope

end

end Formulary
