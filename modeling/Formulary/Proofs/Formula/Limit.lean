import Formulary.Proofs.Formula.Grammar
import Formulary.Proofs.Formula.Steps

/-!
# The limit on nodes

Under a limit and under a wider one a compilation goes the same way as long as what was
written fits the narrower one. Nothing that is written is taken back, so a result that fits
says the same of all that went before it, and one that does not fit fails where the first
node is too many. A call's arguments are formulas of their own and are not counted with the
nodes around it.
-/
namespace Formulary

section
variable {α β : Type} {limit : Nat}

/-- A computation under a limit, as `x`, and under a wider one, as `y`. It begins with what may
fit the limit, and so does its result. -/
structure Limited (limit : Nat) (start : Prop) (x y : Except Rejection α) (fits : α → Prop) :
    Prop where
  kept : ∀ a, y = .ok a → fits a → start
  same : start → ∀ a, x = .ok a ↔ y = .ok a ∧ fits a
  exceeded : start → ∀ a, y = .ok a → ¬ fits a →
    ∃ s, x = .error (.spanning (.tooManyNodes limit) s)

namespace Limited

variable {start : Prop} {x y : Except Rejection α} {fits : α → Prop}

theorem ok {a : α} (h : fits a ↔ start) : Limited limit start (.ok a) (.ok a) fits where
  kept b hb hfits := by
    obtain rfl := Except.ok.inj hb
    exact h.1 hfits
  same hstart b := by
    refine (and_iff_left_of_imp fun hb => ?_).symm
    obtain rfl := Except.ok.inj hb
    exact h.2 hstart
  exceeded hstart b hb hfits := by
    obtain rfl := Except.ok.inj hb
    exact absurd (h.2 hstart) hfits

theorem error (e e' : Rejection) : Limited limit start (.error e) (.error e') fits where
  kept _ h := nomatch h
  same _ _ := by simp
  exceeded _ _ h := nomatch h

theorem unlimited (x : Except Rejection α) : Limited limit True x x fun _ => True where
  kept _ _ _ := trivial
  same _ _ := (and_iff_left trivial).symm
  exceeded _ _ _ h := absurd trivial h

theorem bind {f g : α → Except Rejection β} {fits' : β → Prop} (h : Limited limit start x y fits)
    (hf : ∀ a, y = .ok a → Limited limit (fits a) (f a) (g a) fits') :
    Limited limit start (x >>= f) (y >>= g) fits' where
  kept b hb hfits := by
    obtain ⟨a, ha, hb⟩ := bind_eq_ok.1 hb
    exact h.kept a ha ((hf a ha).kept b hb hfits)
  same hstart b := by
    rw [bind_eq_ok, bind_eq_ok]
    constructor
    · rintro ⟨a, ha, hb⟩
      obtain ⟨ha, hfits⟩ := (h.same hstart a).1 ha
      obtain ⟨hb, hfits'⟩ := ((hf a ha).same hfits b).1 hb
      exact ⟨⟨a, ha, hb⟩, hfits'⟩
    · rintro ⟨⟨a, ha, hb⟩, hfits'⟩
      have hfits := (hf a ha).kept b hb hfits'
      exact ⟨a, (h.same hstart a).2 ⟨ha, hfits⟩, ((hf a ha).same hfits b).2 ⟨hb, hfits'⟩⟩
  exceeded hstart b hb hfits' := by
    obtain ⟨a, ha, hb⟩ := bind_eq_ok.1 hb
    by_cases hfits : fits a
    · rw [(h.same hstart a).2 ⟨ha, hfits⟩]
      exact (hf a ha).exceeded hfits b hb hfits'
    · obtain ⟨s, hs⟩ := h.exceeded hstart a ha hfits
      exact ⟨s, by rw [hs]; rfl⟩

theorem beside (h : Limited limit start x y fits) (also : Prop) :
    Limited limit (start ∧ also) x y fun a => fits a ∧ also where
  kept a ha hfits := ⟨h.kept a ha hfits.1, hfits.2⟩
  same hstart a := by rw [h.same hstart.1 a, and_iff_left hstart.2]
  exceeded hstart a ha hfits := h.exceeded hstart.1 a ha fun hfits' => hfits ⟨hfits', hstart.2⟩

theorem congr {start' : Prop} {fits' : α → Prop} (h : Limited limit start x y fits)
    (hstart : start ↔ start') (hfits : ∀ a, fits a ↔ fits' a) : Limited limit start' x y fits' := by
  obtain rfl : start = start' := propext hstart
  obtain rfl : fits = fits' := funext fun a => propext (hfits a)
  exact h

end Limited

end

def Node.Fits (limit : Nat) : Node → Prop
  | .call _ args _ => ∀ a ∈ args, a.Fits limit
  | _ => True

theorem Formula.fits_iff_nodes {limit : Nat} {f : Formula} :
    f.Fits limit ↔ f.nodes.length ≤ limit ∧ ∀ n ∈ f.nodes, n.Fits limit := by
  rw [fits_iff]
  refine and_congr_right' ⟨fun h n hn => ?_, fun h name args target hc => h _ hc⟩
  cases n with
  | call name args target => exact h name args target hn
  | _ => trivial

theorem Formula.Fits.mono {limit wide : Nat} {f : Formula} (h : f.Fits limit)
    (hwide : limit ≤ wide) : f.Fits wide := h.imp fun _ hg => Nat.le_trans hg hwide

theorem fits_reference (limit : Nat) (position : String → Option Nat) (name : String) :
    (reference position name).Fits limit :=
  reference_cases (fun _ _ => trivial) (fun _ _ => trivial) fun _ ha => absurd ha List.not_mem_nil

section
variable {limit wide : Nat} {s : Span}

namespace Postfix

def Fits (limit : Nat) (out : Postfix) : Prop :=
  out.nodes.length ≤ limit ∧ ∀ n ∈ out.nodes, n.Fits limit

theorem fits_concat {nodes : List Node} {n : Node} {depth : Nat} :
    Fits limit ⟨nodes ++ [n], depth⟩ ↔
      nodes.length < limit ∧ (∀ m ∈ nodes, m.Fits limit) ∧ n.Fits limit := by
  rw [Fits, List.length_append, List.forall_mem_append, List.forall_mem_singleton]
  rfl

variable (hwide : limit ≤ wide)

include hwide

theorem limited_write {n : Node} {depth : Nat} {out : Postfix} :
    Limited limit (out.Fits limit ∧ n.Fits limit) (out.write limit n depth s)
      (out.write wide n depth s) (Fits limit) where
  kept out' h hfits := by
    obtain ⟨-, rfl⟩ := write_eq_ok.1 h
    obtain ⟨hroom, hnodes, hn⟩ := fits_concat.1 hfits
    exact ⟨⟨Nat.le_of_lt hroom, hnodes⟩, hn⟩
  same hstart out' := by
    rw [write_eq_ok, write_eq_ok]
    constructor
    · rintro ⟨hroom, rfl⟩
      exact ⟨⟨Nat.lt_of_lt_of_le hroom hwide, rfl⟩, fits_concat.2 ⟨hroom, hstart.1.2, hstart.2⟩⟩
    · rintro ⟨⟨-, rfl⟩, hfits⟩
      exact ⟨(fits_concat.1 hfits).1, rfl⟩
  exceeded hstart out' h hfits := by
    obtain ⟨-, rfl⟩ := write_eq_ok.1 h
    have hfull : ¬ out.nodes.length < limit :=
      fun hroom => hfits (fits_concat.2 ⟨hroom, hstart.1.2, hstart.2⟩)
    exact ⟨s, if_neg hfull⟩

theorem limited_operator {op : BinaryOp} {out : Postfix} :
    Limited limit (out.Fits limit) (out.operator limit op s) (out.operator wide op s)
      (Fits limit) := by
  rw [operator, operator]
  split
  · exact .error _ _
  · exact (limited_write hwide).congr (and_iff_left trivial) fun _ => Iff.rfl

end Postfix

namespace Yard

def Fits (limit : Nat) (y : Yard) : Prop := y.written.Fits limit

variable (hwide : limit ≤ wide)

include hwide

theorem limited_release {first : BinaryOp → Bool} {pending : List Pending}
    {out : Postfix} : Limited limit (out.Fits limit) (release limit first pending out)
      (release wide first pending out) (Fits limit) := by
  induction pending generalizing out with
  | nil => exact .ok Iff.rfl
  | cons top rest ih =>
    cases top with
    | group => exact .ok Iff.rfl
    | operator op span =>
      rw [release, release]
      split
      · exact (Postfix.limited_operator hwide).bind fun _ _ => ih
      · exact .ok Iff.rfl

theorem limited_operand {n : Node} {y : Yard} :
    Limited limit (y.Fits limit ∧ n.Fits limit) (y.operand limit n s) (y.operand wide n s)
      (Fits limit) :=
  (Postfix.limited_write hwide).bind fun _ _ => .ok Iff.rfl

theorem limited_operand_of_fits {n : Node} (hn : n.Fits limit) {y : Yard} :
    Limited limit (y.Fits limit) (y.operand limit n s) (y.operand wide n s) (Fits limit) :=
  (limited_operand hwide).congr (and_iff_left hn) fun _ => Iff.rfl

theorem limited_operator {op : BinaryOp} {y : Yard} :
    Limited limit (y.Fits limit) (y.operator limit op s) (y.operator wide op s) (Fits limit) :=
  (limited_release hwide).bind fun _ _ => .ok Iff.rfl

theorem limited_closeGroup {y : Yard} :
    Limited limit (y.Fits limit) (y.closeGroup limit s) (y.closeGroup wide s) (Fits limit) := by
  refine (limited_release hwide).bind fun z _ => ?_
  split
  · exact .ok Iff.rfl
  · exact .error _ _

theorem limited_finish {y : Yard} :
    Limited limit (y.Fits limit) (y.finish limit s) (y.finish wide s) (Formula.Fits limit) := by
  refine (limited_closeGroup hwide).bind fun z _ => ?_
  split
  · exact .error _ _
  · split
    · exact .error _ _
    · exact .ok Formula.fits_iff_nodes
    · exact .error _ _

end Yard

def OpenCall.Fits (limit : Nat) (c : OpenCall) : Prop :=
  c.outer.Fits limit ∧ ∀ a ∈ c.args, a.Fits limit

theorem OpenCall.limited_close (hwide : limit ≤ wide) {c : OpenCall} :
    Limited limit (c.Fits limit) (c.close limit) (c.close wide) (Yard.Fits limit) :=
  Yard.limited_operand (n := .call c.name c.args none) hwide

def Reading.Fits (limit : Nat) (r : Reading) : Prop :=
  r.yard.Fits limit ∧ ∀ c ∈ r.calls, c.Fits limit

def Progress.Fits (limit : Nat) : Progress → Prop
  | .going r => r.Fits limit
  | .ended f => f.Fits limit

theorem OpenCall.fits_argument {f : Formula} {c : OpenCall} {calls : List OpenCall} :
    (∀ c' ∈ { c with args := c.args ++ [f] } :: calls, c'.Fits limit) ↔
      f.Fits limit ∧ ∀ c' ∈ c :: calls, c'.Fits limit := by
  rw [List.forall_mem_cons, List.forall_mem_cons, Fits, List.forall_mem_append,
    List.forall_mem_singleton]
  constructor
  · exact fun ⟨⟨houter, hargs, hf⟩, hcalls⟩ => ⟨hf, ⟨houter, hargs⟩, hcalls⟩
  · exact fun ⟨hf, ⟨houter, hargs⟩, hcalls⟩ => ⟨⟨houter, hargs, hf⟩, hcalls⟩

theorem Reading.fits_of_empty {r : Reading} (h : r.yard = {}) :
    r.Fits limit ↔ ∀ c ∈ r.calls, c.Fits limit := by
  rw [Fits, h]
  exact and_iff_right ⟨Nat.zero_le limit, fun _ hn => absurd hn List.not_mem_nil⟩

theorem OpenCall.fits_opened {name : String} {s : Span} {y : Yard} :
    Fits limit { name, span := s, outer := y } ↔ y.Fits limit :=
  and_iff_left fun _ ha => absurd ha List.not_mem_nil

end

namespace Scope

variable {limit wide : Nat} {position : String → Option Nat} {last : Span} {r : Reading}

theorem mode_of_settle {s : Scope} {q : Reading} (h : s.settle r = .ok q) : q.mode = .settled := by
  rw [settle] at h
  split at h
  · obtain ⟨y, -, h⟩ := bind_eq_ok.1 h
    obtain rfl := pure_eq_ok.1 h
    rfl
  · obtain rfl := Except.ok.inj h
    rfl

theorem yard_of_slot {s : Scope} {t : Token} {q : Reading} (h : Moves s r t (.going q))
    (hmode : q.mode = .slot) : q.yard = {} := by
  cases h with
  | openCall => rfl
  | closeCall => simp at hmode
  | advance _ hz ha =>
    have hsettled := mode_of_settle hz
    cases ha with
    | argument => rfl
    | name | closeCall => simp at hmode
    | number | operator | openGroup | closeGroup => simp [hsettled] at hmode

section
variable (hwide : limit ≤ wide)

include hwide

theorem limited_settle :
    Limited limit (r.Fits limit) (settle ⟨limit, position, last⟩ r)
      (settle ⟨wide, position, last⟩ r) (Reading.Fits limit) := by
  rw [settle, settle]
  cases r.mode with
  | named name span =>
    have hname := fits_reference limit position name
    exact ((Yard.limited_operand_of_fits hwide hname).beside _).bind fun _ _ => .ok Iff.rfl
  | settled | slot => exact .ok Iff.rfl

theorem limited_closeCall {c : OpenCall} {calls : List OpenCall} :
    Limited limit (∀ c' ∈ c :: calls, c'.Fits limit)
      (closeCall ⟨limit, position, last⟩ c calls) (closeCall ⟨wide, position, last⟩ c calls)
      (Progress.Fits limit) := by
  rw [List.forall_mem_cons]
  exact ((OpenCall.limited_close hwide).beside _).bind fun _ _ => .ok Iff.rfl

theorem limited_advance {t : Token} :
    Limited limit (r.Fits limit) (advance ⟨limit, position, last⟩ r t)
      (advance ⟨wide, position, last⟩ r t) (Progress.Fits limit) := by
  -- Without an open call the formula is all there is.
  have hended (f : Formula) : Limited limit (f.Fits limit ∧ ∀ c ∈ [], OpenCall.Fits limit c)
      (.ok (.ended f)) (.ok (.ended f)) (Progress.Fits limit) :=
    .ok (and_iff_left fun c hc => absurd hc List.not_mem_nil).symm
  rw [advance, advance]
  dsimp only
  cases t.kind with
  | number value =>
    have hn : (Node.literal value).Fits limit := trivial
    exact ((Yard.limited_operand_of_fits hwide hn).beside _).bind fun _ _ => .ok Iff.rfl
  | operator op =>
    dsimp only
    rw [operatorFor_char]
    exact ((Yard.limited_operator hwide).beside _).bind fun _ _ => .ok Iff.rfl
  | groupClose => exact ((Yard.limited_closeGroup hwide).beside _).bind fun _ _ => .ok Iff.rfl
  | identifier | groupOpen => exact .ok Iff.rfl
  | paramOpen => exact .error _ _
  | comma =>
    refine ((Yard.limited_finish hwide).beside (∀ c ∈ r.calls, c.Fits limit)).bind fun f _ => ?_
    cases r.calls with
    | nil => exact hended f
    | cons c calls => exact .ok ((Reading.fits_of_empty rfl).trans OpenCall.fits_argument)
  | paramClose =>
    refine ((Yard.limited_finish hwide).beside (∀ c ∈ r.calls, c.Fits limit)).bind fun f _ => ?_
    cases r.calls with
    | nil => exact hended f
    | cons c calls => exact (limited_closeCall hwide).congr OpenCall.fits_argument fun _ => Iff.rfl
  | equals =>
    refine ((Yard.limited_finish hwide).beside (∀ c ∈ r.calls, c.Fits limit)).bind fun f _ => ?_
    cases r.calls with
    | nil => exact hended f
    | cons c calls => exact .error _ _

theorem limited_step (hslot : r.mode = .slot → r.yard = {}) {t : Token} :
    Limited limit (r.Fits limit) (step ⟨limit, position, last⟩ r t)
      (step ⟨wide, position, last⟩ r t) (Progress.Fits limit) := by
  rw [step, step]
  split
  · refine .ok ((Reading.fits_of_empty rfl).trans ?_)
    rw [List.forall_mem_cons, OpenCall.fits_opened]
    rfl
  · rename_i hmode _ hcalls
    refine (limited_closeCall hwide).congr ?_ fun _ => Iff.rfl
    rw [Reading.fits_of_empty (hslot hmode), hcalls]
  · exact (limited_settle hwide).bind fun _ _ => limited_advance hwide

theorem limited_finish :
    Limited limit (r.Fits limit) (finish ⟨limit, position, last⟩ r)
      (finish ⟨wide, position, last⟩ r) (Formula.Fits limit) := by
  rw [finish, finish]
  split
  · exact .error _ _
  · refine (limited_settle hwide).bind fun q _ => ?_
    refine ((Yard.limited_finish hwide).beside (∀ c ∈ q.calls, c.Fits limit)).bind fun f _ => ?_
    cases q.calls with
    | nil => exact .ok (and_iff_left fun c hc => absurd hc List.not_mem_nil).symm
    | cons c calls => exact .error _ _

theorem limited_compile (hslot : r.mode = .slot → r.yard = {})
    {ts : List Token} : Limited limit (r.Fits limit) (compile ⟨limit, position, last⟩ r ts)
      (compile ⟨wide, position, last⟩ r ts) fun result => result.1.Fits limit := by
  induction ts generalizing r with
  | nil => exact (limited_finish hwide).bind fun _ _ => .ok Iff.rfl
  | cons t rest ih =>
    refine (limited_step hwide hslot).bind fun p hp => ?_
    cases p with
    | going q => exact ih (yard_of_slot (step_eq_ok.1 hp))
    | ended f => exact .ok Iff.rfl

end

end Scope

end Formulary
