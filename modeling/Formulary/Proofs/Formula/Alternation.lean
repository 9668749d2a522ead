import Formulary.Proofs.Formula.Balance
import Formulary.Proofs.Formula.Compiled
import Mathlib

/-!
# Operands and operators

In an expression operands and operators take turns, at every level of brackets, and an
operand stands at both ends. The compiler only counts values, so an operand too many in
one place makes up for one that is missing in another, and some lines compile that are no
expressions. Where no operand stands right behind another one there is none too many, so
none is missing either.
-/
namespace Formulary

inductive Part where
  | expression
  | operand
  | arguments

/-- A comma behind the last argument of a call opens no further one. -/
inductive Alternates : Part → List Token → Prop
  | single {ts : List Token} : Alternates .operand ts → Alternates .expression ts
  | join {op : BinaryOp} {ts us : List Token} {sign : Token} : sign.kind = .operator op →
      Alternates .expression ts → Alternates .operand us →
      Alternates .expression (ts ++ sign :: us)
  | number {value : Float} {t : Token} : t.kind = .number value → Alternates .operand [t]
  | name {name : String} {t : Token} : t.kind = .identifier name → Alternates .operand [t]
  | call {name : String} {ts : List Token} {t start stop : Token} : t.kind = .identifier name →
      start.kind = .paramOpen → stop.kind = .paramClose → Alternates .arguments ts →
      Alternates .operand (t :: start :: ts ++ [stop])
  | group {ts : List Token} {start stop : Token} {opened closed : Bracket} :
      start.kind = .groupOpen opened → stop.kind = .groupClose closed →
      Alternates .expression ts → Alternates .operand (start :: ts ++ [stop])
  | none : Alternates .arguments []
  | last {ts : List Token} : Alternates .expression ts → Alternates .arguments ts
  | comma {ts us : List Token} {separator : Token} : separator.kind = .comma →
      Alternates .expression ts → Alternates .arguments us →
      Alternates .arguments (ts ++ separator :: us)

namespace Token.Kind

def startsOperand : Kind → Bool
  | number _ | identifier _ | groupOpen _ => true
  | _ => false

def endsOperand : Kind → Bool
  | number _ | identifier _ | paramClose | groupClose _ => true
  | _ => false

end Token.Kind

def Apart (ts : List Token) : Prop :=
  ts.IsChain fun t u => ¬ (t.kind.endsOperand = true ∧ u.kind.startsOperand = true)

theorem Apart.cons {t : Token} {ts : List Token} (h : Apart ts) (ht : t.kind.endsOperand = false) :
    Apart (t :: ts) := by
  refine List.isChain_cons.2 ⟨fun u _ hu => ?_, h⟩
  rw [ht] at hu
  exact absurd hu.1 Bool.false_ne_true

theorem Apart.append_cons {t : Token} {ts us : List Token} (h : Apart ts) (hu : Apart (t :: us))
    (ht : t.kind.startsOperand = false) : Apart (ts ++ t :: us) := by
  refine List.isChain_append.2 ⟨h, hu, fun s _ v hv hs => ?_⟩
  obtain rfl : t = v := by simpa using hv
  rw [ht] at hs
  exact absurd hs.2 Bool.false_ne_true

theorem Alternates.apart {part : Part} {ts : List Token} (h : Alternates part ts) : Apart ts := by
  induction h with
  | single _ ih => exact ih
  | join hsign _ _ ih ihu =>
    exact ih.append_cons (ihu.cons (by rw [hsign]; rfl)) (by rw [hsign]; rfl)
  | number _ => exact List.isChain_singleton _
  | name _ => exact List.isChain_singleton _
  | call ht hstart hstop _ ih =>
    have hclosed := ih.append_cons (List.isChain_singleton _) (by rw [hstop]; rfl)
    have hopened := hclosed.cons (by rw [hstart]; rfl)
    refine List.isChain_cons_cons.2 ⟨fun hboth => ?_, hopened⟩
    rw [hstart] at hboth
    exact Bool.false_ne_true hboth.2
  | group hstart hstop _ ih =>
    have hclosed := ih.append_cons (List.isChain_singleton _) (by rw [hstop]; rfl)
    exact hclosed.cons (by rw [hstart]; rfl)
  | none => exact List.isChain_nil
  | last _ ih => exact ih
  | comma hsep _ _ ih ihu =>
    exact ih.append_cons (ihu.cons (by rw [hsep]; rfl)) (by rw [hsep]; rfl)

inductive Awaits : List Token → Prop
  | nothing : Awaits []
  | operator {op : BinaryOp} {ts : List Token} {sign : Token} : sign.kind = .operator op →
      Alternates .expression ts → Awaits (ts ++ [sign])

theorem Awaits.operand {ts us : List Token} (h : Awaits ts) (hu : Alternates .operand us) :
    Alternates .expression (ts ++ us) := by
  cases h with
  | nothing => exact .single hu
  | operator hsign hts =>
    rw [List.append_assoc]
    exact .join hsign hts hu

/-- What stands before the innermost bracket that is open, and that bracket. The formula
counts as one of its groups. -/
inductive Encloses : Nat → List Token → Prop
  | formula : Encloses 1 []
  | group {groups : Nat} {around ts : List Token} {start : Token} {shape : Bracket} :
      start.kind = .groupOpen shape → Encloses groups around → Awaits ts →
      Encloses (groups + 1) (around ++ ts ++ [start])

/-- A formula that is right so far: with so many groups open, an operand is wanted next or
stands there already. -/
inductive Begun : Nat → Bool → List Token → Prop
  | wanting {groups : Nat} {around ts : List Token} : Encloses groups around → Awaits ts →
      Begun groups true (around ++ ts)
  | standing {groups : Nat} {around ts : List Token} : Encloses groups around →
      Alternates .expression ts → Begun groups false (around ++ ts)

namespace Begun

variable {groups : Nat} {ts : List Token} {t : Token}

theorem operand {us : List Token} (h : Begun groups true ts) (hu : Alternates .operand us) :
    Begun groups false (ts ++ us) := by
  cases h with
  | wanting haround hts =>
    rw [List.append_assoc]
    exact .standing haround (hts.operand hu)

theorem operator {op : BinaryOp} (h : Begun groups false ts) (ht : t.kind = .operator op) :
    Begun groups true (ts ++ [t]) := by
  cases h with
  | standing haround hts =>
    rw [List.append_assoc]
    exact .wanting haround (.operator ht hts)

theorem openGroup {shape : Bracket} (h : Begun groups true ts) (ht : t.kind = .groupOpen shape) :
    Begun (groups + 1) true (ts ++ [t]) := by
  cases h with
  | wanting haround hts =>
    rw [← List.append_nil (_ ++ [t])]
    exact .wanting (.group ht haround hts) .nothing

theorem closeGroup {shape : Bracket} (h : Begun (groups + 1) false ts) (hpos : groups ≠ 0)
    (ht : t.kind = .groupClose shape) : Begun groups false (ts ++ [t]) := by
  cases h with
  | standing haround hts =>
    cases haround with
    | formula => exact absurd rfl hpos
    | @group _ around before start _ hstart haround hbefore =>
      have hall := Begun.standing haround (hbefore.operand (.group hstart ht hts))
      simpa only [List.append_assoc, List.cons_append, List.nil_append] using hall

theorem expression (h : Begun 1 false ts) : Alternates .expression ts := by
  generalize hgroups : 1 = groups at h
  cases h with
  | standing haround hts =>
    cases haround with
    | formula => exact hts
    | group _ haround =>
      obtain rfl : _ = 0 := (Nat.succ.inj hgroups).symm
      nomatch haround

end Begun

namespace Yard

variable {limit : Nat} {s : Span} {y y' : Yard}

def Grounded (pending : List Pending) : Prop := pending.getLast? = some .group

theorem Grounded.of_suffix {rest pending : List Pending} (hrest : Grounded rest)
    (h : rest <:+ pending) : Grounded pending := by
  obtain ⟨before, rfl⟩ := h
  rw [Grounded, List.getLast?_append, hrest]
  rfl

theorem Grounded.of_cons {top : Pending} {rest : List Pending} (h : Grounded (top :: rest))
    (hne : top ≠ .group ∨ rest ≠ []) : Grounded rest := by
  cases rest with
  | nil => simp_all [Grounded]
  | cons next rest => exact h

/-- The values that a formula should come to: one, but none where an operand is wanted. -/
def due : Bool → Int
  | true => 0
  | false => 1

/-- The tokens of one formula that were read are right so far, or the formula cannot end any
more: it was closed too early, or an operand is missing in it. -/
inductive Fares (y : Yard) (wants : Bool) (ts : List Token) : Prop
  | closed : ¬ Grounded y.pending → (wants = true → y.pending ≠ []) → Fares y wants ts
  | short : y.balance < due wants → Fares y wants ts
  | right : y.balance = due wants → Begun y.groups wants ts → Fares y wants ts

namespace Fares

variable {ts : List Token} {t : Token}

theorem start : Fares {} true [] := by
  refine .right rfl ?_
  exact Begun.wanting .formula .nothing

theorem operand {n : Node} {us : List Token} (h : Fares y true ts)
    (ho : y.operand limit n s = .ok y') (hu : Alternates .operand us) :
    Fares y' false (ts ++ us) := by
  obtain ⟨hpending, hbalance⟩ := operand_balance ho
  cases h with
  | closed hground _ =>
    apply Fares.closed
    · rw [hpending]
      exact hground
    · exact fun hw => absurd hw Bool.false_ne_true
  | short hlt =>
    apply Fares.short
    simp only [due] at hlt ⊢
    omega
  | right heq hbegun =>
    apply Fares.right
    · simp only [due] at heq ⊢
      omega
    · rw [groups, hpending]
      exact hbegun.operand hu

theorem operator {wants : Bool} {op : BinaryOp} (h : Fares y wants ts)
    (ho : y.operator limit op s = .ok y') (ht : t.kind = .operator op) :
    Fares y' true (ts ++ [t]) := by
  obtain ⟨⟨rest, hpending, hsuffix⟩, hgroups, hbalance⟩ := operator_balance ho
  cases h with
  | closed hground _ =>
    apply Fares.closed
    · rw [hpending]
      intro hg
      exact hground ((hg.of_cons (.inl (by simp))).of_suffix hsuffix)
    · rw [hpending]
      exact fun _ => List.cons_ne_nil _ _
  | short hlt =>
    apply Fares.short
    cases wants <;> simp only [due] at hlt ⊢ <;> omega
  | right heq hbegun =>
    cases wants with
    | true =>
      apply Fares.short
      simp only [due] at heq ⊢
      omega
    | false =>
      apply Fares.right
      · simp only [due] at heq ⊢
        omega
      · rw [hgroups]
        exact hbegun.operator ht

theorem openGroup {shape : Bracket} (h : Fares y true ts) (ht : t.kind = .groupOpen shape) :
    Fares y.openGroup true (ts ++ [t]) := by
  have hbalance : y.openGroup.balance = y.balance := by simp [balance, waiting, Yard.openGroup]
  have hgroups : y.openGroup.groups = y.groups + 1 := by simp [groups, Yard.openGroup]
  cases h with
  | closed hground hne =>
    apply Fares.closed
    · exact fun hg => hground (hg.of_cons (.inr (hne rfl)))
    · exact fun _ => List.cons_ne_nil _ _
  | short hlt =>
    apply Fares.short
    rw [hbalance]
    exact hlt
  | right heq hbegun =>
    apply Fares.right
    · rw [hbalance]
      exact heq
    · rw [hgroups]
      exact hbegun.openGroup ht

theorem closeGroup {wants : Bool} {shape : Bracket} (h : Fares y wants ts)
    (hc : y.closeGroup limit s = .ok y') (ht : t.kind = .groupClose shape) :
    Fares y' false (ts ++ [t]) := by
  obtain ⟨hsuffix, hgroups, hbalance⟩ := closeGroup_balance hc
  cases h with
  | closed hground _ =>
    apply Fares.closed
    · intro hg
      exact hground ((hg.of_suffix (List.suffix_cons _ _)).of_suffix hsuffix)
    · exact fun hw => absurd hw Bool.false_ne_true
  | short hlt =>
    apply Fares.short
    rw [hbalance]
    cases wants <;> simp only [due] at hlt ⊢ <;> omega
  | right heq hbegun =>
    cases wants with
    | true =>
      -- The group ends where an operand is wanted.
      apply Fares.short
      simp only [due] at heq ⊢
      omega
    | false =>
      rw [hgroups] at hbegun
      by_cases hzero : y'.groups = 0
      · apply Fares.closed
        · intro hg
          exact List.count_eq_zero.1 hzero (List.mem_of_getLast? hg)
        · exact fun hw => absurd hw Bool.false_ne_true
      · exact .right (hbalance.trans heq) (hbegun.closeGroup hzero ht)

theorem finish {wants : Bool} {f : Formula} (h : Fares y wants ts)
    (hf : y.finish limit s = .ok f) : Alternates .expression ts := by
  obtain ⟨nodes, hc, -⟩ := finish_eq_ok.1 hf
  obtain ⟨hsuffix, hgroups, hbalance⟩ := closeGroup_balance hc
  have hone : y.balance = 1 := hbalance.symm
  cases h with
  | closed hground _ =>
    have hlast : Grounded [.group] := rfl
    exact absurd (hlast.of_suffix hsuffix) hground
  | short hlt => cases wants <;> simp only [due] at hlt <;> omega
  | right heq hbegun =>
    cases wants with
    | true =>
      simp only [due] at heq
      omega
    | false =>
      rw [hgroups] at hbegun
      exact hbegun.expression

end Fares

end Yard

def Leads (ts : List Token) : Prop :=
  ∀ us, Alternates .arguments us → Alternates .arguments (ts ++ us)

theorem Leads.nil : Leads [] := fun _ hu => hu

theorem Leads.comma {lead ts : List Token} {separator : Token} (h : Leads lead)
    (hts : Alternates .expression ts) (hsep : separator.kind = .comma) :
    Leads (lead ++ ts ++ [separator]) := by
  intro us hu
  have hmore := h _ (.comma hsep hts hu)
  simpa only [List.append_assoc, List.singleton_append] using hmore

inductive Within : List OpenCall → Yard → Bool → List Token → Prop
  | line {y : Yard} {wants : Bool} {ts : List Token} : y.Fares wants ts → Within [] y wants ts
  | call {c : OpenCall} {calls : List OpenCall} {y : Yard} {wants : Bool}
      {before lead ts : List Token} {t start : Token} : t.kind = .identifier c.name →
      start.kind = .paramOpen → Within calls c.outer true before → Leads lead →
      y.Fares wants ts → Within (c :: calls) y wants (before ++ t :: start :: (lead ++ ts))

theorem Within.append {calls : List OpenCall} {y y' : Yard} {wants wants' : Bool}
    {read more : List Token} (h : Within calls y wants read)
    (hfares : ∀ ts, y.Fares wants ts → y'.Fares wants' (ts ++ more)) :
    Within calls y' wants' (read ++ more) := by
  cases h with
  | line hy => exact .line (hfares _ hy)
  | call ht hstart houter hlead hy =>
    have hall := Within.call ht hstart houter hlead (hfares _ hy)
    simpa only [List.append_assoc, List.cons_append] using hall

def wantsOperand (read : List Token) : Bool := read.getLast?.all fun t => !t.kind.endsOperand

theorem wantsOperand_concat (read : List Token) (t : Token) :
    wantsOperand (read ++ [t]) = !t.kind.endsOperand := by
  simp [wantsOperand]

theorem Apart.wantsOperand {read : List Token} {t : Token} (h : Apart (read ++ [t]))
    (ht : t.kind.startsOperand = true) : wantsOperand read = true := by
  obtain ⟨-, -, hlast⟩ := List.isChain_append.1 h
  cases hr : read.getLast? with
  | none => simp [Formulary.wantsOperand, hr]
  | some u =>
    have hu := hlast u hr t rfl
    simpa [Formulary.wantsOperand, hr, ht] using hu

inductive Tracks : Reading → List Token → Prop
  | settled {calls : List OpenCall} {y : Yard} {read : List Token} :
      Within calls y (wantsOperand read) read → Tracks ⟨calls, y, .settled⟩ read
  | named {calls : List OpenCall} {y : Yard} {name : String} {span : Span} {before : List Token}
      {t : Token} : t.kind = .identifier name → Within calls y true before →
      Tracks ⟨calls, y, .named name span⟩ (before ++ [t])
  | slot {c : OpenCall} {calls : List OpenCall} {before lead : List Token} {t start : Token} :
      t.kind = .identifier c.name → start.kind = .paramOpen → Within calls c.outer true before →
      Leads lead → wantsOperand (start :: lead) = true →
      Tracks ⟨c :: calls, {}, .slot⟩ (before ++ t :: start :: lead)

namespace Scope

variable {s : Scope} {r q : Reading} {calls : List OpenCall} {y : Yard} {read : List Token}
  {t : Token}

theorem within_of_settle (h : Tracks r read) (hq : s.settle r = .ok q) :
    ∃ y, q = ⟨r.calls, y, .settled⟩ ∧ Within r.calls y (wantsOperand read) read := by
  cases h with
  | settled hw =>
    obtain rfl := Except.ok.inj hq
    exact ⟨_, rfl, hw⟩
  | named ht hw =>
    obtain ⟨y, hy, hq⟩ := bind_eq_ok.1 hq
    obtain rfl := pure_eq_ok.1 hq
    refine ⟨y, rfl, ?_⟩
    rw [wantsOperand_concat, ht]
    exact hw.append fun _ hf => hf.operand hy (.name ht)
  | slot ht hstart hw hlead hwants =>
    obtain rfl := Except.ok.inj hq
    refine ⟨_, rfl, ?_⟩
    rename_i c calls before lead t start
    have hlast : wantsOperand (before ++ t :: start :: lead) = wantsOperand (start :: lead) := by
      simp [wantsOperand, List.getLast?_append, List.getLast?_cons]
    rw [hlast, hwants, ← List.append_nil lead]
    exact .call ht hstart hw hlead .start

theorem tracks_of_advances (h : Within calls y (wantsOperand read) read)
    (hapart : Apart (read ++ [t])) (ha : Advances s ⟨calls, y, .settled⟩ t (.going q)) :
    Tracks q (read ++ [t]) := by
  cases ha with
  | number hk hy =>
    rw [hapart.wantsOperand (by rw [hk]; rfl)] at h
    apply Tracks.settled
    rw [wantsOperand_concat, hk]
    exact h.append fun _ hf => hf.operand hy (.number hk)
  | name hk =>
    rw [hapart.wantsOperand (by rw [hk]; rfl)] at h
    exact .named hk h
  | operator hk hy =>
    apply Tracks.settled
    rw [wantsOperand_concat, hk]
    exact h.append fun _ hf => hf.operator hy hk
  | openGroup hk =>
    rw [hapart.wantsOperand (by rw [hk]; rfl)] at h
    apply Tracks.settled
    rw [wantsOperand_concat, hk]
    exact h.append fun _ hf => hf.openGroup hk
  | closeGroup hk hy =>
    apply Tracks.settled
    rw [wantsOperand_concat, hk]
    exact h.append fun _ hf => hf.closeGroup hy hk
  | @argument f _ _ hk hf hc =>
    cases h with
    | line _ => simp at hc
    | @call c _ _ _ before lead ts _ start ht hstart houter hlead hy =>
      obtain ⟨rfl, rfl⟩ := List.cons.inj hc
      have hmore := hlead.comma (hy.finish hf) hk
      have hwants : wantsOperand (start :: (lead ++ ts ++ [t])) = true := by
        rw [← List.cons_append, wantsOperand_concat, hk]
        rfl
      have hall := Tracks.slot (c := { c with args := c.args ++ [f] }) ht hstart houter hmore hwants
      simpa only [List.append_assoc, List.cons_append] using hall
  | closeCall hk hf hc hy =>
    cases h with
    | line _ => simp at hc
    | call ht hstart houter hlead hinner =>
      obtain ⟨rfl, rfl⟩ := List.cons.inj hc
      have hcall := Alternates.call ht hstart hk (hlead _ (.last (hinner.finish hf)))
      apply Tracks.settled
      rw [wantsOperand_concat, hk]
      change Within _ _ false _
      have hall := houter.append fun _ hf => hf.operand hy hcall
      simpa only [List.append_assoc, List.cons_append] using hall

theorem tracks_of_moves (h : Tracks r read) (hapart : Apart (read ++ [t]))
    (hm : Moves s r t (.going q)) : Tracks q (read ++ [t]) := by
  cases hm with
  | openCall hmode hk =>
    cases h with
    | settled => simp at hmode
    | slot => simp at hmode
    | named ht hw =>
      obtain ⟨rfl, rfl⟩ := Mode.named.inj hmode
      have hwants : wantsOperand [t] = true := by simp [wantsOperand, hk, Token.Kind.endsOperand]
      rw [List.append_assoc]
      exact .slot ht hk hw .nil hwants
  | closeCall hmode hk hc hy =>
    cases h with
    | settled => simp at hmode
    | named => simp at hmode
    | slot ht hstart hw hlead _ =>
      obtain ⟨rfl, rfl⟩ := List.cons.inj hc
      have hcall := Alternates.call ht hstart hk (hlead _ .none)
      apply Tracks.settled
      rw [wantsOperand_concat, hk]
      change Within _ _ false _
      have hall := hw.append fun _ hf => hf.operand hy hcall
      simpa only [List.append_assoc, List.cons_append, List.append_nil] using hall
  | advance _ hq ha =>
    obtain ⟨y, rfl, hw⟩ := within_of_settle h hq
    exact tracks_of_advances hw hapart ha

theorem alternates_of_finish {f : Formula} {span : Span} (h : Within calls y (wantsOperand read) read)
    (hc : calls = []) (hf : y.finish s.limit span = .ok f) : Alternates .expression read := by
  cases h with
  | line hy => exact hy.finish hf
  | call => simp at hc

theorem alternates_of_compile {ts rest : List Token} {f : Formula}
    (h : s.compile {} ts = .ok (f, rest)) :
    ∃ read, ts = read ++ rest ∧ (Apart read → Alternates .expression read) := by
  have hstart : Apart [] → Tracks {} [] := fun _ => .settled (.line .start)
  refine compile_trace (P := fun read r => Apart read → Tracks r read)
    (Q := fun read _ => Apart read → Alternates .expression read) ?_ ?_ ?_ [] hstart h
  · intro read r t q hr hm hapart
    exact tracks_of_moves (hr (List.isChain_append.1 hapart).1) hapart hm
  · intro read r t f hr hm hapart
    cases hm with
    | advance _ hq ha =>
      obtain ⟨y, rfl, hw⟩ := within_of_settle (hr hapart) hq
      cases ha with
      | ends _ hf hc => exact alternates_of_finish hw hc hf
  · intro read r f hr hf hapart
    obtain ⟨-, q, hq, hf, hc⟩ := finish_eq_ok.1 hf
    obtain ⟨y, rfl, hw⟩ := within_of_settle (hr hapart) hq
    exact alternates_of_finish hw hc hf

end Scope

namespace Equation

/-- A line that compiles is made of operands and operators in turn exactly when no operand
stands right behind another one. -/
theorem alternates_iff_apart {limit : Nat} {source : String} {e : Equation}
    (h : compile limit source = .ok e) :
    ∃ tokens signature body, Token.scan source = .ok tokens ∧
      Signature.read tokens = .ok (signature, body) ∧
      (Alternates .expression body ↔ Apart body) := by
  obtain ⟨tokens, signature, body, last, hscan, hread, -, hcompile, -, -⟩ := compile_eq_ok h
  refine ⟨tokens, signature, body, hscan, hread, Alternates.apart, ?_⟩
  obtain ⟨read, hbody, halternates⟩ := Scope.alternates_of_compile hcompile
  rw [List.append_nil] at hbody
  rw [hbody]
  exact halternates

def product : Equation :=
  ⟨"", [], .ofNodes [.coordinate 0, .coordinate 1, .operator (.binary .multiply)]⟩

theorem alternates_iff_apart_product :
    compile 100 "x * y" = .ok product ∧
      ∃ body, Token.scan "x * y" = .ok body ∧ Alternates .expression body := by
  have hline : compile 100 "x * y" = .ok product := by cbv
  have hscan : Token.scan "x * y" = .ok [⟨.identifier "x", ⟨0, 1, 1, 1⟩⟩,
      ⟨.operator .multiply, ⟨2, 3, 1, 3⟩⟩, ⟨.identifier "y", ⟨4, 5, 1, 5⟩⟩] := by cbv
  obtain ⟨tokens, signature, body, htokens, hread, hiff⟩ := alternates_iff_apart hline
  obtain rfl := Except.ok.inj (hscan.symm.trans htokens)
  obtain ⟨-, rfl⟩ := Prod.mk.inj (Except.ok.inj hread)
  refine ⟨hline, _, hscan, hiff.2 ?_⟩
  unfold Apart
  decide

def Unordered (line : String) : Prop :=
  ∃ e tokens, compile 100 line = .ok e ∧ Token.scan line = .ok tokens ∧
    Signature.read tokens = .ok ({}, tokens) ∧ ¬ Alternates .expression tokens

theorem compile_unordered : Unordered "x y *" ∧ Unordered "* x y" ∧ Unordered "() x" := by
  refine ⟨⟨product, [⟨.identifier "x", ⟨0, 1, 1, 1⟩⟩, ⟨.identifier "y", ⟨2, 3, 1, 3⟩⟩,
      ⟨.operator .multiply, ⟨4, 5, 1, 5⟩⟩], by cbv, by cbv, by cbv, fun h => ?_⟩,
    ⟨product, [⟨.operator .multiply, ⟨0, 1, 1, 1⟩⟩, ⟨.identifier "x", ⟨2, 3, 1, 3⟩⟩,
      ⟨.identifier "y", ⟨4, 5, 1, 5⟩⟩], by cbv, by cbv, by cbv, fun h => ?_⟩,
    ⟨⟨"", [], .ofNodes [.coordinate 0]⟩, [⟨.groupOpen .round, ⟨0, 1, 1, 1⟩⟩,
      ⟨.groupClose .round, ⟨1, 2, 1, 2⟩⟩, ⟨.identifier "x", ⟨3, 4, 1, 4⟩⟩], by cbv, by cbv,
      by cbv, fun h => ?_⟩⟩
  all_goals exact absurd h.apart (by unfold Apart; decide)

end Equation

end Formulary
