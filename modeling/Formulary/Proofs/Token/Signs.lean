import Formulary.Proofs.Formula.Alternation
import Formulary.Proofs.Token.Matching
import Formulary.Proofs.Token.Spacing
import Mathlib

/-!
# Signs

A sign behind an operand is an operator. Anywhere else it belongs to the number right behind it,
and without a number there the text is rejected. Which of these it is can be seen from the last
character in front of the sign that is no space.
-/
namespace Formulary

def Decimal.Sign.operator : Decimal.Sign → BinaryOp
  | .plus => .add
  | .minus => .subtract

theorem Decimal.Sign.char_operator (s : Decimal.Sign) : s.operator.char = s.char := by
  cases s <;> rfl

namespace Token

open Decimal (Sign)

def Kind.awaitsOperand : Kind → Bool
  | operator _ | comma | paramOpen | groupOpen _ | equals => true
  | _ => false

theorem Kind.awaitsOperand_eq (k : Kind) : k.awaitsOperand = !k.endsOperand := by
  cases k <;> rfl

def leadingChars : List Char := ['+', '-', '*', '/', '^', ',', '=', '(', '[', '\x7b']

/-- No operand ends here: spaces apart, nothing stands in front, or one of these characters. -/
def Leading (front : List Char) : Prop :=
  ∀ c ∈ (front.reverse.dropWhile isSpace).head?, c ∈ leadingChars

section
variable {before : List Token}

theorem wantsOperand_some (k : Kind) : wantsOperand (some k) = k.awaitsOperand := by
  cases k <;> rfl

theorem wantsOperand_iff : wantsOperand (lastKind none before) = true ↔
    ∀ u ∈ before.getLast?, u.kind.awaitsOperand = true := by
  rw [lastKind, Option.or_none]
  cases before.getLast? with
  | none => simp [wantsOperand]
  | some u => simp [wantsOperand_some]

theorem wantsOperand_eq_false : wantsOperand (lastKind none before) = false ↔
    ∃ u ∈ before.getLast?, u.kind.endsOperand = true ∧ u.kind.awaitsOperand = false := by
  rw [lastKind, Option.or_none]
  cases before.getLast? with
  | none => simp [wantsOperand]
  | some u => simp [wantsOperand_some, Kind.awaitsOperand_eq]

end

section
variable {previous : Option Kind} {innermost : Option Enclosure} {p : Position} {c : Char}
  {rest text : List Char} {kind : Kind}

theorem lexeme_sign (s : Sign) : lexeme previous innermost p s.char rest =
    if wantsOperand previous then numeral p (s.char :: rest)
    else .ok (.operator s.operator, [s.char]) := by
  have hnumeral : startsNumeral s.char = false := by cases s <;> rfl
  have hidentifier : startsIdentifier s.char = false := by cases s <;> rfl
  have hchar : s.char = '+' ∨ s.char = '-' := by cases s <;> decide
  have hsingle : single previous innermost p s.char = some (.ok (.operator s.operator)) := by
    rw [single_eq_ok, ← s.char_operator]
    exact .operator _
  rw [lexeme, hsingle]
  cases wantsOperand previous with
  | true => simp [hchar]
  | false =>
    simp only [hnumeral, hidentifier, Bool.false_and, Bool.or_self, Bool.false_eq_true, ↓reduceIte]
    rfl

theorem number_of_numeral {cs : List Char} (h : numeral p cs = .ok (kind, text)) :
    ∃ value, kind = .number value := by
  rw [numeral] at h
  split at h
  · exact ⟨_, (Prod.mk.inj (Except.ok.inj h)).1.symm⟩
  · simp at h

theorem sign_of_lexeme {s : Sign}
    (h : lexeme previous innermost p s.char rest = .ok (kind, text)) :
    wantsOperand previous = true ∧ (∃ value, kind = .number value) ∨
      wantsOperand previous = false ∧ kind = .operator s.operator := by
  rw [lexeme_sign] at h
  split at h
  · rename_i hwants
    exact .inl ⟨hwants, number_of_numeral h⟩
  · rename_i hwants
    exact .inr ⟨Bool.eq_false_iff.2 hwants, (Prod.mk.inj (Except.ok.inj h)).1.symm⟩

theorem char_of_operator {op : BinaryOp}
    (h : lexeme previous innermost p c rest = .ok (.operator op, text)) : c = op.char := by
  cases lexes_of_lexeme h with
  | single hsingle =>
    cases single_eq_ok.1 hsingle
    rfl

end

section
variable {front gap : List Char} {c : Char}

theorem leading_append (hc : isSpace c = false) (hgap : ∀ d ∈ gap, isSpace d = true) :
    Leading (front ++ c :: gap) ↔ c ∈ leadingChars := by
  have hlast : ((front ++ c :: gap).reverse.dropWhile isSpace).head? = some c := by
    rw [List.reverse_append, List.reverse_cons, List.append_assoc,
      List.dropWhile_append_of_pos (by simpa using hgap)]
    simp [hc]
  rw [Leading, hlast]
  simp

theorem leading_of_spaces (h : ∀ c ∈ front, isSpace c = true) : Leading front := by
  have hnil : front.reverse.dropWhile isSpace = [] := by simpa using h
  simp [Leading, hnil]

theorem not_leading_of_continues (h : continuesIdentifier c = true) :
    isSpace c = false ∧ c ∉ leadingChars := by
  constructor
  · refine Bool.eq_false_iff.2 fun hspace => ?_
    rw [not_continuesIdentifier_of_isSpace hspace] at h
    exact Bool.false_ne_true h
  · intro hc
    simp only [leadingChars, List.mem_cons, List.not_mem_nil, or_false] at hc
    rcases hc with rfl | rfl | rfl | rfl | rfl | rfl | rfl | rfl | rfl | rfl
    all_goals exact absurd h (by decide)

theorem continuesIdentifier_of_isDigit (h : c.isDigit = true) : continuesIdentifier c = true := by
  simp [continuesIdentifier, Char.isAlphanum, h]

end

theorem Kind.Reads.last {kind : Kind} {text back : List Char} (h : kind.Reads text back) :
    ∃ init c, text = init ++ [c] ∧ isSpace c = false ∧
      (c ∈ leadingChars ↔ kind.awaitsOperand = true) := by
  obtain ⟨init, c, rfl⟩ := (List.eq_nil_or_concat' text).resolve_left h.ne_nil
  refine ⟨init, c, rfl, ?_⟩
  cases kind with
  | number value =>
    obtain ⟨n, hformed, hspelling, -⟩ := h.numeral
    have hc : isSpace c = false ∧ c ∉ leadingChars := by
      rcases hformed.last hspelling with hdigit | hc
      · exact not_leading_of_continues (continuesIdentifier_of_isDigit hdigit)
      · simp only [List.mem_cons, List.not_mem_nil, or_false] at hc
        rcases hc with rfl | rfl | rfl <;> decide
    exact ⟨hc.1, iff_of_false hc.2 Bool.false_ne_true⟩
  | identifier name =>
    have hmem : c ∈ init ++ [c] := List.mem_append_right _ List.mem_cons_self
    obtain ⟨hspace, hnot⟩ := not_leading_of_continues (h.continues hmem)
    exact ⟨hspace, iff_of_false hnot Bool.false_ne_true⟩
  | operator op =>
    obtain ⟨-, -, htext⟩ := eq_of_singleton h
    obtain rfl := String.singleton_inj.1 htext
    cases op <;> decide
  | groupOpen shape | groupClose shape =>
    obtain ⟨-, -, htext⟩ := eq_of_singleton h
    obtain rfl := String.singleton_inj.1 htext
    cases shape <;> decide
  | equals | comma | paramOpen | paramClose =>
    obtain ⟨-, -, htext⟩ := eq_of_singleton h
    have hc := congrArg String.toList htext
    simp only [Kind.text, String.toList_singleton] at hc
    cases hc
    decide

/-- The text in front ends, up to spaces, with what the last token reads. -/
def Behind : Option Kind → List Char → Prop
  | none, front => ∀ c ∈ front, isSpace c = true
  | some kind, front => ∃ outer text gap back, front = outer ++ (text ++ gap) ∧
      kind.Reads text back ∧ ∀ c ∈ gap, isSpace c = true

inductive LexedBehind (source : List Char) (previous : Option Kind) : Token → Prop
  | intro {front rest text back : List Char} {c : Char} {kind : Kind}
      {innermost : Option Enclosure} : source = front ++ c :: rest → c :: rest = text ++ back →
      Behind previous front →
      lexeme previous innermost (Position.after {} front) c rest = .ok (kind, text) →
      LexedBehind source previous ⟨kind, (Position.after {} front).spanOver text⟩

section
variable {previous : Option Kind} {front : List Char}

theorem Behind.space {c : Char} (h : Behind previous front) (hc : isSpace c = true) :
    Behind previous (front ++ [c]) := by
  cases previous with
  | none => exact List.forall_mem_append.2 ⟨h, List.forall_mem_singleton.2 hc⟩
  | some kind =>
    obtain ⟨outer, text, gap, back, rfl, hreads, hgap⟩ := h
    refine ⟨outer, text, gap ++ [c], back, by simp only [List.append_assoc], hreads, ?_⟩
    exact List.forall_mem_append.2 ⟨hgap, List.forall_mem_singleton.2 hc⟩

theorem behind_of_reads {kind : Kind} {text back : List Char} (h : kind.Reads text back) :
    Behind (some kind) (front ++ text) :=
  ⟨front, text, [], back, by rw [List.append_nil], h, fun c hc => absurd hc List.not_mem_nil⟩

theorem Behind.leading_iff (h : Behind previous front) :
    Leading front ↔ wantsOperand previous = true := by
  cases previous with
  | none => exact iff_of_true (leading_of_spaces h) rfl
  | some kind =>
    obtain ⟨outer, text, gap, back, rfl, hreads, hgap⟩ := h
    obtain ⟨init, c, rfl, hc, hlast⟩ := hreads.last
    rw [wantsOperand_some, ← hlast, List.append_assoc, ← List.append_assoc, List.singleton_append]
    exact leading_append hc hgap

theorem Passes.lexedBehind {opened left : List Opening} {p : Position} {cs : List Char}
    {before after : List Token} {t : Token}
    (h : Passes previous opened p cs (before ++ t :: after) left)
    (hp : p = Position.after {} front) (hfront : Behind previous front) :
    LexedBehind (front ++ cs) (lastKind previous before) t := by
  generalize hts : before ++ t :: after = ts at h
  induction h generalizing before front with
  | done => simp at hts
  | space hspace _ ih =>
    rw [List.append_cons]
    refine ih ?_ (hfront.space hspace) hts
    rw [hp, Position.after_concat]
  | @token previous opened left p c rest text kind ts _ hl _ ih =>
    obtain ⟨back, hcs, hne, hreads⟩ := (lexes_of_lexeme hl).reads
    subst hp
    cases before with
    | nil =>
      obtain ⟨rfl, -⟩ := List.cons.inj hts
      exact .intro rfl hcs hfront hl
    | cons u before =>
      obtain ⟨rfl, htail⟩ := List.cons.inj hts
      rw [drop_of_cons_eq hcs hne] at ih
      rw [lastKind_cons, hcs, ← List.append_assoc]
      exact ih (Position.after_append _ _ _).symm (behind_of_reads hreads) htail

end

theorem lexedBehind_of_scan {source : String} {before after : List Token} {t : Token}
    (h : scan source = .ok (before ++ t :: after)) :
    LexedBehind source.toList (lastKind none before) t := by
  have hnone : Behind none [] := fun c hc => absurd hc List.not_mem_nil
  exact (scans_of_scan h).passes.lexedBehind rfl hnone

structure Signed (source : String) (ts : List Token) : Prop where
  operator : ∀ (before after : List Token) (t : Token) (s : Sign), ts = before ++ t :: after →
    t.kind = .operator s.operator →
    ∃ u ∈ before.getLast?, u.kind.endsOperand = true ∧ u.kind.awaitsOperand = false
  number : ∀ (before after : List Token) (t : Token) (s : Sign) (rest : List Char),
    ts = before ++ t :: after → t.span.Covers source.toList (s.char :: rest) →
    ((∃ value, t.kind = .number value) ↔ ∀ u ∈ before.getLast?, u.kind.awaitsOperand = true)
  leading : ∀ (before after : List Token) (t : Token) (front text back : List Char),
    ts = before ++ t :: after → source.toList = front ++ (text ++ back) →
    t.span = (Position.after {} front).spanOver text →
    (Leading front ↔ ∀ u ∈ before.getLast?, u.kind.awaitsOperand = true)

theorem signed_of_scan {source : String} {ts : List Token} (h : scan source = .ok ts) :
    Signed source ts where
  operator := by
    intro before after t s hts hk
    subst hts
    rw [← wantsOperand_eq_false]
    cases lexedBehind_of_scan h with
    | intro _ _ _ hl =>
      obtain rfl : _ = Kind.operator s.operator := hk
      obtain rfl := char_of_operator hl
      rw [s.char_operator] at hl
      rcases sign_of_lexeme hl with ⟨-, value, hvalue⟩ | ⟨hwants, -⟩
      · cases hvalue
      · exact hwants
  number := by
    intro before after t s rest hts hcovers
    subst hts
    rw [← wantsOperand_iff]
    obtain ⟨front, back, hsource, hspan⟩ := hcovers
    cases lexedBehind_of_scan h with
    | intro hsource' hcs _ hl =>
      rw [hsource', hcs] at hsource
      obtain ⟨-, rfl, -⟩ := spanOver_inj hsource hspan
      obtain ⟨rfl, -⟩ := List.cons.inj hcs
      rcases sign_of_lexeme hl with ⟨hwants, hvalue⟩ | ⟨hwants, rfl⟩
      · exact iff_of_true hvalue hwants
      · exact iff_of_false (by simp) (Bool.eq_false_iff.1 hwants)
  leading := by
    intro before after t front text back hts hsource hspan
    subst hts
    rw [← wantsOperand_iff]
    cases lexedBehind_of_scan h with
    | intro hsource' hcs hbehind _ =>
      rw [hsource', hcs] at hsource
      obtain ⟨rfl, -⟩ := spanOver_inj hsource hspan
      exact hbehind.leading_iff

theorem Kind.Reads.sign {kind : Kind} {s : Sign} {a b back : List Char}
    (h : kind.Reads (a ++ s.char :: b) back) :
    kind = .operator s.operator ∧ a = [] ∨ a = [] ∧ Decimal.Numeral.StartsUnsigned (b ++ back) ∨
      ∃ front mark, a = front ++ [mark] ∧ (mark = 'e' ∨ mark = 'E') := by
  cases kind with
  | number value =>
    obtain ⟨n, hformed, hspelling, hends⟩ := h.numeral
    right
    rcases hformed.sign hspelling with ⟨rfl, -, rfl⟩ | ⟨e, he, front, rfl, -⟩
    · exact .inl ⟨rfl, n.unsigned, back, rfl, rfl, hformed.unsigned, hends⟩
    · exact .inr ⟨front, e.mark, rfl, (hformed.exponent e he).mark⟩
  | identifier name =>
    have hmem : s.char ∈ a ++ s.char :: b := List.mem_append_right _ List.mem_cons_self
    have hcontinues := h.continues hmem
    cases s <;> exact absurd hcontinues (by decide)
  | operator op =>
    obtain ⟨ha, -, hop⟩ := eq_of_singleton h
    have hchar : op.char = s.operator.char := by
      rw [s.char_operator]
      exact String.singleton_inj.1 hop
    have hsome := BinaryOp.ofChar?_char op
    rw [hchar, BinaryOp.ofChar?_char] at hsome
    exact .inl ⟨congrArg Kind.operator (Option.some.inj hsome).symm, ha⟩
  | groupOpen shape | groupClose shape =>
    obtain ⟨-, -, hshape⟩ := eq_of_singleton h
    cases shape <;> cases s <;> exact absurd hshape (by decide)
  | equals | comma | paramOpen | paramClose =>
    obtain ⟨-, -, htext⟩ := eq_of_singleton h
    cases s <;> exact absurd htext (by decide)

theorem not_leading_of_mark {front : List Char} {mark : Char} (h : mark = 'e' ∨ mark = 'E') :
    ¬ Leading (front ++ [mark]) := by
  have hmark : continuesIdentifier mark = true := by rcases h with rfl | rfl <;> decide
  obtain ⟨hspace, hnot⟩ := not_leading_of_continues hmark
  rw [leading_append hspace fun d hd => absurd hd List.not_mem_nil]
  exact hnot

theorem startsUnsigned_of_leading {source : String} {ts : List Token} (h : scan source = .ok ts)
    {front back : List Char} {s : Sign} (hsource : source.toList = front ++ s.char :: back)
    (hleading : Leading front) : Decimal.Numeral.StartsUnsigned back := by
  have hspace : isSpace s.char = false := by cases s <;> decide
  obtain ⟨before, t, after, outer, x, y, rest, rfl, hfront, rfl, hspan, hreads⟩ :=
    (tiles_of_scan h).reads hsource hspace
  rw [List.nil_append] at hfront
  subst hfront
  rcases hreads.sign with ⟨hk, rfl⟩ | ⟨-, hstarts⟩ | ⟨init, mark, rfl, hmark⟩
  · have hsigned := signed_of_scan h
    obtain ⟨u, hu, -, hnot⟩ := hsigned.operator _ _ _ _ rfl hk
    rw [List.append_nil] at hsource hleading
    have hawaits := (hsigned.leading _ _ _ _ _ _ rfl hsource hspan).1 hleading u hu
    rw [hnot] at hawaits
    exact absurd hawaits Bool.false_ne_true
  · exact hstarts
  · rw [← List.append_assoc] at hleading
    exact absurd hleading (not_leading_of_mark hmark)

/-- A sign belongs to a number exactly where no operand stands in front of it. Where none does and
no number stands right behind the sign either, the text is rejected. -/
theorem signs_of_scan (source : String) :
    (∀ ts, scan source = .ok ts → Signed source ts) ∧
    ∀ (front back : List Char) (s : Sign), source.toList = front ++ s.char :: back →
      Leading front → ¬ Decimal.Numeral.StartsUnsigned back → ∃ r, scan source = .error r := by
  refine ⟨fun ts h => signed_of_scan h, fun front back s hsource hleading hback => ?_⟩
  cases hscan : scan source with
  | error r => exact ⟨r, rfl⟩
  | ok ts =>
    exact absurd (startsUnsigned_of_leading hscan hsource hleading) hback

theorem signs_of_scan_roles :
    (∃ ts value, scan "x-+.5e-1" = .ok ts ∧ Signed "x-+.5e-1" ts ∧
      ts.map (·.kind) = [.identifier "x", .operator .subtract, .number value]) ∧
    Leading ['y', '*'] ∧ ∃ r, scan "y*-x" = .error r := by
  let n : Decimal.Numeral := ⟨some .plus, [], some ['5'], some ⟨'e', some .minus, ['1']⟩⟩
  have hname : lexeme none none {} 'x' ['-', '+', '.', '5', 'e', '-', '1'] =
      .ok (.identifier "x", ['x']) := by cbv
  have hoperator (p : Position) : lexeme (some (.identifier "x")) none p '-'
      ['+', '.', '5', 'e', '-', '1'] = .ok (.operator .subtract, ['-']) := rfl
  have hnumber (p : Position) : lexeme (some (.operator .subtract)) none p '+'
      ['.', '5', 'e', '-', '1'] = .ok (.number n.value, '+' :: ['.', '5', 'e', '-', '1']) := rfl
  have hscans : Scans none [] {} ['x', '-', '+', '.', '5', 'e', '-', '1'] _ :=
    .token rfl hname (.token rfl (hoperator _) (.token rfl (hnumber _) .done))
  have hscan : scan "x-+.5e-1" = .ok _ := scanFrom_eq_ok.2 hscans
  have hleading : Leading ['y', '*'] := by simp [Leading, leadingChars, isSpace]
  have hnone : ¬ Decimal.Numeral.StartsUnsigned ['x'] := by
    intro hstarts
    obtain ⟨m, left, hcs, -, hformed, hends⟩ := hstarts
    have hread := Decimal.Numeral.read?_iff.2 ⟨hcs, hformed, hends⟩
    have hnothing : Decimal.Numeral.read? ['x'] = none := by decide
    rw [hnothing] at hread
    cases hread
  exact ⟨⟨_, _, hscan, (signs_of_scan _).1 _ hscan, rfl⟩, hleading,
    (signs_of_scan "y*-x").2 ['y', '*'] ['x'] .minus rfl hleading hnone⟩

end Token

end Formulary
