import Formulary.Proofs.Outcome
import Formulary.Token.Scan

/-!
# Scans, lexeme by lexeme

A scan passes over a space or takes a lexeme, until no character is left. It gives its
tokens when every lexeme is one and no bracket is open at the end; otherwise it is
rejected where it stopped.
-/
namespace Formulary

def Fault.Lexical : Fault → Prop
  | .unknownCharacter _ | .unreadableNumber _ | .strayClosing _ | .closesParameterList _
  | .bracketLeftOpen => True
  | _ => False

def Rejection.Shows (P : Span → Prop) (r : Rejection) : Prop := ∃ s, r.place = .span s ∧ P s

namespace Token

/-- A numeral and an identifier may be longer than a character; all else is one. -/
inductive Lexes (previous : Option Kind) (innermost : Option Enclosure) (p : Position) (c : Char)
    (rest : List Char) : Kind → List Char → Prop
  | numeral {n : Decimal.Numeral} {left : List Char} :
      Decimal.Numeral.read? (c :: rest) = some (n, left) →
      Lexes previous innermost p c rest (.number n.value) n.spelling
  | identifier : startsIdentifier c = true →
      Lexes previous innermost p c rest
        (.identifier (String.ofList (c :: rest.takeWhile continuesIdentifier)))
        (c :: rest.takeWhile continuesIdentifier)
  | single {kind : Kind} : single previous innermost p c = some (.ok kind) →
      Lexes previous innermost p c rest kind [c]

inductive Singles (previous : Option Kind) (innermost : Option Enclosure) : Char → Kind → Prop
  | comma : Singles previous innermost ',' .comma
  | equals : Singles previous innermost '=' .equals
  | operator (op : BinaryOp) : Singles previous innermost op.char (.operator op)
  | openParameters : followsIdentifier previous = true → Singles previous innermost '(' .paramOpen
  | openGroup (shape : Bracket) : (shape = .round → followsIdentifier previous = false) →
      Singles previous innermost shape.opening (.groupOpen shape)
  | closeParameters : innermost = some .parameters → Singles previous innermost ')' .paramClose
  | closeGroup (shape : Bracket) : innermost = some .group →
      Singles previous innermost shape.closing (.groupClose shape)

theorem closeRound_eq_ok {p : Position} {innermost : Option Enclosure} {kind : Kind}
    (h : closeRound p innermost = .ok kind) :
    innermost = some .parameters ∧ kind = .paramClose ∨
      innermost = some .group ∧ kind = .groupClose .round := by
  cases innermost with
  | none => simp [closeRound] at h
  | some enclosure =>
    cases enclosure with
    | parameters => exact .inl ⟨rfl, (Except.ok.inj h).symm⟩
    | group => exact .inr ⟨rfl, (Except.ok.inj h).symm⟩

theorem closeGroup_eq_ok {p : Position} {shape : Bracket} {innermost : Option Enclosure}
    {kind : Kind} (h : closeGroup p shape innermost = .ok kind) :
    innermost = some .group ∧ kind = .groupClose shape := by
  cases innermost with
  | none => simp [closeGroup] at h
  | some enclosure =>
    cases enclosure with
    | parameters => simp [closeGroup] at h
    | group => exact ⟨rfl, (Except.ok.inj h).symm⟩

theorem single_eq_ok {previous : Option Kind} {innermost : Option Enclosure} {p : Position}
    {c : Char} {kind : Kind} :
    single previous innermost p c = some (.ok kind) ↔ Singles previous innermost c kind := by
  constructor
  · intro h
    unfold single at h
    split at h
    case h_1 =>
      obtain rfl := Except.ok.inj (Option.some.inj h)
      exact .comma
    case h_2 =>
      obtain rfl := Except.ok.inj (Option.some.inj h)
      exact .equals
    case h_3 =>
      obtain rfl := Except.ok.inj (Option.some.inj h)
      by_cases hfollows : followsIdentifier previous = true
      · rw [if_pos hfollows]
        exact .openParameters hfollows
      · rw [if_neg hfollows]
        exact .openGroup .round fun _ => Bool.eq_false_iff.2 hfollows
    case h_4 =>
      obtain rfl := Except.ok.inj (Option.some.inj h)
      exact .openGroup .square nofun
    case h_5 =>
      obtain rfl := Except.ok.inj (Option.some.inj h)
      exact .openGroup .curly nofun
    case h_6 =>
      rcases closeRound_eq_ok (Option.some.inj h) with ⟨ho, rfl⟩ | ⟨ho, rfl⟩
      · exact .closeParameters ho
      · exact .closeGroup .round ho
    case h_7 =>
      obtain ⟨ho, rfl⟩ := closeGroup_eq_ok (Option.some.inj h)
      exact .closeGroup .square ho
    case h_8 =>
      obtain ⟨ho, rfl⟩ := closeGroup_eq_ok (Option.some.inj h)
      exact .closeGroup .curly ho
    case h_9 =>
      obtain ⟨op, hop, h⟩ := Option.map_eq_some_iff.1 h
      obtain rfl := Except.ok.inj h
      obtain rfl := BinaryOp.ofChar?_eq_some.1 hop
      exact .operator op
  · intro h
    cases h with
    | comma | equals => rfl
    | operator op => cases op <;> rfl
    | openParameters hfollows => simp [single, hfollows]
    | openGroup shape hfollows =>
      cases shape with
      | round => simp [single, Bracket.opening, hfollows rfl]
      | _ => rfl
    | closeParameters ho =>
      subst ho
      rfl
    | closeGroup shape ho =>
      subst ho
      cases shape <;> rfl

section
variable {previous : Option Kind} {innermost : Option Enclosure} {p : Position} {c : Char}
  {rest : List Char}

theorem lexes_of_lexeme {kind : Kind} {text : List Char}
    (h : lexeme previous innermost p c rest = .ok (kind, text)) :
    Lexes previous innermost p c rest kind text := by
  rw [lexeme] at h
  split at h
  · rw [numeral] at h
    split at h
    · rename_i hread
      obtain ⟨rfl, rfl⟩ := Prod.mk.inj (Except.ok.inj h)
      exact .numeral hread
    · simp at h
  · split at h
    · rename_i hstarts
      rw [identifier, identifier?, if_pos hstarts] at h
      obtain ⟨rfl, rfl⟩ := Prod.mk.inj (Except.ok.inj h)
      exact .identifier hstarts
    · split at h
      · rename_i outcome hsingle
        obtain ⟨kind', hkind, h⟩ := bind_eq_ok.1 h
        obtain ⟨rfl, rfl⟩ := Prod.mk.inj (Except.ok.inj h)
        rw [hkind] at hsingle
        exact .single hsingle
      · simp at h

end

inductive Scans : Option Kind → List Opening → Position → List Char → List Token → Prop
  | done {previous : Option Kind} {p : Position} : Scans previous [] p [] []
  | space {previous : Option Kind} {opened : List Opening} {p : Position} {c : Char}
      {rest : List Char} {ts : List Token} : isSpace c = true →
      Scans previous opened (p.next c) rest ts → Scans previous opened p (c :: rest) ts
  | token {previous : Option Kind} {opened : List Opening} {p : Position} {c : Char}
      {rest text : List Char} {kind : Kind} {ts : List Token} : isSpace c = false →
      lexeme previous (opened.head?.map (·.enclosure)) p c rest = .ok (kind, text) →
      Scans (some kind) (track opened ⟨kind, p.spanOver text⟩) (p.after text)
        (rest.drop (text.length - 1)) ts →
      Scans previous opened p (c :: rest) (⟨kind, p.spanOver text⟩ :: ts)

/-- A scan that comes to the end of the characters, with the brackets that are open there. -/
inductive Passes :
    Option Kind → List Opening → Position → List Char → List Token → List Opening → Prop
  | done {previous : Option Kind} {opened : List Opening} {p : Position} :
      Passes previous opened p [] [] opened
  | space {previous : Option Kind} {opened left : List Opening} {p : Position} {c : Char}
      {rest : List Char} {ts : List Token} : isSpace c = true →
      Passes previous opened (p.next c) rest ts left → Passes previous opened p (c :: rest) ts left
  | token {previous : Option Kind} {opened left : List Opening} {p : Position} {c : Char}
      {rest text : List Char} {kind : Kind} {ts : List Token} : isSpace c = false →
      lexeme previous (opened.head?.map (·.enclosure)) p c rest = .ok (kind, text) →
      Passes (some kind) (track opened ⟨kind, p.spanOver text⟩) (p.after text)
        (rest.drop (text.length - 1)) ts left →
      Passes previous opened p (c :: rest) (⟨kind, p.spanOver text⟩ :: ts) left

inductive Halts (r : Rejection) : Option Kind → List Opening → Position → List Char → Prop
  | bracket {previous : Option Kind} {innermost : Opening} {outer : List Opening} {p : Position} :
      r = .spanning .bracketLeftOpen innermost.span → Halts r previous (innermost :: outer) p []
  | space {previous : Option Kind} {opened : List Opening} {p : Position} {c : Char}
      {rest : List Char} : isSpace c = true → Halts r previous opened (p.next c) rest →
      Halts r previous opened p (c :: rest)
  | lexeme {previous : Option Kind} {opened : List Opening} {p : Position} {c : Char}
      {rest : List Char} : isSpace c = false →
      lexeme previous (opened.head?.map (·.enclosure)) p c rest = .error r →
      Halts r previous opened p (c :: rest)
  | token {previous : Option Kind} {opened : List Opening} {p : Position} {c : Char}
      {rest text : List Char} {kind : Kind} : isSpace c = false →
      Token.lexeme previous (opened.head?.map (·.enclosure)) p c rest = .ok (kind, text) →
      Halts r (some kind) (track opened ⟨kind, p.spanOver text⟩) (p.after text)
        (rest.drop (text.length - 1)) →
      Halts r previous opened p (c :: rest)

section
variable {previous : Option Kind} {opened : List Opening} {p : Position} {cs : List Char}

theorem scanFrom_eq_ok {ts : List Token} :
    scanFrom previous opened p cs = .ok ts ↔ Scans previous opened p cs ts := by
  constructor
  · intro h
    fun_induction scanFrom previous opened p cs generalizing ts with
    | case1 previous p =>
      obtain rfl := Except.ok.inj h
      exact .done
    | case2 => simp at h
    | case3 previous opened p c rest hspace ih => exact .space hspace (ih h)
    | case4 previous opened p c rest hspace ih =>
      obtain ⟨⟨kind, text⟩, hl, h⟩ := bind_eq_ok.1 h
      obtain ⟨more, hmore, h⟩ := bind_eq_ok.1 h
      obtain rfl := pure_eq_ok.1 h
      exact .token (Bool.eq_false_iff.2 hspace) hl (ih kind text hmore)
  · intro h
    induction h with
    | done => rw [scanFrom]
    | space hspace _ ih =>
      rw [scanFrom, if_pos hspace]
      exact ih
    | token hspace hl _ ih =>
      rw [scanFrom, if_neg (by simp [hspace]), hl]
      simp only [ok_bind, ih]
      rfl

theorem halts_of_scanFrom {r : Rejection} (h : scanFrom previous opened p cs = .error r) :
    Halts r previous opened p cs := by
  fun_induction scanFrom previous opened p cs with
  | case1 => simp at h
  | case2 previous p innermost outer => exact .bracket (Except.error.inj h).symm
  | case3 previous opened p c rest hspace ih => exact .space hspace (ih h)
  | case4 previous opened p c rest hspace ih =>
    have hfalse : isSpace c = false := Bool.eq_false_iff.2 hspace
    rcases bind_eq_error.1 h with hl | ⟨⟨kind, text⟩, hl, h⟩
    · exact .lexeme hfalse hl
    · exact .token hfalse hl (ih kind text (error_of_bind_pure h))

theorem Scans.passes {ts : List Token} (h : Scans previous opened p cs ts) :
    Passes previous opened p cs ts [] := by
  induction h with
  | done => exact .done
  | space hspace _ ih => exact .space hspace ih
  | token hspace hl _ ih => exact .token hspace hl ih

theorem Passes.scanFrom_eq {ts : List Token} {innermost : Opening} {outer : List Opening}
    (h : Passes previous opened p cs ts (innermost :: outer)) :
    scanFrom previous opened p cs = .error (.spanning .bracketLeftOpen innermost.span) := by
  generalize hleft : innermost :: outer = left at h
  induction h with
  | done =>
    subst hleft
    rw [scanFrom]
  | space hspace _ ih =>
    rw [scanFrom, if_pos hspace]
    exact ih hleft
  | token hspace hl _ ih =>
    rw [scanFrom, if_neg (by simp [hspace]), hl]
    simp only [ok_bind, ih hleft]
    rfl

end

theorem scans_of_scan {source : String} {ts : List Token} (h : scan source = .ok ts) :
    Scans none [] {} source.toList ts := by
  rw [scan] at h
  split at h
  · simp at h
  · exact scanFrom_eq_ok.1 h

end Token

end Formulary
