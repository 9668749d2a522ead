import Formulary.Proofs.Token.Tiling

/-!
# Where a scan is rejected

A scan is rejected for some characters of its text: for one that begins no token, for the next
three where a number should stand, or for a bracket. What is shown is the span of just these.
-/
namespace Formulary

def Span.Covers (source text : List Char) (s : Span) : Prop :=
  ∃ front back, source = front ++ (text ++ back) ∧ s = (Position.after {} front).spanOver text

def Span.Within (source : List Char) (s : Span) : Prop := ∃ text, text ≠ [] ∧ s.Covers source text

theorem Span.Covers.line_ne_zero {source text : List Char} {s : Span} (h : s.Covers source text) :
    s.line ≠ 0 := by
  obtain ⟨front, back, -, rfl⟩ := h
  rw [Position.spanOver, Position.after_eq]
  exact Nat.ne_of_gt (Nat.lt_add_right _ Nat.one_pos)

theorem Span.Within.line_ne_zero {source : List Char} {s : Span} (h : s.Within source) :
    s.line ≠ 0 := by
  obtain ⟨text, -, hcovers⟩ := h
  exact hcovers.line_ne_zero

theorem eq_of_utf8ByteSize_eq {a b a' b' : List Char} (h : a ++ b = a' ++ b')
    (hsize : (String.ofList a).utf8ByteSize = (String.ofList a').utf8ByteSize) :
    a = a' ∧ b = b' := by
  -- what one text has more than the other takes no byte
  have hnil {d : List Char} (hd : (String.ofList d).utf8ByteSize = 0) : d = [] := by
    simpa using String.utf8ByteSize_eq_zero_iff.1 hd
  rcases List.append_eq_append_iff.1 h with ⟨d, rfl, rfl⟩ | ⟨d, rfl, rfl⟩
  · rw [Token.utf8ByteSize_append_list] at hsize
    obtain rfl := hnil (by omega : (String.ofList d).utf8ByteSize = 0)
    simp
  · rw [Token.utf8ByteSize_append_list] at hsize
    obtain rfl := hnil (by omega : (String.ofList d).utf8ByteSize = 0)
    simp

theorem spanOver_inj {front text back front' text' back' : List Char}
    (h : front ++ (text ++ back) = front' ++ (text' ++ back'))
    (hspan : (Position.after {} front).spanOver text = (Position.after {} front').spanOver text') :
    front = front' ∧ text = text' ∧ back = back' := by
  have hstart := congrArg Span.start hspan
  have hstop := congrArg Span.stop hspan
  rw [Token.spanOver_start, Token.spanOver_start] at hstart
  rw [Token.spanOver_stop, Token.spanOver_stop] at hstop
  obtain ⟨rfl, htext⟩ := eq_of_utf8ByteSize_eq h hstart
  rw [Token.utf8ByteSize_append_list, Token.utf8ByteSize_append_list] at hstop
  exact ⟨rfl, eq_of_utf8ByteSize_eq htext (by omega)⟩

def Fault.Concerns (text : List Char) : Fault → Prop
  | .unknownCharacter c => text = [c]
  | .unreadableNumber near => text = near.toList
  | .strayClosing c | .closesParameterList c => text = [c] ∧ ∃ shape : Bracket, c = shape.closing
  | .bracketLeftOpen => ∃ shape : Bracket, text = [shape.opening]
  | _ => False

theorem Fault.Concerns.lexical {f : Fault} {text : List Char} (h : f.Concerns text) :
    f.Lexical := by
  cases f <;> trivial

/-- The rejection is about these characters and shows where they stand. -/
structure Rejection.Marks (source text : List Char) (r : Rejection) : Prop where
  shows : r.Shows (·.Covers source text)
  nonempty : text ≠ []
  concerns : r.fault.Concerns text

theorem Rejection.Marks.within {source text : List Char} {r : Rejection}
    (h : r.Marks source text) : r.Shows (·.Within source) := by
  obtain ⟨s, hplace, hcovers⟩ := h.shows
  exact ⟨s, hplace, text, h.nonempty, hcovers⟩

namespace Token

section
variable {previous : Option Kind} {innermost : Option Enclosure} {p : Position} {c : Char}
  {rest : List Char} {r : Rejection}

structure Spoils (p : Position) (cs text : List Char) (r : Rejection) : Prop where
  place : r.place = .span (p.spanOver text)
  front : text <+: cs
  nonempty : text ≠ []
  concerns : r.fault.Concerns text
  inside : r.fault ≠ .bracketLeftOpen

theorem spoils_of_closeRound (h : closeRound p innermost = .error r) :
    Spoils p (')' :: rest) [')'] r := by
  cases innermost with
  | none =>
    obtain rfl := Except.error.inj h
    exact ⟨rfl, List.prefix_append _ _, List.cons_ne_nil _ _, ⟨rfl, .round, rfl⟩,
      Fault.noConfusion⟩
  | some enclosure => cases enclosure <;> simp [closeRound] at h

theorem spoils_of_closeGroup (shape : Bracket) (h : closeGroup p shape innermost = .error r) :
    Spoils p (shape.closing :: rest) [shape.closing] r := by
  cases innermost with
  | none =>
    obtain rfl := Except.error.inj h
    exact ⟨rfl, List.prefix_append _ _, List.cons_ne_nil _ _, ⟨rfl, shape, rfl⟩,
      Fault.noConfusion⟩
  | some enclosure =>
    cases enclosure with
    | parameters =>
      obtain rfl := Except.error.inj h
      exact ⟨rfl, List.prefix_append _ _, List.cons_ne_nil _ _, ⟨rfl, shape, rfl⟩,
        Fault.noConfusion⟩
    | group => simp [closeGroup] at h

theorem spoils_of_single (h : single previous innermost p c = some (.error r)) :
    Spoils p (c :: rest) [c] r := by
  unfold single at h
  split at h
  case h_6 => exact spoils_of_closeRound (Option.some.inj h)
  case h_7 => exact spoils_of_closeGroup .square (Option.some.inj h)
  case h_8 => exact spoils_of_closeGroup .curly (Option.some.inj h)
  case h_9 =>
    obtain ⟨op, -, h⟩ := Option.map_eq_some_iff.1 h
    simp at h
  all_goals simp at h

theorem spoils_of_lexeme (h : lexeme previous innermost p c rest = .error r) :
    ∃ text, Spoils p (c :: rest) text r := by
  rw [lexeme] at h
  split at h
  · rw [numeral] at h
    split at h
    · simp at h
    · obtain rfl := Except.error.inj h
      exact ⟨_, rfl, List.take_prefix _ _, List.cons_ne_nil _ _, String.toList_ofList.symm,
        Fault.noConfusion⟩
  · split at h
    · rename_i hstarts
      rw [identifier, identifier?, if_pos hstarts] at h
      cases h
    · cases hsingle : single previous innermost p c with
      | none =>
        rw [hsingle] at h
        obtain rfl := Except.error.inj h
        exact ⟨_, rfl, List.prefix_append _ _, List.cons_ne_nil _ _, rfl, Fault.noConfusion⟩
      | some outcome =>
        rw [hsingle] at h
        rcases bind_eq_error.1 h with h | ⟨kind, -, h⟩
        · rw [h] at hsingle
          exact ⟨_, spoils_of_single hsingle⟩
        · simp [character] at h

end

def Opening.Stands (source : List Char) (o : Opening) : Prop :=
  ∃ shape : Bracket, o.span.Covers source [shape.opening]

def Kind.isBracket : Kind → Bool
  | paramOpen | paramClose | groupOpen _ | groupClose _ => true
  | _ => false

theorem Kind.Reads.bracket {kind : Kind} {text back : List Char} (h : kind.Reads text back)
    (hk : kind.isBracket = true) : text = kind.text.toList := by
  cases kind with
  | number | identifier | equals | operator | comma => simp [Kind.isBracket] at hk
  | _ =>
    obtain ⟨c, rfl, hc⟩ := h
    rw [hc, String.toList_singleton]

section
variable {previous : Option Kind} {opened : List Opening} {p : Position} {front cs : List Char}
  {source : List Char}

theorem stands_track {kind : Kind} {s : Span} {text back : List Char}
    (h : ∀ o ∈ opened, o.Stands source) (hreads : kind.Reads text back)
    (hs : s.Covers source text) : ∀ o ∈ track opened ⟨kind, s⟩, o.Stands source := by
  rw [track]
  split
  · rename_i hk
    obtain rfl : kind = .paramOpen := hk
    rw [hreads.bracket rfl] at hs
    exact List.forall_mem_cons.2 ⟨⟨.round, hs⟩, h⟩
  · rename_i shape hk
    obtain rfl : kind = .groupOpen shape := hk
    rw [hreads.bracket rfl, Kind.text, String.toList_singleton] at hs
    exact List.forall_mem_cons.2 ⟨⟨shape, hs⟩, h⟩
  · exact fun o ho => h o (List.mem_of_mem_tail ho)
  · exact fun o ho => h o (List.mem_of_mem_tail ho)
  · exact h

theorem Spoils.marks {text : List Char} {r : Rejection}
    (h : Spoils (Position.after {} front) cs text r) : r.Marks (front ++ cs) text := by
  obtain ⟨back, hback⟩ := h.front
  exact ⟨⟨_, h.place, front, back, by rw [hback], rfl⟩, h.nonempty, h.concerns⟩

theorem Halts.marks {r : Rejection} (h : Halts r previous opened p cs)
    (hp : p = Position.after {} front) (ho : ∀ o ∈ opened, o.Stands (front ++ cs)) :
    ∃ text, r.Marks (front ++ cs) text := by
  induction h generalizing front with
  | bracket hr =>
    subst hr
    obtain ⟨shape, hcovers⟩ := ho _ List.mem_cons_self
    exact ⟨_, ⟨_, rfl, hcovers⟩, List.cons_ne_nil _ _, shape, rfl⟩
  | space _ _ ih =>
    rw [List.append_cons] at ho ⊢
    apply ih _ ho
    rw [hp, Position.after_concat]
  | lexeme _ hl =>
    subst hp
    obtain ⟨text, hspoils⟩ := spoils_of_lexeme hl
    exact ⟨text, hspoils.marks⟩
  | token _ hl _ ih =>
    obtain ⟨back, hcs, hne, hreads⟩ := (lexes_of_lexeme hl).reads
    rw [drop_of_cons_eq hcs hne] at ih
    rw [hcs] at ho ⊢
    subst hp
    have hopened := stands_track ho hreads ⟨front, back, rfl, rfl⟩
    rw [← List.append_assoc] at hopened ⊢
    exact ih (Position.after_append _ _ _).symm hopened

theorem Tiles.within {ts : List Token} (h : Tiles front cs ts) :
    ∀ t ∈ ts, t.span.Within (front ++ cs) := by
  induction h with
  | done => exact fun t ht => absurd ht List.not_mem_nil
  | space _ _ ih =>
    rw [List.append_cons]
    exact ih
  | token hne _ _ ih =>
    rw [List.append_assoc] at ih
    exact List.forall_mem_cons.2 ⟨⟨_, hne, _, _, rfl, rfl⟩, ih⟩

end

theorem within_of_scan {source : String} {ts : List Token} (h : scan source = .ok ts) :
    ∀ t ∈ ts, t.span.Within source.toList := by
  exact (tiles_of_scan h).within

theorem marks_of_scan {source : String} {r : Rejection} (h : scan source = .error r) :
    source = "" ∧ r = ⟨.emptyText, .whole⟩ ∨ ∃ text, r.Marks source.toList text := by
  rw [scan] at h
  split at h
  · rename_i hempty
    exact .inl ⟨hempty, (Except.error.inj h).symm⟩
  · have hnone : ∀ o ∈ ([] : List Opening), o.Stands ([] ++ source.toList) :=
      fun o ho => absurd ho List.not_mem_nil
    exact .inr ((halts_of_scanFrom h).marks rfl hnone)

end Token

end Formulary
