import Formulary.Proofs.Equation.Rejections

/-!
# Where a diagnostic points

A diagnostic for a single line shows the whole line. Its carets begin right under the column that
it names and end with the line at the latest, except for one that may stand just behind it. Their
number goes by the bytes of what is at fault, so there are too many of them where a character of
several bytes does not end the line. Where the tokens run out, a text of several lines is taken for
a single one.
-/
namespace Formulary

namespace Source

theorem splitLines_of_unbroken {cs : List Char} (h : '\n' ∉ cs) (hne : cs ≠ []) :
    splitLines cs = [cs] := by
  induction cs with
  | nil => exact absurd rfl hne
  | cons c rest ih =>
    obtain ⟨hc, hrest⟩ := List.ne_and_not_mem_of_not_mem_cons h
    unfold splitLines
    split
    case h_1 heq => cases heq
    case h_2 heq =>
      obtain ⟨-, rfl⟩ := List.cons.inj heq
      exact absurd List.mem_cons_self hrest
    case h_3 heq =>
      obtain ⟨rfl, -⟩ := List.cons.inj heq
      exact absurd rfl hc
    case h_4 heq =>
      obtain ⟨rfl, rfl⟩ := List.cons.inj heq
      cases rest with
      | nil => rw [splitLines_nil]
      | cons d rest => rw [ih hrest (List.cons_ne_nil _ _)]

theorem length_headD_splitLines_le (cs : List Char) :
    ((splitLines cs).headD []).length ≤ cs.length := by
  fun_induction splitLines cs with
  | case5 c rest _ _ line more hsplit ih =>
    rw [hsplit] at ih
    simpa using ih
  | _ => simp

theorem length_firstLine_le (source : String) :
    ((lines source).headD "").length ≤ source.length := by
  have hle := length_headD_splitLines_le source.toList
  rw [String.length_toList] at hle
  rw [lines]
  cases hsplit : splitLines source.toList with
  | nil => exact Nat.zero_le _
  | cons line more =>
    rw [hsplit] at hle
    simpa using hle

theorem lines_of_unbroken {source : String} (h : '\n' ∉ source.toList) (hne : source ≠ "") :
    lines source = [source] := by
  have hlist : source.toList ≠ [] := fun hnil => hne (String.toList_eq_nil_iff.1 hnil)
  rw [lines, splitLines_of_unbroken h hlist, List.map_singleton, String.ofList_toList]

def lastLine (source : String) : String :=
  String.ofList (source.toList.reverse.takeWhile (· ≠ '\n')).reverse

theorem length_lastLine (source : String) : (lastLine source).length =
    (source.toList.reverse.takeWhile (· ≠ '\n')).length := by
  rw [lastLine, String.length_ofList, List.length_reverse]

theorem takeWhile_reverse_of_unbroken {cs : List Char} (h : '\n' ∉ cs) :
    cs.reverse.takeWhile (· ≠ '\n') = cs.reverse := by
  refine List.takeWhile_eq_self_iff.2 fun c hc => decide_eq_true ?_
  rintro rfl
  exact h (List.mem_reverse.1 hc)

theorem lastLine_of_unbroken {source : String} (h : '\n' ∉ source.toList) :
    lastLine source = source := by
  rw [lastLine, takeWhile_reverse_of_unbroken h, List.reverse_reverse, String.ofList_toList]

theorem length_lastLine_eq_iff {source : String} :
    (lastLine source).length = source.length ↔ '\n' ∉ source.toList := by
  constructor
  · intro h hfeed
    have hreverse : source.toList.reverse.length = source.length := by
      rw [List.length_reverse, String.length_toList]
    rw [length_lastLine, ← hreverse] at h
    have hwhole := (List.takeWhile_prefix (· ≠ '\n')).eq_of_length h
    have hnone := List.takeWhile_eq_self_iff.1 hwhole '\n' (List.mem_reverse.2 hfeed)
    exact absurd rfl (of_decide_eq_true hnone)
  · intro h
    rw [lastLine_of_unbroken h]

theorem firstLine_of_unbroken {source : String} (h : '\n' ∉ source.toList) :
    (lines source).headD "" = source := by
  by_cases hne : source = ""
  · subst hne
    rfl
  · rw [lines_of_unbroken h hne]
    rfl

end Source

theorem Position.after_of_unbroken {front : List Char} (h : '\n' ∉ front) :
    ({} : Position).after front =
      ⟨(String.ofList front).utf8ByteSize, 1, 1 + front.length⟩ := by
  rw [after_eq, List.count_eq_zero_of_not_mem h, Source.takeWhile_reverse_of_unbroken h,
    List.length_reverse]

namespace Diagnostic

def carets (d : Diagnostic) : Nat := d.pointer.toList.count '^'

/-- The column stands in the line or just behind it, and the first caret stands right under it. No
caret stands behind the line, unless that is where the column is. -/
structure Points (source : String) (d : Diagnostic) : Prop where
  file : d.file = ""
  line : d.line = 1
  snippet : d.snippet = source
  column_pos : 1 ≤ d.column
  column_le : d.column ≤ source.length + 1
  pointer : ∃ carets, 1 ≤ carets ∧ d.column - 1 + carets ≤ max source.length d.column ∧
    d.pointer = String.ofList (List.replicate (d.column - 1) ' ' ++ List.replicate carets '^')

theorem underline_eq {n column : Nat} (h : column ≤ n + 1) (length : Nat) :
    underline n column length = String.ofList (List.replicate (column - 1) ' ' ++
      List.replicate (min (max length 1) (max (n - (column - 1)) 1)) '^') := by
  have hindent : min (column - 1) n = column - 1 := Nat.min_eq_left (by omega)
  simp only [underline, hindent]

theorem underline_of_lt {n column : Nat} (h : n < column) :
    underline n column 0 = String.ofList (List.replicate n ' ' ++ ['^']) := by
  have hindent : min (column - 1) n = n := Nat.min_eq_right (by omega)
  simp only [underline, hindent, Nat.sub_self]
  rfl

section
variable {source : String} {s : Span} (message : String) (hline : '\n' ∉ source.toList)
  (hne : source ≠ "") (hs : s.line = 1)

include hline hne hs

theorem ofSpan_of_unbroken : ofSpan message "" source s =
    ⟨message, "", 1, s.column, source, underline source.length s.column s.length⟩ := by
  simp [ofSpan, hs, Source.lines_of_unbroken hline hne]

theorem carets_ofSpan (hle : s.column ≤ source.length + 1) :
    (ofSpan message "" source s).carets =
      min (max s.length 1) (max (source.length - (s.column - 1)) 1) := by
  rw [ofSpan_of_unbroken message hline hne hs, carets, underline_eq hle, String.toList_ofList,
    List.count_append, List.count_replicate_self, List.count_replicate, if_neg (by decide),
    Nat.zero_add]

theorem points_ofSpan (hpos : 1 ≤ s.column) (hle : s.column ≤ source.length + 1) :
    (ofSpan message "" source s).Points source := by
  rw [ofSpan_of_unbroken message hline hne hs]
  exact ⟨rfl, rfl, rfl, hpos, hle, _, by omega, by dsimp only; omega, underline_eq hle _⟩

end

end Diagnostic

section
variable {source : String} {s : Span}

theorem Span.Covers.of_unbroken {text : List Char} (h : s.Covers source.toList text)
    (hline : '\n' ∉ source.toList) : ∃ front back, source.toList = front ++ (text ++ back) ∧
      s.line = 1 ∧ s.column = 1 + front.length ∧
      s.length = (String.ofList text).utf8ByteSize := by
  obtain ⟨front, back, hsource, rfl⟩ := h
  have hfront : '\n' ∉ front := by
    rw [hsource] at hline
    exact fun hmem => hline (List.mem_append_left _ hmem)
  refine ⟨front, back, hsource, ?_, ?_, ?_⟩
  · rw [Position.spanOver, Position.after_of_unbroken hfront]
  · rw [Position.spanOver, Position.after_of_unbroken hfront]
  · change ((Position.after {} front).after text).offset - (Position.after {} front).offset = _
    rw [Position.after_offset _ text, Nat.add_sub_cancel_left]

theorem Span.Within.of_unbroken (h : s.Within source.toList) (hline : '\n' ∉ source.toList) :
    s.line = 1 ∧ 1 ≤ s.column ∧ s.column ≤ source.length + 1 := by
  obtain ⟨text, -, hcovers⟩ := h
  obtain ⟨front, back, hsource, hone, hcolumn, -⟩ := hcovers.of_unbroken hline
  have hlength := congrArg List.length hsource
  rw [String.length_toList, List.length_append] at hlength
  exact ⟨hone, by omega, by omega⟩

end

namespace Equation

theorem Rejects.eq_exhausted {source : String} {r : Rejection} (h : Rejects source r)
    (hfault : r.fault = .tokensExhausted) : r = .exhausted := by
  obtain ⟨fault, place⟩ := r
  obtain rfl : fault = .tokensExhausted := hfault
  cases h with
  | exhausted => rfl
  | lexical hlexical _ => exact hlexical.elim
  | declarative hdeclarative _ => exact hdeclarative.elim
  | structural hstructural => exact hstructural.1.elim

theorem ofLine_eq_error {limit : Nat} {source : String} {r : Rejection}
    (h : compile limit source = .error r) :
    ofLine limit source = .error (r.diagnostic source) := by
  rw [ofLine, h]
  rfl

/-- A rejected line is shown whole, and the carets stand where the fault is. -/
theorem points_of_ofLine {limit : Nat} {source : String} {d : Diagnostic}
    (h : ofLine limit source = .error d) (hne : source ≠ "") (hline : '\n' ∉ source.toList) :
    d.Points source := by
  obtain ⟨r, hr, rfl⟩ := rejects_of_ofLine h
  rcases hr.shows hne with rfl | ⟨s, hplace, hs⟩
  · have hpos : 1 ≤ (endSpan source).column := Nat.le_add_left _ _
    exact Diagnostic.points_ofSpan _ hline hne rfl hpos (Nat.le_refl _)
  · obtain ⟨hone, hpos, hle⟩ := hs.of_unbroken hline
    rw [Rejection.diagnostic, hplace]
    exact Diagnostic.points_ofSpan _ hline hne hone hpos hle

theorem points_of_ofLine_unfinished :
    ∃ d, ofLine 100 "f(a) =" = .error d ∧ d.Points "f(a) =" ∧ d.column = 7 := by
  have hcompile : compile 100 "f(a) =" = .error .exhausted := by cbv
  have hline : ofLine 100 "f(a) =" = .error (Rejection.exhausted.diagnostic "f(a) =") := by
    rw [ofLine, hcompile]
    rfl
  exact ⟨_, hline, points_of_ofLine hline (by decide) (by decide), rfl⟩

/-- An error at the end of a text stands behind all its characters as if they were one line, and
shows its first line. That is where the text ends, exactly if it has no line feed. -/
theorem ending_of_ofLine {limit : Nat} {source : String} {d : Diagnostic}
    (h : ofLine limit source = .error d) (hm : d.message = "Expected more tokens") :
    d.file = "" ∧ d.line = 1 ∧ d.column = source.length + 1 ∧
      d.snippet = (Source.lines source).headD "" ∧
      d.pointer = String.ofList (List.replicate d.snippet.length ' ' ++ ['^']) ∧
      (d.line = 1 + source.toList.count '\n' ↔ '\n' ∉ source.toList) ∧
      (d.column = 1 + (Source.lastLine source).length ↔ '\n' ∉ source.toList) ∧
      ('\n' ∉ source.toList → d.snippet = Source.lastLine source) := by
  obtain ⟨r, hr, rfl⟩ := rejects_of_ofLine h
  rw [message_diagnostic] at hm
  obtain rfl := hr.eq_exhausted (Fault.message_eq_exhausted hm)
  have hsnippet : (Rejection.exhausted.diagnostic source).snippet =
      (Source.lines source).headD "" := by
    rw [List.headD_eq_head?_getD, List.head?_eq_getElem?]
    rfl
  refine ⟨rfl, rfl, rfl, hsnippet, ?_, ?_, ?_, fun hline => ?_⟩
  · have hle := Source.length_firstLine_le source
    rw [← hsnippet] at hle
    have hspan : (endSpan source).length = 0 := Nat.sub_self _
    have hpointer := Diagnostic.underline_of_lt (Nat.lt_succ_of_le hle)
    rw [← hspan] at hpointer
    exact hpointer
  · change 1 = _ ↔ _
    rw [← List.count_eq_zero]
    omega
  · change source.length + 1 = _ ↔ _
    rw [← Source.length_lastLine_eq_iff]
    omega
  · rw [hsnippet, Source.firstLine_of_unbroken hline, Source.lastLine_of_unbroken hline]

theorem ending_of_ofLine_unbroken :
    ∃ d, ofLine 100 "f(a) = " = .error d ∧ d.line = 1 + "f(a) = ".toList.count '\n' ∧
      d.column = 1 + (Source.lastLine "f(a) = ").length ∧
      d.snippet = Source.lastLine "f(a) = " := by
  have hcompile : compile 100 "f(a) = " = .error .exhausted := by cbv
  have hline := ofLine_eq_error hcompile
  have hunbroken : '\n' ∉ "f(a) = ".toList := by decide
  obtain ⟨-, -, -, -, -, hrow, hcolumn, hsnippet⟩ := ending_of_ofLine hline rfl
  exact ⟨_, hline, hrow.2 hunbroken, hcolumn.2 hunbroken, hsnippet hunbroken⟩

theorem ofLine_broken :
    (∃ d, ofLine 100 "a\n=" = .error d ∧ d.message = "Expected more tokens" ∧ d.line = 1 ∧
      d.column = 4 ∧ d.snippet = "a") ∧
    1 + "a\n=".toList.count '\n' = 2 ∧ 1 + (Source.lastLine "a\n=").length = 2 ∧
    Source.lastLine "a\n=" = "=" ∧
    ∃ d, ofLine 100 "a\n=$" = .error d ∧ d.line = 2 ∧ d.column = 2 ∧ d.snippet = "=$" := by
  have hend : compile 100 "a\n=" = .error .exhausted := by cbv
  have hcharacter : compile 100 "a\n=$" =
      .error (.spanning (.unknownCharacter '$') ⟨3, 4, 2, 2⟩) := by cbv
  exact ⟨⟨_, ofLine_eq_error hend, rfl, rfl, rfl, rfl⟩, by decide, by decide, by decide,
    _, ofLine_eq_error hcharacter, rfl, rfl, rfl⟩

end Equation

theorem length_le_utf8ByteSize (text : List Char) :
    text.length ≤ (String.ofList text).utf8ByteSize ∧
      ((String.ofList text).utf8ByteSize = text.length ↔ ∀ c ∈ text, c.utf8Size = 1) := by
  induction text with
  | nil => simp
  | cons c rest ih =>
    obtain ⟨hle, hiff⟩ := ih
    have hpos := c.utf8Size_pos
    rw [String.ofList_cons, String.utf8ByteSize_append, String.utf8ByteSize_singleton,
      List.length_cons, List.forall_mem_cons, ← hiff]
    omega

theorem Bracket.utf8Size (shape : Bracket) :
    shape.opening.utf8Size = 1 ∧ shape.closing.utf8Size = 1 := by
  cases shape <;> decide

theorem Rejection.Marks.carets {source : String} {text : List Char} {r : Rejection}
    (h : r.Marks source.toList text) (hne : source ≠ "") (hline : '\n' ∉ source.toList) :
    ∃ front back, source.toList = front ++ (text ++ back) ∧
      (r.diagnostic source).column = front.length + 1 ∧
      (r.diagnostic source).carets =
        min (String.ofList text).utf8ByteSize (text.length + back.length) := by
  obtain ⟨s, hplace, hcovers⟩ := h.shows
  obtain ⟨front, back, hsource, hone, hcolumn, hbytes⟩ := hcovers.of_unbroken hline
  have hpos : 0 < text.length := List.length_pos_iff.2 h.nonempty
  have hle := (length_le_utf8ByteSize text).1
  have hlength := congrArg List.length hsource
  rw [String.length_toList, List.length_append, List.length_append] at hlength
  have hcarets := Diagnostic.carets_ofSpan r.fault.message hline hne hone (by omega)
  rw [Rejection.diagnostic, hplace]
  refine ⟨front, back, hsource, ?_, ?_⟩
  · rw [Nat.add_comm]
    exact hcolumn
  · rw [hbytes] at hcarets
    exact hcarets.trans (by omega)

namespace Token

/-- The carets go by the bytes of the characters at fault. So there is one for each of them exactly
if they take one byte each, as brackets do, or are the last of the line. -/
theorem carets_of_scan {source : String} {r : Rejection} (h : scan source = .error r)
    (hne : source ≠ "") (hline : '\n' ∉ source.toList) :
    ∃ front text back, source.toList = front ++ (text ++ back) ∧ r.fault.Concerns text ∧
      (r.diagnostic source).column = front.length + 1 ∧
      (r.diagnostic source).carets =
        min (String.ofList text).utf8ByteSize (text.length + back.length) ∧
      ((r.diagnostic source).carets = text.length ↔
        (∀ c ∈ text, c.utf8Size = 1) ∨ back = []) ∧
      ((∃ shape : Bracket, text = [shape.opening] ∨ text = [shape.closing]) →
        (r.diagnostic source).carets = 1) := by
  obtain ⟨hempty, -⟩ | ⟨text, hmarks⟩ := marks_of_scan h
  · exact absurd hempty hne
  · obtain ⟨front, back, hsource, hcolumn, hcarets⟩ := hmarks.carets hne hline
    obtain ⟨hle, hsame⟩ := length_le_utf8ByteSize text
    have hiff : (r.diagnostic source).carets = text.length ↔
        (∀ c ∈ text, c.utf8Size = 1) ∨ back = [] := by
      rw [hcarets, ← hsame, ← List.length_eq_zero_iff]
      omega
    refine ⟨front, text, back, hsource, hmarks.concerns, hcolumn, hcarets, hiff, ?_⟩
    rintro ⟨shape, rfl | rfl⟩
    · exact hiff.2 (.inl (List.forall_mem_singleton.2 shape.utf8Size.1))
    · exact hiff.2 (.inl (List.forall_mem_singleton.2 shape.utf8Size.2))

theorem carets_of_scan_last :
    ∃ r, scan "y + é" = .error r ∧ r.fault.Concerns ['é'] ∧
      (r.diagnostic "y + é").carets = ['é'].length := by
  have hscan : scan "y + é" = .error (.spanning (.unknownCharacter 'é') ⟨4, 6, 1, 5⟩) := by cbv
  obtain ⟨front, text, back, hsource, rfl, hcolumn, -, hiff, -⟩ :=
    carets_of_scan hscan (by decide) (by simp)
  have hfront : 5 = front.length + 1 := hcolumn
  have hlength : 5 = front.length + (back.length + 1) := by
    simpa using congrArg List.length hsource
  exact ⟨_, hscan, rfl, hiff.2 (.inr (List.length_eq_zero_iff.1 (by omega)))⟩

theorem carets_of_wide :
    (∃ r, scan "é x" = .error r ∧ r.fault = .unknownCharacter 'é' ∧
      (r.diagnostic "é x").carets = 2) ∧
    ∃ r, scan ".é x" = .error r ∧ r.fault = .unreadableNumber ".é " ∧
      (r.diagnostic ".é x").carets = 4 := by
  exact ⟨⟨.spanning (.unknownCharacter 'é') ⟨0, 2, 1, 1⟩, by cbv, rfl, rfl⟩,
    ⟨.spanning (.unreadableNumber ".é ") ⟨0, 4, 1, 1⟩, by cbv, rfl, rfl⟩⟩

end Token

end Formulary
