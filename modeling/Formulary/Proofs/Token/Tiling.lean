import Formulary.Proofs.Decimal.Nearest
import Formulary.Proofs.Decimal.Numeral
import Formulary.Proofs.Token.Scan
import Mathlib

/-!
# Tokens tile a text

A text that is scanned is made of tokens and spaces, one behind the other. Each token stands
where its span says and reads what stands there, as far as it goes.
-/
namespace Formulary

theorem Position.after_offset (p : Position) (text : List Char) :
    (p.after text).offset = p.offset + (String.ofList text).utf8ByteSize := by
  induction text generalizing p with
  | nil => rfl
  | cons c rest ih =>
    rw [after_cons, ih, next_offset, String.ofList_cons, String.utf8ByteSize_append,
      String.utf8ByteSize_singleton]
    omega

theorem Position.after_eq (front : List Char) : ({} : Position).after front =
    ⟨(String.ofList front).utf8ByteSize, 1 + front.count '\n',
      1 + (front.reverse.takeWhile (· ≠ '\n')).length⟩ := by
  induction front using List.reverseRecOn with
  | nil => rfl
  | append_singleton front c ih =>
    have hoffset := after_offset {} (front ++ [c])
    rw [after_concat, ih] at hoffset ⊢
    by_cases hc : c = '\n'
    · subst hc
      simp [next] at hoffset ⊢
      omega
    · simp [next, hc] at hoffset ⊢
      omega

namespace Token

/-- What a token reads in the characters that it takes up, with others behind them. -/
def Kind.Reads (text back : List Char) : Kind → Prop
  | .number value => ∃ n : Decimal.Numeral,
      (∀ m : Decimal.Numeral, m.Formed ∧ m.spelling = text ↔ m = n) ∧ n.Ends back ∧
        Decimal.Rounds (n.sign = some .minus) n.magnitude (.ofFloat value)
  | .identifier name => name.toList = text ∧
      (∃ c rest, text = c :: rest ∧ startsIdentifier c = true ∧
        ∀ d ∈ rest, continuesIdentifier d = true) ∧
      ∀ d ∈ back.head?, continuesIdentifier d = false
  | kind => ∃ c, text = [c] ∧ kind.text = String.singleton c

/-- The token is what stands in the source where its span says. Lines and columns count from
one. -/
def StandsIn (source : String) (t : Token) : Prop :=
  ∃ front text back : String, source = front ++ text ++ back ∧
    t.span.start = front.utf8ByteSize ∧ t.span.stop = (front ++ text).utf8ByteSize ∧
    t.span.line = 1 + front.toList.count '\n' ∧
    t.span.column = 1 + (front.toList.reverse.takeWhile (· ≠ '\n')).length ∧
    t.kind.Reads text.toList back.toList

section
variable {previous : Option Kind} {innermost : Option Enclosure} {p : Position} {c : Char}
  {rest text : List Char} {kind : Kind}

theorem Singles.reads (h : Singles previous innermost c kind) (back : List Char) :
    kind.Reads [c] back := by
  cases h <;> exact ⟨_, rfl, rfl⟩

theorem Lexes.reads (h : Lexes previous innermost p c rest kind text) :
    ∃ back, c :: rest = text ++ back ∧ text ≠ [] ∧ kind.Reads text back := by
  cases h with
  | @numeral n left hread =>
    obtain ⟨hcs, hformed, hends⟩ := Decimal.Numeral.read?_iff.1 hread
    refine ⟨left, hcs, hformed.spelling_ne_nil, n, fun m => ⟨fun hm => ?_, ?_⟩, hends,
      n.value_rounds⟩
    · exact hm.1.eq_of_spelling hformed hm.2
    · rintro rfl
      exact ⟨hformed, rfl⟩
  | identifier hstarts =>
    obtain ⟨hrest, hname, hback⟩ := takeWhile_dropWhile_iff.1
      (⟨rfl, rfl⟩ : rest.takeWhile continuesIdentifier = _ ∧ _)
    refine ⟨_, congrArg (c :: ·) hrest, List.cons_ne_nil _ _, String.toList_ofList, ?_, hback⟩
    exact ⟨c, _, rfl, hstarts, hname⟩
  | single hsingle => exact ⟨rest, rfl, List.cons_ne_nil _ _, (single_eq_ok.1 hsingle).reads rest⟩

theorem drop_of_cons_eq {back : List Char} (h : c :: rest = text ++ back) (hne : text ≠ []) :
    rest.drop (text.length - 1) = back := by
  cases text with
  | nil => exact absurd rfl hne
  | cons d text =>
    obtain ⟨-, rfl⟩ := List.cons.inj h
    simp

end

inductive Tiles : List Char → List Char → List Token → Prop
  | done {front : List Char} : Tiles front [] []
  | space {front : List Char} {c : Char} {cs : List Char} {ts : List Token} : isSpace c = true →
      Tiles (front ++ [c]) cs ts → Tiles front (c :: cs) ts
  | token {front text cs : List Char} {kind : Kind} {ts : List Token} : text ≠ [] →
      kind.Reads text cs → Tiles (front ++ text) cs ts →
      Tiles front (text ++ cs) (⟨kind, (Position.after {} front).spanOver text⟩ :: ts)

theorem Passes.tiles {previous : Option Kind} {opened left : List Opening} {p : Position}
    {cs : List Char} {ts : List Token} (h : Passes previous opened p cs ts left)
    {front : List Char} (hp : p = Position.after {} front) : Tiles front cs ts := by
  induction h generalizing front with
  | done => exact .done
  | space hspace _ ih =>
    apply Tiles.space hspace
    apply ih
    rw [hp, Position.after_concat]
  | token _ hl _ ih =>
    obtain ⟨back, hcs, hne, hreads⟩ := (lexes_of_lexeme hl).reads
    rw [drop_of_cons_eq hcs hne] at ih
    rw [hcs, hp]
    apply Tiles.token hne hreads
    apply ih
    rw [hp, Position.after_append]

theorem tiles_of_scan {source : String} {ts : List Token} (h : scan source = .ok ts) :
    Tiles [] source.toList ts := (scans_of_scan h).passes.tiles rfl

section
variable {front cs : List Char} {ts : List Token}

theorem spanOver_start (front text : List Char) :
    ((Position.after {} front).spanOver text).start = (String.ofList front).utf8ByteSize := by
  rw [Position.spanOver, Position.after_eq]

theorem spanOver_stop (front text : List Char) :
    ((Position.after {} front).spanOver text).stop =
      (String.ofList (front ++ text)).utf8ByteSize := by
  change ((Position.after {} front).after text).offset = _
  rw [← Position.after_append, Position.after_eq]

theorem standsIn_of_reads {text back : List Char} {kind : Kind} (h : kind.Reads text back) :
    StandsIn (String.ofList (front ++ (text ++ back)))
      ⟨kind, (Position.after {} front).spanOver text⟩ := by
  refine ⟨String.ofList front, String.ofList text, String.ofList back, ?_, spanOver_start _ _,
    ?_, ?_, ?_, ?_⟩
  · rw [String.ofList_append, String.ofList_append, String.append_assoc]
  · rw [spanOver_stop, String.ofList_append]
  · rw [Position.spanOver, Position.after_eq, String.toList_ofList]
  · rw [Position.spanOver, Position.after_eq, String.toList_ofList]
  · rw [String.toList_ofList, String.toList_ofList]
    exact h

theorem Tiles.standsIn (h : Tiles front cs ts) :
    ∀ t ∈ ts, t.StandsIn (String.ofList (front ++ cs)) := by
  induction h with
  | done => exact fun t ht => absurd ht List.not_mem_nil
  | space _ _ ih =>
    rw [List.append_cons]
    exact ih
  | token _ hreads _ ih =>
    rw [List.append_assoc] at ih
    exact List.forall_mem_cons.2 ⟨standsIn_of_reads hreads, ih⟩

theorem utf8ByteSize_append_list (a b : List Char) : (String.ofList (a ++ b)).utf8ByteSize =
    (String.ofList a).utf8ByteSize + (String.ofList b).utf8ByteSize := by
  rw [String.ofList_append, String.utf8ByteSize_append]

theorem Tiles.le_start (h : Tiles front cs ts) :
    ∀ t ∈ ts, (String.ofList front).utf8ByteSize ≤ t.span.start := by
  induction h with
  | done => exact fun t ht => absurd ht List.not_mem_nil
  | space _ _ ih =>
    rw [utf8ByteSize_append_list] at ih
    exact fun t ht => Nat.le_trans (Nat.le_add_right _ _) (ih t ht)
  | token _ _ _ ih =>
    rw [utf8ByteSize_append_list] at ih
    refine List.forall_mem_cons.2 ⟨Nat.le_of_eq (spanOver_start _ _).symm, fun t ht => ?_⟩
    exact Nat.le_trans (Nat.le_add_right _ _) (ih t ht)

theorem Tiles.ordered (h : Tiles front cs ts) :
    ts.Pairwise fun t u => t.span.stop ≤ u.span.start := by
  induction h with
  | done => exact .nil
  | space _ _ ih => exact ih
  | token _ _ hmore ih =>
    refine .cons (fun u hu => ?_) ih
    rw [spanOver_stop]
    exact hmore.le_start u hu

theorem utf8Size_of_isSpace {c : Char} (h : isSpace c = true) : c.utf8Size = 1 := by
  simp only [isSpace, Bool.or_eq_true, decide_eq_true_eq] at h
  rcases h with ((rfl | rfl) | rfl) | rfl <;> decide

theorem Tiles.covered (h : Tiles front cs ts) {n : Nat}
    (hlow : (String.ofList front).utf8ByteSize ≤ n)
    (hhigh : n < (String.ofList (front ++ cs)).utf8ByteSize) :
    (∃ t ∈ ts, t.span.start ≤ n ∧ n < t.span.stop) ∨
      ∃ before c after, front ++ cs = before ++ c :: after ∧
        (String.ofList before).utf8ByteSize = n ∧ isSpace c = true := by
  induction h with
  | done =>
    rw [List.append_nil] at hhigh
    omega
  | @space front c cs ts hspace _ ih =>
    have hsize : (String.ofList (front ++ [c])).utf8ByteSize =
        (String.ofList front).utf8ByteSize + 1 := by
      rw [utf8ByteSize_append_list, ← String.singleton_eq_ofList, String.utf8ByteSize_singleton,
        utf8Size_of_isSpace hspace]
    by_cases hn : (String.ofList front).utf8ByteSize = n
    · exact .inr ⟨front, c, cs, rfl, hn, hspace⟩
    · rw [List.append_cons] at hhigh ⊢
      exact ih (by omega) hhigh
  | @token front text cs kind ts _ _ _ ih =>
    by_cases hn : n < (String.ofList (front ++ text)).utf8ByteSize
    · refine .inl ⟨_, List.mem_cons_self, ?_, ?_⟩
      · rw [spanOver_start]
        exact hlow
      · rw [spanOver_stop]
        exact hn
    · rw [← List.append_assoc] at hhigh ⊢
      rcases ih (Nat.le_of_not_lt hn) hhigh with ⟨t, ht, hcovers⟩ | hspace
      · exact .inl ⟨t, List.mem_cons_of_mem _ ht, hcovers⟩
      · exact .inr hspace

end

theorem Kind.Reads.numeral {value : Float} {text back : List Char}
    (h : (Kind.number value).Reads text back) :
    ∃ n : Decimal.Numeral, n.Formed ∧ n.spelling = text ∧ n.Ends back := by
  obtain ⟨n, hn, hends, -⟩ := h
  obtain ⟨hformed, hspelling⟩ := (hn n).2 rfl
  exact ⟨n, hformed, hspelling, hends⟩

theorem continuesIdentifier_of_starts {c : Char} (h : startsIdentifier c = true) :
    continuesIdentifier c = true := by
  simp only [startsIdentifier, Bool.or_eq_true, decide_eq_true_eq] at h
  rcases h with h | h <;> simp [continuesIdentifier, Char.isAlphanum, h]

theorem Kind.Reads.continues {name : String} {text back : List Char}
    (h : (Kind.identifier name).Reads text back) {c : Char} (hc : c ∈ text) :
    continuesIdentifier c = true := by
  obtain ⟨-, ⟨d, rest, rfl, hstarts, hcontinues⟩, -⟩ := h
  rcases List.mem_cons.1 hc with rfl | hc
  · exact continuesIdentifier_of_starts hstarts
  · exact hcontinues c hc

theorem Kind.Reads.ne_nil {text back : List Char} {kind : Kind} (h : kind.Reads text back) :
    text ≠ [] := by
  rintro rfl
  cases kind with
  | number value =>
    obtain ⟨n, hformed, hnil, -⟩ := h.numeral
    exact hformed.spelling_ne_nil hnil
  | identifier name =>
    obtain ⟨-, ⟨c, rest, hnil, -⟩, -⟩ := h
    simp at hnil
  | _ =>
    obtain ⟨c, hnil, -⟩ := h
    simp at hnil

theorem StandsIn.bounds {source : String} {t : Token} (h : t.StandsIn source) :
    t.span.start < t.span.stop ∧ t.span.stop ≤ source.utf8ByteSize := by
  obtain ⟨front, text, back, rfl, hstart, hstop, -, -, hreads⟩ := h
  have hpos : text.utf8ByteSize ≠ 0 := by
    rw [Ne, String.utf8ByteSize_eq_zero_iff]
    rintro rfl
    exact hreads.ne_nil rfl
  rw [hstart, hstop, String.utf8ByteSize_append, String.utf8ByteSize_append,
    String.utf8ByteSize_append]
  omega

/-- The tokens of a text stand in it one behind the other, each where its span says, and what is
not theirs is space. -/
theorem scan_tiles {source : String} {tokens : List Token} (h : scan source = .ok tokens) :
    (∀ t ∈ tokens, t.StandsIn source ∧ t.span.start < t.span.stop ∧
      t.span.stop ≤ source.utf8ByteSize) ∧
    tokens.Pairwise (fun t u => t.span.stop ≤ u.span.start) ∧
    ∀ n < source.utf8ByteSize, (∃ t ∈ tokens, t.span.start ≤ n ∧ n < t.span.stop) ∨
      ∃ front c back, source = front ++ String.singleton c ++ back ∧ front.utf8ByteSize = n ∧
        c ∈ [' ', '\t', '\r', '\n'] := by
  have htiles : Tiles [] source.toList tokens := (scans_of_scan h).passes.tiles rfl
  have hsource : String.ofList ([] ++ source.toList) = source := String.ofList_toList
  have hstands := htiles.standsIn
  rw [hsource] at hstands
  refine ⟨fun t ht => ⟨hstands t ht, (hstands t ht).bounds⟩, htiles.ordered, fun n hn => ?_⟩
  rw [← hsource] at hn
  rcases htiles.covered (Nat.zero_le n) hn with hcovers | ⟨before, c, after, hcs, hsize, hspace⟩
  · exact .inl hcovers
  · refine .inr ⟨String.ofList before, c, String.ofList after, ?_, hsize, ?_⟩
    · rw [← hsource, hcs, String.ofList_append, String.ofList_cons, String.append_assoc]
    · simpa [isSpace, or_assoc] using hspace

theorem scan_tiles_lines :
    let tokens : List Token := [⟨.identifier "f", ⟨0, 1, 1, 1⟩⟩, ⟨.paramOpen, ⟨1, 2, 1, 2⟩⟩,
      ⟨.identifier "x1", ⟨2, 4, 1, 3⟩⟩, ⟨.paramClose, ⟨4, 5, 1, 5⟩⟩, ⟨.equals, ⟨6, 7, 1, 7⟩⟩,
      ⟨.number (-0.00125), ⟨9, 17, 2, 2⟩⟩]
    scan "f(x1) =\n -12.5e-4" = .ok tokens ∧ (∀ t ∈ tokens, t.StandsIn "f(x1) =\n -12.5e-4") ∧
      ∃ front c back, "f(x1) =\n -12.5e-4" = front ++ String.singleton c ++ back ∧
        front.utf8ByteSize = 7 ∧ c ∈ [' ', '\t', '\r', '\n'] := by
  intro tokens
  have hscan : scan "f(x1) =\n -12.5e-4" = .ok tokens := by decide +kernel
  obtain ⟨hstands, -, hcovered⟩ := scan_tiles hscan
  refine ⟨hscan, fun t ht => (hstands t ht).1, (hcovered 7 (by decide)).resolve_left ?_⟩
  decide

end Token

end Formulary
