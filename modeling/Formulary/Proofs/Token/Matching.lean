import Formulary.Proofs.Token.Brackets
import Formulary.Proofs.Token.Places

/-!
# Matching brackets

Behind each token the brackets of a text are matched, except for those that are open. So all of
them are matched once a scan succeeds. A scan that comes to the end with open brackets is rejected
for the innermost one. What a parenthesis opens depends on the token in front of it alone.
-/
namespace Formulary.Token

/-- Each bracket and the one that closes it, with other tokens around and between them. A group
may be closed by a bracket of another shape. -/
inductive Matched : List Token → Prop
  | nil : Matched []
  | plain {t : Token} : t.kind.isBracket = false → Matched [t]
  | parameters {start stop : Span} {ts : List Token} : Matched ts →
      Matched (⟨.paramOpen, start⟩ :: (ts ++ [⟨.paramClose, stop⟩]))
  | group {shape shape' : Bracket} {start stop : Span} {ts : List Token} : Matched ts →
      Matched (⟨.groupOpen shape, start⟩ :: (ts ++ [⟨.groupClose shape', stop⟩]))
  | append {ts us : List Token} : Matched ts → Matched us → Matched (ts ++ us)

inductive Unclosed : List Opening → List Token → Prop
  | none {ts : List Token} : Matched ts → Unclosed [] ts
  | parameters {outer : List Opening} {before after : List Token} {start : Span} :
      Unclosed outer before → Matched after →
      Unclosed (⟨.parameters, start⟩ :: outer) (before ++ ⟨.paramOpen, start⟩ :: after)
  | group {outer : List Opening} {before after : List Token} {shape : Bracket} {start : Span} :
      Unclosed outer before → Matched after →
      Unclosed (⟨.group, start⟩ :: outer) (before ++ ⟨.groupOpen shape, start⟩ :: after)

section
variable {opened left : List Opening} {ts us : List Token}

theorem Unclosed.append (h : Unclosed opened ts) (hus : Matched us) :
    Unclosed opened (ts ++ us) := by
  cases h with
  | none hts => exact .none (hts.append hus)
  | parameters houter hafter =>
    rw [List.append_assoc]
    exact .parameters houter (hafter.append hus)
  | group houter hafter =>
    rw [List.append_assoc]
    exact .group houter (hafter.append hus)

theorem Unclosed.closeParameters (h : Unclosed opened ts)
    (ho : (opened.map (·.enclosure)).head? = some .parameters) (stop : Span) :
    Unclosed opened.tail (ts ++ [⟨.paramClose, stop⟩]) := by
  cases h with
  | none => simp at ho
  | parameters houter hafter =>
    rw [List.append_assoc]
    exact houter.append hafter.parameters
  | group => simp at ho

theorem Unclosed.closeGroup (h : Unclosed opened ts)
    (ho : (opened.map (·.enclosure)).head? = some .group) (shape : Bracket) (stop : Span) :
    Unclosed opened.tail (ts ++ [⟨.groupClose shape, stop⟩]) := by
  cases h with
  | none => simp at ho
  | parameters => simp at ho
  | group houter hafter =>
    rw [List.append_assoc]
    exact houter.append hafter.group

theorem unclosed_track {previous : Option Kind} {t : Token} (h : Unclosed opened ts)
    (hfits : t.kind.Fits previous (opened.map (·.enclosure))) :
    Unclosed (track opened t) (ts ++ [t]) := by
  obtain ⟨kind, s⟩ := t
  cases kind with
  | paramOpen => exact .parameters h .nil
  | groupOpen shape => exact .group h .nil
  | paramClose => exact h.closeParameters hfits s
  | groupClose shape => exact h.closeGroup hfits shape s
  | number | identifier | equals | operator | comma => exact h.append (.plain rfl)

theorem Passes.unclosed {previous : Option Kind} {p : Position} {cs : List Char}
    {before : List Token} (h : Passes previous opened p cs ts left)
    (hbefore : Unclosed opened before) : Unclosed left (before ++ ts) := by
  induction h generalizing before with
  | done =>
    rw [List.append_nil]
    exact hbefore
  | space _ _ ih => exact ih hbefore
  | token _ hl _ ih =>
    rw [← List.head?_map] at hl
    rw [List.append_cons]
    exact ih (unclosed_track hbefore (lexes_of_lexeme hl).fits)

theorem Unclosed.innermost {o : Opening} {outer : List Opening} (h : Unclosed (o :: outer) ts) :
    ∃ before t after, ts = before ++ t :: after ∧
      (t.kind = .paramOpen ∨ ∃ shape, t.kind = .groupOpen shape) ∧ t.span = o.span ∧
      Matched after := by
  cases h with
  | parameters _ hafter => exact ⟨_, _, _, rfl, .inl rfl, rfl, hafter⟩
  | group _ hafter => exact ⟨_, _, _, rfl, .inr ⟨_, rfl⟩, rfl, hafter⟩

end

theorem passes_of_leftOpen {previous : Option Kind} {opened : List Opening} {p : Position}
    {cs : List Char} {r : Rejection} (h : Halts r previous opened p cs)
    (hr : r.fault = .bracketLeftOpen) :
    ∃ ts o outer, Passes previous opened p cs ts (o :: outer) ∧
      r = .spanning .bracketLeftOpen o.span := by
  induction h with
  | bracket hspan => exact ⟨_, _, _, .done, hspan⟩
  | space hspace _ ih =>
    obtain ⟨ts, o, outer, hpasses, hspan⟩ := ih
    exact ⟨ts, o, outer, .space hspace hpasses, hspan⟩
  | lexeme _ hl =>
    obtain ⟨text, hspoils⟩ := spoils_of_lexeme hl
    exact absurd hr hspoils.inside
  | token hspace hl _ ih =>
    obtain ⟨ts, o, outer, hpasses, hspan⟩ := ih
    exact ⟨_, o, outer, .token hspace hl hpasses, hspan⟩

section
variable {kind : Kind} {front cs : List Char} {ts : List Token}

theorem eq_of_singleton {a b : List Char} {c : Char} {text : String}
    (h : ∃ d, a ++ c :: b = [d] ∧ text = String.singleton d) :
    a = [] ∧ b = [] ∧ text = String.singleton c := by
  obtain ⟨d, hd, rfl⟩ := h
  rcases List.append_eq_singleton_iff.1 hd with ⟨rfl, hb⟩ | ⟨-, hb⟩
  · obtain ⟨rfl, rfl⟩ := List.cons.inj hb
    exact ⟨rfl, rfl, rfl⟩
  · exact absurd hb (List.cons_ne_nil _ _)

theorem Kind.Reads.parenthesis {a b back : List Char} (h : kind.Reads (a ++ '(' :: b) back) :
    a = [] ∧ b = [] ∧ (kind = .paramOpen ∨ kind = .groupOpen .round) := by
  have hmem : '(' ∈ a ++ '(' :: b := List.mem_append_right _ List.mem_cons_self
  cases kind with
  | number value =>
    obtain ⟨n, hformed, hspelling, -⟩ := h.numeral
    rw [← hspelling] at hmem
    exact absurd (hformed.mem_spelling hmem) (by decide)
  | identifier name =>
    exact absurd (h.continues hmem) (by decide)
  | paramOpen =>
    obtain ⟨ha, hb, -⟩ := eq_of_singleton h
    exact ⟨ha, hb, .inl rfl⟩
  | groupOpen shape =>
    obtain ⟨ha, hb, hshape⟩ := eq_of_singleton h
    cases shape with
    | round => exact ⟨ha, hb, .inr rfl⟩
    | square | curly => exact absurd hshape (by decide)
  | operator op =>
    obtain ⟨-, -, hop⟩ := eq_of_singleton h
    cases op <;> exact absurd hop (by decide)
  | groupClose shape =>
    obtain ⟨-, -, hshape⟩ := eq_of_singleton h
    cases shape <;> exact absurd hshape (by decide)
  | equals | comma | paramClose =>
    obtain ⟨-, -, htext⟩ := eq_of_singleton h
    exact absurd htext (by decide)

theorem Tiles.reads (h : Tiles front cs ts) {a b : List Char} {c : Char}
    (hcs : cs = a ++ c :: b) (hc : isSpace c = false) :
    ∃ before t after outer x y back, ts = before ++ t :: after ∧ front ++ a = outer ++ x ∧
      b = y ++ back ∧ t.span = (Position.after {} outer).spanOver (x ++ c :: y) ∧
      t.kind.Reads (x ++ c :: y) back := by
  induction h generalizing a with
  | done => simp at hcs
  | @space front d cs ts hspace _ ih =>
    cases a with
    | nil =>
      obtain ⟨rfl, -⟩ := List.cons.inj hcs
      simp [hspace] at hc
    | cons d' a =>
      obtain ⟨rfl, hrest⟩ := List.cons.inj hcs
      obtain ⟨before, t, after, outer, x, y, back, hts, hfront, hstands⟩ := ih hrest
      rw [← List.append_cons] at hfront
      exact ⟨before, t, after, outer, x, y, back, hts, hfront, hstands⟩
  | @token front text cs kind ts _ hreads _ ih =>
    -- the character stands behind the text of this token, or in it
    rcases append_eq_append_cons hcs with ⟨d, rfl, hrest⟩ | ⟨y, rfl, rfl⟩
    · obtain ⟨before, t, after, outer, x, y, back, rfl, hfront, hstands⟩ := ih hrest
      rw [List.append_assoc] at hfront
      exact ⟨_ :: before, t, after, outer, x, y, back, rfl, hfront, hstands⟩
    · exact ⟨[], _, ts, front, a, y, cs, rfl, rfl, rfl, rfl, hreads⟩

theorem Tiles.brackets (h : Tiles front cs ts) : ∀ t ∈ ts, t.kind.isBracket = true →
    t.span.Covers (front ++ cs) t.kind.text.toList := by
  induction h with
  | done => exact fun t ht => absurd ht List.not_mem_nil
  | space _ _ ih =>
    rw [List.append_cons]
    exact ih
  | token _ hreads _ ih =>
    rw [List.append_assoc] at ih
    refine List.forall_mem_cons.2 ⟨fun hk => ?_, ih⟩
    rw [← hreads.bracket hk]
    exact ⟨_, _, rfl, rfl⟩

end

structure Bracketed (source : String) (ts : List Token) : Prop where
  matched : Matched ts
  written : ∀ t ∈ ts, t.kind.isBracket = true → t.span.Covers source.toList t.kind.text.toList
  round : ∀ front back, source.toList = front ++ '(' :: back → ∃ before t after,
    ts = before ++ t :: after ∧ t.span = (Position.after {} front).spanOver ['('] ∧
      (t.kind = .paramOpen ∨ t.kind = .groupOpen .round) ∧
      (t.kind = .paramOpen ↔ ∃ u ∈ before.getLast?, ∃ name, u.kind = .identifier name)

theorem followsIdentifier_iff {before : List Token} :
    followsIdentifier (before.getLast?.map (·.kind)) = true ↔
      ∃ u ∈ before.getLast?, ∃ name, u.kind = .identifier name := by
  cases before.getLast? with
  | none => simp [followsIdentifier]
  | some u => cases hu : u.kind <;> simp [followsIdentifier, hu]

theorem bracketed_of_scan {source : String} {ts : List Token} (h : scan source = .ok ts) :
    Bracketed source ts where
  matched := by
    have hnone : Unclosed [] ([] ++ ts) := (scans_of_scan h).passes.unclosed (.none .nil)
    cases hnone with
    | none hts => exact hts
  written := (tiles_of_scan h).brackets
  round := by
    intro front back hsource
    obtain ⟨before, t, after, outer, x, y, rest, rfl, hfront, -, hspan, hreads⟩ :=
      (tiles_of_scan h).reads hsource (by decide)
    obtain ⟨rfl, rfl, hkind⟩ := hreads.parenthesis
    obtain rfl : front = outer := by simpa using hfront
    have hfits := (nested_of_scan h).fits
    rw [lastKind, Option.or_none] at hfits
    refine ⟨before, t, after, rfl, hspan, hkind, ?_⟩
    rw [← followsIdentifier_iff]
    rcases hkind with hkind | hkind
    · rw [hkind] at hfits
      exact iff_of_true hkind hfits
    · rw [hkind] at hfits
      have hfollows : followsIdentifier (before.getLast?.map (·.kind)) = false := hfits
      exact iff_of_false (by simp [hkind]) (Bool.eq_false_iff.1 hfollows)

/-- Once a scan succeeds its brackets are matched. If it comes to the end with open brackets, it is
rejected for the innermost of them, behind which all are matched. -/
theorem brackets_of_scan (source : String) :
    (∀ ts, scan source = .ok ts → Bracketed source ts) ∧
    (∀ ts opened, Passes none [] {} source.toList ts opened → opened ≠ [] →
      ∃ before t after r, ts = before ++ t :: after ∧
        (t.kind = .paramOpen ∨ ∃ shape, t.kind = .groupOpen shape) ∧ Matched after ∧
        t.span.Covers source.toList t.kind.text.toList ∧ scan source = .error r ∧
        r.place = .span t.span ∧
        r.fault.message = "Bracket mismatch: bracket is never closed") ∧
    ∀ r, scan source = .error r → r.fault = .bracketLeftOpen →
      ∃ ts opened, Passes none [] {} source.toList ts opened ∧ opened ≠ [] := by
  refine ⟨fun ts h => bracketed_of_scan h, fun ts opened h hopened => ?_, fun r h hr => ?_⟩
  · obtain ⟨o, outer, rfl⟩ := List.exists_cons_of_ne_nil hopened
    have hne : source ≠ "" := by
      rintro rfl
      have hempty : Passes none [] {} [] ts (o :: outer) := h
      cases hempty
    obtain ⟨before, t, after, hts, hopens, hspan, hafter⟩ : ∃ before t after,
        [] ++ ts = before ++ t :: after ∧ _ := (h.unclosed (.none .nil)).innermost
    rw [List.nil_append] at hts
    subst hts
    have htiles : Tiles [] source.toList (before ++ t :: after) := h.tiles rfl
    have hbracket : t.kind.isBracket = true := by
      rcases hopens with hkind | ⟨shape, hkind⟩ <;> rw [hkind] <;> rfl
    have hscan : scan source = .error (.spanning .bracketLeftOpen t.span) := by
      rw [scan, if_neg hne, h.scanFrom_eq, hspan]
    exact ⟨before, t, after, _, rfl, hopens, hafter,
      htiles.brackets t (List.mem_append_right _ List.mem_cons_self) hbracket, hscan, rfl, rfl⟩
  · rw [scan] at h
    split at h
    · obtain rfl := Except.error.inj h
      cases hr
    · obtain ⟨ts, o, outer, hpasses, -⟩ := passes_of_leftOpen (halts_of_scanFrom h) hr
      exact ⟨ts, _, hpasses, List.cons_ne_nil _ _⟩

theorem brackets_of_scan_mixed :
    (∃ ts, scan "f(x)*[y\x7d" = .ok ts ∧ Bracketed "f(x)*[y\x7d" ts) ∧
    ∃ before t after opened, Passes none [] {} "g([x".toList (before ++ t :: after) opened ∧
      t.span = ⟨2, 3, 1, 3⟩ ∧ Matched after := by
  have hclosed : scan "f(x)*[y\x7d" = .ok [⟨.identifier "f", ⟨0, 1, 1, 1⟩⟩,
      ⟨.paramOpen, ⟨1, 2, 1, 2⟩⟩, ⟨.identifier "x", ⟨2, 3, 1, 3⟩⟩, ⟨.paramClose, ⟨3, 4, 1, 4⟩⟩,
      ⟨.operator .multiply, ⟨4, 5, 1, 5⟩⟩, ⟨.groupOpen .square, ⟨5, 6, 1, 6⟩⟩,
      ⟨.identifier "y", ⟨6, 7, 1, 7⟩⟩, ⟨.groupClose .curly, ⟨7, 8, 1, 8⟩⟩] := by cbv
  have hopen : scan "g([x" = .error (.spanning .bracketLeftOpen ⟨2, 3, 1, 3⟩) := by cbv
  refine ⟨⟨_, hclosed, (brackets_of_scan _).1 _ hclosed⟩, ?_⟩
  obtain ⟨-, hrejected, hpasses⟩ := brackets_of_scan "g([x"
  obtain ⟨ts, opened, hpasses, hne⟩ := hpasses _ hopen rfl
  obtain ⟨before, t, after, r, rfl, -, hafter, -, hscan, hplace, -⟩ :=
    hrejected ts opened hpasses hne
  rw [hopen] at hscan
  obtain rfl := Except.error.inj hscan
  exact ⟨before, t, after, opened, hpasses, (Place.span.inj hplace).symm, hafter⟩

end Formulary.Token
