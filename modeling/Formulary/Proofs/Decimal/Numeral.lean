import Formulary.Decimal.Numeral

/-!
# Which numerals are read

A numeral is read to its last character: what follows would not continue it. So what is read
is known from the characters of the numeral and the one behind them. A sign is its first
character or follows the mark of its exponent.
-/
namespace Formulary

theorem takeWhile_dropWhile_iff {p : Char → Bool} {cs front rest : List Char} :
    cs.takeWhile p = front ∧ cs.dropWhile p = rest ↔
      cs = front ++ rest ∧ (∀ c ∈ front, p c = true) ∧ ∀ c ∈ rest.head?, p c = false := by
  constructor
  · intro h
    obtain ⟨rfl, rfl⟩ := h
    refine ⟨List.takeWhile_append_dropWhile.symm, List.all_eq_true.1 List.all_takeWhile, ?_⟩
    intro c hc
    have hnot := List.head?_dropWhile_not p cs
    rw [Option.mem_def.1 hc] at hnot
    exact hnot
  · intro h
    obtain ⟨rfl, hfront, hrest⟩ := h
    rw [List.takeWhile_append_of_pos hfront, List.dropWhile_append_of_pos hfront]
    cases rest with
    | nil => simp
    | cons c rest =>
      have hc : ¬ p c = true := by simpa using hrest c rfl
      simp [List.takeWhile_cons_of_neg hc, List.dropWhile_cons_of_neg hc]

theorem append_eq_append_cons {front back a b : List Char} {c : Char}
    (h : front ++ back = a ++ c :: b) :
    (∃ d, a = front ++ d ∧ back = d ++ c :: b) ∨ ∃ d, front = a ++ c :: d ∧ b = d ++ back := by
  rcases List.append_eq_append_iff.1 h with ⟨d, ha, hback⟩ | ⟨d, hfront, hd⟩
  · exact .inl ⟨d, ha, hback⟩
  · cases d with
    | nil => exact .inl ⟨[], by simpa using hfront.symm, hd.symm⟩
    | cons e d =>
      obtain ⟨rfl, rfl⟩ := List.cons.inj hd
      exact .inr ⟨d, hfront, rfl⟩

theorem append_eq_of_notMem {front back a b : List Char} {c : Char}
    (h : front ++ back = a ++ c :: b) (hc : c ∉ front) :
    ∃ d, a = front ++ d ∧ back = d ++ c :: b := by
  rcases append_eq_append_cons h with hback | ⟨d, rfl, -⟩
  · exact hback
  · exact absurd (List.mem_append_right _ List.mem_cons_self) hc

namespace Decimal

def Digits (cs : List Char) : Prop := ∀ c ∈ cs, c.isDigit = true

theorem Sign.not_isDigit (s : Sign) : s.char.isDigit = false := by cases s <;> rfl

theorem Sign.char_inj {s s' : Sign} (h : s.char = s'.char) : s = s' := by
  revert h
  cases s <;> cases s' <;> decide

theorem Digits.notMem {cs : List Char} (h : Digits cs) (s : Sign) : s.char ∉ cs :=
  fun hs => absurd (h _ hs) (by simp [s.not_isDigit])

structure Exponent.Formed (e : Exponent) : Prop where
  mark : e.mark = 'e' ∨ e.mark = 'E'
  digits : Digits e.digits
  nonempty : e.digits ≠ []

theorem Exponent.Formed.sign {e : Exponent} (h : e.Formed) {s : Sign} {a b : List Char}
    (hs : e.spelling = a ++ s.char :: b) : a = [e.mark] ∧ b = e.digits := by
  have hmark : e.mark ≠ s.char := by
    rcases h.mark with hmark | hmark
    all_goals
      rw [hmark]
      cases s <;> decide
  have hnot := h.digits.notMem s
  cases a with
  | nil => exact absurd (List.cons.inj hs).1 hmark
  | cons c a =>
    obtain ⟨rfl, hrest⟩ := List.cons.inj hs
    cases hsign : e.sign with
    | none =>
      rw [hsign] at hrest
      have hdigits : e.digits = a ++ s.char :: b := hrest
      exact absurd (hdigits ▸ List.mem_append_right _ List.mem_cons_self) hnot
    | some s' =>
      rw [hsign] at hrest
      cases a with
      | nil => exact ⟨rfl, (List.cons.inj hrest).2.symm⟩
      | cons d a =>
        have hdigits : e.digits = a ++ s.char :: b := (List.cons.inj hrest).2
        exact absurd (hdigits ▸ List.mem_append_right _ List.mem_cons_self) hnot

namespace Numeral

structure Formed (n : Numeral) : Prop where
  whole : Digits n.whole
  fraction : ∀ digits ∈ n.fraction, Digits digits
  nonempty : n.whole ≠ [] ∨ ∃ digits ∈ n.fraction, digits ≠ []
  exponent : ∀ e ∈ n.exponent, e.Formed

/-- The character would belong to the numeral. A mark for an exponent always does. -/
def Continues (n : Numeral) (c : Char) : Prop :=
  c.isDigit = true ∨ n.exponent = none ∧ (c = 'e' ∨ c = 'E' ∨ n.fraction = none ∧ c = '.')

def Ends (n : Numeral) (left : List Char) : Prop := ∀ c ∈ left.head?, ¬ n.Continues c

theorem sign?_signChars {s : Option Sign} {rest : List Char}
    (h : ∀ c ∈ rest.head?, c ≠ '+' ∧ c ≠ '-') : sign? (signChars s ++ rest) = (s, rest) := by
  cases s with
  | none =>
    cases rest with
    | nil => rfl
    | cons c rest =>
      obtain ⟨hplus, hminus⟩ := h c rfl
      simp [signChars, sign?, hplus, hminus]
  | some s => cases s <;> rfl

theorem ne_sign_of_isDigit {c : Char} (h : c.isDigit = true) : c ≠ '+' ∧ c ≠ '-' := by
  constructor
  · rintro rfl
    exact absurd h (by decide)
  · rintro rfl
    exact absurd h (by decide)

theorem Digits.head? {cs rest : List Char} (h : Digits cs) (hne : cs ≠ []) :
    ∀ c ∈ (cs ++ rest).head?, c.isDigit = true := by
  cases cs with
  | nil => exact absurd rfl hne
  | cons d cs => simpa using h d List.mem_cons_self

theorem mantissa?_eq_some {cs whole left : List Char} {fraction : Option (List Char)} :
    mantissa? cs = some (whole, fraction, left) ↔
      cs = whole ++ (fractionChars fraction ++ left) ∧ Digits whole ∧
        (∀ digits ∈ fraction, Digits digits) ∧
        (whole ≠ [] ∨ ∃ digits ∈ fraction, digits ≠ []) ∧
        ∀ c ∈ left.head?, c.isDigit = false ∧ (fraction = none → c ≠ '.') := by
  constructor
  · intro h
    rw [mantissa?] at h
    split at h
    · rename_i rest hdrop
      obtain ⟨hcs, hwhole, -⟩ := takeWhile_dropWhile_iff.1 ⟨rfl, hdrop⟩
      obtain ⟨hrest, hfraction, hleft⟩ :=
        takeWhile_dropWhile_iff.1 (⟨rfl, rfl⟩ : rest.takeWhile Char.isDigit = _ ∧ _)
      simp only at h
      split at h
      · simp at h
      · rename_i hne
        simp only [Option.some.injEq, Prod.mk.injEq] at h
        obtain ⟨rfl, rfl, rfl⟩ := h
        refine ⟨?_, hwhole, ?_, ?_, fun c hc => ⟨hleft c hc, by simp⟩⟩
        · rw [fractionChars, List.cons_append, ← hrest]
          exact hcs
        · intro digits hdigits
          obtain rfl := Option.some.inj hdigits
          exact hfraction
        · rw [Classical.not_and_iff_not_or_not] at hne
          simpa using hne
    · rename_i hpoint
      split at h
      · simp at h
      · rename_i hne
        simp only [Option.some.injEq, Prod.mk.injEq] at h
        obtain ⟨rfl, rfl, rfl⟩ := h
        obtain ⟨hcs, hwhole, hleft⟩ :=
          takeWhile_dropWhile_iff.1 (⟨rfl, rfl⟩ : cs.takeWhile Char.isDigit = _ ∧ _)
        refine ⟨hcs, hwhole, by simp, .inl hne, fun c hc => ⟨hleft c hc, fun _ hc' => ?_⟩⟩
        subst hc'
        obtain ⟨rest, hrest⟩ := List.head?_eq_some_iff.1 hc
        exact hpoint rest hrest
  · intro h
    obtain ⟨rfl, hwhole, hfraction, hne, hleft⟩ := h
    cases fraction with
    | none =>
      have hdigit : ∀ c ∈ left.head?, c.isDigit = false := fun c hc => (hleft c hc).1
      obtain ⟨htake, hdrop⟩ := takeWhile_dropWhile_iff.2 ⟨rfl, hwhole, hdigit⟩
      have hne : whole ≠ [] := by simpa using hne
      simp only [fractionChars, List.nil_append, mantissa?, htake, hdrop]
      split
      · exact absurd rfl ((hleft '.' rfl).2 rfl)
      · rw [if_neg hne]
    | some digits =>
      have hpoint : ∀ c ∈ ('.' :: (digits ++ left)).head?, c.isDigit = false := by simp
      obtain ⟨htake, hdrop⟩ := takeWhile_dropWhile_iff.2 ⟨rfl, hwhole, hpoint⟩
      obtain ⟨htake', hdrop'⟩ := takeWhile_dropWhile_iff.2
        ⟨rfl, hfraction digits rfl, fun c hc => (hleft c hc).1⟩
      have hne : ¬ (whole = [] ∧ digits = []) := by
        simpa [Classical.not_and_iff_not_or_not, -not_and] using hne
      simp only [fractionChars, List.cons_append, mantissa?, htake, hdrop, htake', hdrop', hne,
        ↓reduceIte]

theorem exponent?_eq_some {cs left : List Char} {exponent : Option Exponent} :
    exponent? cs = some (exponent, left) ↔
      cs = exponentChars exponent ++ left ∧ (∀ e ∈ exponent, e.Formed) ∧
        ∀ c ∈ left.head?, (exponent = none → c ≠ 'e' ∧ c ≠ 'E') ∧
          (exponent ≠ none → c.isDigit = false) := by
  constructor
  · intro h
    unfold exponent? at h
    split at h
    · rename_i mark rest
      split at h
      · rename_i hmark
        simp only at h
        obtain ⟨hsplit, hdigits, hleft⟩ := takeWhile_dropWhile_iff.1
          (⟨rfl, rfl⟩ : (sign? rest).2.takeWhile Char.isDigit = _ ∧ _)
        split at h
        · simp at h
        · rename_i hne
          simp only [Option.some.injEq, Prod.mk.injEq] at h
          obtain ⟨rfl, rfl⟩ := h
          refine ⟨?_, by simpa using ⟨hmark, hdigits, hne⟩, by simpa using hleft⟩
          simp only [exponentChars, Option.toList, List.flatMap_cons, List.flatMap_nil,
            Exponent.spelling, List.append_nil, List.cons_append, List.append_assoc, ← hsplit,
            sign?_spelling]
      · rename_i hmark
        simp only [Option.some.injEq, Prod.mk.injEq] at h
        obtain ⟨rfl, rfl⟩ := h
        simpa [exponentChars] using hmark
    · simp only [Option.some.injEq, Prod.mk.injEq] at h
      obtain ⟨rfl, rfl⟩ := h
      simp [exponentChars]
  · intro h
    obtain ⟨rfl, hformed, hleft⟩ := h
    cases exponent with
    | none =>
      cases left with
      | nil => rfl
      | cons c left =>
        have hc := (hleft c rfl).1 rfl
        simp [exponentChars, exponent?, hc]
    | some e =>
      obtain ⟨hmark, hdigits, hne⟩ := hformed e rfl
      have hsign : ∀ c ∈ (e.digits ++ left).head?, c ≠ '+' ∧ c ≠ '-' :=
        fun c hc => ne_sign_of_isDigit (Digits.head? hdigits hne c hc)
      obtain ⟨htake, hdrop⟩ := takeWhile_dropWhile_iff.2
        ⟨rfl, hdigits, fun c hc => (hleft c hc).2 (by simp)⟩
      simp [exponentChars, Exponent.spelling, exponent?, hmark, sign?_signChars hsign, htake,
        hdrop, hne]

theorem read?_eq_some {cs left : List Char} {n : Numeral} :
    read? cs = some (n, left) ↔ ∃ rest rest', sign? cs = (n.sign, rest) ∧
      mantissa? rest = some (n.whole, n.fraction, rest') ∧
      exponent? rest' = some (n.exponent, left) := by
  obtain ⟨sign, whole, fraction, exponent⟩ := n
  constructor
  · intro h
    obtain ⟨⟨_, _, rest'⟩, hmantissa, h⟩ := Option.bind_eq_some_iff.1 h
    obtain ⟨⟨_, _⟩, hexponent, h⟩ := Option.bind_eq_some_iff.1 h
    obtain ⟨hn, rfl⟩ := Prod.mk.inj (Option.some.inj h)
    obtain ⟨rfl, rfl, rfl, rfl⟩ := Numeral.mk.inj hn
    exact ⟨_, rest', rfl, hmantissa, hexponent⟩
  · intro h
    obtain ⟨rest, rest', hsign, hmantissa, hexponent⟩ := h
    simp only at hsign hmantissa hexponent
    simp [read?, hsign, hmantissa, hexponent]

theorem Formed.ne_sign {n : Numeral} (h : n.Formed) (more : List Char) :
    ∀ c ∈ (n.whole ++ (fractionChars n.fraction ++ more)).head?, c ≠ '+' ∧ c ≠ '-' := by
  intro c hc
  by_cases hwhole : n.whole = []
  · obtain ⟨digits, hdigits, -⟩ := h.nonempty.resolve_left (absurd hwhole)
    rw [hwhole, Option.mem_def.1 hdigits] at hc
    obtain rfl := Option.some.inj hc
    exact ⟨by decide, by decide⟩
  · exact ne_sign_of_isDigit (Digits.head? h.whole hwhole c hc)

theorem Formed.ends_mantissa {n : Numeral} (h : n.Formed) {left : List Char} (hends : n.Ends left) :
    ∀ c ∈ (exponentChars n.exponent ++ left).head?,
      c.isDigit = false ∧ (n.fraction = none → c ≠ '.') := by
  intro c hc
  cases he : n.exponent with
  | none =>
    rw [he] at hc
    have hnot := hends c hc
    rw [Continues, not_or, Bool.not_eq_true] at hnot
    refine ⟨hnot.1, fun hnone hpoint => hnot.2 ⟨he, .inr (.inr ⟨hnone, hpoint⟩)⟩⟩
  | some e =>
    rw [he] at hc
    obtain rfl := Option.some.inj hc
    rcases (h.exponent e he).mark with hmark | hmark
    all_goals
      rw [hmark]
      exact ⟨by decide, fun _ => by decide⟩

theorem Ends.exponent {n : Numeral} {left : List Char} (hends : n.Ends left) :
    ∀ c ∈ left.head?, (n.exponent = none → c ≠ 'e' ∧ c ≠ 'E') ∧
      (n.exponent ≠ none → c.isDigit = false) := by
  intro c hc
  have hnot := hends c hc
  rw [Continues, not_or, Bool.not_eq_true] at hnot
  refine ⟨fun hnone => ⟨fun hlower => ?_, fun hupper => ?_⟩, fun _ => hnot.1⟩
  · exact hnot.2 ⟨hnone, .inl hlower⟩
  · exact hnot.2 ⟨hnone, .inr (.inl hupper)⟩

/-- A numeral is read as far as it goes, and no character further. -/
theorem read?_iff {cs left : List Char} {n : Numeral} :
    read? cs = some (n, left) ↔ cs = n.spelling ++ left ∧ n.Formed ∧ n.Ends left := by
  rw [read?_eq_some]
  constructor
  · intro h
    obtain ⟨_, _, hsign, hmantissa, hexponent⟩ := h
    obtain ⟨rfl, hwhole, hfraction, hne, hpoint⟩ := mantissa?_eq_some.1 hmantissa
    obtain ⟨rfl, hformed, hmark⟩ := exponent?_eq_some.1 hexponent
    refine ⟨?_, ⟨hwhole, hfraction, hne, hformed⟩, fun c hc hcontinues => ?_⟩
    · have hcs := sign?_spelling cs
      simp only [hsign] at hcs
      simp only [← hcs, spelling, List.append_assoc]
    · cases he : n.exponent with
      | none =>
        rw [he] at hpoint
        obtain ⟨hdigit, hpoint⟩ := hpoint c hc
        obtain ⟨hlower, hupper⟩ := (hmark c hc).1 he
        rcases hcontinues with hd | ⟨-, rfl | rfl | ⟨hnone, rfl⟩⟩
        · simp [hdigit] at hd
        · exact hlower rfl
        · exact hupper rfl
        · exact hpoint hnone rfl
      | some e =>
        have hdigit := (hmark c hc).2 (by simp [he])
        rcases hcontinues with hd | ⟨hnone, -⟩
        · simp [hdigit] at hd
        · simp [he] at hnone
  · intro h
    obtain ⟨rfl, hformed, hends⟩ := h
    refine ⟨_, _, ?_, mantissa?_eq_some.2 ⟨rfl, hformed.whole, hformed.fraction,
      hformed.nonempty, hformed.ends_mantissa hends⟩,
      exponent?_eq_some.2 ⟨rfl, hformed.exponent, hends.exponent⟩⟩
    simp only [spelling, List.append_assoc]
    exact sign?_signChars (hformed.ne_sign _)

theorem Formed.spelling_ne_nil {n : Numeral} (h : n.Formed) : n.spelling ≠ [] := by
  intro hnil
  simp only [spelling, List.append_eq_nil_iff] at hnil
  obtain ⟨-, hwhole, hfraction, -⟩ := hnil
  obtain ⟨digits, hdigits, -⟩ := h.nonempty.resolve_left (absurd hwhole)
  simp [Option.mem_def.1 hdigits, fractionChars] at hfraction

theorem Formed.mem_spelling {n : Numeral} (h : n.Formed) {c : Char} (hc : c ∈ n.spelling) :
    c.isDigit = true ∨ c ∈ ['+', '-', '.', 'e', 'E'] := by
  have hsign {s : Option Sign} (hc : c ∈ signChars s) : c ∈ ['+', '-', '.', 'e', 'E'] := by
    obtain ⟨s, -, rfl⟩ := List.mem_map.1 hc
    cases s <;> decide
  simp only [spelling, List.mem_append] at hc
  rcases hc with hc | hc | hc | hc
  · exact .inr (hsign hc)
  · exact .inl (h.whole c hc)
  · cases hf : n.fraction with
    | none => simp [hf, fractionChars] at hc
    | some digits =>
      rw [hf, fractionChars] at hc
      rcases List.mem_cons.1 hc with rfl | hc
      · exact .inr (by decide)
      · exact .inl (h.fraction digits hf c hc)
  · obtain ⟨e, he, hc⟩ := List.mem_flatMap.1 hc
    have hformed := h.exponent e (Option.mem_toList.1 he)
    rcases List.mem_cons.1 hc with rfl | hc
    · rcases hformed.mark with hmark | hmark <;> simp [hmark]
    · rcases List.mem_append.1 hc with hc | hc
      · exact .inr (hsign hc)
      · exact .inl (hformed.digits c hc)

def unsigned (n : Numeral) : Numeral := { n with sign := none }

theorem Formed.unsigned {n : Numeral} (h : n.Formed) : n.unsigned.Formed :=
  ⟨h.whole, h.fraction, h.nonempty, h.exponent⟩

def StartsUnsigned (cs : List Char) : Prop :=
  ∃ n left, cs = spelling n ++ left ∧ n.sign = none ∧ n.Formed ∧ n.Ends left

theorem Formed.notMem {n : Numeral} (h : n.Formed) (s : Sign) :
    s.char ∉ n.whole ++ fractionChars n.fraction := by
  intro hs
  rcases List.mem_append.1 hs with hs | hs
  · exact Digits.notMem h.whole s hs
  · cases hf : n.fraction with
    | none => simp [hf, fractionChars] at hs
    | some digits =>
      rw [hf, fractionChars] at hs
      rcases List.mem_cons.1 hs with hpoint | hs
      · cases s <;> exact absurd hpoint (by decide)
      · exact Digits.notMem (h.fraction digits hf) s hs

theorem Formed.sign {n : Numeral} (h : n.Formed) {s : Sign} {a b : List Char}
    (hs : n.spelling = a ++ s.char :: b) :
    a = [] ∧ n.sign = some s ∧ b = n.unsigned.spelling ∨
      ∃ e ∈ n.exponent, ∃ front, a = front ++ [e.mark] ∧ b = e.digits := by
  rcases append_eq_append_cons hs with ⟨d, rfl, hrest⟩ | ⟨d, hsign, rfl⟩
  · right
    rw [← List.append_assoc] at hrest
    obtain ⟨d', rfl, hexponent⟩ := append_eq_of_notMem hrest (h.notMem s)
    cases he : n.exponent with
    | none => simp [he, exponentChars] at hexponent
    | some e =>
      have hspelling : e.spelling = d' ++ s.char :: b := by
        simpa [he, exponentChars] using hexponent
      obtain ⟨rfl, rfl⟩ := (h.exponent e he).sign hspelling
      exact ⟨e, rfl, _, (List.append_assoc _ _ _).symm, rfl⟩
  · left
    cases hn : n.sign with
    | none => simp [hn, signChars] at hsign
    | some s' =>
      have hsingle : [s'.char] = a ++ s.char :: d := by simpa [hn, signChars] using hsign
      cases a with
      | nil =>
        obtain ⟨hchar, rfl⟩ := List.cons.inj hsingle
        exact ⟨rfl, congrArg some (Sign.char_inj hchar), rfl⟩
      | cons c a => simp at hsingle

theorem Formed.last {n : Numeral} (h : n.Formed) {a : List Char} {c : Char}
    (hc : n.spelling = a ++ [c]) : c.isDigit = true ∨ c ∈ ['.', 'e', 'E'] := by
  have hsign (s : Sign) : c ≠ s.char := by
    rintro rfl
    rcases h.sign hc with ⟨-, -, hnil⟩ | ⟨e, he, -, -, hnil⟩
    · exact h.unsigned.spelling_ne_nil hnil.symm
    · exact (h.exponent e he).nonempty hnil.symm
  have hmem : c ∈ n.spelling := by
    rw [hc]
    exact List.mem_append_right _ List.mem_cons_self
  refine (h.mem_spelling hmem).imp_right fun hc => ?_
  simpa [show c ≠ '+' from hsign .plus, show c ≠ '-' from hsign .minus] using hc

theorem Formed.eq_of_spelling {m n : Numeral} (hm : m.Formed) (hn : n.Formed)
    (h : m.spelling = n.spelling) : m = n := by
  have hread (k : Numeral) (hk : k.Formed) : read? k.spelling = some (k, []) :=
    read?_iff.2 ⟨(List.append_nil _).symm, hk, by simp [Ends]⟩
  have hmn := hread m hm
  rw [h, hread n hn] at hmn
  exact (Prod.mk.inj (Option.some.inj hmn)).1.symm

end Numeral

end Decimal

end Formulary
