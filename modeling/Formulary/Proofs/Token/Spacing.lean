import Formulary.Proofs.Token.Tiling

/-!
# Spaces between tokens

No lexeme goes on into a space, and what a lexeme is depends on where it stands only through
the token before it and the innermost bracket. So a text with more spaces between its tokens
has tokens of the same kinds.
-/
namespace Formulary.Token

def Between (tokens : List Token) (n : Nat) : Prop :=
  ∀ t ∈ tokens, n ≤ t.span.start ∨ t.span.stop ≤ n

instance (tokens : List Token) (n : Nat) : Decidable (Between tokens n) :=
  inferInstanceAs (Decidable (∀ t ∈ tokens, n ≤ t.span.start ∨ t.span.stop ≤ n))

/-- The second text is the first one, which begins at an offset, with spaces put in at offsets
where they may be. -/
inductive Spaced (free : Nat → Prop) : Nat → List Char → List Char → Prop
  | done {n : Nat} : Spaced free n [] []
  | keep {n : Nat} {c : Char} {cs cs' : List Char} : Spaced free (n + c.utf8Size) cs cs' →
      Spaced free n (c :: cs) (c :: cs')
  | insert {n : Nat} {c : Char} {cs cs' : List Char} : free n → isSpace c = true →
      Spaced free n cs cs' → Spaced free n cs (c :: cs')

section
variable {free : Nat → Prop} {n : Nat} {c : Char} {cs cs' text back : List Char}

theorem Spaced.nil (h : Spaced free n [] cs') : ∀ d ∈ cs', isSpace d = true := by
  generalize hcs : [] = cs at h
  induction h with
  | done => exact fun d hd => absurd hd List.not_mem_nil
  | keep => simp at hcs
  | insert _ hspace _ ih => exact List.forall_mem_cons.2 ⟨hspace, ih hcs⟩

theorem Spaced.cons (h : Spaced free n (c :: cs) cs') : ∃ gap rest,
    cs' = gap ++ c :: rest ∧ (∀ d ∈ gap, isSpace d = true) ∧ (gap ≠ [] → free n) ∧
      Spaced free (n + c.utf8Size) cs rest := by
  generalize hcs : c :: cs = front at h
  induction h with
  | done => simp at hcs
  | keep h =>
    obtain ⟨rfl, rfl⟩ := List.cons.inj hcs
    exact ⟨[], _, rfl, fun d hd => absurd hd List.not_mem_nil, absurd rfl, h⟩
  | @insert n d _ _ hfree hspace _ ih =>
    obtain ⟨gap, rest, rfl, hgap, -, h⟩ := ih hcs
    exact ⟨d :: gap, rest, rfl, List.forall_mem_cons.2 ⟨hspace, hgap⟩, fun _ => hfree, h⟩

theorem Spaced.kept {p : Position} (h : Spaced free p.offset (text ++ back) cs')
    (hfree : ∀ m, p.offset ≤ m → m < (p.after text).offset → ¬ free m) : ∃ back',
      cs' = text ++ back' ∧ Spaced free (p.after text).offset back back' := by
  induction text generalizing p cs' with
  | nil => exact ⟨cs', rfl, h⟩
  | cons c text ih =>
    have hnext := p.next_offset c
    have hafter := Position.after_offset (p.next c) text
    have hpos := c.utf8Size_pos
    obtain ⟨gap, rest, rfl, -, hgap, h⟩ := h.cons
    have hnil : gap = [] := by
      refine Decidable.not_not.1 fun hne => hfree _ (Nat.le_refl _) ?_ (hgap hne)
      rw [Position.after_cons]
      omega
    rw [← hnext] at h
    obtain ⟨back', rfl, hback⟩ := ih h fun m hm => hfree m (by omega)
    exact ⟨back', by rw [hnil]; rfl, hback⟩

theorem Spaced.token {p : Position} (h : Spaced free p.offset (text ++ back) cs')
    (hne : text ≠ []) (hfree : ∀ m, free m → m ≤ p.offset ∨ (p.after text).offset ≤ m) :
    ∃ gap back', cs' = gap ++ (text ++ back') ∧ (∀ d ∈ gap, isSpace d = true) ∧
      Spaced free (p.after text).offset back back' := by
  cases text with
  | nil => exact absurd rfl hne
  | cons c text =>
    have hnext := p.next_offset c
    have hpos := c.utf8Size_pos
    obtain ⟨gap, rest, rfl, hgap, -, h⟩ := h.cons
    rw [← hnext] at h
    obtain ⟨back', rfl, hback⟩ := Spaced.kept h fun m hlow hhigh hm => by
      have hends := hfree m hm
      rw [Position.after_cons] at hends
      omega
    exact ⟨gap, back', rfl, hgap, hback⟩

end

def Breaks (back back' : List Char) : Prop := ∀ d ∈ back'.head?, isSpace d = true ∨ d ∈ back.head?

section
variable {previous : Option Kind} {innermost : Option Enclosure} {p p' : Position} {c : Char}
  {rest rest' text back back' : List Char} {kind : Kind}

theorem not_continuesIdentifier_of_isSpace (h : isSpace c = true) :
    continuesIdentifier c = false := by
  simp only [isSpace, Bool.or_eq_true, decide_eq_true_eq] at h
  rcases h with ((rfl | rfl) | rfl) | rfl <;> decide

theorem not_continues_of_isSpace {n : Decimal.Numeral} (h : isSpace c = true) :
    ¬ n.Continues c := by
  simp only [isSpace, Bool.or_eq_true, decide_eq_true_eq] at h
  rcases h with ((rfl | rfl) | rfl) | rfl <;> simp [Decimal.Numeral.Continues]

theorem numeral_of_breaks (h : numeral p (c :: rest) = .ok (kind, text))
    (hcs : c :: rest = text ++ back) (hb : Breaks back back') (hcs' : c :: rest' = text ++ back') :
    numeral p' (c :: rest') = .ok (kind, text) := by
  rw [numeral] at h
  split at h
  · rename_i n left hread
    obtain ⟨rfl, rfl⟩ := Prod.mk.inj (Except.ok.inj h)
    obtain ⟨hleft, hformed, hends⟩ := Decimal.Numeral.read?_iff.1 hread
    obtain rfl := List.append_cancel_left (hcs.symm.trans hleft)
    have hends' : n.Ends back' := by
      intro d hd
      rcases hb d hd with hspace | hsame
      · exact not_continues_of_isSpace hspace
      · exact hends d hsame
    rw [numeral, Decimal.Numeral.read?_iff.2 ⟨hcs', hformed, hends'⟩]
  · simp at h

theorem identifier_of_breaks (hstarts : startsIdentifier c = true)
    (h : identifier p (c :: rest) = .ok (kind, text)) (hcs : c :: rest = text ++ back)
    (hb : Breaks back back') (hcs' : c :: rest' = text ++ back') :
    identifier p' (c :: rest') = .ok (kind, text) := by
  rw [identifier, identifier?, if_pos hstarts] at h ⊢
  obtain ⟨rfl, rfl⟩ := Prod.mk.inj (Except.ok.inj h)
  obtain ⟨hrest, hname, hback⟩ := takeWhile_dropWhile_iff.1
    (⟨rfl, rfl⟩ : rest.takeWhile continuesIdentifier = _ ∧ _)
  have hsame : back = rest.dropWhile continuesIdentifier :=
    List.append_cancel_left ((List.cons.inj hcs).2.symm.trans hrest)
  have hends : ∀ d ∈ back'.head?, continuesIdentifier d = false := by
    intro d hd
    rcases hb d hd with hspace | hd
    · exact not_continuesIdentifier_of_isSpace hspace
    · rw [hsame] at hd
      exact hback d hd
  have htake := (takeWhile_dropWhile_iff.2 ⟨(List.cons.inj hcs').2, hname, hends⟩).1
  rw [htake]

theorem lexeme_of_breaks (h : lexeme previous innermost p c rest = .ok (kind, text))
    (hcs : c :: rest = text ++ back) (hb : Breaks back back') (hcs' : c :: rest' = text ++ back')
    (p' : Position) : lexeme previous innermost p' c rest' = .ok (kind, text) := by
  rw [lexeme] at h ⊢
  split at h
  · rename_i hnumeral
    rw [if_pos hnumeral]
    exact numeral_of_breaks h hcs hb hcs'
  · rename_i hnumeral
    rw [if_neg hnumeral]
    split at h
    · rename_i hstarts
      rw [if_pos hstarts]
      exact identifier_of_breaks hstarts h hcs hb hcs'
    · rename_i hstarts
      rw [if_neg hstarts]
      split at h
      · rename_i outcome hsingle
        obtain ⟨kind', rfl, h⟩ := bind_eq_ok.1 h
        rw [single_eq_ok.2 (single_eq_ok.1 hsingle)]
        exact h
      · simp at h

end

section
variable {previous : Option Kind} {opened opened' : List Opening} {p : Position}
  {gap cs : List Char} {ts : List Token}

theorem Scans.spaces (hgap : ∀ d ∈ gap, isSpace d = true)
    (h : Scans previous opened (p.after gap) cs ts) : Scans previous opened p (gap ++ cs) ts := by
  induction gap generalizing p with
  | nil => exact h
  | cons c gap ih =>
    obtain ⟨hspace, hgap⟩ := List.forall_mem_cons.1 hgap
    exact .space hspace (ih hgap h)

theorem track_alike {kind : Kind} {s s' : Span}
    (h : opened'.map (·.enclosure) = opened.map (·.enclosure)) :
    (track opened' ⟨kind, s'⟩).map (·.enclosure) = (track opened ⟨kind, s⟩).map (·.enclosure) := by
  cases kind <;> simp [track, h, List.map_tail]

theorem Breaks.of_spaced {free : Nat → Prop} {n : Nat} {cs' : List Char}
    (h : Spaced free n cs cs') : Breaks cs cs' := by
  intro d hd
  cases h with
  | done => simp at hd
  | keep => exact .inr hd
  | insert _ hspace =>
    obtain rfl := Option.some.inj hd
    exact .inl hspace

theorem Between.of_cons {t : Token} {n : Nat} (h : Between (t :: ts) n) : Between ts n :=
  (List.forall_mem_cons.1 h).2

theorem Scans.spaced {free : Nat → Prop} (h : Scans previous opened p cs ts)
    (hfree : ∀ n, free n → Between ts n) {cs' : List Char} (hs : Spaced free p.offset cs cs')
    (ho : opened'.map (·.enclosure) = opened.map (·.enclosure)) (p' : Position) :
    ∃ ts', Scans previous opened' p' cs' ts' ∧ ts'.map (·.kind) = ts.map (·.kind) := by
  induction h generalizing cs' opened' p' with
  | @done previous p =>
    obtain rfl := List.map_eq_nil_iff.1 ho
    have hscans : Scans previous [] p' (cs' ++ []) [] := .spaces hs.nil .done
    rw [List.append_nil] at hscans
    exact ⟨[], hscans, rfl⟩
  | space hspace _ ih =>
    obtain ⟨gap, rest, rfl, hgap, -, hs⟩ := hs.cons
    rw [← Position.next_offset] at hs
    obtain ⟨ts', hscans, hkinds⟩ := ih hfree hs ho _
    exact ⟨ts', .spaces hgap (.space hspace hscans), hkinds⟩
  | @token previous opened p c rest text kind ts hspace hl _ ih =>
    obtain ⟨back, hcs, hne, -⟩ := (lexes_of_lexeme hl).reads
    rw [drop_of_cons_eq hcs hne] at ih
    rw [hcs] at hs
    -- No offset inside the token is free, so all that is put in stands before it.
    obtain ⟨gap, back', rfl, hgap, hs⟩ :=
      hs.token hne fun m hm => hfree m hm _ List.mem_cons_self
    obtain ⟨rest', hcs'⟩ : ∃ rest', c :: rest' = text ++ back' := by
      cases text with
      | nil => exact absurd rfl hne
      | cons d text =>
        obtain rfl := (List.cons.inj hcs).1
        exact ⟨_, rfl⟩
    have hhead : opened'.head?.map (·.enclosure) = opened.head?.map (·.enclosure) := by
      rw [← List.head?_map, ho, List.head?_map]
    have hl' := lexeme_of_breaks hl hcs (.of_spaced hs) hcs' (p'.after gap)
    rw [← hhead] at hl'
    obtain ⟨ts', hscans, hkinds⟩ := ih (fun n hn => (hfree n hn).of_cons) hs
      (track_alike ho) ((p'.after gap).after text)
    rw [← drop_of_cons_eq hcs' hne] at hscans
    rw [← hcs']
    exact ⟨_, .spaces hgap (.token hspace hl' hscans), congrArg (kind :: ·) hkinds⟩

end

theorem scan_spaced {source source' : String} {tokens : List Token}
    (h : scan source = .ok tokens) (hs : Spaced (Between tokens) 0 source.toList source'.toList) :
    ∃ tokens', scan source' = .ok tokens' ∧ tokens'.map (·.kind) = tokens.map (·.kind) := by
  obtain ⟨tokens', hscans, hkinds⟩ : ∃ ts', Scans none [] {} source'.toList ts' ∧ _ :=
    (scans_of_scan h).spaced (fun _ hn => hn) hs rfl {}
  refine ⟨tokens', ?_, hkinds⟩
  have hne : source' ≠ "" := by
    rintro rfl
    have hnil : source.toList = [] := by
      generalize source.toList = cs at hs
      cases hs
      rfl
    obtain rfl := String.toList_eq_nil_iff.1 hnil
    simp [scan] at h
  rw [scan, if_neg hne]
  exact scanFrom_eq_ok.2 hscans

end Formulary.Token
