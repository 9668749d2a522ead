import Formulary.Proofs.Token.Scan

/-!
# Brackets

In the tokens of a text each closing bracket closes the innermost one that is open, which
is of its kind, and none is left open. A parameter list stands right behind a name.
-/
namespace Formulary.Token

def Kind.enclose (opened : List Enclosure) : Kind → List Enclosure
  | .paramOpen => .parameters :: opened
  | .groupOpen _ => .group :: opened
  | .paramClose | .groupClose _ => opened.tail
  | _ => opened

/-- What a bracket has to be, by the token before it and the brackets that are open. -/
def Kind.Fits (previous : Option Kind) (opened : List Enclosure) : Kind → Prop
  | .paramOpen => followsIdentifier previous = true
  | .groupOpen .round => followsIdentifier previous = false
  | .paramClose => opened.head? = some .parameters
  | .groupClose _ => opened.head? = some .group
  | _ => True

def Nested (previous : Option Kind) (opened : List Enclosure) : List Token → Prop
  | [] => opened = []
  | t :: rest => t.kind.Fits previous opened ∧ Nested (some t.kind) (t.kind.enclose opened) rest

def encloseAll (opened : List Enclosure) (ts : List Token) : List Enclosure :=
  ts.foldl (fun opened t => t.kind.enclose opened) opened

@[simp] theorem encloseAll_nil (opened : List Enclosure) : encloseAll opened [] = opened := rfl

@[simp] theorem encloseAll_cons (opened : List Enclosure) (t : Token) (ts : List Token) :
    encloseAll opened (t :: ts) = encloseAll (t.kind.enclose opened) ts := rfl

theorem encloseAll_append (opened : List Enclosure) (ts us : List Token) :
    encloseAll opened (ts ++ us) = encloseAll (encloseAll opened ts) us := List.foldl_append

theorem Nested.append {previous : Option Kind} {opened : List Enclosure} {ts us : List Token}
    (h : Nested previous opened (ts ++ us)) :
    ∃ previous', Nested previous' (encloseAll opened ts) us := by
  induction ts generalizing previous opened with
  | nil => exact ⟨previous, h⟩
  | cons t rest ih => exact ih h.2

def lastKind (previous : Option Kind) (before : List Token) : Option Kind :=
  (before.getLast?.map (·.kind)).or previous

theorem lastKind_cons (previous : Option Kind) (u : Token) (before : List Token) :
    lastKind previous (u :: before) = lastKind (some u.kind) before := by
  rw [lastKind, lastKind, List.getLast?_cons]
  cases before.getLast? <;> rfl

theorem Nested.fits {previous : Option Kind} {opened : List Enclosure} {before after : List Token}
    {t : Token} (h : Nested previous opened (before ++ t :: after)) :
    t.kind.Fits (lastKind previous before) (encloseAll opened before) := by
  induction before generalizing previous opened with
  | nil => exact h.1
  | cons u rest ih =>
    rw [lastKind_cons]
    exact ih h.2

theorem enclosures_track (opened : List Opening) (t : Token) :
    (track opened t).map (·.enclosure) = t.kind.enclose (opened.map (·.enclosure)) := by
  rw [track]
  cases t.kind <;> simp [Kind.enclose, List.map_tail]

section
variable {previous : Option Kind} {opened : List Enclosure} {p : Position} {c : Char}

theorem Singles.fits {kind : Kind} (h : Singles previous opened.head? c kind) :
    kind.Fits previous opened := by
  cases h with
  | openParameters hfollows => exact hfollows
  | openGroup shape hfollows =>
    cases shape with
    | round => exact hfollows rfl
    | _ => trivial
  | closeParameters ho => exact ho
  | closeGroup _ ho => exact ho
  | _ => trivial

theorem Lexes.fits {rest text : List Char} {kind : Kind}
    (h : Lexes previous opened.head? p c rest kind text) : kind.Fits previous opened := by
  cases h with
  | numeral => trivial
  | identifier => trivial
  | single hs => exact (single_eq_ok.1 hs).fits

end

theorem Scans.nested {previous : Option Kind} {opened : List Opening} {p : Position}
    {cs : List Char} {ts : List Token} (h : Scans previous opened p cs ts) :
    Nested previous (opened.map (·.enclosure)) ts := by
  induction h with
  | done => rfl
  | space _ _ ih => exact ih
  | token _ hl _ ih =>
    rw [enclosures_track] at ih
    rw [← List.head?_map] at hl
    exact ⟨(lexes_of_lexeme hl).fits, ih⟩

theorem nested_of_scan {source : String} {ts : List Token} (h : scan source = .ok ts) :
    Nested none [] ts := (scans_of_scan h).nested

end Formulary.Token
