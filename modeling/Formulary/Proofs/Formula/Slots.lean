import Formulary.Proofs.Formula.Transcript
import Mathlib

/-!
# Commas and arguments

A call has one argument for each comma and one more, unless nothing stands between its
parentheses or nothing stands behind the last comma. Nothing else can be missing: what
stands between two commas is an expression, and so is what stands before the first one.
-/
namespace Formulary

namespace Token

def commas (opened : List Enclosure) : List Token → Nat
  | [] => 0
  | t :: ts => (if t.kind = .comma ∧ opened = [] then 1 else 0) + commas (t.kind.enclose opened) ts

theorem commas_append (opened : List Enclosure) (ts us : List Token) :
    commas opened (ts ++ us) = commas opened ts + commas (encloseAll opened ts) us := by
  induction ts generalizing opened with
  | nil => simp [commas]
  | cons t ts ih => simp only [List.cons_append, commas, ih, encloseAll_cons, Nat.add_assoc]

theorem commas_concat {t : Token} (ht : t.kind ≠ .comma) (opened : List Enclosure)
    (ts : List Token) : commas opened (ts ++ [t]) = commas opened ts := by
  simp [commas_append, commas, ht]

def EndsInComma (ts : List Token) : Prop := ts.getLast?.map (·.kind) = some .comma

theorem endsInComma_append {us : List Token} (hne : us ≠ []) (ts : List Token) :
    EndsInComma (ts ++ us) ↔ EndsInComma us := by
  rw [EndsInComma, List.getLast?_append, List.getLast?_eq_some_getLast hne]
  simp [EndsInComma, List.getLast?_eq_some_getLast hne]

theorem endsInComma_concat (ts : List Token) (t : Token) :
    EndsInComma (ts ++ [t]) ↔ t.kind = .comma := by simp [EndsInComma]

end Token

open Token

structure Filled (inside : List Token) (args : List Formula) : Prop where
  none : inside = [] → args = []
  full : inside ≠ [] → ¬ EndsInComma inside → args.length = commas [] inside + 1
  short : EndsInComma inside → args.length = commas [] inside

namespace Transcribes

variable {position : String → Option Nat} {P : List Token → List Formula → Prop}
  {groups : Nat} {ns : List Node} {args : List Formula} {ts : List Token}

theorem commas_eq_zero {passage : Passage} (h : Transcribes position P passage ts)
    {opened : List Enclosure} (hin : opened ≠ [] ∨ ∃ groups ns, passage = .nodes groups ns) :
    commas opened ts = 0 := by
  induction h generalizing opened with
  | start | noSlots => rfl
  | number hk _ ih | name hk _ ih | operator hk _ ih | openGroup hk _ ih | closeGroup hk _ ih =>
    rw [commas_concat (by simp [hk])]
    exact ih (.inr ⟨_, _, rfl⟩)
  | @call _ _ _ _ ts inside t start stop hk hstart hstop _ _ _ ih ihargs =>
    have hinside : commas (.parameters :: encloseAll opened ts) inside = 0 :=
      ihargs (.inl (List.cons_ne_nil _ _))
    rw [commas_append, ih (.inr ⟨_, _, rfl⟩)]
    simp [commas, hk, hstart, Kind.enclose, commas_concat, hstop, hinside]
  | slot _ hlead hns _ _ ihlead ih =>
    obtain hne : opened ≠ [] := by simpa using hin
    rw [commas_append, ihlead (.inl hne), hlead.enclosed, commas_append, ih (.inr ⟨_, _, rfl⟩),
      hns.enclosed]
    simp [commas, Passage.groups, hne]
  | closed _ ih =>
    obtain hne : opened ≠ [] := by simpa using hin
    exact ih (.inl hne)
  | last hlead _ _ _ ihlead ih =>
    obtain hne : opened ≠ [] := by simpa using hin
    rw [commas_append, ihlead (.inl hne), ih (.inr ⟨_, _, rfl⟩)]

theorem commas_nodes (h : Transcribes position P (.nodes groups ns) ts) (opened : List Enclosure) :
    commas opened ts = 0 := h.commas_eq_zero (.inr ⟨groups, ns, rfl⟩)

theorem not_endsInComma (h : Transcribes position P (.nodes groups ns) ts) :
    ¬ EndsInComma ts := by
  cases h with
  | start => simp [EndsInComma]
  | number hk | name hk | operator hk | openGroup hk | closeGroup hk =>
    simp [endsInComma_concat, hk]
  | @call _ _ _ _ ts inside t start stop hk hstart hstop =>
    simpa [hstop] using endsInComma_concat (ts ++ t :: start :: inside) stop

theorem commas_slots (h : Transcribes position P (.slots args) ts) :
    commas [] ts = args.length := by
  generalize hp : Passage.slots args = passage at h
  induction h generalizing args with
  | noSlots =>
    obtain rfl := Passage.slots.inj hp
    rfl
  | slot hk hlead hns _ _ ihlead =>
    obtain rfl := Passage.slots.inj hp
    rw [commas_append, ihlead rfl, hlead.enclosed, commas_append, hns.commas_nodes,
      hns.enclosed]
    simp [commas, hk, Passage.groups]
  | _ => cases hp

theorem endsInComma_slots (h : Transcribes position P (.slots args) ts) :
    ts = [] ∧ args = [] ∨ EndsInComma ts := by
  cases h with
  | noSlots => exact .inl ⟨rfl, rfl⟩
  | @slot args f ns lead ts separator hk => exact .inr (by simp [EndsInComma, hk])

theorem filled (h : Transcribes position P (.arguments args) ts) : Filled ts args := by
  cases h with
  | closed hslots =>
    have hcommas := hslots.commas_slots
    rcases hslots.endsInComma_slots with ⟨rfl, rfl⟩ | hends
    · exact ⟨fun _ => rfl, fun hne => absurd rfl hne, fun _ => rfl⟩
    · refine ⟨?_, fun _ hnot => absurd hends hnot, fun _ => hcommas.symm⟩
      rintro rfl
      simp [EndsInComma] at hends
  | @last args f ns lead ts hlead hns hne =>
    have hcommas : commas [] (lead ++ ts) = args.length := by
      rw [commas_append, hlead.commas_slots, hns.commas_nodes, Nat.add_zero]
    have hends : ¬ EndsInComma (lead ++ ts) := by
      rw [endsInComma_append hne]
      exact hns.not_endsInComma
    refine ⟨fun hempty => ?_, fun _ _ => ?_, fun h => absurd h hends⟩
    · exact absurd (List.append_eq_nil_iff.1 hempty).2 hne
    · rw [hcommas, List.length_append, List.length_singleton]

end Transcribes

namespace Equation

/-- Each call of a line that compiles has an argument for each comma and one more. It has one
less if a comma is the last thing between its parentheses, and none if nothing is. -/
theorem calls_filled {limit : Nat} {source : String} {e : Equation}
    (h : compile limit source = .ok e) :
    ∃ tokens signature body ns, Token.scan source = .ok tokens ∧
      Signature.read tokens = .ok (signature, body) ∧
      Transcribes signature.position Filled (.nodes 0 ns) body ∧ Arranged e.formula.nodes ns :=
  transcribes_of_compile (fun _ _ _ => Transcribes.filled) h

def nested : Equation :=
  ⟨"", [], .ofNodes [.call "f" [.ofNodes [.coordinate 0], .ofNodes [.call "g" [] none]] none]⟩

theorem calls_filled_nested :
    compile 100 "f(x, g())" = .ok nested ∧
      ∃ tokens signature body ns, Token.scan "f(x, g())" = .ok tokens ∧
        Signature.read tokens = .ok (signature, body) ∧
        Transcribes signature.position Filled (.nodes 0 ns) body ∧
        Arranged nested.formula.nodes ns := by
  have hline : compile 100 "f(x, g())" = .ok nested := by cbv
  exact ⟨hline, calls_filled hline⟩

theorem compile_trailing_comma :
    compile 100 "f(x,)" = .ok ⟨"", [], .ofNodes [.call "f" [.ofNodes [.coordinate 0]] none]⟩ ∧
      (∃ t start stop inside, Token.scan "f(x,)" = .ok (t :: start :: (inside ++ [stop])) ∧
        start.kind = .paramOpen ∧ stop.kind = .paramClose ∧ inside ≠ [] ∧
        commas [] inside = 1) ∧
      compile 100 "f(a,) = a" = .error (.spanning .parameterExpected ⟨4, 5, 1, 5⟩) := by
  refine ⟨by cbv, ⟨⟨.identifier "f", ⟨0, 1, 1, 1⟩⟩, ⟨.paramOpen, ⟨1, 2, 1, 2⟩⟩,
    ⟨.paramClose, ⟨4, 5, 1, 5⟩⟩, [⟨.identifier "x", ⟨2, 3, 1, 3⟩⟩, ⟨.comma, ⟨3, 4, 1, 4⟩⟩],
    by cbv, rfl, rfl, List.cons_ne_nil _ _, by decide⟩, by cbv⟩

end Equation

end Formulary
