import Formulary.Proofs.Catalog.Sound
import Mathlib

/-!
# Loading lines that compile

A line that compiles is no remark: neither blanks nor what begins with `#` hold a token.
So lines that all compile, with room for all of them, are stored one behind the other.
-/
namespace Formulary

namespace Token

theorem isBlank_of_isSpace {c : Char} (h : isSpace c = true) : Source.isBlank c = true := by
  simp only [isSpace, Bool.or_eq_true, decide_eq_true_eq] at h
  rcases h with ((rfl | rfl) | rfl) | rfl <;> decide

/-- The characters behind `#` in ASCII that are printed. -/
def Printed (c : Char) : Prop := 35 < c.toNat ∧ c.toNat < 127

theorem Printed.not_blank {c : Char} (h : Printed c) : Source.isBlank c = false := by
  obtain ⟨hlow, hhigh⟩ := h
  simp [Source.isBlank, Source.blankRanges]
  omega

theorem Printed.ne_hash {c : Char} (h : Printed c) : c ≠ '#' := by
  rintro rfl
  exact absurd h.1 (by decide)

theorem printed_of_isDigit {c : Char} (h : c.isDigit = true) : Printed c := by
  simp only [Char.isDigit, Bool.and_eq_true, decide_eq_true_eq] at h
  have hlow : 48 ≤ c.toNat := h.1
  have hhigh : c.toNat ≤ 57 := h.2
  exact ⟨by omega, by omega⟩

theorem printed_of_isAlpha {c : Char} (h : c.isAlpha = true) : Printed c := by
  simp only [Char.isAlpha, Char.isUpper, Char.isLower, Bool.or_eq_true, Bool.and_eq_true,
    decide_eq_true_eq] at h
  rcases h with h | h
  · have hlow : 65 ≤ c.toNat := h.1
    have hhigh : c.toNat ≤ 90 := h.2
    exact ⟨by omega, by omega⟩
  · have hlow : 97 ≤ c.toNat := h.1
    have hhigh : c.toNat ≤ 122 := h.2
    exact ⟨by omega, by omega⟩

theorem printed_of_single {previous : Option Kind} {innermost : Option Enclosure} {p : Position}
    {c : Char} (h : (single previous innermost p c).isSome) : Printed c := by
  unfold single at h
  unfold Printed
  split at h
  case h_9 =>
    obtain ⟨op, hop⟩ := Option.isSome_iff_exists.1 (Option.isSome_map.symm.trans h)
    obtain rfl := BinaryOp.ofChar?_eq_some.1 hop
    cases op <;> decide
  all_goals decide

theorem printed_of_lexeme {previous : Option Kind} {innermost : Option Enclosure} {p : Position}
    {c : Char} {rest : List Char} {l : Lexeme} (h : lexeme previous innermost p c rest = .ok l) :
    Printed c := by
  rw [lexeme] at h
  split at h
  · rename_i hnumeral
    simp only [startsNumeral, Bool.or_eq_true, Bool.and_eq_true, decide_eq_true_eq] at hnumeral
    rcases hnumeral with (hdigit | rfl) | ⟨-, rfl | rfl⟩
    · exact printed_of_isDigit hdigit
    all_goals exact ⟨by decide, by decide⟩
  · split at h
    · rename_i hidentifier
      simp only [startsIdentifier, Bool.or_eq_true, decide_eq_true_eq] at hidentifier
      rcases hidentifier with rfl | halpha
      · exact ⟨by decide, by decide⟩
      · exact printed_of_isAlpha halpha
    · split at h
      · rename_i kind hsingle
        exact printed_of_single (Option.isSome_of_eq_some hsingle)
      · simp at h

theorem scanFrom_of_hidden {previous : Option Kind} {opened : List Opening} {p : Position}
    {cs : List Char} {ts : List Token}
    (h : ∀ c, (cs.dropWhile Source.isBlank).head? = some c → c = '#')
    (hs : scanFrom previous opened p cs = .ok ts) : ts = [] := by
  induction cs generalizing p with
  | nil =>
    cases opened with
    | nil =>
      rw [scanFrom] at hs
      exact (Except.ok.inj hs).symm
    | cons innermost outer =>
      rw [scanFrom] at hs
      simp at hs
  | cons c rest ih =>
    rw [scanFrom] at hs
    split at hs
    · rename_i hspace
      rw [List.dropWhile_cons_of_pos (isBlank_of_isSpace hspace)] at h
      exact ih h hs
    · obtain ⟨l, hl, -⟩ := bind_eq_ok.1 hs
      have hprinted := printed_of_lexeme hl
      rw [List.dropWhile_cons_of_neg (by simp [hprinted.not_blank])] at h
      exact absurd (h c rfl) hprinted.ne_hash

end Token

theorem Equation.isRemark_of_compile {limit : Nat} {source : String} {e : Equation}
    (h : compile limit source = .ok e) : Source.isRemark source = false := by
  obtain ⟨tokens, signature, body, last, hscan, hread, hlast, -⟩ := compile_eq_ok h
  rw [Bool.eq_false_iff]
  intro hremark
  have hhidden : ∀ c, (source.toList.dropWhile Source.isBlank).head? = some c → c = '#' := by
    intro c hc
    rw [Source.isRemark] at hremark
    split at hremark
    · rename_i hnil
      simp [hnil] at hc
    · rename_i d rest hcons
      rw [hcons, List.head?_cons] at hc
      exact Option.some.inj hc ▸ of_decide_eq_true hremark
  rw [Token.scan] at hscan
  split at hscan
  · simp at hscan
  · obtain rfl := Token.scanFrom_of_hidden hhidden hscan
    obtain ⟨-, rfl⟩ := Prod.mk.inj (Except.ok.inj hread)
    simp at hlast

def Equation.Compiled (limit : Nat) (lines : List String) (equations : List Equation) : Prop :=
  List.Forall₂ (fun line e => ofLine limit line = .ok e) lines equations

namespace Catalog

variable {file : String}

theorem take_of_compiles {b : Batch} {text : String} {line : Nat} {e : Equation}
    (hroom : b.catalog.size < b.catalog.limits.equations)
    (he : Equation.ofLine b.catalog.limits.nodes text = .ok e) :
    b.take file text line = { b with
      catalog := b.catalog.store e text
      added := b.added ++ [b.catalog.size] } := by
  have hremark := Equation.isRemark_of_compile (mapError_eq_ok.1 he)
  have hadd : b.catalog.add text = .ok (b.catalog.size, b.catalog.store e text) :=
    add_eq_ok.2 ⟨hroom, e, he, rfl, rfl⟩
  simp only [Batch.take, hremark, hadd, Bool.false_eq_true, ↓reduceIte]

theorem takeAll_of_compiles {b : Batch} {lines : List String} {equations : List Equation}
    (hcompiled : Equation.Compiled b.catalog.limits.nodes lines equations)
    (hroom : b.catalog.size + lines.length ≤ b.catalog.limits.equations) :
    b.takeAll file lines = { b with
      catalog := b.catalog.storeAll (equations.zip lines)
      added := b.added ++ List.range' b.catalog.size lines.length } := by
  have hrun : ∀ first, (lines.zipIdx first).foldl (fun b l => b.take file l.1 l.2) b = { b with
      catalog := b.catalog.storeAll (equations.zip lines)
      added := b.added ++ List.range' b.catalog.size lines.length } := by
    generalize hnodes : b.catalog.limits.nodes = nodes at hcompiled
    induction hcompiled generalizing b with
    | nil => intro first; simp [storeAll]
    | @cons line e lines equations he _ ih =>
      intro first
      rw [List.length_cons] at hroom
      rw [List.zipIdx_cons, List.foldl_cons, take_of_compiles (by omega) (hnodes ▸ he)]
      have hsize : (b.catalog.store e line).size = b.catalog.size + 1 := by simp [size, store]
      refine (ih ?_ ?_ (first + 1)).trans ?_
      · have hlimits : (b.catalog.store e line).limits.equations = b.catalog.limits.equations := rfl
        simp only [hsize, hlimits]
        omega
      · exact hnodes
      · simp only [hsize, List.length_cons, List.range'_succ, List.append_assoc,
          List.singleton_append, List.zip_cons_cons]
        rfl
  exact hrun 1

end Catalog

end Formulary
