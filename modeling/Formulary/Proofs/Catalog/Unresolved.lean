import Formulary.Proofs.Catalog.Links
import Formulary.Proofs.Catalog.Stripped
import Formulary.Proofs.Formula.Places
import Formulary.Proofs.Formula.Transcript

/-!
# What resolving finds and what it does not

A call has the name of an identifier, which is not empty. So after a catalog was resolved each
call is bound to the first equation that bears its name, and the names that are borne by no
equation are told once each, in the order of the places where they are first called. What was bound before
makes no difference, and to resolve again changes nothing.
-/
namespace Formulary

section
variable {α : Type} [BEq α] [LawfulBEq α]

theorem pairwise_eraseDups_filter (l : List α) (p : α → Bool) :
    (l.filter p).eraseDups.Pairwise fun a b => l.idxOf a < l.idxOf b := by
  induction l generalizing p with
  | nil => exact .nil
  | cons x rest ih =>
    -- Behind a value that is not kept, or kept already, all places are one further.
    have hshift {q : α → Bool} (hq : q x = false) : (rest.filter q).eraseDups.Pairwise fun a b =>
        (x :: rest).idxOf a < (x :: rest).idxOf b := by
      have hne (a : α) (ha : a ∈ (rest.filter q).eraseDups) : x ≠ a := by
        rintro rfl
        have hkept := (List.mem_filter.1 (List.mem_eraseDups.1 ha)).2
        simp [hq] at hkept
      refine (ih q).imp_of_mem fun ha hb hlt => ?_
      rw [List.idxOf_cons_ne _ (hne _ ha), List.idxOf_cons_ne _ (hne _ hb)]
      exact Nat.succ_lt_succ hlt
    by_cases hp : p x
    · rw [List.filter_cons_of_pos hp, List.eraseDups_cons, List.filter_filter, List.pairwise_cons]
      refine ⟨fun b hb => ?_, hshift (by simp)⟩
      have hne : x ≠ b := by
        rintro rfl
        simp at hb
      rw [List.idxOf_cons_self, List.idxOf_cons_ne _ hne]
      exact Nat.succ_pos _
    · rw [List.filter_cons_of_neg hp]
      exact hshift (Bool.eq_false_iff.2 hp)

end

namespace Token

theorem Scans.name_ne_empty {previous : Option Kind} {opened : List Opening} {p : Position}
    {cs : List Char} {ts : List Token} (h : Scans previous opened p cs ts) :
    ∀ t ∈ ts, ∀ name, t.kind = .identifier name → name ≠ "" := by
  induction h with
  | done => simp
  | space _ _ ih => exact ih
  | token _ hl _ ih =>
    refine List.forall_mem_cons.2 ⟨fun name hk => ?_, ih⟩
    simp only at hk
    subst hk
    cases lexes_of_lexeme hl with
    | identifier => simp [← String.toList_inj]
    | single hs =>
      have hsingles := single_eq_ok.1 hs
      cases hsingles

end Token

section
variable {Q : String → Prop}

theorem Node.Calls.read {ts : List Token}
    (hts : ∀ t ∈ ts, ∀ name, t.kind = .identifier name → Q name) :
    Node.Read ts (Node.Calls fun name _ => Q name) (Formula.Calls fun name _ => Q name) where
  literal _ := trivial
  coordinate _ := trivial
  argument _ := trivial
  operator _ := trivial
  call t ht name _ hk hargs := ⟨hts t ht name hk, hargs⟩
  formula _ _ hnodes := Formula.calls_iff.2 hnodes

theorem Formula.Calls.of_mem {f : Formula} (h : f.Calls fun name _ => Q name) :
    ∀ name ∈ f.calledNames, Q name := by
  induction f using Formula.induction with
  | mk nodes profile ih =>
    intro name hname
    rw [calledNames, Node.calledNamesAll_eq_flatMap] at hname
    obtain ⟨n, hn, hname⟩ := List.mem_flatMap.1 hname
    cases n with
    | call called args target =>
      obtain ⟨hcalled, hargs⟩ := calls_iff.1 h _ hn
      rw [Node.calledNames, calledNamesAll_eq_flatMap, List.mem_cons, List.mem_flatMap] at hname
      rcases hname with rfl | ⟨a, ha, hname⟩
      · exact hcalled
      · exact ih called args target hn a ha (hargs a ha) name hname
    | _ => simp [Node.calledNames] at hname

end

theorem Equation.calls_named {limit : Nat} {source : String} {e : Equation}
    (h : ofLine limit source = .ok e) : e.formula.Calls fun name _ => name ≠ "" := by
  have hcompile := mapError_eq_ok.1 h
  obtain ⟨tokens, _, _, _, hscan, -⟩ := compile_eq_ok hcompile
  exact read_of_compile hcompile hscan (Node.Calls.read (Token.scans_of_scan hscan).name_ne_empty)

namespace Catalog

variable {c : Catalog}

def CallsNamed (c : Catalog) : Prop :=
  ∀ e ∈ c.equations, e.formula.Calls fun name _ => name ≠ ""

theorem CallsNamed.store (h : c.CallsNamed) {e : Equation}
    (he : e.formula.Calls fun name _ => name ≠ "") (source : String) :
    (c.store e source).CallsNamed := by
  rw [CallsNamed, equations_store]
  exact List.forall_mem_append.2 ⟨h, List.forall_mem_singleton.2 he⟩

theorem CallsNamed.resolve (h : c.CallsNamed) : c.resolve.CallsNamed := by
  intro e he
  obtain ⟨d, hd, judge, profile, rfl⟩ := mem_resolve he
  rw [Formula.calls_annotate]
  exact Formula.calls_link.2 (h d hd)

theorem callsNamed_new (limits : Limits) : (new limits).CallsNamed := by
  have hstored : (storeBuiltins { limits }).CallsNamed := by
    refine storeBuiltins_induction (fun c b hb h => ?_) (fun _ _ h => h)
      fun e he => absurd he List.not_mem_nil
    exact h.store (Formula.calls_of_plain (Builtin.plain hb)) b.2
  exact hstored.resolve

theorem Reachable.callsNamed (h : Reachable c) : c.CallsNamed := by
  refine h.induction (fun c line id c' hc ha => ?_) callsNamed_new fun _ hc => hc.resolve
  obtain ⟨-, e, he, -, rfl⟩ := add_eq_ok.1 ha
  exact hc.store (Equation.calls_named he) line

def calledNames (c : Catalog) : List String := c.equations.flatMap (·.formula.calledNames)

def CalledAt (c : Catalog) (name : String) (place : List Nat) : Prop :=
  ∃ i e inner, c.equations[i]? = some e ∧ place = i :: inner ∧ e.formula.CalledAt name inner

theorem calledNames_inOrder (c : Catalog) :
    InOrder (fun place name => c.CalledAt name place) c.calledNames :=
  InOrder.flatMap fun e _ => e.formula.calledNames_inOrder

theorem Reachable.mem_unresolved_iff (h : Reachable c) {name : String} :
    name ∈ c.unresolved ↔ (∃ place, c.CalledAt name place) ∧
      ∀ e ∈ c.equations, e.name ≠ name := by
  rw [mem_unresolved, h.named.find?_eq_none, ← c.calledNames_inOrder.mem_iff, calledNames,
    List.mem_flatMap]
  constructor
  · rintro ⟨hnone, e, he, hname⟩
    refine ⟨⟨e, he, hname⟩, hnone.resolve_left ?_⟩
    exact (h.callsNamed e he).of_mem name hname
  · rintro ⟨hcalled, hnone⟩
    exact ⟨.inr hnone, hcalled⟩

theorem pairwise_unresolved (c : Catalog) : c.unresolved.Pairwise fun a b =>
    ∃ place, c.CalledAt a place ∧ ∀ place', c.CalledAt b place' → place < place' := by
  have hfiltered : c.unresolved =
      (c.calledNames.filter fun name => (c.find? name).isNone).eraseDups := by
    rw [unresolved, calledNames, List.filter_flatMap]
    rfl
  rw [hfiltered]
  exact (pairwise_eraseDups_filter _ _).imp c.calledNames_inOrder.lt_of_idxOf_lt

/-- Resolving binds every call as the names are borne, tells which are not, changes nothing else
and has nothing left to do. -/
theorem resolve_exact (h : Reachable c) :
    (∀ e ∈ c.resolve.equations, e.formula.Calls fun name target =>
      ∀ i, target = some i ↔ c.resolve.IsFirst name i) ∧
    (c.unresolved.Nodup ∧
      (∀ name, name ∈ c.unresolved ↔ (∃ place, c.CalledAt name place) ∧
        ∀ e ∈ c.equations, e.name ≠ name) ∧
      c.unresolved.Pairwise fun a b =>
        ∃ place, c.CalledAt a place ∧ ∀ place', c.CalledAt b place' → place < place') ∧
    c.resolve.stripped = c.stripped ∧
    c.resolve.unresolved = c.unresolved ∧ c.resolve.resolve = c.resolve := by
  have horder := c.pairwise_unresolved
  refine ⟨fun e he => ?_, ⟨horder.imp fun hfirst heq => ?_, fun name => h.mem_unresolved_iff, horder⟩,
    stripped_resolve, unresolved_of_stripped stripped_resolve, resolve_of_stripped stripped_resolve⟩
  · intro g hg name args target hc i
    have hname : name ≠ "" := h.callsNamed.resolve e he g hg name args target hc
    have htarget : target = c.find? name := calls_resolve c he g hg name args target hc
    rw [htarget, ← find?_resolve, h.named.resolve.find?_eq_some_iff]
    exact and_iff_right hname
  · obtain ⟨place, hcalled, hless⟩ := hfirst
    exact lt_irrefl place (hless place (heq ▸ hcalled))

def twofold : Equation :=
  ⟨"f", ["a"], .ofNodes [.call "g" [.ofNodes [.call "h" [.ofNodes [.argument 0]] none]] none,
    .call "g" [.ofNodes [.coordinate 0]] none, .operator (.binary .add)]⟩

theorem resolve_exact_twofold :
    let c := (new {}).act (.add "f(a) = g(h(a)) + g(x)")
    Reachable c ∧ c.unresolved = ["g", "h"] ∧ c.CalledAt "g" [7, 1] ∧
      (∃ place, c.CalledAt "g" place ∧ ∀ place', c.CalledAt "h" place' → place < place') ∧
      c.unresolved.Nodup ∧ c.resolve.resolve = c.resolve := by
  intro c
  have hreach : Reachable c := .act _ (.new {})
  obtain ⟨-, ⟨hnodup, -, horder⟩, -, -, hagain⟩ := resolve_exact hreach
  have hline : Equation.ofLine 100 "f(a) = g(h(a)) + g(x)" = .ok twofold := by cbv
  have hc : c = (new {}).store twofold "f(a) = g(h(a)) + g(x)" := act_add (by decide) hline
  have hlist : c.unresolved = ["g", "h"] := by
    rw [hc]
    rfl
  have hcalled : c.CalledAt "g" [7, 1] := by
    rw [hc]
    exact ⟨7, twofold, [1], rfl, rfl, .here rfl⟩
  have hfirst := horder
  rw [hlist] at hfirst
  exact ⟨hreach, hlist, hcalled, List.rel_of_pairwise_cons hfirst List.mem_cons_self, hnodup, hagain⟩

end Catalog

end Formulary
