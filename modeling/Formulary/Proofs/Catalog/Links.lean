import Formulary.Proofs.Catalog.Builtins
import Formulary.Proofs.Signature
import Mathlib

/-!
# Names, links and parameters

In any state of a catalog, resolved or not, a name is found at the first equation that bears
it, and a call that is bound is bound to what is found for its name. The parameters of an
equation can be told apart, and it reads only the coordinates and those parameters.
-/
namespace Formulary

theorem Formula.Calls.imp {P Q : String → Option Nat → Prop} {f : Formula} (h : f.Calls P)
    (hPQ : ∀ name target, P name target → Q name target) : f.Calls Q :=
  All.imp h fun _ hg name args target hc => hPQ name target (hg name args target hc)

theorem Formula.calls_of_plain {P : String → Option Nat → Prop} {f : Formula}
    (h : ∀ n ∈ f.nodes, n.Plain) : f.Calls P := by
  rw [calls_iff]
  intro n hn
  cases n with
  | call => exact (h _ hn).elim
  | _ => trivial

theorem Equation.proper_of_ofLine {limit : Nat} {source : String} {e : Equation}
    (h : ofLine limit source = .ok e) : Signature.Proper e.params := by
  obtain ⟨tokens, signature, body, last, -, hread, -, -, -, hparams⟩ :=
    compile_eq_ok (mapError_eq_ok.1 h)
  rw [hparams]
  exact (Signature.read_eq_ok hread).1

theorem ne_of_coordinate?_eq_none {name x : String} (h : coordinate? name = none)
    (hx : x ∈ coordinateNames) : name.toList.map Char.toLower ≠ x.toList := by
  have hne := List.findIdx?_eq_none_iff.1 h x hx
  exact fun heq => of_decide_eq_false hne heq.symm

theorem Builtin.proper {b : Equation × String} (hb : b ∈ equations) :
    Signature.Proper b.1.params := by
  have hvalue : Signature.Proper ["value"] := ⟨by decide, by decide⟩
  rcases List.mem_append.1 hb with hb | hb
  · obtain ⟨f, -, rfl⟩ := List.mem_map.1 hb
    exact hvalue
  · obtain ⟨c, -, rfl⟩ := List.mem_map.1 hb
    exact Signature.proper_nil

namespace Catalog

/-- The equation at `i` bears the name, and none before it does. -/
def IsFirst (c : Catalog) (name : String) (i : Nat) : Prop :=
  ∃ e, c.equations[i]? = some e ∧ e.name = name ∧
    ∀ j < i, ∀ d, c.equations[j]? = some d → d.name ≠ name

theorem Named.find?_eq_some_iff {c : Catalog} (h : c.Named) {name : String} {i : Nat} :
    c.find? name = some i ↔ name ≠ "" ∧ c.IsFirst name i := by
  rw [h name]
  split
  · simp [*]
  · rename_i hne
    rw [List.idxOf?, List.findIdx?_map, List.findIdx?_eq_some_iff_getElem, IsFirst]
    constructor
    · rintro ⟨hi, hname, hbefore⟩
      refine ⟨hne, _, List.getElem?_eq_getElem hi, by simpa using hname, fun j hj d hd => ?_⟩
      have hjd := hbefore j hj
      rw [(List.getElem?_eq_some_iff.1 hd).2] at hjd
      simpa using hjd
    · rintro ⟨-, e, he, hname, hbefore⟩
      obtain ⟨hi, rfl⟩ := List.getElem?_eq_some_iff.1 he
      refine ⟨hi, by simpa using hname, fun j hj => ?_⟩
      simpa using hbefore j hj _ (List.getElem?_eq_getElem (hj.trans hi))

structure Binds (c : Catalog) (e : Equation) : Prop where
  params : Signature.Proper e.params
  calls : e.formula.Calls fun name target => ∀ i, target = some i → c.find? name = some i

theorem Binds.mono {c c' : Catalog} {e : Equation} (h : c.Binds e)
    (hfind : ∀ name i, c.find? name = some i → c'.find? name = some i) : c'.Binds e :=
  ⟨h.params, h.calls.imp fun name _ htarget i hi => hfind name i (htarget i hi)⟩

def Bound (c : Catalog) : Prop := ∀ e ∈ c.equations, c.Binds e

theorem find?_store_of_some {c : Catalog} {e : Equation} {source name : String} {i : Nat}
    (h : c.find? name = some i) : (c.store e source).find? name = some i := by
  rw [find?_store, h]
  rfl

theorem Bound.store {c : Catalog} (h : c.Bound) {e : Equation} (he : c.Binds e)
    (source : String) : (c.store e source).Bound := by
  have hmono {d : Equation} (hd : c.Binds d) : (c.store e source).Binds d :=
    hd.mono fun _ _ hi => find?_store_of_some hi
  rw [Bound, equations_store]
  exact List.forall_mem_append.2 ⟨fun d hd => hmono (h d hd),
    List.forall_mem_singleton.2 (hmono he)⟩

theorem Bound.add {c c' : Catalog} {line : String} {id : Nat} (h : c.Bound)
    (ha : c.add line = .ok (id, c')) : c'.Bound := by
  obtain ⟨-, e, he, -, rfl⟩ := add_eq_ok.1 ha
  refine h.store ⟨Equation.proper_of_ofLine he, ?_⟩ line
  refine (Equation.calls_of_ofLine he).imp fun name target hnone i hi => ?_
  simp [hnone] at hi

theorem Bound.resolve {c : Catalog} (h : c.Bound) : c.resolve.Bound := by
  intro e he
  refine ⟨?_, (calls_resolve c he).imp fun name target htarget i hi => ?_⟩
  · obtain ⟨d, hd, judge, profile, rfl⟩ := mem_resolve he
    exact (h d hd).params
  · rw [find?_resolve, ← htarget, hi]

theorem bound_new (limits : Limits) : (new limits).Bound := by
  have hstored : (storeBuiltins { limits }).Bound := by
    refine storeBuiltins_induction (fun c b hb h => ?_)
      (fun _ _ h e he => ⟨(h e he).params, (h e he).calls⟩) fun e he => absurd he List.not_mem_nil
    exact h.store ⟨Builtin.proper hb, Formula.calls_of_plain (Builtin.plain hb)⟩ b.2
  exact hstored.resolve

theorem Reachable.bound {c : Catalog} (h : Reachable c) : c.Bound :=
  h.induction (fun _ _ _ _ hc ha => hc.add ha) bound_new fun _ hc => hc.resolve

theorem names_links_params {c : Catalog} (h : Reachable c) :
    (∀ name i, c.find? name = some i ↔ name ≠ "" ∧ c.IsFirst name i) ∧
    ∀ e ∈ c.equations,
      (e.formula.Calls fun name target => ∀ i, target = some i →
        c.find? name = some i ∧ c.IsFirst name i) ∧
      e.params.Nodup ∧
      (∀ p ∈ e.params, ∀ x ∈ ["x", "y", "z"], p.toList.map Char.toLower ≠ x.toList) ∧
      e.formula.All fun g => (∀ i, .coordinate i ∈ g.nodes → i < 3) ∧
        ∀ i, .argument i ∈ g.nodes → i < e.params.length := by
  refine ⟨fun name i => h.named.find?_eq_some_iff, fun e he => ?_⟩
  have hbinds := h.bound e he
  refine ⟨?_, hbinds.params.nodup, fun p hp x hx => ?_, ?_⟩
  · refine hbinds.calls.imp fun name target htarget i hi => ?_
    have hfind := htarget i hi
    exact ⟨hfind, (h.named.find?_eq_some_iff.1 hfind).2⟩
  · exact ne_of_coordinate?_eq_none (hbinds.params.free p hp) hx
  · exact (h.sound e he).imp fun g hg => ⟨fun i hi => hg.2 _ hi, fun i hi => hg.2 _ hi⟩

theorem names_links_params_shiftedSine :
    let c := ((new {}).act (.add "f(a) = sin(a) + x")).act .resolve
    Reachable c ∧ c.find? "f" = some 7 ∧ ∃ e, c.equations[7]? = some e ∧ e.name = "f" ∧
      e.params.Nodup ∧
      e.formula.Calls fun name target => ∀ i, target = some i → c.IsFirst name i := by
  intro c
  have hreach : Reachable c := .act _ (.act _ (.new {}))
  obtain ⟨hnames, hequations⟩ := names_links_params hreach
  have hline : Equation.ofLine 100 "f(a) = sin(a) + x" = .ok shiftedSine := by cbv
  have hc : c = ((new {}).store shiftedSine "f(a) = sin(a) + x").resolve := by
    have hadd := act_add (c := new {}) (by decide) hline
    rw [← hadd]
    rfl
  have hfind : c.find? "f" = some 7 := by
    have hfresh : (new {}).find? "f" = none := by
      have hnamed := named_new {} "f"
      rw [names_new] at hnamed
      exact hnamed
    rw [hc, find?_resolve, find?_store, hfresh, size_new]
    rfl
  obtain ⟨-, e, he, hname, -⟩ := (hnames "f" 7).1 hfind
  obtain ⟨hcalls, hnodup, -, -⟩ := hequations e (List.mem_of_getElem? he)
  exact ⟨hreach, hfind, e, he, hname, hnodup, hcalls.imp fun _ _ h i hi => (h i hi).2⟩

end Catalog

end Formulary
