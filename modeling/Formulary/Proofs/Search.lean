import Formulary.Proofs.Arity
import Mathlib.Data.Finset.Card

/-!
# What the search finds

The search is done with every equation in the end. The arguments that it counts are
those that the formula reads. A target that is under way leads back to where it was
met, so only on a cycle are coordinates left out.
-/
namespace Formulary

open Relation

structure Exact (table : List Equation) (id : Nat) (a : Arity) : Prop where
  explicit : ∀ e, table[id]? = some e → ∀ m,
    a.explicit ≤ m ↔ e.formula.All (Formula.ArgumentsBelow m)
  capped : a.implicit ≤ 3
  implicit : ∀ e, table[id]? = some e → ¬ Cyclic table id → ∀ m,
    a.implicit ≤ m ↔ 3 ≤ m ∨ e.formula.AllReached table (Formula.CoordinatesBelow m)

namespace Search

structure Faithful (table : List Equation) (s : Search) : Prop where
  length : s.length = table.length
  exact : ∀ id a, s[id]? = some (.done a) → Exact table id a

def Extends (s s' : Search) : Prop :=
  ∀ u : Nat, s'[u]? = s[u]? ∨ s[u]? = some .pending ∧ ∃ a, s'[u]? = some (.done a)

def waiting (s : Search) : Finset Nat :=
  (Finset.range s.length).filter fun u => s[u]? = some .pending

/-- A visit of `id` with this bound can go on to its end. -/
structure Ready (table : List Equation) (bound id : Nat) (s : Search) : Prop where
  few : s.waiting.card ≤ bound
  leads : ∀ u, s[u]? = some .underWay → ReflTransGen (Links table) u id

variable {table : List Equation} {s s' s'' : Search}

theorem mem_waiting {u : Nat} : u ∈ s.waiting ↔ s[u]? = some .pending := by
  rw [waiting, Finset.mem_filter, Finset.mem_range, and_iff_right_of_imp]
  intro hu
  exact (List.getElem?_eq_some_iff.1 hu).1

theorem waiting_set {id : Nat} (h : s[id]? = some .pending) :
    waiting (s.set id .underWay) = s.waiting.erase id := by
  have hlt : id < s.length := (List.getElem?_eq_some_iff.1 h).1
  ext u
  rw [Finset.mem_erase, mem_waiting, mem_waiting]
  by_cases hid : id = u
  · subst hid
    simp [List.getElem?_set_self hlt]
  · simp [List.getElem?_set_ne hid, Ne.symm hid]

theorem Extends.refl (s : Search) : s.Extends s := fun _ => .inl rfl

theorem Extends.eq_of_ne (h : s.Extends s') {u : Nat} (hu : s[u]? ≠ some .pending) :
    s'[u]? = s[u]? := by
  rcases h u with he | ⟨hp, -⟩
  · exact he
  · exact absurd hp hu

theorem Extends.trans (h : s.Extends s') (h' : s'.Extends s'') : s.Extends s'' := by
  intro u
  by_cases hu : s'[u]? = some .pending
  · rcases h u with he | ⟨-, a, ha⟩
    · rw [← he]
      exact h' u
    · simp [ha] at hu
  · rw [h'.eq_of_ne hu]
    exact h u

theorem Extends.ne_pending (h : s.Extends s') {u : Nat} (hu : s[u]? ≠ some .pending) :
    s'[u]? ≠ some .pending := by
  rw [h.eq_of_ne hu]
  exact hu

theorem Extends.underWay (h : s.Extends s') {u : Nat} (hu : s'[u]? = some .underWay) :
    s[u]? = some .underWay := by
  rcases h u with he | ⟨-, a, ha⟩
  · rw [← he]
    exact hu
  · simp [ha] at hu

theorem Ready.extends {bound id : Nat} (hr : s.Ready table bound id) (h : s.Extends s') :
    s'.Ready table bound id := by
  refine ⟨?_, fun u hu => hr.leads u (h.underWay hu)⟩
  refine (Finset.card_le_card fun u hu => mem_waiting.2 ?_).trans hr.few
  by_contra hne
  exact h.ne_pending hne (mem_waiting.1 hu)

structure Visited (table : List Equation) (id : Nat) (s s' : Search) : Prop where
  faithful : s'.Faithful table
  after : s.Extends s'
  met : s'[id]? ≠ some .pending

theorem foldl_visit {bound : Nat}
    (hvisit : ∀ id s, s.Faithful table → s.Ready table bound id →
      Visited table id s (visit table bound id s)) :
    ∀ {ids : List Nat} {s : Search}, s.Faithful table → (∀ id ∈ ids, s.Ready table bound id) →
      (ids.foldl (fun s id => visit table bound id s) s).Faithful table ∧
      s.Extends (ids.foldl (fun s id => visit table bound id s) s) ∧
      ∀ id ∈ ids, (ids.foldl (fun s id => visit table bound id s) s)[id]? ≠ some .pending := by
  intro ids
  induction ids with
  | nil => exact fun hs _ => ⟨hs, .refl _, fun id hid => absurd hid List.not_mem_nil⟩
  | cons id rest ih =>
    intro s hs hready
    rw [List.forall_mem_cons] at hready
    have hv := hvisit id s hs hready.1
    obtain ⟨hf, ha, hm⟩ := ih hv.faithful fun t ht => (hready.2 t ht).extends hv.after
    refine ⟨hf, hv.after.trans ha, List.forall_mem_cons.2 ⟨ha.ne_pending hv.met, hm⟩⟩

theorem needed_le {id t : Nat} (hs : s.Faithful table) (hl : Links table id t)
    (hmet : s[t]? ≠ some .pending)
    (hleads : s[t]? = some .underWay → ReflTransGen (Links table) t id)
    (hc : ¬ Cyclic table id) {m : Nat} :
    s.needed t ≤ m ↔
      3 ≤ m ∨ ∀ e, table[t]? = some e →
        e.formula.AllReached table (Formula.CoordinatesBelow m) := by
  cases ht : s[t]? with
  | none =>
    have hnone : table[t]? = none := by
      rw [List.getElem?_eq_none_iff, ← hs.length]
      exact List.getElem?_eq_none_iff.1 ht
    simp [needed, arityAt, ht, hnone]
  | some v =>
    cases v with
    | pending => exact absurd ht hmet
    | underWay => exact absurd ⟨id, .refl, .head' hl (hleads ht)⟩ hc
    | done a =>
      have hlt : t < table.length := hs.length ▸ (List.getElem?_eq_some_iff.1 ht).1
      have he : table[t]? = some table[t] := List.getElem?_eq_getElem hlt
      have ha := (hs.exact t a ht).implicit _ he (fun h => hc (.of_links hl h)) m
      simpa [needed, arityAt, ht, he] using ha

theorem exact_arity {id : Nat} {e : Equation} (he : table[id]? = some e) (hs : s.Faithful table)
    (hmet : ∀ t ∈ e.formula.targets, s[t]? ≠ some .pending)
    (hleads : ∀ t, s[t]? = some .underWay → ReflTransGen (Links table) t id) :
    Exact table id (e.formula.arity s.needed) where
  explicit e' he' m := by
    obtain rfl := Option.some.inj (he.symm.trans he')
    exact Formula.explicit_arity_le
  capped := Formula.implicit_arity_le.2 (.inl le_rfl)
  implicit e' he' hc m := by
    obtain rfl := Option.some.inj (he.symm.trans he')
    rw [Formula.implicit_arity_le, Formula.allReached_iff]
    refine or_congr_right' fun hm => and_congr_right fun _ => forall₂_congr fun t ht => ?_
    rw [needed_le hs ⟨e, he, ht⟩ (hmet t ht) (hleads t) hc, or_iff_right hm]

theorem visit_of_ne_pending {bound id : Nat} (h : s[id]? ≠ some .pending) :
    visit table bound id s = s := by
  cases bound with
  | zero => rfl
  | succ bound =>
    rw [visit]
    split
    · contradiction
    · rfl

theorem visit_succ {bound id : Nat} {e : Equation} (h : s[id]? = some .pending)
    (he : table[id]? = some e) :
    visit table (bound + 1) id s =
      let met := e.formula.targets.foldl (fun s t => visit table bound t s) (s.set id .underWay)
      met.set id (.done (e.formula.arity met.needed)) := by
  simp only [visit, h, he]

theorem Faithful.set {id : Nat} {v : Visit} (hs : s.Faithful table)
    (hv : ∀ a, v = .done a → Exact table id a) : Faithful table (s.set id v) := by
  refine ⟨List.length_set.trans hs.length, fun u a hu => ?_⟩
  by_cases hid : id = u
  · subst hid
    have hlt : id < (s.set id v).length := (List.getElem?_eq_some_iff.1 hu).1
    rw [List.length_set] at hlt
    rw [List.getElem?_set_self hlt] at hu
    exact hv a (Option.some.inj hu)
  · rw [List.getElem?_set_ne hid] at hu
    exact hs.exact u a hu

theorem Ready.inside {bound id : Nat} (hready : s.Ready table (bound + 1) id)
    (hp : s[id]? = some .pending) {t : Nat} (hl : Links table id t) :
    Ready table bound t (s.set id .underWay) := by
  refine ⟨?_, fun u hu => ?_⟩
  · rw [waiting_set hp, Finset.card_erase_of_mem (mem_waiting.2 hp)]
    have hfew := hready.few
    omega
  · by_cases hid : id = u
    · exact hid ▸ .single hl
    · rw [List.getElem?_set_ne hid] at hu
      exact (hready.leads u hu).tail hl

theorem visit_spec (bound id : Nat) {s : Search} (hs : s.Faithful table)
    (hready : s.Ready table bound id) : Visited table id s (visit table bound id s) := by
  induction bound generalizing id s with
  | zero =>
    have hp : s[id]? ≠ some .pending := by
      intro hp
      have hempty := Finset.card_eq_zero.1 (Nat.le_zero.1 hready.few)
      have hid := mem_waiting.2 hp
      rw [hempty] at hid
      exact absurd hid (Finset.notMem_empty id)
    rw [visit_of_ne_pending hp]
    exact ⟨hs, .refl s, hp⟩
  | succ bound ih =>
    by_cases hp : s[id]? = some .pending
    · have hlt : id < table.length := hs.length ▸ (List.getElem?_eq_some_iff.1 hp).1
      obtain ⟨e, he⟩ : ∃ e, table[id]? = some e := ⟨_, List.getElem?_eq_getElem hlt⟩
      rw [visit_succ hp he]
      have hstart : Faithful table (s.set id .underWay) := hs.set (by simp)
      have hinside : ∀ t ∈ e.formula.targets, Ready table bound t (s.set id .underWay) :=
        fun t ht => hready.inside hp ⟨e, he, ht⟩
      obtain ⟨hf, ha, hm⟩ := foldl_visit (fun id s hs hr => ih id hs hr) hstart hinside
      generalize e.formula.targets.foldl (fun s t => visit table bound t s) (s.set id .underWay) =
        met at hf ha hm
      have hleads : ∀ t : Nat, met[t]? = some .underWay → ReflTransGen (Links table) t id := by
        intro t ht
        by_cases hid : id = t
        · exact hid ▸ .refl
        · have hu := ha.underWay ht
          rw [List.getElem?_set_ne hid] at hu
          exact hready.leads t hu
      have hexact := exact_arity he hf hm hleads
      rw [← hf.length] at hlt
      refine ⟨hf.set fun a h => Visit.done.inj h ▸ hexact, fun u => ?_, ?_⟩
      · by_cases hid : id = u
        · subst hid
          exact .inr ⟨hp, _, List.getElem?_set_self hlt⟩
        · have hu := ha u
          rw [List.getElem?_set_ne hid] at hu ⊢
          exact hu
      · rw [List.getElem?_set_self hlt]
        simp
    · rw [visit_of_ne_pending hp]
      exact ⟨hs, .refl s, hp⟩

def inOrder (table : List Equation) (roots : List Nat) : Search :=
  roots.foldl (fun s id => visit table table.length id s) (List.replicate table.length .pending)

theorem all_eq_inOrder : all table = inOrder table (List.range table.length) := rfl

theorem done_inOrder {roots : List Nat} {id : Nat} (hroot : id ∈ roots) (h : id < table.length) :
    ∃ a, (inOrder table roots)[id]? = some (.done a) ∧ Exact table id a := by
  have hpending : ∀ (u : Nat) v, (List.replicate table.length Visit.pending)[u]? = some v →
      v = .pending := fun u v hv => by
    exact List.eq_of_mem_replicate (List.mem_of_getElem? hv)
  have hstart : Faithful table (List.replicate table.length .pending) :=
    ⟨List.length_replicate, fun u a hu => absurd (hpending u _ hu) (by simp)⟩
  have hready : ∀ id ∈ roots,
      Ready table table.length id (List.replicate table.length .pending) := by
    refine fun id _ => ⟨?_, fun u hu => absurd (hpending u _ hu) (by simp)⟩
    refine (Finset.card_filter_le _ _).trans ?_
    simp
  obtain ⟨hf, ha, hm⟩ := foldl_visit (fun id s => visit_spec table.length id) hstart hready
  change Faithful table (inOrder table roots) at hf
  change Extends _ (inOrder table roots) at ha
  cases hv : (inOrder table roots)[id]? with
  | none =>
    have hle := List.getElem?_eq_none_iff.1 hv
    rw [hf.length] at hle
    omega
  | some v =>
    cases v with
    | pending => exact absurd hv (hm id hroot)
    | underWay => exact absurd (hpending id _ (ha.underWay hv)) (by simp)
    | done a => exact ⟨a, rfl, hf.exact id a hv⟩

/-- What is found for a root does not depend on the roots before it and behind it. -/
theorem exact_inOrder {roots : List Nat} {id : Nat} (hroot : id ∈ roots) (h : id < table.length) :
    Exact table id ((inOrder table roots).arityAt id) := by
  obtain ⟨a, hv, hexact⟩ := done_inOrder hroot h
  have hat : (inOrder table roots).arityAt id = a := by simp only [arityAt, hv]
  rw [hat]
  exact hexact

theorem done_all {id : Nat} (h : id < table.length) : ∃ a, (all table)[id]? = some (.done a) := by
  obtain ⟨a, hv, -⟩ := done_inOrder (List.mem_range.2 h) h
  exact ⟨a, hv⟩

theorem exact_all {id : Nat} (h : id < table.length) : Exact table id ((all table).arityAt id) := by
  rw [all_eq_inOrder]
  exact exact_inOrder (List.mem_range.2 h) h

theorem visit_induction {P : Search → Prop} (underWay : ∀ s id, P s → P (s.set id .underWay))
    (done : ∀ s id e, table[id]? = some e → P s → P (s.set id (.done (e.formula.arity s.needed))))
    (bound id : Nat) {s : Search} (hs : P s) : P (visit table bound id s) := by
  induction bound generalizing id s with
  | zero => exact hs
  | succ bound ih =>
    by_cases hp : s[id]? = some .pending
    · cases he : table[id]? with
      | none =>
        rw [visit, hp, he]
        exact hs
      | some e =>
        rw [visit_succ hp he]
        refine done _ id e he ?_
        exact List.foldlRecOn _ _ (underWay s id hs) fun s hs t _ => ih t hs
    · rw [visit_of_ne_pending hp]
      exact hs

theorem needed_set_le {id u : Nat} {v : Visit} {m : Nat} (hs : s.needed u ≤ m)
    (hv : u = id → ∀ a, v = .done a → a.implicit ≤ m) : needed (s.set id v) u ≤ m := by
  by_cases hid : id = u
  · subst hid
    by_cases hlt : id < s.length
    · cases v with
      | done a =>
        simp only [needed, arityAt, List.getElem?_set_self hlt]
        exact hv rfl a rfl
      | _ =>
        simp only [needed, arityAt, List.getElem?_set_self hlt]
        exact Nat.zero_le m
    · rw [List.set_eq_of_length_le (Nat.le_of_not_lt hlt)]
      exact hs
  · simp only [needed, arityAt, List.getElem?_set_ne hid]
    exact hs

def Sparing (table : List Equation) (m : Nat) (s : Search) : Prop :=
  ∀ id, (∀ e, table[id]? = some e → e.formula.AllReached table (Formula.CoordinatesBelow m)) →
    s.needed id ≤ m

theorem Sparing.underWay {m : Nat} (hs : s.Sparing table m) (id : Nat) :
    Sparing table m (s.set id .underWay) :=
  fun u hu => needed_set_le (hs u hu) (by simp)

theorem Sparing.done {m : Nat} (hs : s.Sparing table m) {id : Nat} {e : Equation}
    (he : table[id]? = some e) : Sparing table m (s.set id (.done (e.formula.arity s.needed))) := by
  intro u hu
  refine needed_set_le (hs u hu) fun hid a ha => ?_
  obtain rfl := Visit.done.inj ha
  subst hid
  obtain ⟨hown, htargets⟩ := Formula.allReached_iff.1 (hu e he)
  exact Formula.implicit_arity_le.2 (.inr ⟨hown, fun t ht => hs t (htargets t ht)⟩)

theorem sparing_inOrder (m : Nat) (roots : List Nat) : Sparing table m (inOrder table roots) := by
  have hstart : Sparing table m (List.replicate table.length .pending) := by
    intro id _
    simp only [needed, arityAt, List.getElem?_replicate]
    split <;> simp_all
  refine List.foldlRecOn roots _ hstart fun s hs id _ => ?_
  exact visit_induction (fun _ id hs => hs.underWay id) (fun _ _ _ he hs => hs.done he) _ id hs

end Search

end Formulary
