import Formulary.Proofs.Catalog.Reachable
import Formulary.Proofs.Formula.Compiled

/-!
# Catalogs hold sound equations

The built-in equations are sound and so is each compiled line; to store, link and
profile them keeps them so.
-/
namespace Formulary

theorem Builtin.sound {b : Equation × String} (hb : b ∈ equations) : b.1.Sound := by
  rcases List.mem_append.1 hb with hb | hb
  · obtain ⟨f, -, rfl⟩ := List.mem_map.1 hb
    refine Formula.sound_iff.2 ⟨rfl, ?_⟩
    simp [function, Node.Sound, Node.InRange]
  · obtain ⟨c, -, rfl⟩ := List.mem_map.1 hb
    refine Formula.sound_iff.2 ⟨rfl, ?_⟩
    simp [constant, Node.Sound, Node.InRange]

namespace Catalog

def Sound (c : Catalog) : Prop := ∀ e ∈ c.equations, e.Sound

theorem Sound.store {c : Catalog} (h : c.Sound) {e : Equation} (he : e.Sound) (source : String) :
    (c.store e source).Sound := by
  rw [Sound, equations_store]
  exact List.forall_mem_append.2 ⟨h, List.forall_mem_singleton.2 he⟩

theorem equations_resolve (c : Catalog) :
    c.resolve.equations = profiled (c.equations.map (·.link c.find?)) c.limits.callDepth := by
  refine equations_withEquations ?_
  simp [profiled_eq_mapIdx, equations, size]

theorem Sound.linked {c : Catalog} (h : c.Sound) :
    ∀ e ∈ c.equations.map (·.link c.find?), e.Sound :=
  List.forall_mem_map.2 fun e he => (h e he).link c.find?

theorem Sound.resolve {c : Catalog} (h : c.Sound) : c.resolve.Sound := by
  rw [Sound, equations_resolve]
  exact fun e he => Equation.sound_of_mem_profiled h.linked he

theorem Sound.storeAll {stored : List (Equation × String)} (hs : ∀ b ∈ stored, b.1.Sound)
    {c : Catalog} (h : c.Sound) : (c.storeAll stored).Sound :=
  storeAll_induction (fun _ b hb hc => hc.store (hs b hb) b.2) h

theorem sound_storeBuiltins (limits : Limits) : (storeBuiltins { limits }).Sound :=
  storeBuiltins_induction (fun _ b hb hc => hc.store (Builtin.sound hb) b.2) (fun _ _ hc => hc)
    fun _ he => absurd he List.not_mem_nil

theorem Sound.add {c c' : Catalog} {line : String} {id : Nat} (h : c.Sound)
    (ha : c.add line = .ok (id, c')) : c'.Sound := by
  obtain ⟨-, e, he, -, rfl⟩ := add_eq_ok.1 ha
  exact h.store (Equation.ofLine_sound he) line

theorem Reachable.sound {c : Catalog} (h : Reachable c) : c.Sound :=
  h.induction (fun _ _ _ _ hc ha => hc.add ha)
    (fun limits => (sound_storeBuiltins limits).resolve)
    fun _ hc => hc.resolve

theorem Settled.eq_resolve {c : Catalog} (h : Settled c) :
    ∃ b : Catalog, b.Sound ∧ c = b.resolve := by
  cases h with
  | new limits => exact ⟨_, sound_storeBuiltins limits, rfl⟩
  | resolve hb => exact ⟨_, hb.sound, rfl⟩
  | clear => exact ⟨_, sound_storeBuiltins _, clear_eq _⟩
  | load file lines hb =>
    exact ⟨_, takeAll_induction (fun _ _ _ _ hc ha => Sound.add hc ha) hb.sound, rfl⟩

theorem Settled.sound {c : Catalog} (h : Settled c) : c.Sound := by
  obtain ⟨b, hb, rfl⟩ := h.eq_resolve
  exact hb.resolve

end Catalog

end Formulary
