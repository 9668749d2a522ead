import Formulary.Proofs.Catalog.Loading
import Formulary.Proofs.Catalog.Names
import Formulary.Proofs.Catalog.Profiles
import Formulary.Proofs.Reprofiling

/-!
# The order of lines

Where no two equations share a name, each name denotes the same equation in whatever
order they are stored. Places differ, and with them the targets of calls and the order
of the search for needs, but not what a call leads to: equations evaluate alike, and so
their profiles say the same.
-/
namespace Formulary.Catalog

/-- An equation in one catalog and an equation in another that cannot be told apart by
evaluating them. -/
structure Alike (c c' : Catalog) (e e' : Equation) : Prop where
  valid : e'.formula.profile.valid = e.formula.profile.valid
  arity : e.formula.profile.valid = true → e'.formula.profile.arity = e.formula.profile.arity
  evaluate : ∀ coordinates arguments,
    c'.evaluate e' coordinates arguments = c.evaluate e coordinates arguments

/-- No name but the empty one is borne twice. -/
def Distinct (equations : List Equation) : Prop :=
  equations.Pairwise fun a b => a.name ≠ "" → a.name ≠ b.name

theorem Distinct.find?_eq_some {equations : List Equation} (h : Distinct equations) {name : String}
    (hname : name ≠ "") {e : Equation} :
    equations.find? (·.name = name) = some e ↔ e ∈ equations ∧ e.name = name := by
  constructor
  · intro he
    have hbears := List.find?_some he
    exact ⟨List.mem_of_find?_eq_some he, of_decide_eq_true hbears⟩
  · rintro ⟨he, rfl⟩
    induction equations with
    | nil => exact absurd he List.not_mem_nil
    | cons d rest ih =>
      obtain ⟨hd, hrest⟩ := List.pairwise_cons.1 h
      rcases List.mem_cons.1 he with rfl | he
      · simp
      · have hne : d.name ≠ e.name := by
          intro heq
          exact hd e he (heq ▸ hname) heq
        rw [List.find?_cons_of_neg (by simpa using hne)]
        exact ih hrest he

theorem Distinct.perm {equations equations' : List Equation} (h : Distinct equations)
    (hperm : equations.Perm equations') : Distinct equations' := by
  refine (hperm.pairwise_iff ?_).1 h
  intro a b hab hname heq
  exact hab (heq ▸ hname) heq.symm

theorem Distinct.find?_perm {equations equations' : List Equation} (h : Distinct equations)
    (hperm : equations.Perm equations') {name : String} (hname : name ≠ "") :
    equations.find? (·.name = name) = equations'.find? (·.name = name) := by
  ext e
  rw [h.find?_eq_some hname, (h.perm hperm).find?_eq_some hname, hperm.mem_iff]

structure Reordered (b b' : Catalog) : Prop where
  limits : b'.limits = b.limits
  named : b.Named
  named' : b'.Named
  sound : b.Sound
  sound' : b'.Sound
  perm : b.equations.Perm b'.equations
  distinct : Distinct b.equations

section
variable {b b' : Catalog}

theorem Reordered.bind_getElem? (h : Reordered b b') (name : String) :
    (b.find? name).bind (b.equations[·]?) = (b'.find? name).bind (b'.equations[·]?) := by
  rw [h.named.bind_getElem?, h.named'.bind_getElem?]
  split
  · rfl
  · rename_i hname
    exact h.distinct.find?_perm h.perm hname

theorem Reordered.unresolved (h : Reordered b b') {name : String} :
    name ∈ b'.unresolved ↔ name ∈ b.unresolved := by
  simp only [mem_unresolved, h.named.find?_eq_none, h.named'.find?_eq_none, h.perm.mem_iff]

theorem Reordered.evaluate (h : Reordered b b') {judge judge' : Formula → Profile}
    {profile profile' : Profile} (f : Formula) (coordinates arguments : List Float) :
    ((f.link b'.find?).annotate judge' profile').evaluate b'.resolve.equations
        b'.resolve.limits.callDepth coordinates arguments =
      ((f.link b.find?).annotate judge profile).evaluate b.resolve.equations
        b.resolve.limits.callDepth coordinates arguments := by
  have hlimits : b'.resolve.limits = b.resolve.limits := h.limits
  rw [equations_resolve, equations_resolve, hlimits]
  rw [Formula.evaluate_annotate, Formula.evaluate_annotate]
  exact (Formula.evaluate_linked h.bind_getElem? f).symm

theorem Reordered.alike (h : Reordered b b') {id id' : Nat} {d e e' : Equation}
    (hid : b.equations[id]? = some d) (hid' : b'.equations[id']? = some d)
    (he : b.resolve.equations[id]? = some e) (he' : b'.resolve.equations[id']? = some e') :
    Alike b.resolve b'.resolve e e' := by
  have hevaluate : ∀ coordinates arguments,
      b'.resolve.evaluate e' coordinates arguments = b.resolve.evaluate e coordinates arguments := by
    rw [equations_resolve, profiled_getElem?, List.getElem?_map] at he he'
    rw [hid] at he
    rw [hid'] at he'
    obtain rfl := Option.some.inj he
    obtain rfl := Option.some.inj he'
    exact fun coordinates arguments => h.evaluate d.formula coordinates arguments
  obtain ⟨hvalid, heq⟩ := Profile.eq_of_contracts (h.sound'.resolve_contract he').2.2
    (h.sound.resolve_contract he).2.2 hevaluate
  exact ⟨hvalid, fun hv => congrArg Profile.arity (heq (hvalid.trans hv)), hevaluate⟩

end

section
variable {limits : Limits} {file file' : String} {lines lines' : List String}
  {equations equations' : List Equation}

def stored (limits : Limits) (lines : List String) (equations : List Equation) : Catalog :=
  (new limits).storeAll (equations.zip lines)

theorem load_new (hcompiled : Equation.Compiled limits.nodes lines equations)
    (hroom : Builtin.count + lines.length ≤ limits.equations) :
    (new limits).load file lines = ((stored limits lines equations).resolve,
      ⟨List.range' Builtin.count lines.length, [], (stored limits lines equations).unresolved⟩) := by
  have hlines : Equation.Compiled (new limits).limits.nodes lines equations := by
    rw [limits_new]
    exact hcompiled
  have hfits : (new limits).size + lines.length ≤ (new limits).limits.equations := by
    rw [size_new, limits_new]
    exact hroom
  rw [load, @takeAll_of_compiles file { catalog := new limits } lines equations hlines hfits]
  simp only [size_new, List.nil_append]
  rfl

theorem equations_stored (hcompiled : Equation.Compiled limits.nodes lines equations) :
    (stored limits lines equations).equations = (new limits).equations ++ equations := by
  have hlength := hcompiled.length_eq
  rw [stored, Catalog.equations, entries_storeAll, List.map_append, List.map_map]
  exact congrArg _ (List.map_fst_zip hlength.ge)

theorem sound_stored (hcompiled : Equation.Compiled limits.nodes lines equations) :
    (stored limits lines equations).Sound := by
  apply Sound.storeAll
  · rintro ⟨e, line⟩ hmem
    have hflip : List.Forall₂ (fun e line => Equation.ofLine limits.nodes line = .ok e)
        equations lines := List.Forall₂.flip hcompiled
    exact Equation.ofLine_sound (List.forall₂_zip hflip hmem)
  · exact (Settled.new limits).sound

theorem distinct_stored (hcompiled : Equation.Compiled limits.nodes lines equations)
    (hd : Distinct equations) (hown : ∀ e ∈ equations, e.name ∉ Builtin.names) :
    Distinct (stored limits lines equations).equations := by
  rw [equations_stored hcompiled, Distinct, List.pairwise_append]
  have hbuiltins : Builtin.names.Pairwise fun a b => a ≠ "" → a ≠ b := by decide
  rw [← names_new limits, List.pairwise_map] at hbuiltins
  refine ⟨hbuiltins, hd, fun a ha e he _ heq => hown e he ?_⟩
  rw [← heq, ← names_new limits]
  exact List.mem_map_of_mem ha

theorem reordered_stored (hcompiled : Equation.Compiled limits.nodes lines equations)
    (hcompiled' : Equation.Compiled limits.nodes lines' equations')
    (hperm : equations.Perm equations') (hd : Distinct equations)
    (hown : ∀ e ∈ equations, e.name ∉ Builtin.names) :
    Reordered (stored limits lines equations) (stored limits lines' equations') where
  limits := (limits_storeAll _ _).trans (limits_storeAll _ _).symm
  named := (named_new limits).storeAll _
  named' := (named_new limits).storeAll _
  sound := sound_stored hcompiled
  sound' := sound_stored hcompiled'
  perm := by
    rw [equations_stored hcompiled, equations_stored hcompiled']
    exact hperm.append_left _
  distinct := distinct_stored hcompiled hd hown

theorem getElem?_stored (hcompiled : Equation.Compiled limits.nodes lines equations) {i : Nat}
    {line : String} (hi : lines[i]? = some line) :
    ∃ e, Equation.ofLine limits.nodes line = .ok e ∧
      (stored limits lines equations).entries[Builtin.count + i]? = some ⟨e, line⟩ := by
  obtain ⟨hlength, hget⟩ := List.forall₂_iff_get.1 hcompiled
  obtain ⟨hlt, rfl⟩ := List.getElem?_eq_some_iff.1 hi
  have hzip : (equations.zip lines)[i]? = some (equations[i], lines[i]) :=
    List.getElem?_zip_eq_some.2 ⟨List.getElem?_eq_getElem (hlength ▸ hlt), hi⟩
  refine ⟨equations[i], hget i hlt (hlength ▸ hlt), ?_⟩
  rw [stored, entries_storeAll, ← size_new limits, size,
    List.getElem?_append_right (Nat.le_add_right _ _), Nat.add_sub_cancel_left,
    List.getElem?_map, hzip]
  rfl

/-- Lines that compile, with names of their own, can be loaded in any order. -/
theorem load_perm (hperm : lines.Perm lines')
    (hcompiled : Equation.Compiled limits.nodes lines equations) (hd : Distinct equations)
    (hown : ∀ e ∈ equations, e.name ∉ Builtin.names)
    (hroom : Builtin.count + lines.length ≤ limits.equations) :
    let loaded := (new limits).load file lines
    let loaded' := (new limits).load file' lines'
    (∀ (i i' : Nat) (line : String), lines[i]? = some line → lines'[i']? = some line →
      ∃ (id id' : Nat) (e e' : Equation),
        loaded.2.added[i]? = some id ∧ loaded'.2.added[i']? = some id' ∧
        loaded.1.entries[id]? = some ⟨e, line⟩ ∧ loaded'.1.entries[id']? = some ⟨e', line⟩ ∧
        Alike loaded.1 loaded'.1 e e') ∧
    ∀ name, name ∈ loaded.2.unresolved ↔ name ∈ loaded'.2.unresolved := by
  obtain ⟨equations', hcompiled', hperm'⟩ := List.perm_comp_forall₂ hperm.symm hcompiled
  have hroom' : Builtin.count + lines'.length ≤ limits.equations := hperm.length_eq ▸ hroom
  have hr := reordered_stored hcompiled hcompiled' hperm'.symm hd hown
  rw [load_new hcompiled hroom, load_new hcompiled' hroom']
  refine ⟨fun i i' line hi hi' => ?_, fun name => hr.unresolved.symm⟩
  obtain ⟨d, hline, hentry⟩ := getElem?_stored hcompiled hi
  obtain ⟨d', hline', hentry'⟩ := getElem?_stored hcompiled' hi'
  obtain rfl := Except.ok.inj (hline.symm.trans hline')
  obtain ⟨e, he, hresolved⟩ := resolve_entry hentry
  obtain ⟨e', he', hresolved'⟩ := resolve_entry hentry'
  have halike := hr.alike (equations_of_entry hentry) (equations_of_entry hentry') he he'
  refine ⟨_, _, e, e', ?_, ?_, hresolved, hresolved', halike⟩
  · have hlt := (List.getElem?_eq_some_iff.1 hi).1
    simp [List.getElem?_range' hlt]
  · have hlt := (List.getElem?_eq_some_iff.1 hi').1
    simp [List.getElem?_range' hlt]

end

def scaled : Equation :=
  ⟨"f", ["a"], .ofNodes
    [.call "g" [.ofNodes [.argument 0]] none, .coordinate 0, .operator (.binary .multiply)]⟩

def offset : Equation :=
  ⟨"g", ["a"], .ofNodes [.argument 0, .call "h" [] none, .operator (.binary .add)]⟩

theorem load_perm_scaled_offset :
    let loaded := (new {}).load "" ["f(a) = g(a) * x", "g(a) = a + h"]
    let loaded' := (new {}).load "" ["g(a) = a + h", "f(a) = g(a) * x"]
    (∃ (id id' : Nat) (e e' : Equation),
      loaded.2.added[0]? = some id ∧ loaded'.2.added[1]? = some id' ∧
      loaded.1.entries[id]? = some ⟨e, "f(a) = g(a) * x"⟩ ∧
      loaded'.1.entries[id']? = some ⟨e', "f(a) = g(a) * x"⟩ ∧
      Alike loaded.1 loaded'.1 e e') ∧
    ∀ name, name ∈ loaded.2.unresolved ↔ name ∈ loaded'.2.unresolved := by
  have hcompiled : Equation.Compiled 100 ["f(a) = g(a) * x", "g(a) = a + h"] [scaled, offset] :=
    .cons (by cbv) (.cons (by cbv) .nil)
  have hdistinct : Distinct [scaled, offset] := by
    simp [Distinct, scaled, offset]
  have hown : ∀ e ∈ [scaled, offset], e.name ∉ Builtin.names := by
    simp only [List.forall_mem_cons, scaled, offset]
    exact ⟨by decide, by decide, fun e he => absurd he List.not_mem_nil⟩
  obtain ⟨halike, hunresolved⟩ :=
    @load_perm {} "" "" _ _ _ (.swap _ _ []) hcompiled hdistinct hown (by decide)
  exact ⟨halike 0 1 _ rfl rfl, hunresolved⟩

end Formulary.Catalog
