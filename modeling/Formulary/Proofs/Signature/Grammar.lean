import Formulary.Proofs.Formula.Grammar
import Formulary.Proofs.Signature
import Mathlib

/-!
# Which signatures are read

A line without an equal sign has no signature. Otherwise there is exactly one equal sign, and
what stands before it declares a name, with or without parameters. Every such declaration is
read, as long as its parameters can be told apart and none of them is a coordinate.
-/
namespace Formulary

theorem coordinate?_eq_none_iff {name : String} :
    coordinate? name = none ↔ name.toLower ∉ ["x", "y", "z"] := by
  simp [coordinate?_eq_findIdx?, coordinateNames]

namespace Signature

theorem position_eq_some {signature : Signature} (h : signature.params.Nodup) {name : String}
    {i : Nat} : signature.position name = some i ↔ signature.params[i]? = some name := by
  rw [position, List.idxOf?, List.findIdx?_eq_some_iff_getElem]
  constructor
  · intro hfound
    obtain ⟨hi, hname, -⟩ := hfound
    rw [List.getElem?_eq_getElem hi, beq_iff_eq.1 hname]
  · intro hname
    obtain ⟨hi, hname⟩ := List.getElem?_eq_some_iff.1 hname
    refine ⟨hi, beq_iff_eq.2 hname, fun j hj heq => ?_⟩
    have hsame : signature.params[j] = signature.params[i] := (beq_iff_eq.1 heq).trans hname.symm
    exact absurd ((h.getElem_inj_iff).1 hsame) (Nat.ne_of_lt hj)

section
variable {seen names : List String} {t stop sign : Token} {ts rest body : List Token}

theorem parameter_of_identifier {name : String} (hk : t.kind = .identifier name)
    (hfree : coordinate? name = none) (hnew : name ∉ seen) : parameter seen t = .ok name := by
  simp [parameter, hk, hfree, hnew]

theorem Proper.parameter {name : String} (h : Proper (seen ++ name :: names))
    (hk : t.kind = .identifier name) : parameter seen t = .ok name := by
  have hfree : coordinate? name = none := h.free name (by simp)
  have hnew : name ∉ seen := by
    intro hmem
    exact (List.nodup_append.1 h.nodup).2.2 name hmem name List.mem_cons_self rfl
  exact parameter_of_identifier hk hfree hnew

theorem moreParameters_of_listed (h : Listed names ts) (hstop : stop.kind = .paramClose)
    (hproper : Proper (seen ++ names)) :
    moreParameters seen (ts ++ stop :: rest) = .ok (seen ++ names, rest) := by
  induction h generalizing seen with
  | last hk =>
    rw [List.singleton_append, moreParameters, hproper.parameter hk, ok_bind]
    simp only [hstop]
  | @comma name names t separator ts hk hcomma _ ih =>
    have hseen : seen ++ name :: names = (seen ++ [name]) ++ names := List.append_cons ..
    rw [List.cons_append, List.cons_append, moreParameters, hproper.parameter hk, ok_bind]
    rw [hseen] at hproper ⊢
    simp only [hcomma]
    exact ih hproper

theorem parameters_of_listed (h : Listed names ts) (hstop : stop.kind = .paramClose)
    (hproper : Proper names) : parameters (ts ++ stop :: rest) = .ok (names, rest) := by
  have hmore : moreParameters [] (ts ++ stop :: rest) = .ok (names, rest) :=
    moreParameters_of_listed h hstop hproper
  cases h with
  | last hk => simpa [parameters, hk] using hmore
  | comma hk hcomma hlisted => simpa [parameters, hk] using hmore

theorem declaration_of_declares {signature : Signature} (h : Declares signature ts)
    (hproper : Proper signature.params) (hsign : sign.kind = .equals) :
    declaration (ts ++ sign :: body) = .ok (signature, body) := by
  cases h with
  | constant hk => simp [declaration, hk, hsign, Token.Kind.identifier?]
  | empty hk hopen hclose =>
    simp [declaration, hk, hopen, hclose, hsign, Token.Kind.identifier?, parameters, ok_bind]
  | function hk hopen hclose hlisted =>
    simp [declaration, hk, hopen, hsign, Token.Kind.identifier?,
      parameters_of_listed hlisted hclose hproper, ok_bind]

theorem Declares.ne_equals {signature : Signature} (h : Declares signature ts) :
    ∀ t ∈ ts, t.kind ≠ .equals := by
  cases h with
  | constant hk => simp [hk]
  | empty hk hopen hclose => simp [hk, hopen, hclose]
  | function hk hopen hclose hlisted =>
    have hlist := hlisted.ne_equals
    simp only [List.mem_cons, List.mem_append, List.not_mem_nil, or_false]
    rintro u (rfl | rfl | hu | rfl)
    · simp [hk]
    · simp [hopen]
    · exact hlist u hu
    · simp [hclose]

theorem filter_equals_eq_nil (h : ∀ t ∈ ts, t.kind ≠ .equals) :
    ts.filter (·.kind = .equals) = [] :=
  List.filter_eq_nil_iff.2 fun t ht => by simpa using h t ht

theorem read_of_ne_equals (h : ∀ t ∈ ts, t.kind ≠ .equals) : read ts = .ok ({}, ts) := by
  simp only [read, filter_equals_eq_nil h]

theorem read_of_declares {signature : Signature} (h : Declares signature ts)
    (hproper : Proper signature.params) (hsign : sign.kind = .equals)
    (hbody : ∀ t ∈ body, t.kind ≠ .equals) : read (ts ++ sign :: body) = .ok (signature, body) := by
  have hone : (ts ++ sign :: body).filter (·.kind = .equals) = [sign] := by
    rw [List.filter_append, filter_equals_eq_nil h.ne_equals,
      List.filter_cons_of_pos (by simpa using hsign), filter_equals_eq_nil hbody]
    rfl
  simp only [read, hone]
  exact declaration_of_declares h hproper hsign

end

theorem read_iff {tokens body : List Token} {signature : Signature} :
    read tokens = .ok (signature, body) ↔
      (∀ t ∈ tokens, t.kind ≠ .equals) ∧ signature = {} ∧ body = tokens ∨
      ∃ front sign, tokens = front ++ sign :: body ∧ sign.kind = .equals ∧
        (∀ t ∈ front ++ body, t.kind ≠ .equals) ∧ Declares signature front ∧
        Proper signature.params := by
  constructor
  · intro h
    obtain ⟨hproper, hbody, ⟨hnone, rfl⟩ | ⟨front, sign, htokens, hfront, hsign⟩⟩ := read_eq_ok h
    · exact .inl ⟨hbody, hnone, rfl⟩
    · refine .inr ⟨front, sign, htokens, hsign, ?_, hfront, hproper⟩
      exact List.forall_mem_append.2 ⟨hfront.ne_equals, hbody⟩
  · intro h
    rcases h with ⟨hnone, rfl, rfl⟩ | ⟨front, sign, rfl, hsign, hnone, hfront, hproper⟩
    · exact read_of_ne_equals hnone
    · exact read_of_declares hfront hproper hsign (List.forall_mem_append.1 hnone).2

section
variable {ts ts' : List Token}

theorem Listed.of_kinds {names : List String} (h : Listed names ts)
    (hkinds : ts'.map (·.kind) = ts.map (·.kind)) : Listed names ts' := by
  induction h generalizing ts' with
  | last hk =>
    obtain ⟨t', rfl, hk'⟩ := List.map_eq_singleton_iff.1 hkinds
    exact .last (hk'.trans hk)
  | comma hk hcomma _ ih =>
    obtain ⟨t', us', rfl, hk', hkinds⟩ := List.map_eq_cons_iff.1 hkinds
    obtain ⟨separator', vs', rfl, hcomma', hkinds⟩ := List.map_eq_cons_iff.1 hkinds
    exact .comma (hk'.trans hk) (hcomma'.trans hcomma) (ih hkinds)

theorem Declares.of_kinds {signature : Signature} (h : Declares signature ts)
    (hkinds : ts'.map (·.kind) = ts.map (·.kind)) : Declares signature ts' := by
  cases h with
  | constant hk =>
    obtain ⟨t', rfl, hk'⟩ := List.map_eq_singleton_iff.1 hkinds
    exact .constant (hk'.trans hk)
  | empty hk hopen hclose =>
    obtain ⟨t', us', rfl, hk', hkinds⟩ := List.map_eq_cons_iff.1 hkinds
    obtain ⟨start', vs', rfl, hopen', hkinds⟩ := List.map_eq_cons_iff.1 hkinds
    obtain ⟨stop', rfl, hclose'⟩ := List.map_eq_singleton_iff.1 hkinds
    exact .empty (hk'.trans hk) (hopen'.trans hopen) (hclose'.trans hclose)
  | function hk hopen hclose hlisted =>
    obtain ⟨t', us', rfl, hk', hkinds⟩ := List.map_eq_cons_iff.1 hkinds
    obtain ⟨start', vs', rfl, hopen', hkinds⟩ := List.map_eq_cons_iff.1 hkinds
    rw [List.map_append] at hkinds
    obtain ⟨listed', stops', rfl, hlisted', hkinds⟩ := List.map_eq_append_iff.1 hkinds
    obtain ⟨stop', rfl, hclose'⟩ := List.map_eq_singleton_iff.1 hkinds
    exact .function (hk'.trans hk) (hopen'.trans hopen) (hclose'.trans hclose)
      (hlisted.of_kinds hlisted')

theorem ne_equals_of_kinds (h : ∀ t ∈ ts, t.kind ≠ .equals)
    (hkinds : ts'.map (·.kind) = ts.map (·.kind)) : ∀ t ∈ ts', t.kind ≠ .equals := by
  intro t ht hk
  have hmem : t.kind ∈ ts.map (·.kind) := by
    rw [← hkinds]
    exact List.mem_map_of_mem ht
  obtain ⟨u, hu, hsame⟩ := List.mem_map.1 hmem
  exact h u hu (hsame.trans hk)

theorem read_of_kinds {signature : Signature} {body : List Token}
    (h : read ts = .ok (signature, body)) (hkinds : ts'.map (·.kind) = ts.map (·.kind)) :
    ∃ body', read ts' = .ok (signature, body') ∧ body'.map (·.kind) = body.map (·.kind) := by
  rcases read_iff.1 h with ⟨hnone, rfl, rfl⟩ | ⟨front, sign, rfl, hsign, hnone, hfront, hproper⟩
  · exact ⟨ts', read_iff.2 (.inl ⟨ne_equals_of_kinds hnone hkinds, rfl, rfl⟩), hkinds⟩
  · rw [List.map_append] at hkinds
    obtain ⟨front', us', rfl, hfront', hkinds⟩ := List.map_eq_append_iff.1 hkinds
    obtain ⟨sign', body', rfl, hsign', hbody'⟩ := List.map_eq_cons_iff.1 hkinds
    have hsame : (front' ++ body').map (·.kind) = (front ++ body).map (·.kind) := by
      rw [List.map_append, hfront', hbody', List.map_append]
    exact ⟨body', read_iff.2 (.inr ⟨front', sign', rfl, hsign'.trans hsign,
      ne_equals_of_kinds hnone hsame, hfront.of_kinds hfront', hproper⟩), hbody'⟩

end

theorem proper_iff {params : List String} :
    Proper params ↔ params.Nodup ∧ ∀ p ∈ params, p.toLower ∉ ["x", "y", "z"] := by
  constructor
  · intro h
    exact ⟨h.nodup, fun p hp => coordinate?_eq_none_iff.1 (h.free p hp)⟩
  · intro h
    exact ⟨h.1, fun p hp => coordinate?_eq_none_iff.2 (h.2 p hp)⟩

/-- A signature is read exactly when there is none, or when it is a declaration before the only
equal sign. Each parameter, and nothing else, has a position: its place in the declaration. -/
theorem read_declaration {tokens body : List Token} {signature : Signature} :
    (read tokens = .ok (signature, body) ↔
      (∀ t ∈ tokens, t.kind ≠ .equals) ∧ signature = {} ∧ body = tokens ∨
      ∃ front sign, tokens = front ++ sign :: body ∧ sign.kind = .equals ∧
        (∀ t ∈ front ++ body, t.kind ≠ .equals) ∧ Declares signature front ∧
        signature.params.Nodup ∧ ∀ p ∈ signature.params, p.toLower ∉ ["x", "y", "z"]) ∧
    (read tokens = .ok (signature, body) →
      ∀ name i, signature.position name = some i ↔ signature.params[i]? = some name) := by
  constructor
  · simp only [read_iff, proper_iff]
  · intro h name i
    exact position_eq_some (read_eq_ok h).1.nodup

theorem read_declaration_pair :
    let front : List Token := [⟨.identifier "g", ⟨0, 1, 1, 1⟩⟩, ⟨.paramOpen, ⟨1, 2, 1, 2⟩⟩,
      ⟨.identifier "a", ⟨2, 3, 1, 3⟩⟩, ⟨.comma, ⟨3, 4, 1, 4⟩⟩, ⟨.identifier "b", ⟨5, 6, 1, 6⟩⟩,
      ⟨.paramClose, ⟨6, 7, 1, 7⟩⟩]
    let sign : Token := ⟨.equals, ⟨8, 9, 1, 9⟩⟩
    let body : List Token := [⟨.identifier "b", ⟨10, 11, 1, 11⟩⟩]
    let signature : Signature := { name := "g", params := ["a", "b"] }
    Token.scan "g(a, b) = b" = .ok (front ++ sign :: body) ∧
      read (front ++ sign :: body) = .ok (signature, body) ∧
      signature.position "b" = some 1 ∧ ¬ ∃ i, signature.position "c" = some i := by
  intro front sign body signature
  have hfront : Declares signature front := .function rfl rfl rfl (.comma rfl rfl (.last rfl))
  have hproper : Proper signature.params := ⟨by decide, by decide⟩
  have hread : read (front ++ sign :: body) = .ok (signature, body) :=
    read_declaration.1.2 (.inr ⟨front, sign, rfl, rfl, by decide, hfront, proper_iff.1 hproper⟩)
  have hposition := read_declaration.2 hread
  refine ⟨by cbv, hread, (hposition "b" 1).2 rfl, fun hfound => ?_⟩
  obtain ⟨i, hi⟩ := hfound
  exact absurd (List.mem_of_getElem? ((hposition "c" i).1 hi)) (by decide)

end Signature

end Formulary
