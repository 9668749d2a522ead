import Formulary.Proofs.Token.Brackets
import Formulary.Signature

/-!
# What a signature declares

The tokens before an equal sign are a name, or a name and its parameters in parentheses.
The parameters differ from one another and from the coordinates. Where there is an equal
sign, the tokens cannot run out before it.
-/
namespace Formulary

/-- What can be wrong before an equal sign. -/
def Fault.Declarative : Fault → Prop
  | .secondEquals | .nameExpected | .parametersExpected | .parameterExpected
  | .parameterReserved _ | .parameterRepeated _ | .parameterSeparatorExpected
  | .equalsExpected => True
  | _ => False

theorem Token.Kind.identifier?_eq_some {k : Kind} {name : String} :
    k.identifier? = some name ↔ k = .identifier name := by
  cases k <;> simp [identifier?]

def Rejection.About (ts : List Token) (r : Rejection) : Prop := ∃ t ∈ ts, r.place = .span t.span

theorem Rejection.About.mono {ts us : List Token} {r : Rejection} (h : r.About ts)
    (hsub : ts ⊆ us) : r.About us := by
  obtain ⟨t, ht, hplace⟩ := h
  exact ⟨t, hsub ht, hplace⟩

namespace Signature

/-- Parameters with a comma between any two. -/
inductive Listed : List String → List Token → Prop
  | last {name : String} {t : Token} : t.kind = .identifier name → Listed [name] [t]
  | comma {name : String} {names : List String} {t separator : Token} {ts : List Token} :
      t.kind = .identifier name → separator.kind = .comma → Listed names ts →
      Listed (name :: names) (t :: separator :: ts)

inductive Declares : Signature → List Token → Prop
  | constant {name : String} {t : Token} : t.kind = .identifier name → Declares { name } [t]
  | empty {name : String} {t start stop : Token} : t.kind = .identifier name →
      start.kind = .paramOpen → stop.kind = .paramClose → Declares { name } [t, start, stop]
  | function {name : String} {params : List String} {t start stop : Token} {ts : List Token} :
      t.kind = .identifier name → start.kind = .paramOpen → stop.kind = .paramClose →
      Listed params ts → Declares { name, params } (t :: start :: (ts ++ [stop]))

theorem Listed.ne_equals {names : List String} {ts : List Token} (h : Listed names ts) :
    ∀ t ∈ ts, t.kind ≠ .equals := by
  induction h with
  | last hk => simp [hk]
  | comma hk hcomma _ ih => simpa [hk, hcomma] using ih

structure Proper (params : List String) : Prop where
  nodup : params.Nodup
  free : ∀ name ∈ params, coordinate? name = none

theorem proper_nil : Proper [] := ⟨.nil, fun _ h => absurd h List.not_mem_nil⟩

theorem Proper.concat {seen : List String} (h : Proper seen) {name : String}
    (hfree : coordinate? name = none) (hnew : name ∉ seen) : Proper (seen ++ [name]) := by
  refine ⟨?_, List.forall_mem_append.2 ⟨h.free, List.forall_mem_singleton.2 hfree⟩⟩
  rw [List.nodup_append]
  refine ⟨h.nodup, List.pairwise_singleton _ _, fun a ha b hb => ?_⟩
  obtain rfl := List.mem_singleton.1 hb
  exact fun heq => hnew (heq ▸ ha)

section
variable {seen params : List String} {t : Token} {ts rest : List Token}

theorem parameter_eq_ok {name : String} (h : parameter seen t = .ok name) :
    t.kind = .identifier name ∧ coordinate? name = none ∧ name ∉ seen := by
  rw [parameter] at h
  split at h
  · rename_i hk
    split at h
    · simp at h
    · rename_i hfree
      split at h
      · simp at h
      · rename_i hnew
        obtain rfl := Except.ok.inj h
        exact ⟨hk, by simpa using hfree, hnew⟩
  · simp at h

theorem moreParameters_eq_ok (h : moreParameters seen ts = .ok (params, rest))
    (hseen : Proper seen) : Proper params ∧ ∃ names listed stop, params = seen ++ names ∧
      ts = listed ++ stop :: rest ∧ Listed names listed ∧ stop.kind = .paramClose := by
  fun_induction moreParameters seen ts with
  | case1 => simp at h
  | case2 seen t =>
    obtain ⟨name, -, h⟩ := bind_eq_ok.1 h
    simp at h
  | case3 seen t separator rest' ih =>
    obtain ⟨name, hname, h⟩ := bind_eq_ok.1 h
    obtain ⟨hk, hfree, hnew⟩ := parameter_eq_ok hname
    have hproper := hseen.concat hfree hnew
    split at h
    · rename_i hcomma
      obtain ⟨hparams, names, listed, stop, rfl, rfl, hlisted, hstop⟩ := ih name h hproper
      refine ⟨hparams, name :: names, t :: separator :: listed, stop, ?_, rfl,
        .comma hk hcomma hlisted, hstop⟩
      rw [List.append_assoc, List.singleton_append]
    · rename_i hclose
      obtain ⟨rfl, rfl⟩ := Prod.mk.inj (Except.ok.inj h)
      exact ⟨hproper, [name], [t], separator, rfl, rfl, .last hk, hclose⟩
    · simp at h

theorem parameters_eq_ok (h : parameters ts = .ok (params, rest)) : Proper params ∧
    ∃ listed stop, ts = listed ++ stop :: rest ∧ stop.kind = .paramClose ∧
      (params = [] ∧ listed = [] ∨ Listed params listed) := by
  unfold parameters at h
  split at h
  · simp at h
  · rename_i t rest'
    split at h
    · rename_i hclose
      obtain ⟨rfl, rfl⟩ := Prod.mk.inj (Except.ok.inj h)
      exact ⟨proper_nil, [], t, rfl, hclose, .inl ⟨rfl, rfl⟩⟩
    · obtain ⟨hproper, names, listed, stop, rfl, heq, hlisted, hstop⟩ :=
        moreParameters_eq_ok h proper_nil
      exact ⟨hproper, listed, stop, heq, hstop, .inr hlisted⟩

theorem declaration_eq_ok {signature : Signature} {body : List Token}
    (h : declaration ts = .ok (signature, body)) : Proper signature.params ∧
      ∃ front sign, ts = front ++ sign :: body ∧ Declares signature front ∧
        sign.kind = .equals := by
  unfold declaration at h
  split at h
  · simp at h
  · rename_i t rest
    split at h
    · simp at h
    · rename_i name hname
      have hk := Token.Kind.identifier?_eq_some.1 hname
      split at h
      · simp at h
      · rename_i u rest
        split at h
        · rename_i hequals
          obtain ⟨rfl, rfl⟩ := Prod.mk.inj (Except.ok.inj h)
          exact ⟨proper_nil, [t], u, rfl, .constant hk, hequals⟩
        · rename_i hopen
          obtain ⟨⟨params, left⟩, hparams, h⟩ := bind_eq_ok.1 h
          obtain ⟨hproper, listed, stop, hrest, hclose, hlisted⟩ := parameters_eq_ok hparams
          cases left with
          | nil => simp at h
          | cons sign body =>
            simp only at h
            split at h
            · rename_i hequals
              obtain ⟨rfl, rfl⟩ := Prod.mk.inj (Except.ok.inj h)
              refine ⟨hproper, t :: u :: (listed ++ [stop]), sign, by simp [hrest], ?_, hequals⟩
              rcases hlisted with ⟨rfl, rfl⟩ | hlisted
              · exact .empty hk hopen hclose
              · exact .function hk hopen hclose hlisted
            · simp at h
        · simp at h

theorem read_eq_ok {signature : Signature} {body : List Token}
    (h : read ts = .ok (signature, body)) :
    Proper signature.params ∧ (∀ t ∈ body, t.kind ≠ .equals) ∧
      (signature = {} ∧ ts = body ∨ ∃ front sign, ts = front ++ sign :: body ∧
        Declares signature front ∧ sign.kind = .equals) := by
  rw [read] at h
  split at h
  · rename_i hnone
    obtain ⟨rfl, rfl⟩ := Prod.mk.inj (Except.ok.inj h)
    refine ⟨proper_nil, fun t ht => ?_, .inl ⟨rfl, rfl⟩⟩
    simpa using List.filter_eq_nil_iff.1 hnone t ht
  · rename_i only hone
    obtain ⟨hproper, front, sign, rfl, hfront, hsign⟩ := declaration_eq_ok h
    refine ⟨hproper, fun t ht => ?_, .inr ⟨front, sign, rfl, hfront, hsign⟩⟩
    rw [List.filter_append, List.filter_cons_of_pos (by simpa using hsign)] at hone
    have hlength := congrArg List.length hone
    simp only [List.length_append, List.length_cons, List.length_nil] at hlength
    have hbody : body.filter (·.kind = .equals) = [] := List.length_eq_zero_iff.1 (by omega)
    simpa using List.filter_eq_nil_iff.1 hbody t ht
  · simp at h

theorem Listed.encloseAll {names : List String} (h : Listed names ts)
    (opened : List Token.Enclosure) : Token.encloseAll opened ts = opened := by
  induction h with
  | last hk => simp [Token.Kind.enclose, hk]
  | comma hk hcomma _ ih => simpa [Token.Kind.enclose, hk, hcomma] using ih

theorem Declares.encloseAll {signature : Signature} (h : Declares signature ts) :
    Token.encloseAll [] ts = [] := by
  cases h with
  | constant hk => simp [Token.Kind.enclose, hk]
  | empty hk hopen hclose => simp [Token.Kind.enclose, hk, hopen, hclose]
  | function hk hopen hclose hlisted =>
    rw [Token.encloseAll_cons, Token.encloseAll_cons, Token.encloseAll_append, hlisted.encloseAll]
    simp [Token.Kind.enclose, hk, hopen, hclose]

theorem nested_of_read {signature : Signature} {body : List Token} (hn : Token.Nested none [] ts)
    (h : read ts = .ok (signature, body)) :
    ∃ previous, Token.followsIdentifier previous = false ∧ Token.Nested previous [] body := by
  obtain ⟨-, -, ⟨-, rfl⟩ | ⟨front, sign, rfl, hfront, hsign⟩⟩ := read_eq_ok h
  · exact ⟨none, rfl, hn⟩
  · obtain ⟨previous, -, hbody⟩ := hn.append
    rw [hfront.encloseAll, hsign] at hbody
    exact ⟨some .equals, rfl, hbody⟩

variable {r : Rejection}

theorem parameter_eq_error (h : parameter seen t = .error r) :
    r.fault.Declarative ∧ r.About [t] := by
  rw [parameter] at h
  split at h
  · split at h
    · obtain rfl := Except.error.inj h
      exact ⟨trivial, t, List.mem_cons_self, rfl⟩
    · split at h
      · obtain rfl := Except.error.inj h
        exact ⟨trivial, t, List.mem_cons_self, rfl⟩
      · simp at h
  · obtain rfl := Except.error.inj h
    exact ⟨trivial, t, List.mem_cons_self, rfl⟩

theorem moreParameters_eq_error (h : moreParameters seen ts = .error r)
    (hsign : ∃ t ∈ ts, t.kind = .equals) : r.fault.Declarative ∧ r.About ts := by
  fun_induction moreParameters seen ts with
  | case1 => simp at hsign
  | case2 seen t =>
    obtain ⟨u, hu, hsign⟩ := hsign
    obtain rfl := List.mem_singleton.1 hu
    rcases bind_eq_error.1 h with h | ⟨name, hname, -⟩
    · exact parameter_eq_error h
    · rw [(parameter_eq_ok hname).1] at hsign
      simp at hsign
  | case3 seen t separator rest ih =>
    rcases bind_eq_error.1 h with h | ⟨name, hname, h⟩
    · obtain ⟨hfault, habout⟩ := parameter_eq_error h
      exact ⟨hfault, habout.mono (by simp)⟩
    · have hk := (parameter_eq_ok hname).1
      split at h
      · rename_i hcomma
        have hrest : ∃ t ∈ rest, t.kind = .equals := by
          simpa [hk, hcomma] using hsign
        obtain ⟨hfault, habout⟩ := ih name h hrest
        exact ⟨hfault, habout.mono (by simp)⟩
      · simp at h
      · obtain rfl := Except.error.inj h
        exact ⟨trivial, separator, by simp, rfl⟩

theorem parameters_eq_error (h : parameters ts = .error r) (hsign : ∃ t ∈ ts, t.kind = .equals) :
    r.fault.Declarative ∧ r.About ts := by
  unfold parameters at h
  split at h
  · simp at hsign
  · split at h
    · simp at h
    · exact moreParameters_eq_error h hsign

theorem declaration_eq_error (h : declaration ts = .error r)
    (hsign : ∃ t ∈ ts, t.kind = .equals) : r.fault.Declarative ∧ r.About ts := by
  unfold declaration at h
  split at h
  · simp at hsign
  · rename_i t rest
    split at h
    · obtain rfl := Except.error.inj h
      exact ⟨trivial, t, List.mem_cons_self, rfl⟩
    · rename_i name hname
      have hk := Token.Kind.identifier?_eq_some.1 hname
      split at h
      · simp [hk] at hsign
      · rename_i u rest
        split at h
        · simp at h
        · rename_i hopen
          have hrest : ∃ t ∈ rest, t.kind = .equals := by simpa [hk, hopen] using hsign
          rcases bind_eq_error.1 h with h | ⟨⟨params, left⟩, hparams, h⟩
          · obtain ⟨hfault, habout⟩ := parameters_eq_error h hrest
            exact ⟨hfault, habout.mono (by simp)⟩
          · obtain ⟨-, listed, stop, hsplit, hclose, hlisted⟩ := parameters_eq_ok hparams
            have hnone : ∀ t ∈ listed, t.kind ≠ .equals := by
              rcases hlisted with ⟨-, rfl⟩ | hlisted
              · exact fun t ht => absurd ht List.not_mem_nil
              · exact hlisted.ne_equals
            -- The equal sign stands behind the parameters.
            have hleft : left ≠ [] := by
              rintro rfl
              obtain ⟨t, ht, hequals⟩ := hrest
              rw [hsplit, List.mem_append, List.mem_singleton] at ht
              rcases ht with ht | rfl
              · exact hnone t ht hequals
              · simp [hclose] at hequals
            cases left with
            | nil => exact absurd rfl hleft
            | cons sign body =>
              simp only at h
              split at h
              · simp at h
              · obtain rfl := Except.error.inj h
                exact ⟨trivial, sign, by simp [hsplit], rfl⟩
        · obtain rfl := Except.error.inj h
          exact ⟨trivial, u, by simp, rfl⟩

theorem read_eq_error (h : read ts = .error r) : r.fault.Declarative ∧ r.About ts := by
  rw [read] at h
  split at h
  · simp at h
  · rename_i only hone
    have honly : only ∈ ts.filter (·.kind = .equals) := by rw [hone]; exact List.mem_cons_self
    obtain ⟨hmem, hsign⟩ := List.mem_filter.1 honly
    exact declaration_eq_error h ⟨only, hmem, of_decide_eq_true hsign⟩
  · rename_i first second rest htwo
    obtain rfl := Except.error.inj h
    have hsecond : second ∈ ts.filter (·.kind = .equals) := by simp [htwo]
    exact ⟨trivial, second, (List.mem_filter.1 hsecond).1, rfl⟩

end

end Signature

end Formulary
