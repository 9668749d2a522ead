import Formulary.Proofs.Catalog.Batches

/-!
# What a report tells

Each line that is no remark has one outcome: its equation is stored, or it is reported with its
number and why it failed. The outcomes come in the order of the lines, the stored equations
stand one behind the other, and what follows a line that found no room finds none either.
-/
namespace Formulary.Catalog

abbrev Outcome := Nat ⊕ Failure

def Overflows (o : Outcome) : Prop := ∃ f limit, o = .inr f ∧ f.refusal = .full limit

/-- What became of a numbered line that `c` was given, by what is stored in the end. -/
inductive Accounts (c final : Catalog) (file : String) : String × Nat → Outcome → Prop
  | stored {text : String} {line id : Nat} {e : Equation} {entry : Entry} :
      Equation.ofLine c.limits.nodes text = .ok e → id < c.limits.equations →
      final.entries[id]? = some entry → entry.source = text →
      entry.equation.stripped = e.stripped → Accounts c final file (text, line) (.inl id)
  | rejected {text : String} {line : Nat} {d : Diagnostic} :
      Equation.ofLine c.limits.nodes text = .error d →
      Accounts c final file (text, line) (.inr ⟨line, text, .rejected { d with file, line }⟩)
  | full {text : String} {line : Nat} : c.limits.equations ≤ final.size →
      Accounts c final file (text, line) (.inr ⟨line, text, .full c.limits.equations⟩)

structure Retains (c c' : Catalog) : Prop where
  size : c.size ≤ c'.size
  entries : ∀ (id : Nat) (entry : Entry), c.entries[id]? = some entry →
    ∃ entry' : Entry, c'.entries[id]? = some entry' ∧ entry'.stripped = entry.stripped

section
variable {c final final' : Catalog} {file : String} {l : String × Nat} {o : Outcome}

theorem size_store (c : Catalog) (e : Equation) (source : String) :
    (c.store e source).size = c.size + 1 := by simp [size, store]

theorem retains_store (c : Catalog) (e : Equation) (source : String) :
    c.Retains (c.store e source) := by
  refine ⟨?_, fun id entry h => ⟨entry, ?_, rfl⟩⟩
  · rw [size_store]
    exact Nat.le_succ _
  · have hlt := (List.getElem?_eq_some_iff.1 h).1
    exact (List.getElem?_append_left hlt).trans h

theorem retains_of_stripped (h : final'.stripped = final.stripped) : final.Retains final' := by
  refine ⟨(size_of_stripped h).ge, fun id entry he => ?_⟩
  have hentries : final'.entries.map Entry.stripped = final.entries.map Entry.stripped :=
    congrArg Catalog.entries h
  have hid := congrArg (fun es => es[id]?) hentries
  simp only [List.getElem?_map, he, Option.map_some] at hid
  exact Option.map_eq_some_iff.1 hid

theorem Accounts.mono (h : Accounts c final file l o) (hr : final.Retains final') :
    Accounts c final' file l o := by
  cases h with
  | stored hline hroom hentry hsource hequation =>
    obtain ⟨entry', hentry', hsame⟩ := hr.entries _ _ hentry
    refine .stored hline hroom hentry' ?_ ?_
    · exact (congrArg Entry.source hsame).trans hsource
    · exact (congrArg Entry.equation hsame).trans hequation
  | rejected hline => exact .rejected hline
  | full hfull => exact .full (hfull.trans hr.size)

theorem Accounts.full_of_overflows (h : Accounts c final file l o) (ho : Overflows o) :
    c.limits.equations ≤ final.size := by
  obtain ⟨f, limit, rfl, hf⟩ := ho
  cases h with
  | rejected => simp at hf
  | full hfull => exact hfull

end

structure Batch.Accounted (c : Catalog) (file : String) (b : Batch) (counted : List (String × Nat))
    (outcomes : List Outcome) : Prop where
  limits : b.catalog.limits = c.limits
  lines : List.Forall₂ (Accounts c b.catalog file) counted outcomes
  added : b.added = outcomes.filterMap Sum.getLeft?
  failures : b.failures = outcomes.filterMap Sum.getRight?
  places : b.added = List.range' c.size b.added.length
  size : b.catalog.size = c.size + b.added.length
  full : outcomes.Pairwise fun o later => Overflows o → Overflows later

namespace Batch.Accounted

variable {c : Catalog} {file text : String} {b : Batch} {counted : List (String × Nat)}
  {outcomes : List Outcome}

theorem start (c : Catalog) (file : String) : Accounted c file { catalog := c } [] [] :=
  ⟨rfl, .nil, rfl, rfl, rfl, rfl, .nil⟩

theorem roomless (h : Accounted c file b counted outcomes) {o : Outcome} (ho : o ∈ outcomes)
    (hfull : Overflows o) : c.limits.equations ≤ b.catalog.size := by
  have hlines := h.lines
  clear h
  induction hlines with
  | nil => simp at ho
  | cons haccount _ ih =>
    rcases List.mem_cons.1 ho with rfl | ho
    · exact haccount.full_of_overflows hfull
    · exact ih ho

theorem pairwise_concat (h : Accounted c file b counted outcomes) {o : Outcome}
    (ho : c.limits.equations ≤ b.catalog.size → Overflows o) :
    (outcomes ++ [o]).Pairwise fun o later => Overflows o → Overflows later := by
  refine List.pairwise_append.2 ⟨h.full, List.pairwise_singleton _ _, ?_⟩
  intro first hfirst later hlater hfull
  obtain rfl := List.mem_singleton.1 hlater
  exact ho (h.roomless hfirst hfull)

theorem stored (h : Accounted c file b counted outcomes) (line : Nat) {id : Nat} {c' : Catalog}
    (hadd : b.catalog.add text = .ok (id, c')) :
    Accounted c file { b with catalog := c', added := b.added ++ [id] } (counted ++ [(text, line)])
      (outcomes ++ [.inl id]) := by
  obtain ⟨hroom, e, he, rfl, rfl⟩ := add_eq_ok.1 hadd
  have hentry : (b.catalog.store e text).entries[b.catalog.size]? = some ⟨e, text⟩ :=
    List.getElem?_concat_length
  have hkept := retains_store b.catalog e text
  have hlines : List.Forall₂ (Accounts c (b.catalog.store e text) file) counted outcomes :=
    h.lines.imp fun _ _ haccount => haccount.mono hkept
  rw [h.limits] at hroom he
  refine ⟨h.limits, ?_, ?_, ?_, ?_, ?_, h.pairwise_concat fun hfull => ?_⟩
  · exact List.rel_append hlines (.cons (.stored he hroom hentry rfl rfl) .nil)
  · rw [List.filterMap_append, ← h.added]
    rfl
  · rw [List.filterMap_append, ← h.failures]
    exact (List.append_nil _).symm
  · rw [List.length_append, List.length_singleton, List.range'_concat, Nat.one_mul, ← h.places,
      h.size]
  · rw [size_store, h.size, List.length_append]
    rfl
  · omega

theorem refused (h : Accounted c file b counted outcomes) (line : Nat) {refusal : Refusal}
    (ht : Source.isRemark text = false) (hadd : b.catalog.add text = .error refusal) :
    let f : Failure := ⟨line, text, refusal.relocate file line⟩
    Accounted c file { b with failures := b.failures ++ [f] } (counted ++ [(text, line)])
      (outcomes ++ [.inr f]) := by
  intro f
  have haccount : Accounts c b.catalog file (text, line) (.inr f) ∧
      (c.limits.equations ≤ b.catalog.size → Overflows (.inr f)) := by
    rw [add, h.limits] at hadd
    split at hadd
    · rename_i hfull
      obtain rfl := Except.error.inj hadd
      exact ⟨.full hfull, fun _ => ⟨_, _, rfl, rfl⟩⟩
    · rename_i hroom
      cases hline : Equation.ofLine c.limits.nodes text with
      | ok e => simp [hline] at hadd
      | error d =>
        rw [hline] at hadd
        obtain rfl := Except.error.inj hadd
        -- An empty line is a remark, so the diagnostic has a place that is moved.
        have hne : text ≠ "" := by
          rintro rfl
          exact absurd ht (by decide)
        have hplace := Equation.line_ne_zero_of_ofLine hline hne
        have hf : f = ⟨line, text, .rejected { d with file, line }⟩ := by
          simp only [f, Refusal.relocate, Diagnostic.relocate, if_neg hplace]
        rw [hf]
        exact ⟨.rejected hline, fun hfull => absurd hfull hroom⟩
  refine ⟨h.limits, ?_, ?_, ?_, h.places, h.size, h.pairwise_concat haccount.2⟩
  · exact List.rel_append h.lines (.cons haccount.1 .nil)
  · rw [List.filterMap_append, ← h.added]
    exact (List.append_nil _).symm
  · rw [List.filterMap_append, ← h.failures]
    rfl

theorem take (h : Accounted c file b counted outcomes) (text : String) (line : Nat) :
    ∃ outcomes', Accounted c file (b.take file text line)
      (counted ++ [(text, line)].filter fun l => !Source.isRemark l.1) outcomes' := by
  have htake := takes_take file b text line
  generalize b.take file text line = b' at htake
  cases htake with
  | remark ht =>
    refine ⟨outcomes, ?_⟩
    rw [List.filter_cons_of_neg (by simp [ht]), List.filter_nil, List.append_nil]
    exact h
  | stored ht hadd =>
    have hnext := h.stored line hadd
    exact ⟨_, by rwa [List.filter_cons_of_pos (by simp [ht]), List.filter_nil]⟩
  | refused ht hadd =>
    have hnext := h.refused line ht hadd
    exact ⟨_, by rwa [List.filter_cons_of_pos (by simp [ht]), List.filter_nil]⟩

theorem run (h : Accounted c file b counted outcomes) (lines : List String) (first : Nat) :
    ∃ outcomes', Accounted c file ((lines.zipIdx first).foldl (fun b l => b.take file l.1 l.2) b)
      (counted ++ (lines.zipIdx first).filter fun l => !Source.isRemark l.1) outcomes' := by
  induction lines generalizing b counted outcomes first with
  | nil => exact ⟨outcomes, by rwa [List.zipIdx_nil, List.filter_nil, List.append_nil]⟩
  | cons text rest ih =>
    obtain ⟨outcomes', hnext⟩ := h.take text first
    obtain ⟨all, hall⟩ := ih hnext (first + 1)
    refine ⟨all, ?_⟩
    rw [List.append_assoc, ← List.filter_append] at hall
    exact hall

end Batch.Accounted

/-- A report accounts for each line that is no remark, in the order of the lines. The added
equations have the places from the old end on. -/
theorem loadText_accounts (c : Catalog) (name text : String) :
    let loaded := c.loadText name text
    let counted := ((Source.lines text).zipIdx 1).filter fun l => !Source.isRemark l.1
    ∃ outcomes : List Outcome,
      List.Forall₂ (Accounts c loaded.1 name) counted outcomes ∧
      loaded.2.added = outcomes.filterMap Sum.getLeft? ∧
      loaded.2.failures = outcomes.filterMap Sum.getRight? ∧
      loaded.2.added = List.range' c.size loaded.2.added.length ∧
      loaded.1.size = c.size + loaded.2.added.length ∧
      outcomes.Pairwise fun o later => Overflows o → Overflows later := by
  obtain ⟨outcomes, hall⟩ := (Batch.Accounted.start c name).run (Source.lines text) 1
  refine ⟨outcomes, ?_, hall.added, hall.failures, hall.places, ?_, hall.full⟩
  · have hkept (b : Catalog) : b.Retains b.resolve := retains_of_stripped stripped_resolve
    exact hall.lines.imp fun _ _ haccount => haccount.mono (hkept _)
  · exact (size_of_stripped stripped_resolve).trans hall.size

end Formulary.Catalog
