import Formulary.Proofs.Catalog.Stripped
import Formulary.Proofs.Equation.Rejections

/-!
# Batches of lines

It does not matter where a batch is resolved in between: lines can be loaded at once or in
two parts, one by one, or without those that are skipped or refused. A failure is reported
at the number of its line.
-/
namespace Formulary

def Refusal.shift (n : Nat) : Refusal → Refusal
  | .rejected d => .rejected { d with line := d.line + n }
  | r => r

namespace Catalog

def Failure.shift (n : Nat) (f : Failure) : Failure :=
  { f with line := f.line + n, refusal := f.refusal.shift n }

inductive Takes (file : String) (b : Batch) (text : String) (line : Nat) : Batch → Prop
  | remark : Source.isRemark text = true → Takes file b text line b
  | stored {id : Nat} {c : Catalog} : Source.isRemark text = false →
      b.catalog.add text = .ok (id, c) →
      Takes file b text line { b with catalog := c, added := b.added ++ [id] }
  | refused {refusal : Refusal} : Source.isRemark text = false →
      b.catalog.add text = .error refusal → Takes file b text line
        { b with failures := b.failures ++ [⟨line, text, refusal.relocate file line⟩] }

section
variable {file : String}

theorem takes_take (file : String) (b : Batch) (text : String) (line : Nat) :
    Takes file b text line (b.take file text line) := by
  rw [Batch.take]
  split
  · rename_i hremark
    exact .remark hremark
  · rename_i hremark
    cases hadd : b.catalog.add text with
    | ok stored => exact .stored (Bool.eq_false_iff.2 hremark) hadd
    | error refusal => exact .refused (Bool.eq_false_iff.2 hremark) hadd

/-- A line that is no remark is not empty, so what it is rejected for has a place. -/
theorem shift_relocate {c : Catalog} {text : String} {refusal : Refusal}
    (ht : Source.isRemark text = false) (h : c.add text = .error refusal) (line n : Nat) :
    (refusal.relocate file line).shift n = refusal.relocate file (line + n) := by
  rw [add] at h
  split at h
  · obtain rfl := Except.error.inj h
    rfl
  · cases hline : Equation.ofLine c.limits.nodes text with
    | ok e => simp [hline] at h
    | error d =>
      rw [hline] at h
      obtain rfl := Except.error.inj h
      have hne : text ≠ "" := by
        rintro rfl
        exact absurd ht (by decide)
      have hplace := Equation.line_ne_zero_of_ofLine hline hne
      simp only [Refusal.relocate, Refusal.shift, Diagnostic.relocate, if_neg hplace]

/-- A batch that goes on behind another one, and the same lines taken by themselves, in a catalog
that may have been resolved in between. -/
structure Continues (n : Nat) (first whole rest : Batch) : Prop where
  catalog : whole.catalog.stripped = rest.catalog.stripped
  added : whole.added = first.added ++ rest.added
  failures : whole.failures = first.failures ++ rest.failures.map (Failure.shift n)

theorem Continues.take {n : Nat} {first whole rest : Batch} (h : Continues n first whole rest)
    (text : String) (line : Nat) :
    Continues n first (whole.take file text (line + n)) (rest.take file text line) := by
  by_cases hremark : Source.isRemark text = true
  · simpa only [Batch.take, hremark, if_true] using h
  · rcases add_of_stripped h.catalog text with
      ⟨refusal, hrest, hwhole⟩ | ⟨id, c, c', hrest, hwhole, hc⟩
    · simp only [Batch.take, hremark, hrest, hwhole, Bool.false_eq_true, if_false]
      refine ⟨h.catalog, h.added, ?_⟩
      simp only [h.failures, List.map_append, List.map_singleton, Failure.shift,
        shift_relocate (Bool.eq_false_iff.2 hremark) hrest, List.append_assoc]
    · simp only [Batch.take, hremark, hrest, hwhole, Bool.false_eq_true, if_false]
      refine ⟨hc, ?_, h.failures⟩
      simp only [h.added, List.append_assoc]

theorem Continues.run {n : Nat} {first whole rest : Batch} (h : Continues n first whole rest)
    (lines : List String) (line : Nat) :
    Continues n first ((lines.zipIdx (line + n)).foldl (fun b l => b.take file l.1 l.2) whole)
      ((lines.zipIdx line).foldl (fun b l => b.take file l.1 l.2) rest) := by
  induction lines generalizing whole rest line with
  | nil => exact h
  | cons text lines ih =>
    rw [List.zipIdx_cons, List.zipIdx_cons, List.foldl_cons, List.foldl_cons, Nat.add_right_comm]
    exact ih (h.take text line) (line + 1)

theorem load_append (c : Catalog) (lines more : List String) :
    c.load file (lines ++ more) =
      let first := c.load file lines
      let second := first.1.load file more
      (second.1, ⟨first.2.added ++ second.2.added,
        first.2.failures ++ second.2.failures.map (Failure.shift lines.length),
        second.2.unresolved⟩) := by
  let first := Batch.takeAll file { catalog := c } lines
  let rest := Batch.takeAll file { catalog := first.catalog.resolve } more
  have hwhole : Batch.takeAll file { catalog := c } (lines ++ more) =
      (more.zipIdx (1 + lines.length)).foldl (fun b l => b.take file l.1 l.2) first := by
    rw [Batch.takeAll, List.zipIdx_append, List.foldl_append]
    rfl
  have hrun : Continues lines.length first
      (Batch.takeAll file { catalog := c } (lines ++ more)) rest := by
    rw [hwhole]
    refine Continues.run ⟨stripped_resolve.symm, ?_, ?_⟩ more 1
    · exact (List.append_nil _).symm
    · exact (List.append_nil _).symm
  simp only [load, resolve_of_stripped hrun.catalog, unresolved_of_stripped hrun.catalog,
    hrun.added, hrun.failures]
  rfl

theorem catalog_take (b : Batch) (text : String) (line : Nat) :
    (b.take file text line).catalog =
      if Source.isRemark text then b.catalog else b.catalog.act (.add text) := by
  rw [Batch.take]
  split
  · rfl
  · cases hadd : b.catalog.add text <;> simp only [act, hadd]

theorem load_eq_foldl (c : Catalog) (lines : List String) :
    (c.load file lines).1 = ((lines.filter fun line => !Source.isRemark line).foldl
      (fun c line => c.act (.add line)) c).resolve := by
  have hrun : ∀ (b : Batch) (first : Nat),
      ((lines.zipIdx first).foldl (fun b l => b.take file l.1 l.2) b).catalog =
        (lines.filter fun line => !Source.isRemark line).foldl (fun c line => c.act (.add line))
          b.catalog := by
    induction lines with
    | nil => exact fun _ _ => rfl
    | cons text rest ih =>
      intro b first
      rw [List.zipIdx_cons, List.foldl_cons, ih, catalog_take]
      cases hremark : Source.isRemark text with
      | true => rw [List.filter_cons_of_neg (by simp [hremark]), if_pos rfl]
      | false =>
        rw [List.filter_cons_of_pos (by simp [hremark]), List.foldl_cons,
          if_neg Bool.false_ne_true]
  exact congrArg resolve (hrun { catalog := c } 1)

theorem failures_take (b : Batch) (text : String) (line : Nat) :
    ∃ new, (b.take file text line).failures = b.failures ++ new ∧ ∀ f ∈ new, f.line = line := by
  have htake := takes_take file b text line
  generalize b.take file text line = b' at htake
  cases htake with
  | remark => exact ⟨[], (List.append_nil _).symm, fun f hf => absurd hf List.not_mem_nil⟩
  | stored => exact ⟨[], (List.append_nil _).symm, fun f hf => absurd hf List.not_mem_nil⟩
  | refused => exact ⟨_, rfl, List.forall_mem_singleton.2 rfl⟩

theorem failures_foldl (b : Batch) (lines : List String) (first : Nat) :
    ∃ new, ((lines.zipIdx first).foldl (fun b l => b.take file l.1 l.2) b).failures =
      b.failures ++ new ∧ ∀ f ∈ new, first ≤ f.line := by
  induction lines generalizing b first with
  | nil => exact ⟨[], (List.append_nil _).symm, fun f hf => absurd hf List.not_mem_nil⟩
  | cons text rest ih =>
    obtain ⟨now, hnow, hline⟩ := failures_take b text first
    obtain ⟨later, hlater, hlines⟩ := ih (b.take file text first) (first + 1)
    rw [hnow, List.append_assoc] at hlater
    refine ⟨now ++ later, hlater, List.forall_mem_append.2 ⟨fun f hf => (hline f hf).ge, ?_⟩⟩
    exact fun f hf => (Nat.le_succ first).trans (hlines f hf)

def isStored (failures : List Failure) (l : String × Nat) : Bool :=
  !Source.isRemark l.1 && failures.all fun f => f.line ≠ l.2

theorem catalog_foldl_isStored (b : Batch) (lines : List String) (first : Nat)
    (hb : ∀ f ∈ b.failures, f.line < first) :
    let final := (lines.zipIdx first).foldl (fun b l => b.take file l.1 l.2) b
    (((lines.zipIdx first).filter (isStored final.failures)).map (·.1)).foldl
      (fun c line => c.act (.add line)) b.catalog = final.catalog := by
  induction lines generalizing b first with
  | nil => rfl
  | cons text rest ih =>
    intro final
    obtain ⟨now, hnow, hline⟩ := failures_take b text first
    obtain ⟨later, hlater, hlines⟩ := failures_foldl (b.take file text first) rest (first + 1)
    have hbefore : ∀ f ∈ (b.take file text first).failures, f.line < first + 1 := by
      rw [hnow]
      refine List.forall_mem_append.2 ⟨fun f hf => Nat.lt_succ_of_lt (hb f hf), fun f hf => ?_⟩
      exact (hline f hf).trans_lt (Nat.lt_succ_self first)
    have hrest := ih (b.take file text first) (first + 1) hbefore
    have hfinal : final.failures = (b.take file text first).failures ++ later := hlater
    have hrun : (rest.zipIdx (first + 1)).foldl (fun b l => b.take file l.1 l.2)
      (b.take file text first) = final := rfl
    rw [hrun] at hrest
    have htake := takes_take file b text first
    generalize b.take file text first = b' at htake hrest hfinal
    rw [List.zipIdx_cons]
    cases htake with
    | remark hremark =>
      rw [List.filter_cons_of_neg (by simp [isStored, hremark])]
      exact hrest
    | stored hremark hadd =>
      have hnone : ∀ f ∈ final.failures, f.line ≠ first := by
        rw [hfinal]
        refine List.forall_mem_append.2 ⟨fun f hf => (hb f hf).ne, fun f hf => ?_⟩
        exact (Nat.lt_of_succ_le (hlines f hf)).ne'
      have hkept : isStored final.failures (text, first) = true := by
        simpa [isStored, hremark] using hnone
      rw [List.filter_cons_of_pos hkept, List.map_cons, List.foldl_cons]
      simp only [act, hadd]
      exact hrest
    | refused hremark hadd =>
      have hreported : isStored final.failures (text, first) = false := by
        simp [isStored, hfinal]
      rw [List.filter_cons_of_neg (by simp [hreported])]
      exact hrest

theorem load_isStored (c : Catalog) (lines : List String) :
    (c.load file (((lines.zipIdx 1).filter (isStored (c.load file lines).2.failures)).map
      (·.1))).1 = (c.load file lines).1 := by
  have hall : (((lines.zipIdx 1).filter (isStored (c.load file lines).2.failures)).map
      (·.1)).filter (fun line => !Source.isRemark line) =
        ((lines.zipIdx 1).filter (isStored (c.load file lines).2.failures)).map (·.1) := by
    refine List.filter_eq_self.2 (List.forall_mem_map.2 fun l hl => ?_)
    have hstored := (List.mem_filter.1 hl).2
    simp only [isStored, Bool.and_eq_true] at hstored
    exact hstored.1
  rw [load_eq_foldl, hall]
  exact congrArg resolve (catalog_foldl_isStored { catalog := c } lines 1
    fun f hf => absurd hf List.not_mem_nil)

end

/-- Lines can be loaded in two parts, one by one, or without those that are skipped or fail. -/
theorem load_in_parts (c : Catalog) (file : String) (lines more : List String) :
    (let first := c.load file lines
      let second := first.1.load file more
      c.load file (lines ++ more) = (second.1, ⟨first.2.added ++ second.2.added,
        first.2.failures ++ second.2.failures.map (Failure.shift lines.length),
        second.2.unresolved⟩)) ∧
    (c.load file lines).1 = ((lines.filter fun line => !Source.isRemark line).foldl
      (fun c line => c.act (.add line)) c).resolve ∧
    (c.load file (((lines.zipIdx 1).filter fun l => !Source.isRemark l.1 &&
      (c.load file lines).2.failures.all fun f => f.line ≠ l.2).map (·.1))).1 =
        (c.load file lines).1 :=
  ⟨load_append c lines more, load_eq_foldl c lines, load_isStored c lines⟩

end Catalog

end Formulary
