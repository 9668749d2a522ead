import Formulary.Proofs.Evaluation.Parallel

/-!
# More to go by

An evaluation that gives a value gives the same one when it may go deeper and when further values
are supplied behind those that it had.
-/
namespace Formulary

theorem kept_eq : Kept Eq where
  binary op := by
    rintro a _ b _ rfl rfl
    rfl
  unary f := by
    rintro a _ rfl
    rfl

theorem Supplies.extended {xs ys : List Float} (h : xs <+: ys) : Supplies False Eq xs ys where
  value i x hx := by
    obtain ⟨more, rfl⟩ := h
    have hlt := (List.getElem?_eq_some_iff.1 hx).1
    exact ⟨x, (List.getElem?_append_left hlt).trans hx, rfl⟩
  length := False.elim

theorem Formula.withLiterals_id (f : Formula) : f.withLiterals id = f := by
  induction f using Formula.induction with
  | mk nodes profile ih =>
    have hnodes : ∀ n ∈ nodes, n.withLiterals id = n := by
      intro n hn
      cases n with
      | call name args target =>
        rw [Node.withLiterals, withLiteralsAll_eq_map,
          List.map_congr_left fun a ha => ih name args target hn a ha, List.map_id']
      | _ => rfl
    rw [withLiterals, Node.withLiteralsAll_eq_map, List.map_congr_left hnodes, List.map_id']

section
variable {table : List Equation} {f : Formula} {limit limit' : Nat}
  {coordinates coordinates' arguments arguments' : List Float} {x : Float}

/-- What two coordinates give, three give as well; and a higher limit changes no value. -/
theorem Formula.evaluate_mono (h : f.evaluate table limit coordinates arguments = .ok x)
    (hle : limit ≤ limit') (hc : coordinates <+: coordinates') (ha : arguments <+: arguments') :
    f.evaluate table limit' coordinates' arguments' = .ok x := by
  have htable : table.map (·.withLiterals id) = table :=
    List.map_id'' (fun e => congrArg (fun f => { e with formula := f }) e.formula.withLiterals_id) _
  have hparallel := @evaluate_parallel False Eq id _ _ _ _ table limit limit' kept_eq
    (fun _ => rfl) (.extended hc) (.extended ha) hle False.elim f
  rw [htable, withLiterals_id, h] at hparallel
  obtain ⟨y, hy, rfl⟩ := hparallel
  exact hy

end

theorem evaluate_mono_sum :
    let table : List Equation := [⟨"double", ["v"], .ofNodes [.argument 0, .argument 0,
      .operator (.binary .add)]⟩]
    let sum : Formula := .ofNodes [.call "double" [.ofNodes [.coordinate 0]] (some 0),
      .coordinate 1, .operator (.binary .add)]
    ∃ x, sum.evaluate table 1 [1.5, 2] [] = .ok x ∧
      sum.evaluate table 64 [1.5, 2, 3] [4] = .ok x := by
  intro table sum
  have hsum : ∃ x, sum.evaluate table 1 [1.5, 2] [] = .ok x := ⟨_, rfl⟩
  obtain ⟨x, hx⟩ := hsum
  exact ⟨x, hx, Formula.evaluate_mono hx (by decide) ⟨[3], rfl⟩ ⟨[4], rfl⟩⟩

end Formulary
