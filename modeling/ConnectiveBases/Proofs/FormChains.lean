import ConnectiveBases.Proofs.FormVariables
import ConnectiveBases.Proofs.FormSize

namespace ConnectiveBases

namespace Formula

/-- The form of the form and so on, over the bases in their order, each with a padding of its own. -/
def chain (f : Formula) (steps : List (Basis × String)) : Formula :=
  steps.foldl (fun g step => g.form step.1 step.2) f

def isVar : Formula → Bool
  | var _ => true
  | const _ => false
  | not _ => false
  | binary _ _ _ => false

@[simp] theorem chain_nil (f : Formula) : f.chain [] = f := rfl

@[simp] theorem chain_cons (f : Formula) (step : Basis × String) (steps : List (Basis × String)) :
    f.chain (step :: steps) = (f.form step.1 step.2).chain steps := rfl

theorem chain_concat (f : Formula) (step : Basis × String) (steps : List (Basis × String)) :
    f.chain (steps ++ [step]) = (f.chain steps).form step.1 step.2 := by
  rw [chain, List.foldl_append]
  rfl

end Formula

theorem isVar_of_one_lt_size {f : Formula} (h : 1 < f.size) : f.isVar = false := by
  cases f with
  | var x => simp [Formula.size] at h
  | _ => rfl

/-- No form is smaller than its formula, so only a variable can become one. -/
theorem isVar_form (B : Basis) (padding : String) (f : Formula) :
    (f.form B padding).isVar = f.isVar := by
  have hle : f.size ≤ (f.form B padding).size := size_le_form B f
  cases f with
  | var x => rw [form_var]
  | const v => exact isVar_of_one_lt_size (size_lt_form_const B v)
  | not f =>
    have hpos := f.size_pos
    rw [Formula.size] at hle
    exact isVar_of_one_lt_size (by omega)
  | binary c f g =>
    have hpos := f.size_pos
    rw [Formula.size] at hle
    exact isVar_of_one_lt_size (by omega)

/-- Every rule for `{->,F}` writes down an `F`. -/
theorem false_mem_overImpliesFalse {padding : String} {f : Formula} (h : Basis.notAndOr.covers f)
    (hvar : f.isVar = false) : false ∈ (f.overImpliesFalse padding).constants := by
  cases f with
  | var x => simp [Formula.isVar] at hvar
  | const v => simp [Basis.covers, Basis.hasFalsum] at h
  | not f => simp [Formula.overImpliesFalse]
  | binary c f g =>
    cases c <;> simp [Basis.covers, Basis.operators] at h <;> simp [Formula.overImpliesFalse]

/-- Only a form over `{->,F}` has a constant, and any such form has one unless it is a variable. -/
theorem constants_form_ne_empty_iff {B : Basis} {padding : String} {f : Formula} :
    (f.form B padding).constants ≠ ∅ ↔ B = .impliesFalse ∧ f.isVar = false := by
  by_cases hB : B = .impliesFalse
  · subst B
    cases hvar : f.isVar with
    | true =>
      cases f <;> simp only [Formula.isVar, reduceCtorEq] at hvar
      rw [form_var]
      simp [Formula.constants]
    | false =>
      have hmem : false ∈ (f.form .impliesFalse padding).constants :=
        false_mem_overImpliesFalse (covers_notAndOrForm padding f)
          ((isVar_form .notAndOr padding f).trans hvar)
      simp only [and_self, iff_true]
      exact fun hempty => Std.ExtTreeSet.eq_empty_iff_forall_not_mem.mp hempty false hmem
  · have hempty : (f.form B padding).constants = ∅ :=
      constants_of_covers (by simpa [Basis.hasFalsum] using hB) (covers_form B padding f)
    simp [hempty, hB]

theorem isOver_chain (f : Formula) {steps : List (Basis × String)} (h : steps ≠ []) :
    (f.chain steps).isOver (steps.getLast h).1 := by
  have hlast : f.chain steps =
      (f.chain steps.dropLast).form (steps.getLast h).1 (steps.getLast h).2 := by
    rw [← Formula.chain_concat, List.dropLast_concat_getLast h]
  rw [hlast, isOver_iff_covers]
  exact covers_form _ _ _

theorem eval_chain {f : Formula} {steps : List (Basis × String)} {m : Model}
    (h : ∀ step ∈ steps, (m.get? step.2).isSome) : (f.chain steps).eval m = f.eval m := by
  induction steps generalizing f with
  | nil => rfl
  | cons step steps ih =>
    obtain ⟨hstep, hsteps⟩ := List.forall_mem_cons.mp h
    rw [Formula.chain_cons, ih hsteps, eval_form (Or.inl hstep)]

theorem infix_pair_cons {α : Type} {a b c d : α} {xs : List α} :
    [a, b] <:+: c :: d :: xs ↔ (a = c ∧ b = d) ∨ [a, b] <:+: d :: xs := by
  rw [List.infix_cons_iff, List.cons_prefix_cons, List.cons_prefix_cons]
  simp

/-- The next step pads what the step over `{->,F}` before it has written down. -/
theorem exists_adjacent_cons {x : String} {step next : Basis × String}
    {steps : List (Basis × String)} :
    (∃ u B, [(.impliesFalse, u), (B, x)] <:+: step :: next :: steps) ↔
      (x = next.2 ∧ step.1 = .impliesFalse) ∨
        ∃ u B, [(.impliesFalse, u), (B, x)] <:+: next :: steps := by
  simp only [infix_pair_cons, exists_or]
  refine or_congr_left ?_
  constructor
  · rintro ⟨u, B, hstep, hnext⟩
    exact ⟨congrArg Prod.snd hnext, (congrArg Prod.fst hstep).symm⟩
  · rintro ⟨hx, hstep⟩
    exact ⟨step.2, next.1, Prod.ext hstep.symm rfl, Prod.ext rfl hx⟩

theorem mem_vars_chain {f : Formula} {step : Basis × String} {steps : List (Basis × String)}
    {x : String} :
    x ∈ (f.chain (step :: steps)).vars ↔
      x ∈ f.vars ∨ (x = step.2 ∧ f.constants ≠ ∅) ∨
        (f.isVar = false ∧ ∃ u B, [(.impliesFalse, u), (B, x)] <:+: step :: steps) := by
  induction steps generalizing f step with
  | nil =>
    have hshort : ¬ ∃ u B, [(.impliesFalse, u), (B, x)] <:+: [step] := by
      rintro ⟨u, B, hinfix⟩
      have hlength := hinfix.length_le
      simp at hlength
    rw [Formula.chain_cons, Formula.chain_nil, mem_vars_form]
    simp only [hshort, and_false, or_false]
  | cons next steps ih =>
    rw [Formula.chain_cons, ih, mem_vars_form, constants_form_ne_empty_iff, isVar_form]
    rw [exists_adjacent_cons, or_assoc, and_or_left]
    simp only [and_assoc, and_comm]

/-- However many reductions follow each other, the result is over the last basis and the answers stay. Only a
constant lets in a padding: one of the formula, or the `F` of a step over `{->,F}`. -/
theorem chain_keeps_answers (f : Formula) (first : Basis × String) (rest : List (Basis × String)) :
    (f.chain (first :: rest)).isOver ((first :: rest).getLast (List.cons_ne_nil first rest)).1 ∧
    (∀ m : Model, (∀ step ∈ first :: rest, (m.get? step.2).isSome) →
      (f.chain (first :: rest)).eval m = f.eval m) ∧
    ∀ x, x ∈ (f.chain (first :: rest)).vars ↔
      x ∈ f.vars ∨ (x = first.2 ∧ f.constants ≠ ∅) ∨
        (f.isVar = false ∧ ∃ u B, [(.impliesFalse, u), (B, x)] <:+: first :: rest) := by
  refine ⟨isOver_chain f _, ?_, ?_⟩
  · intro m h
    exact eval_chain h
  · intro x
    exact mem_vars_chain

theorem chain_keeps_answers_falsum :
    let f := Formula.not (.var "a")
    let m := ((Model.empty.insert "a" false).insert "p" true).insert "q" false
    let g := f.chain [(.impliesFalse, "p"), (.nand, "q")]
    (m.get? "p").isSome ∧ (m.get? "q").isSome ∧ g.isOver .nand ∧ g.eval m = .ok true ∧
      "q" ∈ g.vars ∧ "p" ∉ g.vars := by
  intro f m g
  have hp : (m.get? "p").isSome := by simp [m, Model.get?_insert]
  have hq : (m.get? "q").isSome := by simp [m]
  obtain ⟨hover, heval, hvars⟩ := chain_keeps_answers f (.impliesFalse, "p") [(.nand, "q")]
  have hf : f.eval m = .ok true := by
    simp only [f, m, Formula.eval, Model.get?_insert]
    rfl
  refine ⟨hp, hq, hover, (heval m (by simp [hp, hq])).trans hf, ?_, ?_⟩
  · exact (hvars "q").mpr (Or.inr (Or.inr ⟨rfl, "p", .nand, List.infix_rfl⟩))
  · intro hmem
    rcases (hvars "p").mp hmem with hvar | ⟨-, hconst⟩ | ⟨-, u, B, hinfix⟩
    · simp [f] at hvar
    · exact hconst rfl
    · have heq := hinfix.eq_of_length rfl
      simp at heq

end ConnectiveBases
