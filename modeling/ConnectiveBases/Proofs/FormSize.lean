import ConnectiveBases.Proofs.FormRecursion

namespace ConnectiveBases

namespace Formula

/-- The formula itself and all that is below its root. -/
def subformulas : Formula → List Formula
  | var x => [var x]
  | const v => [const v]
  | not f => not f :: f.subformulas
  | binary c f g => binary c f g :: (f.subformulas ++ g.subformulas)

theorem size_le_of_mem_subformulas {f g : Formula} (h : g ∈ f.subformulas) : g.size ≤ f.size := by
  induction f with
  | var x =>
    have heq : g = var x := by simpa [subformulas] using h
    exact Nat.le_of_eq (congrArg size heq)
  | const v =>
    have heq : g = const v := by simpa [subformulas] using h
    exact Nat.le_of_eq (congrArg size heq)
  | not f ih =>
    rcases List.mem_cons.mp h with heq | h
    · exact Nat.le_of_eq (congrArg size heq)
    · have hle := ih h
      simp only [size]
      omega
  | binary c f k ihf ihk =>
    rcases List.mem_cons.mp h with heq | h
    · exact Nat.le_of_eq (congrArg size heq)
    · simp only [size]
      rcases List.mem_append.mp h with h | h
      · have hle := ihf h
        omega
      · have hle := ihk h
        omega

end Formula

theorem size_le_of_eq_or_size_lt {f g : Formula} (h : g = f ∨ f.size < g.size) : f.size ≤ g.size := by
  rcases h with heq | hlt
  · exact Nat.le_of_eq (congrArg Formula.size heq.symm)
  · exact Nat.le_of_lt hlt

namespace Basis

variable (B : Basis) (f g : Formula)

theorem negation_eq_or_size_lt :
    B.negation f = .not f ∨ (Formula.not f).size < (B.negation f).size := by
  have hpos := f.size_pos
  cases B with
  | notAndOr => exact Or.inl rfl
  | notAnd => exact Or.inl rfl
  | impliesNot => exact Or.inl rfl
  | nand =>
    right
    simp only [negation, Formula.size]
    omega
  | impliesFalse =>
    right
    simp only [negation, Formula.size]
    omega

theorem conjunction_eq_or_size_lt :
    B.conjunction f g = .and f g ∨ (Formula.and f g).size < (B.conjunction f g).size := by
  cases B with
  | notAndOr => exact Or.inl rfl
  | notAnd => exact Or.inl rfl
  | _ =>
    right
    simp only [conjunction, Formula.size]
    omega

theorem disjunction_eq_or_size_lt :
    B.disjunction f g = .or f g ∨ (Formula.or f g).size < (B.disjunction f g).size := by
  cases B with
  | notAndOr => exact Or.inl rfl
  | _ =>
    right
    simp only [disjunction, conjunction, negation, Formula.size]
    omega

theorem size_lt_negation : f.size < (B.negation f).size :=
  size_le_of_eq_or_size_lt (B.negation_eq_or_size_lt f)

theorem size_lt_conjunction : f.size + g.size < (B.conjunction f g).size :=
  size_le_of_eq_or_size_lt (B.conjunction_eq_or_size_lt f g)

theorem size_lt_disjunction : f.size + g.size < (B.disjunction f g).size :=
  size_le_of_eq_or_size_lt (B.disjunction_eq_or_size_lt f g)

end Basis

section

variable {padding : String} (B : Basis)

/-- A connective that a basis does not write as it is takes further nodes beside the operands. -/
theorem form_binary_eq_or_size_lt (c : Connective) (f g : Formula) :
    (Formula.binary c f g).form B padding = .binary c (f.form B padding) (g.form B padding) ∨
      (Formula.binary c (f.form B padding) (g.form B padding)).size <
        ((Formula.binary c f g).form B padding).size := by
  rw [form_binary, Formula.size]
  generalize hf : f.form B padding = a
  generalize hg : g.form B padding = b
  have hna := B.size_lt_negation a
  have hnb := B.size_lt_negation b
  cases c with
  | and =>
    rw [Connective.expand, form_and, hf, hg]
    exact B.conjunction_eq_or_size_lt a b
  | or =>
    rw [Connective.expand, form_or, hf, hg]
    exact B.disjunction_eq_or_size_lt a b
  | implies =>
    right
    rw [Connective.expand, form_or, form_not, hf, hg]
    have hor := B.size_lt_disjunction (B.negation a) b
    omega
  | xor =>
    right
    rw [Connective.expand, form_or, form_and, form_and, form_not, form_not, hf, hg]
    have hleft := B.size_lt_conjunction a (B.negation b)
    have hor := B.size_lt_disjunction (B.conjunction a (B.negation b)) (B.conjunction (B.negation a) b)
    omega
  | iff =>
    right
    rw [Connective.expand, form_or, form_and, form_and, form_not, form_not, hf, hg]
    have hleft := B.size_lt_conjunction a b
    have hright := B.size_lt_conjunction (B.negation a) (B.negation b)
    have hor := B.size_lt_disjunction (B.conjunction a b) (B.conjunction (B.negation a) (B.negation b))
    omega
  | nand =>
    right
    rw [Connective.expand, form_not, form_and, hf, hg]
    have hand := B.size_lt_conjunction a b
    have hnot := B.size_lt_negation (B.conjunction a b)
    omega
  | nor =>
    right
    rw [Connective.expand, form_not, form_or, hf, hg]
    have hor := B.size_lt_disjunction a b
    have hnot := B.size_lt_negation (B.disjunction a b)
    omega

theorem size_lt_form_const (v : Bool) : 1 < ((Formula.const v).form B padding).size := by
  have hor := B.size_lt_disjunction (.var padding) (B.negation (.var padding))
  rw [Formula.size] at hor
  rw [form_const]
  cases v with
  | true =>
    rw [constantFrom, form_or, form_not, form_var]
    omega
  | false =>
    rw [constantFrom, form_not, form_or, form_not, form_var]
    have hnot := B.size_lt_negation (B.disjunction (.var padding) (B.negation (.var padding)))
    omega

/-- A form that is not the formula itself has more nodes. -/
theorem form_eq_or_size_lt (f : Formula) :
    f.form B padding = f ∨ f.size < (f.form B padding).size := by
  induction f with
  | var x => exact Or.inl (form_var B padding x)
  | const v => exact Or.inr (size_lt_form_const B v)
  | not f ih =>
    rw [form_not]
    rcases ih with heq | hlt
    · rw [heq]
      exact B.negation_eq_or_size_lt f
    · right
      have hnot := B.size_lt_negation (f.form B padding)
      rw [Formula.size]
      omega
  | binary c f g ihf ihg =>
    have hf := size_le_of_eq_or_size_lt ihf
    have hg := size_le_of_eq_or_size_lt ihg
    rcases form_binary_eq_or_size_lt B c f g with heq | hlt
    · rw [heq, Formula.size, Formula.size]
      rcases ihf with heqf | hltf
      · rcases ihg with heqg | hltg
        · left
          rw [heqf, heqg]
        · right
          omega
      · right
        omega
    · right
      rw [Formula.size] at hlt ⊢
      omega

theorem size_le_form (f : Formula) : f.size ≤ (f.form B padding).size :=
  size_le_of_eq_or_size_lt (form_eq_or_size_lt B f)

theorem size_form_eq_iff {f : Formula} :
    (f.form B padding).size = f.size ↔ f.form B padding = f := by
  constructor
  · intro hsize
    rcases form_eq_or_size_lt B f with heq | hlt
    · exact heq
    · omega
  · exact congrArg Formula.size

theorem size_lt_form_of_not_covers {f : Formula} (h : B.covers f = false) :
    f.size < (f.form B padding).size := by
  rcases form_eq_or_size_lt B f with heq | hlt
  · have hcovers := covers_form B padding f
    rw [heq, h] at hcovers
    cases hcovers
  · exact hlt

end

end ConnectiveBases
