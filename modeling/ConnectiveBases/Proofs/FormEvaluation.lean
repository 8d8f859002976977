import ConnectiveBases.Proofs.PassEvaluation

namespace ConnectiveBases

theorem value_form (B : Basis) (padding : String) (σ : String → Bool) (f : Formula) :
    (f.form B padding).value σ = f.value σ := by
  have hor := value_notAndOrForm padding σ f
  cases B with
  | notAndOr => exact hor
  | notAnd => exact value_notAndForm padding σ f
  | nand => exact (value_overNand padding σ _).trans (value_notAndForm padding σ f)
  | impliesNot => exact (value_overImpliesNot padding σ _).trans hor
  | impliesFalse => exact (value_overImpliesFalse padding σ _).trans hor

/-- Whatever the basis, the leaves of a form come in the order of the leaves of the formula, each
constant replaced by the padding. -/
theorem firstUnassigned_form (B : Basis) (padding : String) (f : Formula) (m : Model) :
    m.firstUnassigned ((f.form B padding).leafNames []) =
      m.firstUnassigned (f.leafNames [padding]) := by
  have hor := fun names => firstUnassigned_notAndOrForm padding m names f
  cases B with
  | notAndOr => exact hor []
  | notAnd => exact firstUnassigned_notAndForm padding m [] f
  | nand =>
    exact (firstUnassigned_overNand padding m [] _).trans
      (firstUnassigned_notAndForm padding m [padding] f)
  | impliesNot => exact (firstUnassigned_overImpliesNot padding m [] _).trans (hor [padding])
  | impliesFalse =>
    exact (firstUnassigned_overImpliesFalse padding m
      (Or.inr (constants_notAndOrForm padding f))).trans (hor [])

theorem eval_form_eq_answer (B : Basis) (padding : String) (f : Formula) (m : Model) :
    (f.form B padding).eval m = m.answer (f.leafNames [padding]) (f.value m.valuation) := by
  rw [eval_eq_answer, value_form, Model.answer, Model.answer, firstUnassigned_form]

theorem eval_form {B : Basis} {padding : String} {f : Formula} {m : Model}
    (h : (m.get? padding).isSome ∨ f.constants = ∅) : (f.form B padding).eval m = f.eval m := by
  rw [eval_form_eq_answer, eval_eq_answer, Model.answer, Model.answer, firstUnassigned_leafNames h]

theorem eval_of_assigned {padding : String} {f : Formula} {m : Model}
    (h : ∀ x ∈ f.leafNames [padding], (m.get? x).isSome) :
    f.eval m = .ok (f.value m.valuation) := by
  rw [eval_eq_answer]
  exact answer_of_assigned (fun x hx => h x (leafNames_nil_subset hx)) _

theorem eval_of_eval_form {B : Basis} {padding : String} {f : Formula} {m : Model} {v : Bool}
    (h : (f.form B padding).eval m = .ok v) : f.eval m = .ok v := by
  rw [eval_form_eq_answer] at h
  obtain ⟨hassigned, hvalue⟩ := assigned_of_answer h
  rw [eval_of_assigned hassigned, hvalue]

/-- The first leaf without a value is reported, the padding standing for each constant. Otherwise the form has
the value of the formula, whatever the padding is set to. -/
theorem form_answers_by_leaf_order (B : Basis) (padding : String) (f : Formula) (m : Model) :
    ((∀ x ∈ f.leafNames [padding], (m.get? x).isSome) →
      ∃ v, (f.form B padding).eval m = .ok v ∧ f.eval m = .ok v) ∧
    ((¬ ∀ x ∈ f.leafNames [padding], (m.get? x).isSome) →
      ∃ x, m.firstUnassigned (f.leafNames [padding]) = some x ∧
        (f.form B padding).eval m = .error (.unassignedVariable x)) ∧
    ((m.get? padding).isSome ∨ f.constants = ∅ → (f.form B padding).eval m = f.eval m) ∧
    (∀ v, (f.form B padding).eval (m.insert padding v) = f.eval (m.insert padding v)) ∧
    (padding ∉ f.vars → ∀ v w, (f.form B padding).eval m = .ok w →
      (f.form B padding).eval (m.insert padding v) = .ok w) := by
  have hset : ∀ v, (f.form B padding).eval (m.insert padding v) = f.eval (m.insert padding v) :=
    fun v => eval_form (Or.inl (by simp))
  refine ⟨?_, ?_, eval_form, hset, ?_⟩
  · intro h
    refine ⟨f.value m.valuation, ?_, eval_of_assigned h⟩
    rw [eval_form_eq_answer]
    exact answer_of_assigned h _
  · intro h
    obtain ⟨x, hx⟩ := Option.ne_none_iff_exists'.mp fun hnone => h (firstUnassigned_eq_none.mp hnone)
    refine ⟨x, hx, ?_⟩
    rw [eval_form_eq_answer]
    exact answer_of_unassigned hx _
  · intro hfresh v w hw
    have hsame : ∀ x ∈ f.vars, (m.insert padding v).get? x = m.get? x := by
      intro x hx
      have hne : padding ≠ x := by
        rintro rfl
        exact hfresh hx
      exact Model.get?_insert_of_ne hne m v
    rw [hset, eval_congr hsame]
    exact eval_of_eval_form hw

theorem form_answers_captured_padding :
    let f := Formula.xor (.and (.var "p") .falsum) (.var "q")
    let m := Model.empty.insert "q" true
    (f.form .impliesNot "p").eval m = .error (.unassignedVariable "p") ∧
      (f.form .impliesNot "p").eval (m.insert "p" true) = .ok true := by
  intro f m
  have hp : m.get? "p" = none := by simp [m, Model.get?_insert]
  obtain ⟨-, hmissing, -, hset, -⟩ := form_answers_by_leaf_order .impliesNot "p" f m
  constructor
  · obtain ⟨x, hx, heval⟩ := hmissing fun h => by simpa [hp] using h "p" (by simp [f])
    have heq : x = "p" := by simpa [f, Model.firstUnassigned, hp] using hx.symm
    rw [heval, heq]
  · rw [hset true]
    simp only [f, m, Formula.eval, Model.get?_insert]
    rfl

end ConnectiveBases
