import ConnectiveBases.Showcase
import ConnectiveBases.Proofs.Decisions
import ConnectiveBases.Proofs.FormVariables
import ConnectiveBases.Proofs.FreshPadding

namespace ConnectiveBases

theorem vars_union_form (B : Basis) (padding : String) (f : Formula) :
    f.vars ∪ (f.form B padding).vars = f.paddedVars padding := by
  apply Std.ExtTreeSet.ext_mem
  intro x
  rw [Std.ExtTreeSet.mem_union_iff, vars_form, mem_paddedVars, mem_leafNames]
  constructor
  · rintro (hf | hform)
    · exact Or.inl hf
    · exact hform
  · exact Or.inr

/-- The padding has a value wherever it is among the variables of the form, and it is among them as soon
as there is a constant to be built from it. -/
theorem eval_form_of_assigned {B : Basis} {padding : String} {f : Formula} {m : Model}
    (h : ∀ x ∈ f.vars ∪ (f.form B padding).vars, (m.get? x).isSome) :
    (f.form B padding).eval m = f.eval m := by
  apply eval_form
  by_cases hconst : f.constants = ∅
  · exact Or.inr hconst
  · have hpadding : padding ∈ (f.form B padding).vars := mem_vars_form.mpr (Or.inr ⟨rfl, hconst⟩)
    exact Or.inl (h padding (Std.ExtTreeSet.mem_union_of_right hpadding))

theorem checkEquivalence_form (B : Basis) (padding : String) (f : Formula) :
    f.checkEquivalence (f.form B padding) =
      if (f.paddedVars padding).size < 64 then .ok true
      else .error (.tooManyVariables (f.paddedVars padding).size) := by
  rw [← vars_union_form B padding f]
  split
  next hlt => exact checkEquivalence_eq_ok_true.mpr ⟨hlt, fun m hm => (eval_form_of_assigned hm).symm⟩
  next hge => exact checkEquivalence_of_le (Nat.le_of_not_lt hge)

theorem checkForm_form (B : Basis) (padding : String) (f : Formula) :
    checkForm B f (f.form B padding) =
      if (f.paddedVars padding).size < 64 then .ok ()
      else .error (.failed (.tooManyVariables (f.paddedVars padding).size)) := by
  have hover : (f.form B padding).isOver B := isOver_iff_covers.mpr (covers_form B padding f)
  rw [checkForm, hover, checkEquivalence_form]
  by_cases hlt : (f.paddedVars padding).size < 64
  · rw [if_pos hlt, if_pos hlt]
    rfl
  · rw [if_neg hlt, if_neg hlt]
    rfl

theorem size_paddedVars_of_not_mem {padding : String} {f : Formula} (h : padding ∉ f.vars) :
    (f.paddedVars padding).size = if f.constants = ∅ then f.vars.size else f.vars.size + 1 := by
  unfold Formula.paddedVars
  split
  next => rfl
  next => rw [Std.ExtTreeSet.size_insert, if_neg (by simpa using h)]

theorem paddedVars_fresh_too_many_iff (f : Formula) :
    64 ≤ (f.paddedVars f.freshPadding).size ↔
      64 ≤ f.vars.size ∨ f.vars.size = 63 ∧ f.constants ≠ ∅ := by
  rw [size_paddedVars_of_not_mem (freshPadding_not_mem f)]
  by_cases hconst : f.constants = ∅
  · simp [hconst]
  · simp only [hconst, if_false, ne_eq, not_false_eq_true, and_true]
    omega

/-- A form is never found outside its basis or not equivalent. At most the comparison is refused, and that
hangs on the number of names alone, the padding counted where there is a constant. -/
theorem form_check_refused_by_count (B : Basis) (padding : String) (f : Formula) :
    f.checkEquivalence (f.form B padding) =
      (if (f.paddedVars padding).size < 64 then .ok true
        else .error (.tooManyVariables (f.paddedVars padding).size)) ∧
    f.checkEquivalence (f.form B padding) ≠ .ok false ∧
    checkForm B f (f.form B padding) =
      (if (f.paddedVars padding).size < 64 then .ok ()
        else .error (.failed (.tooManyVariables (f.paddedVars padding).size))) ∧
    ((∃ e, f.checkEquivalence (f.form B f.freshPadding) = .error e) ↔
      64 ≤ f.vars.size ∨ f.vars.size = 63 ∧ f.constants ≠ ∅) := by
  refine ⟨checkEquivalence_form B padding f, ?_, checkForm_form B padding f, ?_⟩
  · rw [checkEquivalence_form]
    split <;> simp
  · rw [← paddedVars_fresh_too_many_iff, checkEquivalence_form]
    constructor
    · rintro ⟨e, he⟩
      split at he
      next => cases he
      next hge => exact Nat.le_of_not_lt hge
    · intro hge
      exact ⟨_, if_neg (Nat.not_lt_of_le hge)⟩

end ConnectiveBases
