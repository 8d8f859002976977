import ConnectiveBases.Proofs.PassRules

namespace ConnectiveBases

theorem form_var (B : Basis) (padding x : String) : (Formula.var x).form B padding = .var x := by
  induction B using Basis.induction_by_passes with
  | leaf => rfl
  | pass P ih => rw [Pass.form_target, ih, Pass.over_var]

section

variable {padding : String}

theorem notAndOrForm_expand (c : Connective) (f g : Formula) :
    (c.expand f g).notAndOrForm padding = (Formula.binary c f g).notAndOrForm padding := by
  cases c <;> rfl

theorem notAndOrForm_constantFrom (v : Bool) :
    (constantFrom padding v).notAndOrForm padding = (Formula.const v).notAndOrForm padding := by
  cases v <;> rfl

/-- What the passes have in common is that they see a formula through its form over `{~,&,|}` only. -/
theorem form_eq_of_notAndOrForm_eq {f g : Formula}
    (h : f.notAndOrForm padding = g.notAndOrForm padding) (B : Basis) :
    f.form B padding = g.form B padding := by
  induction B using Basis.induction_by_passes with
  | leaf => exact h
  | pass P ih => rw [Pass.form_target, Pass.form_target, ih]

theorem form_const (B : Basis) (v : Bool) :
    (Formula.const v).form B padding = (constantFrom padding v).form B padding :=
  form_eq_of_notAndOrForm_eq (notAndOrForm_constantFrom v).symm B

theorem form_binary (B : Basis) (c : Connective) (f g : Formula) :
    (Formula.binary c f g).form B padding = (c.expand f g).form B padding :=
  form_eq_of_notAndOrForm_eq (notAndOrForm_expand c f g).symm B

theorem form_not (B : Basis) (f : Formula) :
    (Formula.not f).form B padding = B.negation (f.form B padding) := by
  induction B using Basis.induction_by_passes with
  | leaf => rfl
  | pass P _ => exact P.form_target_not f

theorem form_and (B : Basis) (f g : Formula) :
    (Formula.and f g).form B padding = B.conjunction (f.form B padding) (g.form B padding) := by
  induction B using Basis.induction_by_passes with
  | leaf => rfl
  | pass P _ => exact Pass.form_target_of_rule P.rule_and f g

theorem form_or (B : Basis) (f g : Formula) :
    (Formula.or f g).form B padding = B.disjunction (f.form B padding) (g.form B padding) := by
  cases B with
  | notAndOr => rfl
  | notAnd => exact Pass.form_target_of_rule (P := .notAnd) rfl f g
  | nand =>
    have hsource : (Formula.or f g).form .notAnd padding =
        (Formula.not (.and (.not f) (.not g))).form .notAnd padding := by
      simp only [Formula.form, Formula.notAndForm, Formula.notAndOrForm, Connective.expand,
        Formula.overNotAnd]
    have htarget : (Formula.or f g).form .nand padding =
        (Formula.not (.and (.not f) (.not g))).form .nand padding :=
      congrArg (Formula.overNand padding) hsource
    rw [htarget, form_not, form_and, form_not, form_not, Basis.disjunction]
  | impliesNot => exact Pass.form_target_of_rule (P := .impliesNot) rfl f g
  | impliesFalse => exact Pass.form_target_of_rule (P := .impliesFalse) rfl f g

end

end ConnectiveBases
