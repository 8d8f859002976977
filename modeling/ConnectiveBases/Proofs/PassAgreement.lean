import ConnectiveBases.Proofs.PassRules
import ConnectiveBases.Proofs.ConstantPaths

namespace ConnectiveBases

namespace Pass

variable (padding : String)

/-- The constants that a pass builds itself differ from those that it makes of the source's constants,
whatever the padding is called. -/
theorem over_const_eq_form_iff (P : Pass) (v : Bool) :
    (Formula.const v).over P.target padding = (Formula.const v).form P.target padding ↔
      P = .notAnd := by
  cases hr : P.constant padding v with
  | none =>
    rw [over_of_no_constant hr, ← form_target]
    exact ⟨fun _ => eq_notAnd_of_constant hr, fun _ => rfl⟩
  | some r =>
    rw [over_of_constant hr]
    cases P <;> cases v <;> simp only [constant, Option.some.injEq, reduceCtorEq] at hr <;> subst r <;>
      simp [target, Formula.form, Formula.nandForm, Formula.notAndForm, Formula.notAndOrForm,
        Formula.impliesNotForm, Formula.impliesFalseForm, Formula.overNotAnd, Formula.overNand,
        Formula.overImpliesNot, Formula.overImpliesFalse, constantFrom]

theorem over_eq_form_of_no_rule {P : Pass} {c : Connective} (hr : P.rule c = none) (f g : Formula) :
    (Formula.binary c f g).over P.target padding = (Formula.binary c f g).form P.target padding := by
  rw [over_of_no_rule hr, ← form_target]

/-- A difference at a constant is carried up to the root by the rules, each of which is injective. -/
theorem over_eq_form_iff (P : Pass) (g : Formula) :
    g.over P.target padding = g.form P.target padding ↔
      (g.Exposed P.source.operators → P = .notAnd) := by
  induction g with
  | var x => simp [form_target, form_source_var, over_var]
  | const v => simpa using over_const_eq_form_iff padding P v
  | not f ih =>
    rw [over_not, form_target_not, P.negate_injective.eq_iff, ih]
    simp [P.not_mem_source]
  | binary c f g ihf ihg =>
    cases hr : P.rule c with
    | none =>
      have hc : .binary c ∉ P.source.operators := by simp [← isSome_rule_iff, hr]
      simp [over_eq_form_of_no_rule padding hr, hc]
    | some r =>
      have hc : .binary c ∈ P.source.operators := by simp [← isSome_rule_iff, hr]
      rw [over_of_rule hr, form_target_of_rule hr, rule_injective hr, ihf, ihg]
      simp [hc, or_imp]

end Pass

/-- A pass goes its own way from the root down, where its form normalises first. For `{~,&}` this never
shows. For the others it shows exactly where a constant is met before an operator without a rule. -/
theorem over_agrees_unless_exposed (padding : String) (g : Formula) :
    g.overNotAnd padding = g.notAndForm padding ∧
    (g.overNand padding = g.nandForm padding ↔ ¬ g.Exposed {.not, .binary .and}) ∧
    (g.overImpliesNot padding = g.impliesNotForm padding ↔
      ¬ g.Exposed {.not, .binary .and, .binary .or}) ∧
    (g.overImpliesFalse padding = g.impliesFalseForm padding ↔
      ¬ g.Exposed {.not, .binary .and, .binary .or}) := by
  have hagree := fun P : Pass => Pass.over_eq_form_iff padding P g
  refine ⟨(hagree .notAnd).mpr fun _ => rfl, (hagree .nand).trans ?_, (hagree .impliesNot).trans ?_,
    (hagree .impliesFalse).trans ?_⟩
  · simp [Pass.source, Basis.operators]
  · simp [Pass.source, Basis.operators]
  · simp [Pass.source, Basis.operators]

end ConnectiveBases
