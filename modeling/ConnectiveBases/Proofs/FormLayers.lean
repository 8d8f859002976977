import ConnectiveBases.Proofs.Substitution

namespace ConnectiveBases

theorem covers_notAndOr_of_notAnd {f : Formula} (h : Basis.notAnd.covers f) :
    Basis.notAndOr.covers f := by
  obtain ⟨hops, hconst⟩ := covers_iff_subset.mp h
  refine covers_iff_subset.mpr ⟨?_, hconst⟩
  intro o ho
  have hmem := hops o ho
  cases o with
  | not => simp [Basis.operators]
  | binary c => cases c <;> simp [Basis.operators] at hmem ⊢

theorem expand_eq_binary {c : Connective} (hc : .binary c ∈ Basis.notAndOr.operators)
    (f g : Formula) : c.expand f g = .binary c f g := by
  cases c <;> simp [Basis.operators] at hc <;> rfl

theorem notAndOrForm_of_covers (padding : String) {f : Formula} (h : Basis.notAndOr.covers f) :
    f.notAndOrForm padding = f := by
  induction f with
  | var x => rfl
  | const v => simp [Basis.covers, Basis.hasFalsum] at h
  | not f ih => rw [Formula.notAndOrForm, ih (Basis.covers_operand h)]
  | binary c f g ihf ihg =>
    have hc : .binary c ∈ Basis.notAndOr.operators := (covers_iff_subset.mp h).1 _ (by simp)
    rw [Formula.notAndOrForm, ihf (Basis.covers_left h), ihg (Basis.covers_right h), expand_eq_binary hc]

theorem overNotAnd_of_covers (padding : String) {f : Formula} (h : Basis.notAnd.covers f) :
    f.overNotAnd padding = f := by
  induction f with
  | var x => exact Pass.over_var .notAnd x
  | const v => simp [Basis.covers, Basis.hasFalsum] at h
  | not f ih => rw [Formula.overNotAnd, ih (Basis.covers_operand h)]
  | binary c f g ihf ihg =>
    have hc : .binary c ∈ Basis.notAnd.operators := (covers_iff_subset.mp h).1 _ (by simp)
    cases c <;> simp [Basis.operators] at hc
    rw [Formula.overNotAnd, ihf (Basis.covers_left h), ihg (Basis.covers_right h)]

theorem notAndForm_of_covers (padding : String) {f : Formula} (h : Basis.notAnd.covers f) :
    f.notAndForm padding = f := by
  rw [Formula.notAndForm, notAndOrForm_of_covers padding (covers_notAndOr_of_notAnd h),
    overNotAnd_of_covers padding h]

namespace Pass

/-- Over the source no constant is left to ask for the padding. -/
theorem over_eq_of_covers {P : Pass} {f : Formula} (h : P.source.covers f) (u v : String) :
    f.over P.target v = f.over P.target u := by
  have hsubst := over_subst h u v .var
  simp only [over_var] at hsubst
  rwa [Formula.subst_var, Formula.subst_var] at hsubst

/-- What two formulas have in common over the source of a pass they have in common over its target,
though the source was reached with one padding and the pass is made with another. -/
theorem form_target_eq {P : Pass} {u v : String} {f g : Formula}
    (h : g.form P.source v = f.form P.source u) : g.form P.target v = f.form P.target u := by
  have hsource := covers_form P.source u f
  rw [form_target, h, over_eq_of_covers hsource u v, ← form_target]

end Pass

theorem form_notAndOrForm (B : Basis) (u v : String) (f : Formula) :
    (f.notAndOrForm u).form B v = f.form B u := by
  induction B using Basis.induction_by_passes with
  | leaf => exact notAndOrForm_of_covers v (covers_notAndOrForm u f)
  | pass P ih => exact Pass.form_target_eq ih

theorem notAndForm_notAndForm (u v : String) (f : Formula) :
    (f.notAndForm u).notAndForm v = f.notAndForm u :=
  notAndForm_of_covers v (covers_notAndForm u f)

/-- A reduction starts as well from any form that it passes through on its way. It comes to the same
formula, node by node, and the padding that shows is the one of the form it started from. -/
theorem form_of_lower_form (u v : String) (f : Formula) :
    (f.notAndOrForm u).notAndOrForm v = f.notAndOrForm u ∧
    (f.notAndOrForm u).notAndForm v = f.notAndForm u ∧
    (f.notAndForm u).notAndForm v = f.notAndForm u ∧
    (f.notAndOrForm u).impliesNotForm v = f.impliesNotForm u ∧
    (f.notAndOrForm u).impliesFalseForm v = f.impliesFalseForm u ∧
    (f.notAndOrForm u).nandForm v = f.nandForm u ∧
    (f.notAndForm u).nandForm v = f.nandForm u := by
  have hor := fun B => form_notAndOrForm B u v f
  have hand := notAndForm_notAndForm u v f
  have hnand := Pass.form_target_eq (P := .nand) hand
  exact ⟨hor .notAndOr, hor .notAnd, hand, hor .impliesNot, hor .impliesFalse, hor .nand, hnand⟩

example : (Formula.notAndForm "p" .verum).nandForm "q" = Formula.nandForm "p" .verum := by
  cbv

end ConnectiveBases
