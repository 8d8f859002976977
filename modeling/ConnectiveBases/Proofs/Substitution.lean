import ConnectiveBases.Proofs.FormVariables
import ConnectiveBases.Proofs.FreshPadding
import ConnectiveBases.Proofs.FormRecursion

namespace ConnectiveBases

namespace Formula

/-- All variables replaced at once, each by a formula of its own. -/
def subst (s : String → Formula) : Formula → Formula
  | var x => s x
  | const v => .const v
  | not f => .not (f.subst s)
  | binary c f g => .binary c (f.subst s) (g.subst s)

/-- One name written in the place of another. -/
def rename (old new : String) (f : Formula) : Formula :=
  f.subst fun x => .var (if x = old then new else x)

theorem subst_var (f : Formula) : f.subst .var = f := by
  induction f with
  | var x => rfl
  | const v => rfl
  | not f ih => rw [subst, ih]
  | binary c f g ihf ihg => rw [subst, ihf, ihg]

theorem subst_congr {s t : String → Formula} {f : Formula} (h : ∀ x ∈ f.vars, s x = t x) :
    f.subst s = f.subst t := by
  induction f with
  | var x => exact h x (by simp)
  | const v => rfl
  | not f ih => rw [subst, subst, ih h]
  | binary c f g ihf ihg =>
    have hf := ihf fun x hx => h x (by simp [hx])
    have hg := ihg fun x hx => h x (by simp [hx])
    rw [subst, subst, hf, hg]

/-- What is put into a form with the padding `u` where `s` is put into the formula and the padding
becomes `v`. -/
def formSubst (f : Formula) (B : Basis) (u v : String) (s : String → Formula) (x : String) : Formula :=
  if x = u ∧ f.constants ≠ ∅ then .var v else (s x).form B v

end Formula

theorem subst_constantFrom {s : String → Formula} {u v : String} (h : s u = .var v) (b : Bool) :
    (constantFrom u b).subst s = constantFrom v b := by
  cases b <;> simp [constantFrom, Formula.subst, h]

theorem subst_expand (c : Connective) (f g : Formula) (s : String → Formula) :
    (c.expand f g).subst s = c.expand (f.subst s) (g.subst s) := by
  cases c <;> rfl

theorem notAndOrForm_subst {u v : String} {f : Formula} {s t : String → Formula}
    (hvars : ∀ x ∈ f.vars, t x = (s x).notAndOrForm v) (hpadding : f.constants ≠ ∅ → t u = .var v) :
    (f.subst s).notAndOrForm v = (f.notAndOrForm u).subst t := by
  induction f with
  | var x => exact (hvars x (by simp)).symm
  | const b => exact (subst_constantFrom (hpadding (constants_const_ne_empty b)) b).symm
  | not f ih =>
    rw [Formula.subst, Formula.notAndOrForm, Formula.notAndOrForm, Formula.subst, ih hvars hpadding]
  | binary c f g ihf ihg =>
    have hf := ihf (fun x hx => hvars x (by simp [hx])) fun h =>
      hpadding (constants_ne_empty_binary.mpr (Or.inl h))
    have hg := ihg (fun x hx => hvars x (by simp [hx])) fun h =>
      hpadding (constants_ne_empty_binary.mpr (Or.inr h))
    rw [Formula.subst, Formula.notAndOrForm, Formula.notAndOrForm, subst_expand, hf, hg]

namespace Pass

theorem subst_negate (P : Pass) (f : Formula) (s : String → Formula) :
    (P.negate f).subst s = P.negate (f.subst s) := by
  cases P <;> rfl

theorem subst_rule {P : Pass} {c : Connective} {r : Formula → Formula → Formula}
    (hr : P.rule c = some r) (f g : Formula) (s : String → Formula) :
    (r f g).subst s = r (f.subst s) (g.subst s) := by
  cases P <;> cases c <;> simp only [rule, Option.some.injEq, reduceCtorEq] at hr <;> subst r <;> rfl

/-- Over its source a pass goes by its rules alone, which never look into the operands, so it does not
matter when the variables are replaced, nor what the padding is called. -/
theorem over_subst {P : Pass} {f : Formula} (h : P.source.covers f) (u v : String)
    (s : String → Formula) :
    (f.subst s).over P.target v = (f.over P.target u).subst fun x => (s x).over P.target v := by
  induction f with
  | var x => rw [over_var, Formula.subst, Formula.subst]
  | const b => simp [covers_source_const] at h
  | not f ih =>
    rw [Formula.subst, over_not, over_not, subst_negate, ih (P.covers_source_not f ▸ h)]
  | binary c f g ihf ihg =>
    simp only [covers_source_binary, Bool.and_eq_true] at h
    obtain ⟨⟨hc, hf⟩, hg⟩ := h
    obtain ⟨r, hr⟩ := Option.isSome_iff_exists.mp hc
    rw [Formula.subst, over_of_rule hr, over_of_rule hr, subst_rule hr, ihf hf, ihg hg]

theorem over_formSubst (P : Pass) (f : Formula) (u v : String) (s : String → Formula) (x : String) :
    (f.formSubst P.source u v s x).over P.target v = f.formSubst P.target u v s x := by
  unfold Formula.formSubst
  split
  next => exact over_var P v
  next => exact (form_target P (s x)).symm

end Pass

theorem form_subst {u : String} {f : Formula} (h : f.constants = ∅ ∨ u ∉ f.vars) (B : Basis)
    (v : String) (s : String → Formula) :
    (f.subst s).form B v = (f.form B u).subst (f.formSubst B u v s) := by
  induction B using Basis.induction_by_passes with
  | leaf =>
    apply notAndOrForm_subst
    · intro x hx
      have hplain : ¬ (x = u ∧ f.constants ≠ ∅) := by
        rintro ⟨rfl, hconst⟩
        exact h.elim hconst fun hfresh => hfresh hx
      exact if_neg hplain
    · intro hconst
      exact if_pos ⟨rfl, hconst⟩
  | pass P ih =>
    rw [Pass.form_target, ih, Pass.over_subst (covers_form P.source u f) u v, ← Pass.form_target]
    exact Formula.subst_congr fun x _ => P.over_formSubst f u v s x

theorem form_eq_rename {u : String} {f : Formula} (h : u ∉ f.vars) (B : Basis) (v : String) :
    f.form B v = (f.form B u).rename u v := by
  have hsubst := form_subst (Or.inr h) B v .var
  rw [Formula.subst_var] at hsubst
  rw [hsubst]
  apply Formula.subst_congr
  intro x hx
  rw [Formula.formSubst, form_var]
  by_cases hxu : x = u
  · subst x
    have hconst := (mem_vars_form.mp hx).resolve_left h
    rw [if_pos hconst, if_pos rfl]
  · rw [if_neg (fun hboth => hxu hboth.1), if_neg hxu]

theorem form_subst_congr {B : Basis} {v : String} {f : Formula} {s t : String → Formula}
    (h : ∀ x ∈ f.vars, (s x).form B v = (t x).form B v) :
    (f.subst s).form B v = (f.subst t).form B v := by
  have hfresh := Or.inr (a := f.constants = ∅) (freshPadding_not_mem f)
  rw [form_subst hfresh, form_subst hfresh]
  apply Formula.subst_congr
  intro x hx
  rcases mem_vars_form.mp hx with hvar | hpadding
  · rw [Formula.formSubst, Formula.formSubst, h x hvar]
  · rw [Formula.formSubst, Formula.formSubst, if_pos hpadding, if_pos hpadding]

/-- It is all the same whether formulas are put in for the variables before a reduction or, once reduced,
after it. The padding is one more variable, not to be taken for one of the formula's own. -/
theorem form_commutes_with_subst (B : Basis) (u v : String) (f : Formula) :
    (f.constants = ∅ ∨ u ∉ f.vars → ∀ s : String → Formula,
      (f.subst s).form B v =
        (f.form B u).subst fun x => if x = u ∧ f.constants ≠ ∅ then .var v else (s x).form B v) ∧
    (u ∉ f.vars → f.form B v = (f.form B u).rename u v) ∧
    f.form B v = (f.form B f.freshPadding).rename f.freshPadding v ∧
    ∀ s t : String → Formula, (∀ x ∈ f.vars, (s x).form B v = (t x).form B v) →
      (f.subst s).form B v = (f.subst t).form B v := by
  refine ⟨?_, ?_, ?_, ?_⟩
  · intro h s
    exact form_subst h B v s
  · intro h
    exact form_eq_rename h B v
  · exact form_eq_rename (freshPadding_not_mem f) B v
  · intro s t h
    exact form_subst_congr h

theorem form_commutes_with_subst_captured :
    let f := Formula.xor (.var "q") .verum
    let s : String → Formula := fun _ => .implies (.var "p") .falsum
    let t : String → Formula := fun _ => .or (.not (.var "p")) .falsum
    "p" ∉ f.vars ∧
      (f.subst s).form .nand "q" = (f.form .nand "p").subst
        (fun x => if x = "p" then .var "q" else (s x).form .nand "q") ∧
      f.form .nand "q" = (f.form .nand "p").rename "p" "q" ∧
      (s "q").form .nand "q" = (t "q").form .nand "q" ∧
      (f.subst s).form .nand "q" = (f.subst t).form .nand "q" := by
  intro f s t
  have hfresh : "p" ∉ f.vars := by simp [f]
  have hconst : f.constants ≠ ∅ := constants_ne_empty_binary.mpr (Or.inr (constants_const_ne_empty true))
  have hsame : ∀ x, (s x).form .nand "q" = (t x).form .nand "q" := fun _ => rfl
  obtain ⟨hsubst, hrename, -, hcongr⟩ := form_commutes_with_subst .nand "p" "q" f
  refine ⟨hfresh, ?_, hrename hfresh, hsame "q", hcongr s t fun x _ => hsame x⟩
  simpa only [hconst, and_true, ne_eq, not_false_eq_true] using hsubst (Or.inr hfresh) s

end ConnectiveBases
