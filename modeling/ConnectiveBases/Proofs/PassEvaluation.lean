import ConnectiveBases.Proofs.LeafNames
import ConnectiveBases.Proofs.BasisMembership

namespace ConnectiveBases

/-- A formula of any shape taken over the basis from its root down, without being normalised first. -/
def Formula.over (B : Basis) (padding : String) (f : Formula) : Formula :=
  match B with
  | .notAndOr => f.notAndOrForm padding
  | .notAnd => f.overNotAnd padding
  | .nand => f.overNand padding
  | .impliesNot => f.overImpliesNot padding
  | .impliesFalse => f.overImpliesFalse padding

theorem covers_over (B : Basis) (padding : String) (f : Formula) : B.covers (f.over B padding) := by
  cases B with
  | notAndOr => exact covers_notAndOrForm padding f
  | notAnd => exact covers_overNotAnd padding f
  | nand => exact covers_overNand padding f
  | impliesNot => exact covers_overImpliesNot padding f
  | impliesFalse => exact covers_overImpliesFalse padding f

section Value

variable (padding : String) (σ : String → Bool)

theorem value_constantFrom (v : Bool) : (constantFrom padding v).value σ = v := by
  cases v <;> cases h : σ padding <;> simp [constantFrom, Connective.apply, h]

theorem value_expand (c : Connective) (f g : Formula) :
    (c.expand f g).value σ = c.apply (f.value σ) (g.value σ) := by
  cases c <;> cases hf : f.value σ <;> cases hg : g.value σ <;>
    simp [Connective.expand, Connective.apply, hf, hg]

theorem value_notAndOrForm (f : Formula) : (f.notAndOrForm padding).value σ = f.value σ := by
  induction f with
  | var x => rfl
  | const v => exact value_constantFrom padding σ v
  | not f ih => simp only [Formula.notAndOrForm, Formula.value, ih]
  | binary c f g ihf ihg => simp only [Formula.notAndOrForm, value_expand, Formula.value, ihf, ihg]

theorem value_overNotAnd (f : Formula) : (f.overNotAnd padding).value σ = f.value σ := by
  fun_induction Formula.overNotAnd padding f with
  | case1 x => rfl
  | case2 v ih => rw [ih, value_constantFrom, Formula.value]
  | case3 f ih => simp only [Formula.value, ih]
  | case4 f g ihf ihg => simp only [Formula.value, ihf, ihg]
  | case5 f g ihf ihg => simp [Connective.apply, ihf, ihg]
  | _ _ _ ih => rw [ih, value_notAndOrForm]

theorem value_notAndForm (f : Formula) : (f.notAndForm padding).value σ = f.value σ := by
  rw [Formula.notAndForm, value_overNotAnd, value_notAndOrForm]

theorem value_overNand (f : Formula) : (f.overNand padding).value σ = f.value σ := by
  fun_induction Formula.overNand padding f with
  | case1 x => rfl
  | case2 => cases h : σ padding <;> simp [Connective.apply, h]
  | case3 t => cases h : σ padding <;> simp [t, Connective.apply, h]
  | case4 f t ih => simp [t, Connective.apply, ih]
  | case5 f g t ihf ihg => simp [t, Connective.apply, ihf, ihg]
  | _ _ _ ih => rw [ih, value_notAndForm]

theorem value_overImpliesNot (f : Formula) : (f.overImpliesNot padding).value σ = f.value σ := by
  fun_induction Formula.overImpliesNot padding f with
  | case1 x => rfl
  | case2 => simp [Connective.apply]
  | case3 => simp [Connective.apply]
  | case4 f ih => simp only [Formula.value, ih]
  | case5 f g ihf ihg => simp [Connective.apply, ihf, ihg]
  | case6 f g ihf ihg => simp [Connective.apply, ihf, ihg]
  | _ _ _ ih => rw [ih, value_notAndOrForm]

theorem value_overImpliesFalse (f : Formula) : (f.overImpliesFalse padding).value σ = f.value σ := by
  fun_induction Formula.overImpliesFalse padding f with
  | case1 x => rfl
  | case2 => rfl
  | case3 => rfl
  | case4 f ih => simp [Connective.apply, ih]
  | case5 f g ihf ihg => simp [Connective.apply, ihf, ihg]
  | case6 f g ihf ihg => simp [Connective.apply, ihf, ihg]
  | _ _ _ ih => rw [ih, value_notAndOrForm]

theorem value_over (B : Basis) (f : Formula) : (f.over B padding).value σ = f.value σ := by
  cases B with
  | notAndOr => exact value_notAndOrForm padding σ f
  | notAnd => exact value_overNotAnd padding σ f
  | nand => exact value_overNand padding σ f
  | impliesNot => exact value_overImpliesNot padding σ f
  | impliesFalse => exact value_overImpliesFalse padding σ f

end Value

section FirstUnassigned

variable (padding : String) (m : Model) (names : List String)

theorem firstUnassigned_constantFrom (v : Bool) :
    m.firstUnassigned ((constantFrom padding v).leafNames names) = m.firstUnassigned [padding] := by
  cases v <;> simp only [constantFrom, Formula.leafNames, firstUnassigned_append, Option.or_self]

/-- Operands may be repeated or negated, but each is first met where it was met before. -/
theorem firstUnassigned_expand (c : Connective) (f g : Formula) :
    m.firstUnassigned ((c.expand f g).leafNames names) =
      (m.firstUnassigned (f.leafNames names)).or (m.firstUnassigned (g.leafNames names)) := by
  cases c <;>
    simp only [Connective.expand, Formula.leafNames, firstUnassigned_append, Option.or_self]

theorem firstUnassigned_notAndOrForm (f : Formula) :
    m.firstUnassigned ((f.notAndOrForm padding).leafNames names) =
      m.firstUnassigned (f.leafNames [padding]) := by
  induction f with
  | var x => rfl
  | const v => exact firstUnassigned_constantFrom padding m names v
  | not f ih => exact ih
  | binary c f g ihf ihg =>
    rw [Formula.notAndOrForm, firstUnassigned_expand, ihf, ihg, Formula.leafNames,
      firstUnassigned_append]

theorem firstUnassigned_overNotAnd (f : Formula) :
    m.firstUnassigned ((f.overNotAnd padding).leafNames names) =
      m.firstUnassigned (f.leafNames [padding]) := by
  fun_induction Formula.overNotAnd padding f with
  | case1 x => rfl
  | case2 v ih => rw [ih, firstUnassigned_constantFrom, Formula.leafNames]
  | case3 f ih => exact ih
  | case4 f g ihf ihg => simp [ihf, ihg]
  | case5 f g ihf ihg => simp [ihf, ihg]
  | _ _ _ ih => rw [ih, firstUnassigned_notAndOrForm]

theorem firstUnassigned_notAndForm (f : Formula) :
    m.firstUnassigned ((f.notAndForm padding).leafNames names) =
      m.firstUnassigned (f.leafNames [padding]) := by
  rw [Formula.notAndForm, firstUnassigned_overNotAnd, firstUnassigned_notAndOrForm]

theorem firstUnassigned_overNand (f : Formula) :
    m.firstUnassigned ((f.overNand padding).leafNames names) =
      m.firstUnassigned (f.leafNames [padding]) := by
  fun_induction Formula.overNand padding f with
  | case1 x => rfl
  | case2 => simp only [Formula.leafNames, firstUnassigned_append, Option.or_self]
  | case3 t => simp only [t, Formula.leafNames, firstUnassigned_append, Option.or_self]
  | case4 f t ih => simp [t, ih]
  | case5 f g t ihf ihg =>
    simp only [t, Formula.leafNames, firstUnassigned_append, Option.or_self, ihf, ihg]
  | _ _ _ ih => rw [ih, firstUnassigned_notAndForm]

theorem firstUnassigned_overImpliesNot (f : Formula) :
    m.firstUnassigned ((f.overImpliesNot padding).leafNames names) =
      m.firstUnassigned (f.leafNames [padding]) := by
  fun_induction Formula.overImpliesNot padding f with
  | case1 x => rfl
  | case2 => simp only [Formula.leafNames, firstUnassigned_append, Option.or_self]
  | case3 => simp only [Formula.leafNames, firstUnassigned_append, Option.or_self]
  | case4 f ih => exact ih
  | case5 f g ihf ihg => simp [ihf, ihg]
  | case6 f g ihf ihg => simp [ihf, ihg]
  | _ _ _ ih => rw [ih, firstUnassigned_notAndOrForm]

/-- Only a constant below a connective other than `&` and `|` is built from the padding here, so the
names that are met are known where the padding has a value or no constant occurs. -/
theorem firstUnassigned_overImpliesFalse {f : Formula}
    (h : (m.get? padding).isSome ∨ f.constants = ∅) :
    m.firstUnassigned ((f.overImpliesFalse padding).leafNames []) =
      m.firstUnassigned (f.leafNames []) := by
  fun_induction Formula.overImpliesFalse padding f with
  | case1 x => rfl
  | case2 => rfl
  | case3 => rfl
  | case4 f ih => simpa using ih h
  | case5 f g ihf ihg =>
    obtain ⟨hf, hg⟩ := or_no_constant_of_binary h
    simp [ihf hf, ihg hg]
  | case6 f g ihf ihg =>
    obtain ⟨hf, hg⟩ := or_no_constant_of_binary h
    simp [ihf hf, ihg hg]
  | _ _ _ ih =>
    have hform := ih (Or.inr (constants_notAndOrForm padding _))
    rw [hform, firstUnassigned_notAndOrForm, firstUnassigned_leafNames h]

end FirstUnassigned

theorem firstUnassigned_over {B : Basis} {padding : String} {f : Formula} {m : Model}
    (h : (m.get? padding).isSome ∨ f.constants = ∅) :
    m.firstUnassigned ((f.over B padding).leafNames []) = m.firstUnassigned (f.leafNames []) := by
  have hnames := firstUnassigned_leafNames h
  cases B with
  | notAndOr => exact (firstUnassigned_notAndOrForm padding m [] f).trans hnames
  | notAnd => exact (firstUnassigned_overNotAnd padding m [] f).trans hnames
  | nand => exact (firstUnassigned_overNand padding m [] f).trans hnames
  | impliesNot => exact (firstUnassigned_overImpliesNot padding m [] f).trans hnames
  | impliesFalse => exact firstUnassigned_overImpliesFalse padding m h

theorem eval_over {B : Basis} {padding : String} {f : Formula} {m : Model}
    (h : (m.get? padding).isSome ∨ f.constants = ∅) : (f.over B padding).eval m = f.eval m :=
  eval_eq_of_leafNames (firstUnassigned_over h) (value_over padding m.valuation B f)

/-- Each pass is right on formulas of any shape, with constants and operators of every kind anywhere:
it ends over its basis, with the same answers, failures included. -/
theorem over_preserves_answers (B : Basis) (padding : String) (f : Formula) :
    (f.over B padding).isOver B ∧
      ∀ m : Model, (m.get? padding).isSome ∨ f.constants = ∅ →
        (f.over B padding).eval m = f.eval m := by
  refine ⟨isOver_iff_covers.mpr (covers_over B padding f), ?_⟩
  intro m h
  exact eval_over h

theorem over_preserves_answers_partial :
    let f := Formula.iff .verum (.and (.var "q") (.or (.var "r") .falsum))
    let m := Model.empty.insert "p" true
    ((m.get? "p").isSome ∨ f.constants = ∅) ∧ (f.over .nand "p").isOver .nand ∧
      (f.over .nand "p").eval m = .error (.unassignedVariable "q") := by
  intro f m
  have hp : (m.get? "p").isSome ∨ f.constants = ∅ := Or.inl (by simp [m])
  obtain ⟨hover, heval⟩ := over_preserves_answers .nand "p" f
  refine ⟨hp, hover, (heval m hp).trans ?_⟩
  have hq : m.get? "q" = none := by simp [m, Model.get?_insert]
  simp only [f, Formula.eval, hq]
  rfl

end ConnectiveBases
