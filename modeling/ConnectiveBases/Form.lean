import ConnectiveBases.Basis
import ConnectiveBases.Padding

namespace ConnectiveBases

/-- A connective between two formulas, written with `~`, `&` and `|`. -/
def Connective.expand : Connective → Formula → Formula → Formula
  | and, f, g => .and f g
  | or, f, g => .or f g
  | implies, f, g => .or (.not f) g
  | xor, f, g => .or (.and f (.not g)) (.and (.not f) g)
  | iff, f, g => .or (.and f g) (.and (.not f) (.not g))
  | nand, f, g => .not (.and f g)
  | nor, f, g => .not (.or f g)

/-- An equivalent formula over `{~,&,|}`. -/
def Formula.notAndOrForm (padding : String) : Formula → Formula
  | var x => .var x
  | const v => constantFrom padding v
  | not f => .not (f.notAndOrForm padding)
  | binary c f g => c.expand (f.notAndOrForm padding) (g.notAndOrForm padding)

theorem covers_constantFrom (padding : String) (v : Bool) : Basis.notAndOr.covers (constantFrom padding v) := by
  cases v <;> simp [constantFrom, Basis.covers, Basis.operators]

theorem covers_expand {c : Connective} {f g : Formula} (hf : Basis.notAndOr.covers f)
    (hg : Basis.notAndOr.covers g) : Basis.notAndOr.covers (c.expand f g) := by
  cases c <;> simp [Connective.expand, Basis.covers, Basis.operators, hf, hg]

theorem covers_notAndOrForm (padding : String) (f : Formula) :
    Basis.notAndOr.covers (f.notAndOrForm padding) := by
  induction f with
  | var x => rfl
  | const v => exact covers_constantFrom padding v
  | not f ih => simpa [Formula.notAndOrForm, Basis.covers, Basis.operators] using ih
  | binary c f g ihf ihg => exact covers_expand ihf ihg

/-- Over `{~,&}`, by `a|b = ~(~a&~b)`. From a constant or another connective downwards the formula
is first brought over `{~,&,|}`. -/
def Formula.overNotAnd (padding : String) : Formula → Formula
  | var x => .var x
  | const v => overNotAnd padding (constantFrom padding v)
  | not f => .not (f.overNotAnd padding)
  | and f g => .and (f.overNotAnd padding) (g.overNotAnd padding)
  | or f g => .not (.and (.not (f.overNotAnd padding)) (.not (g.overNotAnd padding)))
  | h@(implies _ _) | h@(xor _ _) | h@(iff _ _) | h@(nand _ _) | h@(nor _ _) =>
    overNotAnd padding (h.notAndOrForm padding)
termination_by f => Basis.notAndOr.weight f
decreasing_by
  · exact Basis.weight_lt_of_enter (covers_constantFrom padding v) (by cases v <;> rfl)
  · exact Basis.weight_operand _ _
  · exact Basis.weight_left _ _ _ _
  · exact Basis.weight_right _ _ _ _
  · exact Basis.weight_left _ _ _ _
  · exact Basis.weight_right _ _ _ _
  all_goals exact Basis.weight_lt_of_enter (covers_notAndOrForm padding _) rfl

/-- An equivalent formula over `{~,&}`. -/
def Formula.notAndForm (padding : String) (f : Formula) : Formula :=
  (f.notAndOrForm padding).overNotAnd padding

theorem covers_overNotAnd (padding : String) (f : Formula) :
    Basis.notAnd.covers (f.overNotAnd padding) := by
  fun_induction Formula.overNotAnd padding f with
  | case1 => rfl
  | case2 _ ih => exact ih
  | case3 f ih => simpa [Basis.covers, Basis.operators] using ih
  | case4 f g ihf ihg => simp [Basis.covers, Basis.operators, ihf, ihg]
  | case5 f g ihf ihg => simp [Basis.covers, Basis.operators, ihf, ihg]
  | _ _ _ ih => exact ih

theorem covers_notAndForm (padding : String) (f : Formula) :
    Basis.notAnd.covers (f.notAndForm padding) :=
  covers_overNotAnd padding _

/-- Over `{-&}`, by `~a = a-&a`. A constant is built from the padding alone, and from a connective
other than `&` downwards the formula is first brought over `{~,&}`. -/
def Formula.overNand (padding : String) : Formula → Formula
  | var x => .var x
  | verum => .nand (.var padding) (.nand (.var padding) (.var padding))
  | falsum =>
    let t := .nand (.var padding) (.nand (.var padding) (.var padding))
    .nand t t
  | not f =>
    let t := f.overNand padding
    .nand t t
  | and f g =>
    let t := .nand (f.overNand padding) (g.overNand padding)
    .nand t t
  | h@(or _ _) | h@(implies _ _) | h@(xor _ _) | h@(iff _ _) | h@(nand _ _) | h@(nor _ _) =>
    overNand padding (h.notAndForm padding)
termination_by f => Basis.notAnd.weight f
decreasing_by
  · exact Basis.weight_operand _ _
  · exact Basis.weight_left _ _ _ _
  · exact Basis.weight_right _ _ _ _
  all_goals exact Basis.weight_lt_of_enter (covers_notAndForm padding _) rfl

/-- An equivalent formula over `{-&}`. -/
def Formula.nandForm (padding : String) (f : Formula) : Formula :=
  (f.notAndForm padding).overNand padding

theorem covers_overNand (padding : String) (f : Formula) :
    Basis.nand.covers (f.overNand padding) := by
  fun_induction Formula.overNand padding f with
  | case1 => rfl
  | case2 => rfl
  | case3 => rfl
  | case4 f t ih => simpa [Basis.covers, Basis.operators] using ih
  | case5 f g t ihf ihg =>
    have ht : Basis.nand.covers t := by simp [t, Basis.covers, Basis.operators, ihf, ihg]
    simpa [Basis.covers, Basis.operators] using ht
  | _ _ _ ih => exact ih

theorem covers_nandForm (padding : String) (f : Formula) : Basis.nand.covers (f.nandForm padding) :=
  covers_overNand padding _

/-- Over `{->,~}`, by `a|b = ~a->b` and `a&b = ~(a->~b)`. A constant is built from the padding alone,
and from another connective downwards the formula is first brought over `{~,&,|}`. -/
def Formula.overImpliesNot (padding : String) : Formula → Formula
  | var x => .var x
  | verum => .implies (.var padding) (.var padding)
  | falsum => .not (.implies (.var padding) (.var padding))
  | not f => .not (f.overImpliesNot padding)
  | or f g => .implies (.not (f.overImpliesNot padding)) (g.overImpliesNot padding)
  | and f g => .not (.implies (f.overImpliesNot padding) (.not (g.overImpliesNot padding)))
  | h@(implies _ _) | h@(xor _ _) | h@(iff _ _) | h@(nand _ _) | h@(nor _ _) =>
    overImpliesNot padding (h.notAndOrForm padding)
termination_by f => Basis.notAndOr.weight f
decreasing_by
  · exact Basis.weight_operand _ _
  · exact Basis.weight_left _ _ _ _
  · exact Basis.weight_right _ _ _ _
  · exact Basis.weight_left _ _ _ _
  · exact Basis.weight_right _ _ _ _
  all_goals exact Basis.weight_lt_of_enter (covers_notAndOrForm padding _) rfl

/-- An equivalent formula over `{->,~}`. -/
def Formula.impliesNotForm (padding : String) (f : Formula) : Formula :=
  (f.notAndOrForm padding).overImpliesNot padding

theorem covers_overImpliesNot (padding : String) (f : Formula) :
    Basis.impliesNot.covers (f.overImpliesNot padding) := by
  fun_induction Formula.overImpliesNot padding f with
  | case1 => rfl
  | case2 => rfl
  | case3 => rfl
  | case4 f ih => simpa [Basis.covers, Basis.operators] using ih
  | case5 f g ihf ihg => simp [Basis.covers, Basis.operators, ihf, ihg]
  | case6 f g ihf ihg => simp [Basis.covers, Basis.operators, ihf, ihg]
  | _ _ _ ih => exact ih

theorem covers_impliesNotForm (padding : String) (f : Formula) :
    Basis.impliesNot.covers (f.impliesNotForm padding) :=
  covers_overImpliesNot padding _

/-- Over `{->,F}`, by `~a = a->F`. No constant needs the padding, and from a connective other than
`&` and `|` downwards the formula is first brought over `{~,&,|}`. -/
def Formula.overImpliesFalse (padding : String) : Formula → Formula
  | var x => .var x
  | falsum => .falsum
  | verum => .implies .falsum .falsum
  | not f => .implies (f.overImpliesFalse padding) .falsum
  | or f g => .implies (.implies (f.overImpliesFalse padding) .falsum) (g.overImpliesFalse padding)
  | and f g =>
    .implies
      (.implies (f.overImpliesFalse padding) (.implies (g.overImpliesFalse padding) .falsum)) .falsum
  | h@(implies _ _) | h@(xor _ _) | h@(iff _ _) | h@(nand _ _) | h@(nor _ _) =>
    overImpliesFalse padding (h.notAndOrForm padding)
termination_by f => Basis.notAndOr.weight f
decreasing_by
  · exact Basis.weight_operand _ _
  · exact Basis.weight_left _ _ _ _
  · exact Basis.weight_right _ _ _ _
  · exact Basis.weight_left _ _ _ _
  · exact Basis.weight_right _ _ _ _
  all_goals exact Basis.weight_lt_of_enter (covers_notAndOrForm padding _) rfl

/-- An equivalent formula over `{->,F}`. -/
def Formula.impliesFalseForm (padding : String) (f : Formula) : Formula :=
  (f.notAndOrForm padding).overImpliesFalse padding

theorem covers_overImpliesFalse (padding : String) (f : Formula) :
    Basis.impliesFalse.covers (f.overImpliesFalse padding) := by
  fun_induction Formula.overImpliesFalse padding f with
  | case1 => rfl
  | case2 => rfl
  | case3 => rfl
  | case4 f ih => simpa [Basis.covers, Basis.operators, Basis.hasFalsum] using ih
  | case5 f g ihf ihg => simp [Basis.covers, Basis.operators, Basis.hasFalsum, ihf, ihg]
  | case6 f g ihf ihg => simp [Basis.covers, Basis.operators, Basis.hasFalsum, ihf, ihg]
  | _ _ _ ih => exact ih

theorem covers_impliesFalseForm (padding : String) (f : Formula) :
    Basis.impliesFalse.covers (f.impliesFalseForm padding) :=
  covers_overImpliesFalse padding _

/-- An equivalent formula over the basis. The padding stands in for constants and may occur in the
formula. -/
def Formula.form (B : Basis) (padding : String) (f : Formula) : Formula :=
  match B with
  | .notAndOr => f.notAndOrForm padding
  | .notAnd => f.notAndForm padding
  | .nand => f.nandForm padding
  | .impliesNot => f.impliesNotForm padding
  | .impliesFalse => f.impliesFalseForm padding

theorem covers_form (B : Basis) (padding : String) (f : Formula) :
    B.covers (f.form B padding) := by
  cases B with
  | notAndOr => exact covers_notAndOrForm padding f
  | notAnd => exact covers_notAndForm padding f
  | nand => exact covers_nandForm padding f
  | impliesNot => exact covers_impliesNotForm padding f
  | impliesFalse => exact covers_impliesFalseForm padding f

end ConnectiveBases
