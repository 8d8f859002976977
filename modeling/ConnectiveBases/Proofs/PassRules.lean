import ConnectiveBases.Proofs.PassEvaluation

namespace ConnectiveBases

namespace Basis

/-- How the basis writes `~`, in an operand that is over it already. -/
def negation : Basis → Formula → Formula
  | notAndOr, f => .not f
  | notAnd, f => .not f
  | nand, f => .nand f f
  | impliesNot, f => .not f
  | impliesFalse, f => .implies f .falsum

def conjunction : Basis → Formula → Formula → Formula
  | notAndOr, f, g => .and f g
  | notAnd, f, g => .and f g
  | nand, f, g => .nand (.nand f g) (.nand f g)
  | impliesNot, f, g => .not (.implies f (.not g))
  | impliesFalse, f, g => .implies (.implies f (.implies g .falsum)) .falsum

def disjunction : Basis → Formula → Formula → Formula
  | notAndOr, f, g => .or f g
  | notAnd, f, g => .not (.and (.not f) (.not g))
  | nand, f, g => negation nand (conjunction nand (negation nand f) (negation nand g))
  | impliesNot, f, g => .implies (.not f) g
  | impliesFalse, f, g => .implies (.implies f .falsum) g

end Basis

/-- The passes that go on from the form over another basis. -/
inductive Pass where
  | notAnd | nand | impliesNot | impliesFalse
  deriving DecidableEq

namespace Pass

def target : Pass → Basis
  | notAnd => .notAnd
  | nand => .nand
  | impliesNot => .impliesNot
  | impliesFalse => .impliesFalse

/-- The basis whose operators a pass has rules for. -/
def source : Pass → Basis
  | notAnd => .notAndOr
  | nand => .notAnd
  | impliesNot => .notAndOr
  | impliesFalse => .notAndOr

/-- The rule for `~`, in the operand as it comes out of the pass. -/
def negate (P : Pass) : Formula → Formula := P.target.negation

/-- The rules for connectives, in the operands as they come out of the pass. The one over `{-&}` has none
for `|`, which its source is without. -/
def rule : Pass → Connective → Option (Formula → Formula → Formula)
  | P, .and => some P.target.conjunction
  | nand, .or => none
  | P, .or => some P.target.disjunction
  | _, _ => none

/-- What a pass puts in the place of a constant, unless it leaves constants to the source. -/
def constant (padding : String) : Pass → Bool → Option Formula
  | notAnd, _ => none
  | nand, v =>
    let t : Formula := .nand (.var padding) (.nand (.var padding) (.var padding))
    some (if v then t else .nand t t)
  | impliesNot, v =>
    let t : Formula := .implies (.var padding) (.var padding)
    some (if v then t else .not t)
  | impliesFalse, v => some (if v then .implies .falsum .falsum else .falsum)

theorem rule_and (P : Pass) : P.rule .and = some P.target.conjunction := by
  cases P <;> rfl

theorem not_mem_source (P : Pass) : Operator.not ∈ P.source.operators := by
  cases P <;> simp [source, Basis.operators]

theorem isSome_rule_iff {P : Pass} {c : Connective} :
    (P.rule c).isSome ↔ .binary c ∈ P.source.operators := by
  cases P <;> cases c <;> simp [source, Basis.operators, rule]

theorem hasFalsum_source (P : Pass) : P.source.hasFalsum = false := by
  cases P <;> rfl

theorem covers_source_const (P : Pass) (v : Bool) : P.source.covers (.const v) = false := by
  simp [Basis.covers, P.hasFalsum_source]

theorem covers_source_not (P : Pass) (f : Formula) :
    P.source.covers (.not f) = P.source.covers f := by
  simp [Basis.covers, P.not_mem_source]

theorem covers_source_binary (P : Pass) (c : Connective) (f g : Formula) :
    P.source.covers (.binary c f g) =
      ((P.rule c).isSome && P.source.covers f && P.source.covers g) := by
  have hc : P.source.operators.contains (.binary c) = (P.rule c).isSome := by
    rw [Bool.eq_iff_iff, Std.ExtTreeSet.contains_iff_mem, isSome_rule_iff]
  rw [Basis.covers, hc]

theorem eq_notAnd_of_constant {P : Pass} {padding : String} {v : Bool}
    (hr : P.constant padding v = none) : P = .notAnd := by
  cases P <;> simp only [constant, reduceCtorEq] at hr
  rfl

theorem negate_injective (P : Pass) : Function.Injective P.negate := by
  intro f g h
  cases P <;> simp_all [negate, target, Basis.negation]

theorem rule_injective {P : Pass} {c : Connective} {r : Formula → Formula → Formula}
    (hr : P.rule c = some r) {f f' g g' : Formula} :
    r f g = r f' g' ↔ f = f' ∧ g = g' := by
  cases P <;> cases c <;> simp only [rule, Option.some.injEq, reduceCtorEq] at hr <;> subst r <;>
    simp [target, Basis.conjunction, Basis.disjunction]

section Equations

variable {padding : String}

theorem over_var (P : Pass) (x : String) : (Formula.var x).over P.target padding = .var x := by
  cases P <;> simp [target, Formula.over, Formula.overNotAnd, Formula.overNand,
    Formula.overImpliesNot, Formula.overImpliesFalse]

theorem over_not (P : Pass) (f : Formula) :
    (Formula.not f).over P.target padding = P.negate (f.over P.target padding) := by
  cases P <;> simp [target, negate, Basis.negation, Formula.over, Formula.overNotAnd,
    Formula.overNand, Formula.overImpliesNot, Formula.overImpliesFalse]

theorem over_of_rule {P : Pass} {c : Connective} {r : Formula → Formula → Formula}
    (hr : P.rule c = some r) (f g : Formula) :
    (Formula.binary c f g).over P.target padding =
      r (f.over P.target padding) (g.over P.target padding) := by
  cases P <;> cases c <;> simp only [rule, Option.some.injEq, reduceCtorEq] at hr <;> subst r <;>
    simp [target, Basis.conjunction, Basis.disjunction, Formula.over, Formula.overNotAnd,
      Formula.overNand, Formula.overImpliesNot, Formula.overImpliesFalse]

theorem over_of_no_rule {P : Pass} {c : Connective} (hr : P.rule c = none) (f g : Formula) :
    (Formula.binary c f g).over P.target padding =
      ((Formula.binary c f g).form P.source padding).over P.target padding := by
  cases P <;> cases c <;> simp only [rule, reduceCtorEq] at hr <;>
    simp [target, source, Formula.over, Formula.form, Formula.overNotAnd, Formula.overNand,
      Formula.overImpliesNot, Formula.overImpliesFalse]

theorem over_of_constant {P : Pass} {v : Bool} {r : Formula} (hr : P.constant padding v = some r) :
    (Formula.const v).over P.target padding = r := by
  cases P <;> cases v <;> simp only [constant, Option.some.injEq, reduceCtorEq] at hr <;> subst r <;>
    simp [target, Formula.over, Formula.overNand, Formula.overImpliesNot, Formula.overImpliesFalse]

theorem over_of_no_constant {P : Pass} {v : Bool} (hr : P.constant padding v = none) :
    (Formula.const v).over P.target padding =
      ((Formula.const v).form P.source padding).over P.target padding := by
  obtain rfl := eq_notAnd_of_constant hr
  simp [target, source, Formula.over, Formula.form, Formula.notAndOrForm, Formula.overNotAnd]

theorem form_target (P : Pass) (f : Formula) :
    f.form P.target padding = (f.form P.source padding).over P.target padding := by
  cases P <;> rfl

theorem form_source_var (P : Pass) (x : String) :
    (Formula.var x).form P.source padding = .var x := by
  cases P <;> simp [source, Formula.form, Formula.notAndForm, Formula.notAndOrForm, Formula.overNotAnd]

theorem form_source_not (P : Pass) (f : Formula) :
    (Formula.not f).form P.source padding = .not (f.form P.source padding) := by
  cases P <;> simp [source, Formula.form, Formula.notAndForm, Formula.notAndOrForm, Formula.overNotAnd]

theorem form_source_of_rule {P : Pass} {c : Connective} (hr : (P.rule c).isSome) (f g : Formula) :
    (Formula.binary c f g).form P.source padding =
      .binary c (f.form P.source padding) (g.form P.source padding) := by
  cases P <;> cases c <;> simp only [rule, Option.isSome, Bool.false_eq_true] at hr <;>
    simp [source, Formula.form, Formula.notAndForm, Formula.notAndOrForm, Formula.overNotAnd,
      Connective.expand]

theorem form_target_not (P : Pass) (f : Formula) :
    (Formula.not f).form P.target padding = P.negate (f.form P.target padding) := by
  rw [form_target, form_source_not, over_not, ← form_target]

theorem form_target_of_rule {P : Pass} {c : Connective} {r : Formula → Formula → Formula}
    (hr : P.rule c = some r) (f g : Formula) :
    (Formula.binary c f g).form P.target padding =
      r (f.form P.target padding) (g.form P.target padding) := by
  have hsome : (P.rule c).isSome := by simp [hr]
  rw [form_target, form_source_of_rule hsome, over_of_rule hr, ← form_target, ← form_target]

end Equations

end Pass

/-- Passes lead from `{~,&,|}` to every other basis. -/
theorem Basis.induction_by_passes {motive : Basis → Prop} (leaf : motive .notAndOr)
    (pass : ∀ P : Pass, motive P.source → motive P.target) (B : Basis) : motive B := by
  have hand : motive .notAnd := pass .notAnd leaf
  cases B with
  | notAndOr => exact leaf
  | notAnd => exact hand
  | nand => exact pass .nand hand
  | impliesNot => exact pass .impliesNot leaf
  | impliesFalse => exact pass .impliesFalse leaf

end ConnectiveBases
