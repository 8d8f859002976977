import ConnectiveBases.Formula

namespace ConnectiveBases

open Std (ExtTreeSet)

/-- The restricted sets of operators over which formulas are expressed. -/
inductive Basis where
  | notAndOr | notAnd | nand | impliesNot | impliesFalse
  deriving DecidableEq

namespace Basis

def all : List Basis := [.notAndOr, .notAnd, .nand, .impliesNot, .impliesFalse]

def name : Basis → String
  | notAndOr => "\x7b~,&,|\x7d"
  | notAnd => "\x7b~,&\x7d"
  | nand => "\x7b-&\x7d"
  | impliesNot => "\x7b->,~\x7d"
  | impliesFalse => "\x7b->,F\x7d"

def operators : Basis → ExtTreeSet Operator
  | notAndOr => {.not, .binary .and, .binary .or}
  | notAnd => {.not, .binary .and}
  | nand => {.binary .nand}
  | impliesNot => {.binary .implies, .not}
  | impliesFalse => {.binary .implies}

/-- Whether formulas over the basis may mention `F`. They never mention `T`. -/
def hasFalsum (B : Basis) : Bool := B = impliesFalse

/-- Whether the formula is one over the basis, judged node by node. -/
def covers (B : Basis) : Formula → Bool
  | .var _ => true
  | .const v => !v && B.hasFalsum
  | .not f => B.operators.contains .not && B.covers f
  | .binary c f g => B.operators.contains (.binary c) && B.covers f && B.covers g

theorem covers_operand {B : Basis} {f : Formula} (h : B.covers (.not f)) : B.covers f := by
  simp only [covers, Bool.and_eq_true] at h
  exact h.2

theorem covers_left {B : Basis} {c : Connective} {f g : Formula} (h : B.covers (.binary c f g)) :
    B.covers f := by
  simp only [covers, Bool.and_eq_true] at h
  exact h.1.2

theorem covers_right {B : Basis} {c : Connective} {f g : Formula} (h : B.covers (.binary c f g)) :
    B.covers g := by
  simp only [covers, Bool.and_eq_true] at h
  exact h.2

/-- A formula over the basis comes before every other one, and otherwise the smaller one first.
Under this order a recursion may go on with a larger formula once, to enter the basis. -/
def weight (B : Basis) (f : Formula) : Nat × Nat := (if B.covers f then 0 else 1, f.size)

theorem weight_lt_of_enter {B : Basis} {f g : Formula} (hf : B.covers f = true)
    (hg : B.covers g = false) : Prod.Lex (· < ·) (· < ·) (B.weight f) (B.weight g) := by
  apply Prod.Lex.left
  simp [hf, hg]

theorem weight_lt_of_size {B : Basis} {f g : Formula} (h : B.covers g → B.covers f)
    (hs : f.size < g.size) : Prod.Lex (· < ·) (· < ·) (B.weight f) (B.weight g) := by
  by_cases hg : B.covers g
  · simp only [weight, hg, h hg, if_true]
    exact Prod.Lex.right _ hs
  · by_cases hf : B.covers f
    · exact weight_lt_of_enter hf (by simpa using hg)
    · simp only [weight, hf, hg]
      exact Prod.Lex.right _ hs

theorem weight_operand (B : Basis) (f : Formula) :
    Prod.Lex (· < ·) (· < ·) (B.weight f) (B.weight (.not f)) :=
  weight_lt_of_size covers_operand (by simp [Formula.size])

theorem weight_left (B : Basis) (c : Connective) (f g : Formula) :
    Prod.Lex (· < ·) (· < ·) (B.weight f) (B.weight (.binary c f g)) :=
  weight_lt_of_size covers_left (by simp only [Formula.size]; omega)

theorem weight_right (B : Basis) (c : Connective) (f g : Formula) :
    Prod.Lex (· < ·) (· < ·) (B.weight g) (B.weight (.binary c f g)) :=
  weight_lt_of_size covers_right (by simp only [Formula.size]; omega)

end Basis

/-- Whether the formula is one over the basis, judged by the operators and constants in it. -/
def Formula.isOver (f : Formula) (B : Basis) : Bool :=
  f.operators.all (fun o => B.operators.contains o) && f.constants.all fun v => !v && B.hasFalsum

end ConnectiveBases
