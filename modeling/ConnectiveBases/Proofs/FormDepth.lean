import ConnectiveBases.Proofs.FormRecursion

namespace ConnectiveBases

namespace Basis

/-- How far below `a&b`, as the basis writes it, the left and the right operand stand. -/
def andDepth : Basis → Nat × Nat
  | notAndOr => (1, 1)
  | notAnd => (1, 1)
  | nand => (2, 2)
  | impliesNot => (2, 3)
  | impliesFalse => (2, 3)

def orDepth : Basis → Nat × Nat
  | notAndOr => (1, 1)
  | notAnd => (3, 3)
  | nand => (4, 4)
  | impliesNot => (2, 1)
  | impliesFalse => (2, 1)

/-- The longest way from a connective to an operand: `a+b` puts `b` under `~`, on the right of `&`, on the
left of `|`. -/
def deepening (B : Basis) : Nat := B.orDepth.1 + B.andDepth.2 + 1

/-- The depth to which `F`, as `~(p|~p)`, comes. -/
def falsumDepth (B : Basis) : Nat := max B.orDepth.1 (B.orDepth.2 + 1) + 1

variable (B : Basis)

theorem operand_depths : 1 ≤ B.andDepth.1 ∧ B.andDepth.1 ≤ B.andDepth.2 ∧
    1 ≤ B.orDepth.2 ∧ B.orDepth.2 ≤ B.orDepth.1 := by
  cases B <;> decide

theorem depth_negation (f : Formula) : (B.negation f).depth = f.depth + 1 := by
  cases B <;> simp [negation, Formula.depth]

theorem depth_conjunction (f g : Formula) :
    (B.conjunction f g).depth = max (f.depth + B.andDepth.1) (g.depth + B.andDepth.2) := by
  cases B <;> simp only [conjunction, andDepth, Formula.depth] <;> omega

theorem depth_disjunction (f g : Formula) :
    (B.disjunction f g).depth = max (f.depth + B.orDepth.1) (g.depth + B.orDepth.2) := by
  cases B <;> simp only [disjunction, conjunction, negation, orDepth, Formula.depth] <;> omega

end Basis

section

variable (B : Basis) (padding : String)

theorem depth_form_binary (c : Connective) (f g : Formula) :
    max (f.form B padding).depth (g.form B padding).depth <
        ((Formula.binary c f g).form B padding).depth ∧
      ((Formula.binary c f g).form B padding).depth ≤
        max (f.form B padding).depth (g.form B padding).depth + B.deepening := by
  obtain ⟨hand, handlr, hor, horrl⟩ := B.operand_depths
  rw [form_binary, Basis.deepening]
  cases c <;>
    simp only [Connective.expand, form_and, form_or, form_not, B.depth_negation, B.depth_conjunction,
      B.depth_disjunction] <;>
    omega

theorem depth_form_falsum : (Formula.falsum.form B padding).depth = B.falsumDepth := by
  rw [form_const, constantFrom, form_not, form_or, form_not, form_var, B.depth_negation,
    B.depth_disjunction, B.depth_negation, Formula.depth, Basis.falsumDepth]
  omega

theorem depth_form_verum : (Formula.verum.form B padding).depth + 1 = B.falsumDepth := by
  rw [form_const, constantFrom, form_or, form_not, form_var, B.depth_disjunction, B.depth_negation,
    Formula.depth, Basis.falsumDepth]
  omega

theorem depth_le_form (f : Formula) : f.depth ≤ (f.form B padding).depth := by
  induction f with
  | var x => exact Nat.zero_le _
  | const v => exact Nat.zero_le _
  | not f ih =>
    rw [form_not, B.depth_negation, Formula.depth]
    omega
  | binary c f g ihf ihg =>
    obtain ⟨hlower, -⟩ := depth_form_binary B padding c f g
    rw [Formula.depth]
    omega

theorem depth_form_le (f : Formula) :
    (f.form B padding).depth ≤ B.deepening * f.depth + B.falsumDepth := by
  induction f with
  | var x =>
    rw [form_var]
    exact Nat.zero_le _
  | const v =>
    cases v with
    | false => exact Nat.le_add_left_of_le (Nat.le_of_eq (depth_form_falsum B padding))
    | true =>
      have hverum : ((Formula.const true).form B padding).depth + 1 = B.falsumDepth :=
        depth_form_verum B padding
      omega
  | not f ih =>
    have hstep : B.deepening * (f.depth + 1) = B.deepening * f.depth + B.deepening := Nat.mul_succ _ _
    rw [form_not, B.depth_negation, Formula.depth, hstep]
    have hpos : 1 ≤ B.deepening := Nat.le_add_left 1 _
    omega
  | binary c f g ihf ihg =>
    obtain ⟨-, hupper⟩ := depth_form_binary B padding c f g
    have hleft := Nat.mul_le_mul_left B.deepening (Nat.le_max_left f.depth g.depth)
    have hright := Nat.mul_le_mul_left B.deepening (Nat.le_max_right f.depth g.depth)
    rw [Formula.depth, Nat.mul_succ]
    omega

end

/-- Each node takes its right operand the longest way down, and a leaf that comes to the most edges is at
the end. -/
def Formula.deepest : Nat → Formula
  | 0 => .falsum
  | d + 1 => .xor (.var "p") (deepest d)

theorem depth_deepest (d : Nat) : (Formula.deepest d).depth = d := by
  induction d with
  | zero => rfl
  | succ d ih =>
    rw [Formula.deepest, Formula.depth, Formula.depth, ih]
    omega

theorem depth_form_deepest (B : Basis) (padding : String) (d : Nat) :
    ((Formula.deepest d).form B padding).depth = B.deepening * d + B.falsumDepth := by
  induction d with
  | zero => exact (depth_form_falsum B padding).trans (by omega)
  | succ d ih =>
    obtain ⟨hand, handlr, hor, horrl⟩ := B.operand_depths
    have hstep : ((Formula.deepest (d + 1)).form B padding).depth =
        ((Formula.deepest d).form B padding).depth + B.deepening := by
      rw [Formula.deepest, form_binary, Basis.deepening]
      simp only [Connective.expand, form_and, form_or, form_not, form_var, B.depth_negation,
        B.depth_conjunction, B.depth_disjunction, Formula.depth]
      omega
    rw [hstep, ih, Nat.mul_succ]
    omega

/-- A form is as deep as its formula at least. Each level of the formula, and the leaf at the end, comes to at
most a fixed number of levels, which for `F` below nested `+` is the number that it comes to. -/
theorem form_depth_linear (u : String) :
    (∀ f : Formula,
      (∀ B : Basis, f.depth ≤ (f.form B u).depth) ∧
      (f.notAndOrForm u).depth ≤ 3 * f.depth + 3 ∧
      (f.notAndForm u).depth ≤ 5 * f.depth + 5 ∧
      (f.nandForm u).depth ≤ 7 * f.depth + 6 ∧
      (f.impliesNotForm u).depth ≤ 6 * f.depth + 3 ∧
      (f.impliesFalseForm u).depth ≤ 6 * f.depth + 3) ∧
    ∀ d, ∃ f : Formula, f.depth = d ∧
      (f.notAndOrForm u).depth = 3 * d + 3 ∧
      (f.notAndForm u).depth = 5 * d + 5 ∧
      (f.nandForm u).depth = 7 * d + 6 ∧
      (f.impliesNotForm u).depth = 6 * d + 3 ∧
      (f.impliesFalseForm u).depth = 6 * d + 3 := by
  constructor
  · intro f
    exact ⟨fun B => depth_le_form B u f, depth_form_le .notAndOr u f, depth_form_le .notAnd u f,
      depth_form_le .nand u f, depth_form_le .impliesNot u f, depth_form_le .impliesFalse u f⟩
  · intro d
    exact ⟨Formula.deepest d, depth_deepest d, depth_form_deepest .notAndOr u d,
      depth_form_deepest .notAnd u d, depth_form_deepest .nand u d,
      depth_form_deepest .impliesNot u d, depth_form_deepest .impliesFalse u d⟩

end ConnectiveBases
