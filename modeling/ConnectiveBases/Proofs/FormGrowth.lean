import Mathlib.Algebra.Order.Ring.Nat
import Mathlib.Logic.Function.Iterate
import Mathlib.Tactic.Ring
import ConnectiveBases.Proofs.FormDepth
import ConnectiveBases.Proofs.FormSize

namespace ConnectiveBases

/-- `1` for the connectives whose operands are written down twice. -/
def Connective.doubling : Connective → Nat
  | and => 0
  | or => 0
  | implies => 0
  | xor => 1
  | iff => 1
  | nand => 0
  | nor => 0

namespace Formula

/-- The most `+` and `<->` on one path from the root to a leaf. -/
def doublings : Formula → Nat
  | var _ => 0
  | const _ => 0
  | not f => f.doublings
  | binary c f g => max f.doublings g.doublings + c.doubling

theorem doublings_eq_zero {f : Formula} (hxor : .binary .xor ∉ f.operators)
    (hiff : .binary .iff ∉ f.operators) : f.doublings = 0 := by
  induction f with
  | var x => rfl
  | const v => rfl
  | not f ih =>
    simp only [mem_operators_not, reduceCtorEq, false_or] at hxor hiff
    exact ih hxor hiff
  | binary c f g ihf ihg =>
    simp only [mem_operators_binary, Operator.binary.injEq, not_or] at hxor hiff
    obtain ⟨hcx, hfx, hgx⟩ := hxor
    obtain ⟨hci, hfi, hgi⟩ := hiff
    have hc : c.doubling = 0 := by
      cases c <;> first | rfl | contradiction
    rw [doublings, ihf hfx hfi, ihg hgx hgi, hc]
    rfl

theorem size_lt_two_pow_depth (f : Formula) : f.size < 2 ^ (f.depth + 1) := by
  induction f with
  | var x => exact Nat.one_lt_two
  | const v => exact Nat.one_lt_two
  | not f ih =>
    rw [size, depth, Nat.pow_succ]
    omega
  | binary c f g ihf ihg =>
    have hleft : 2 ^ (f.depth + 1) ≤ 2 ^ (max f.depth g.depth + 1) :=
      Nat.pow_le_pow_right Nat.two_pos (by omega)
    have hright : 2 ^ (g.depth + 1) ≤ 2 ^ (max f.depth g.depth + 1) :=
      Nat.pow_le_pow_right Nat.two_pos (by omega)
    rw [size, depth, Nat.pow_succ]
    omega

theorem depth_negations (k : Nat) (x : String) : (Formula.not^[k] (.var x)).depth = k := by
  induction k with
  | zero => rfl
  | succ k ih => rw [Function.iterate_succ_apply', depth, ih]

end Formula

/-- The nodes that a basis spends on `~`, `&` and `|`, if it writes each operand down once. -/
structure Basis.Spends (B : Basis) (onNot onAnd onOr : Nat) : Prop where
  negation (f : Formula) : (B.negation f).size = f.size + onNot
  conjunction (f g : Formula) : (B.conjunction f g).size = f.size + g.size + onAnd
  disjunction (f g : Formula) : (B.disjunction f g).size = f.size + g.size + onOr

theorem spends_notAndOr : Basis.notAndOr.Spends 1 1 1 :=
  ⟨fun _ => rfl, fun _ _ => rfl, fun _ _ => rfl⟩

theorem spends_notAnd : Basis.notAnd.Spends 1 1 4 := by
  refine ⟨fun _ => rfl, fun _ _ => rfl, fun f g => ?_⟩
  simp only [Basis.disjunction, Formula.size]
  omega

theorem spends_impliesNot : Basis.impliesNot.Spends 1 3 2 := by
  refine ⟨fun _ => rfl, fun f g => ?_, fun f g => ?_⟩
  · simp only [Basis.conjunction, Formula.size]
    omega
  · simp only [Basis.disjunction, Formula.size]
    omega

theorem spends_impliesFalse : Basis.impliesFalse.Spends 2 5 3 := by
  refine ⟨fun _ => rfl, fun f g => ?_, fun f g => ?_⟩
  · simp only [Basis.conjunction, Formula.size]
    omega
  · simp only [Basis.disjunction, Formula.size]
    omega

namespace Basis.Spends

variable {B : Basis} {n a o k : Nat} (h : B.Spends n a o) (padding : String)

include h

theorem size_form_const_le (hconst : 2 * n + o ≤ k) (v : Bool) :
    ((Formula.const v).form B padding).size ≤ k + 2 := by
  rw [form_const]
  cases v with
  | true =>
    rw [constantFrom, form_or, form_not, form_var, h.disjunction, h.negation, Formula.size]
    omega
  | false =>
    rw [constantFrom, form_not, form_or, form_not, form_var, h.negation, h.disjunction, h.negation,
      Formula.size]
    omega

theorem size_form_binary_le (hconst : 2 * n + o ≤ k) (hdouble : 2 * n + 2 * a + o ≤ 2 * k)
    (c : Connective) (f g : Formula) :
    ((Formula.binary c f g).form B padding).size ≤
      2 ^ c.doubling * ((f.form B padding).size + (g.form B padding).size + k) := by
  rw [form_binary]
  cases c <;>
    simp only [Connective.expand, form_and, form_or, form_not, h.negation, h.conjunction, h.disjunction,
      Connective.doubling] <;>
    omega

/-- With enough nodes for a constant, and for half of `+` and `<->`, there are enough for the other nodes. -/
theorem size_form_le (hconst : 2 * n + o ≤ k) (hdouble : 2 * n + 2 * a + o ≤ 2 * k) (f : Formula) :
    (f.form B padding).size ≤ 2 ^ f.doublings * ((k + 1) * f.size + 1) := by
  induction f with
  | var x =>
    rw [form_var, Formula.doublings, Formula.size]
    omega
  | const v =>
    have hv := h.size_form_const_le padding hconst v
    rw [Formula.doublings, Formula.size]
    omega
  | not f ih =>
    have hpos : 0 < 2 ^ f.doublings := Nat.two_pow_pos _
    have hcopies : k + 1 ≤ 2 ^ f.doublings * (k + 1) := Nat.le_mul_of_pos_left _ hpos
    rw [form_not, h.negation, Formula.doublings, Formula.size]
    calc (f.form B padding).size + n
        ≤ 2 ^ f.doublings * ((k + 1) * f.size + 1) + 2 ^ f.doublings * (k + 1) := by omega
      _ = 2 ^ f.doublings * ((k + 1) * (f.size + 1) + 1) := by ring
  | binary c f g ihf ihg =>
    generalize hm : max f.doublings g.doublings = m
    have hpos : 0 < 2 ^ m := Nat.two_pow_pos _
    have hleft : 2 ^ f.doublings ≤ 2 ^ m := Nat.pow_le_pow_right Nat.two_pos (by omega)
    have hright : 2 ^ g.doublings ≤ 2 ^ m := Nat.pow_le_pow_right Nat.two_pos (by omega)
    have hf := ihf.trans (Nat.mul_le_mul_right ((k + 1) * f.size + 1) hleft)
    have hg := ihg.trans (Nat.mul_le_mul_right ((k + 1) * g.size + 1) hright)
    have hcopies : k ≤ 2 ^ m * k := Nat.le_mul_of_pos_left _ hpos
    rw [Formula.doublings, Formula.size, hm]
    calc ((Formula.binary c f g).form B padding).size
        ≤ 2 ^ c.doubling * ((f.form B padding).size + (g.form B padding).size + k) :=
          h.size_form_binary_le padding hconst hdouble c f g
      _ ≤ 2 ^ c.doubling *
            (2 ^ m * ((k + 1) * f.size + 1) + 2 ^ m * ((k + 1) * g.size + 1) + 2 ^ m * k) :=
          Nat.mul_le_mul_left _ (by omega)
      _ = 2 ^ (m + c.doubling) * ((k + 1) * (f.size + g.size + 1) + 1) := by ring

end Basis.Spends

section

variable (padding : String)

theorem two_mul_size_lt_nandForm (c : Connective) (f g : Formula) :
    2 * (f.nandForm padding).size < ((Formula.binary c f g).nandForm padding).size ∧
      2 * (g.nandForm padding).size < ((Formula.binary c f g).nandForm padding).size := by
  change 2 * (f.form .nand padding).size < ((Formula.binary c f g).form .nand padding).size ∧
    2 * (g.form .nand padding).size < ((Formula.binary c f g).form .nand padding).size
  rw [form_binary]
  cases c <;>
    simp only [Connective.expand, form_and, form_or, form_not, Basis.conjunction, Basis.disjunction,
      Basis.negation, Formula.size] <;>
    omega

theorem size_nandForm_not (f : Formula) :
    ((Formula.not f).nandForm padding).size = 2 * (f.nandForm padding).size + 1 := by
  have hnot : (Formula.not f).nandForm padding = .nand (f.nandForm padding) (f.nandForm padding) :=
    form_not .nand f
  rw [hnot, Formula.size]
  omega

theorem two_pow_depth_le_size_nandForm (f : Formula) :
    2 ^ (f.depth + 1) ≤ (f.nandForm padding).size + 1 := by
  induction f with
  | var x => exact Nat.succ_le_succ (Formula.size_pos _)
  | const v => exact Nat.succ_le_succ (Formula.size_pos _)
  | not f ih =>
    rw [size_nandForm_not, Formula.depth, Nat.pow_succ]
    omega
  | binary c f g ihf ihg =>
    obtain ⟨hf, hg⟩ := two_mul_size_lt_nandForm padding c f g
    rw [Formula.depth, Nat.pow_succ]
    rcases Nat.le_total f.depth g.depth with hle | hle
    · rw [Nat.max_eq_right hle]
      omega
    · rw [Nat.max_eq_left hle]
      omega

theorem size_nandForm_negations (k : Nat) (x : String) :
    ((Formula.not^[k] (.var x)).nandForm padding).size = 2 ^ (k + 1) - 1 := by
  induction k with
  | zero => exact congrArg Formula.size (form_var .nand padding x)
  | succ k ih =>
    have hpos : 0 < 2 ^ (k + 1) := Nat.two_pow_pos _
    rw [Function.iterate_succ_apply', size_nandForm_not, ih, Nat.pow_succ 2 (k + 1)]
    omega

end

/-- A form is linear in its formula but for each `+` and `<->` above a node, which doubles the bound at most.
Over `{-&}` it is exponential in the depth, from both sides. -/
theorem forms_grow_by_doublings_or_depth (u : String) (f : Formula) :
    (f.notAndOrForm u).size ≤ 2 ^ f.doublings * (4 * f.size + 1) ∧
    (f.notAndForm u).size ≤ 2 ^ f.doublings * (7 * f.size + 1) ∧
    (f.impliesNotForm u).size ≤ 2 ^ f.doublings * (6 * f.size + 1) ∧
    (f.impliesFalseForm u).size ≤ 2 ^ f.doublings * (10 * f.size + 1) ∧
    (.binary .xor ∉ f.operators → .binary .iff ∉ f.operators →
      (f.notAndOrForm u).size ≤ 4 * f.size + 1 ∧ (f.notAndForm u).size ≤ 7 * f.size + 1 ∧
      (f.impliesNotForm u).size ≤ 6 * f.size + 1 ∧ (f.impliesFalseForm u).size ≤ 10 * f.size + 1) ∧
    2 ^ (f.depth + 1) - 1 ≤ (f.nandForm u).size ∧
    (f.nandForm u).size ≤ 2 ^ (7 * f.depth + 7) - 1 ∧
    ∀ k x, f = Formula.not^[k] (.var x) → (f.nandForm u).size = 2 ^ (f.depth + 1) - 1 := by
  have hor : (f.notAndOrForm u).size ≤ 2 ^ f.doublings * (4 * f.size + 1) :=
    spends_notAndOr.size_form_le u (k := 3) (by omega) (by omega) f
  have hand : (f.notAndForm u).size ≤ 2 ^ f.doublings * (7 * f.size + 1) :=
    spends_notAnd.size_form_le u (k := 6) (by omega) (by omega) f
  have hnot : (f.impliesNotForm u).size ≤ 2 ^ f.doublings * (6 * f.size + 1) :=
    spends_impliesNot.size_form_le u (k := 5) (by omega) (by omega) f
  have hfalse : (f.impliesFalseForm u).size ≤ 2 ^ f.doublings * (10 * f.size + 1) :=
    spends_impliesFalse.size_form_le u (k := 9) (by omega) (by omega) f
  refine ⟨hor, hand, hnot, hfalse, ?_, ?_, ?_, ?_⟩
  · intro hxor hiff
    rw [Formula.doublings_eq_zero hxor hiff, Nat.pow_zero, Nat.one_mul] at hor hand hnot hfalse
    exact ⟨hor, hand, hnot, hfalse⟩
  · have hlower := two_pow_depth_le_size_nandForm u f
    omega
  · have hsize := (f.nandForm u).size_lt_two_pow_depth
    have hdepth : (f.nandForm u).depth ≤ 7 * f.depth + 6 := depth_form_le .nand u f
    have hpow : 2 ^ ((f.nandForm u).depth + 1) ≤ 2 ^ (7 * f.depth + 7) :=
      Nat.pow_le_pow_right Nat.two_pos (by omega)
    omega
  · rintro k x rfl
    rw [size_nandForm_negations, Formula.depth_negations]

theorem forms_grow_by_doublings_or_depth_negations :
    let f := Formula.not^[3] (.var "q")
    .binary .xor ∉ f.operators ∧ .binary .iff ∉ f.operators ∧
      (f.impliesFalseForm "p").size ≤ 10 * f.size + 1 ∧ f.size = 4 ∧ (f.nandForm "p").size = 15 := by
  intro f
  have hxor : .binary .xor ∉ f.operators := by simp [f]
  have hiff : .binary .iff ∉ f.operators := by simp [f]
  obtain ⟨-, -, -, -, hlinear, -, -, hexact⟩ := forms_grow_by_doublings_or_depth "p" f
  obtain ⟨-, -, -, hfalse⟩ := hlinear hxor hiff
  exact ⟨hxor, hiff, hfalse, rfl, hexact 3 "q" rfl⟩

end ConnectiveBases
