import ConnectiveBases.Proofs.ConstantPaths
import ConnectiveBases.Proofs.Extensions
import ConnectiveBases.Proofs.FormEvaluation

namespace ConnectiveBases

open Std (ExtTreeSet)

theorem exists_model_over (names : List String) : ∃ m : Model, m.AssignsExactly names := by
  obtain ⟨m, hm, -⟩ := extensions_exhaust Model.empty names fun _ => true
  exact ⟨m, assignsExactly_of_mem hm⟩

/-- Names among which every model misses the same one first are the same names. -/
theorem mem_of_firstUnassigned {xs ys : List String}
    (h : ∀ m : Model, m.firstUnassigned xs = m.firstUnassigned ys) {x : String} (hx : x ∈ xs) :
    x ∈ ys := by
  obtain ⟨m, hm⟩ := exists_model_over ys
  have hys : m.firstUnassigned ys = none := firstUnassigned_eq_none.mpr fun y => (hm y).mpr
  have hxs := firstUnassigned_eq_none.mp ((h m).trans hys)
  exact (hm x).mp (hxs x hx)

theorem mem_vars_iff_of_firstUnassigned {f : Formula} {names : List String}
    (h : ∀ m : Model, m.firstUnassigned (f.leafNames []) = m.firstUnassigned names) {x : String} :
    x ∈ f.vars ↔ x ∈ names := by
  rw [← mem_leafNames_nil]
  exact ⟨mem_of_firstUnassigned h, mem_of_firstUnassigned fun m => (h m).symm⟩

theorem constants_const_ne_empty (v : Bool) : (Formula.const v).constants ≠ ∅ := by
  intro h
  have hv := ExtTreeSet.eq_empty_iff_forall_not_mem.mp h v
  simp at hv

theorem constants_ne_empty_binary {c : Connective} {f g : Formula} :
    (Formula.binary c f g).constants ≠ ∅ ↔ f.constants ≠ ∅ ∨ g.constants ≠ ∅ := by
  rw [ne_eq, constants_eq_empty_binary, not_and_or]

theorem mem_leafNames {padding x : String} {f : Formula} :
    x ∈ f.leafNames [padding] ↔ x ∈ f.vars ∨ x = padding ∧ f.constants ≠ ∅ := by
  induction f with
  | var y =>
    have hnone : (Formula.var y).constants = ∅ := rfl
    simp [hnone]
  | const v => simp [constants_const_ne_empty]
  | not f ih => exact ih
  | binary c f g ihf ihg =>
    rw [Formula.leafNames, List.mem_append, ihf, ihg, Formula.mem_vars_binary,
      constants_ne_empty_binary, and_or_left]
    exact or_or_or_comm

/-- The variables, and the padding with them where a constant is to be padded. -/
def Formula.paddedVars (padding : String) (f : Formula) : ExtTreeSet String :=
  if f.constants = ∅ then f.vars else f.vars.insert padding

theorem mem_insert_if {p : Prop} [Decidable p] {s : ExtTreeSet String} {padding x : String} :
    x ∈ (if p then s.insert padding else s) ↔ x ∈ s ∨ x = padding ∧ p := by
  by_cases hp : p
  · simp [hp, or_comm, eq_comm (a := x)]
  · simp [hp]

theorem mem_paddedVars {padding x : String} {f : Formula} :
    x ∈ f.paddedVars padding ↔ x ∈ f.leafNames [padding] := by
  rw [mem_leafNames, ← mem_insert_if, ← ite_not, Formula.paddedVars]
  simp

theorem vars_eq_paddedVars {padding : String} {f g : Formula}
    (h : ∀ m : Model, m.firstUnassigned (g.leafNames []) = m.firstUnassigned (f.leafNames [padding])) :
    g.vars = f.paddedVars padding := by
  apply ExtTreeSet.ext_mem
  intro x
  rw [mem_paddedVars, mem_vars_iff_of_firstUnassigned h]

theorem vars_form (B : Basis) (padding : String) (f : Formula) :
    (f.form B padding).vars = f.paddedVars padding :=
  vars_eq_paddedVars (firstUnassigned_form B padding f)

theorem mem_vars_form {B : Basis} {padding x : String} {f : Formula} :
    x ∈ (f.form B padding).vars ↔ x ∈ f.vars ∨ x = padding ∧ f.constants ≠ ∅ := by
  rw [vars_form, mem_paddedVars, mem_leafNames]

theorem mem_vars_notAndOrForm {padding x : String} {f : Formula} :
    x ∈ (f.notAndOrForm padding).vars ↔ x ∈ f.vars ∨ x = padding ∧ f.constants ≠ ∅ := by
  rw [← mem_leafNames]
  exact mem_vars_iff_of_firstUnassigned fun m => firstUnassigned_notAndOrForm padding m [] f

/-- The form has no constant left to bury, and has taken in the padding for each of those below the
node. -/
theorem mem_vars_buried_foreign {padding x : String} {c : Connective} {f g : Formula}
    (hc : .binary c ∉ Basis.notAndOr.operators) :
    (x ∈ ((Formula.binary c f g).notAndOrForm padding).vars ∨
        x = padding ∧ ((Formula.binary c f g).notAndOrForm padding).Buried Basis.notAndOr.operators) ↔
      x ∈ (Formula.binary c f g).vars ∨
        x = padding ∧ (Formula.binary c f g).Buried Basis.notAndOr.operators := by
  have hfree : ¬ ((Formula.binary c f g).notAndOrForm padding).Buried Basis.notAndOr.operators :=
    Formula.not_buried_of_no_constant (constants_notAndOrForm padding _)
  rw [mem_vars_notAndOrForm, Formula.buried_binary_of_not_mem hc]
  simp only [hfree, and_false, or_false]

theorem mem_vars_overImpliesFalse {padding x : String} {f : Formula} :
    x ∈ (f.overImpliesFalse padding).vars ↔
      x ∈ f.vars ∨ x = padding ∧ f.Buried Basis.notAndOr.operators := by
  have hnot : Operator.not ∈ Basis.notAndOr.operators := by simp [Basis.operators]
  have hand : Operator.binary .and ∈ Basis.notAndOr.operators := by simp [Basis.operators]
  have hor : Operator.binary .or ∈ Basis.notAndOr.operators := by simp [Basis.operators]
  fun_induction Formula.overImpliesFalse padding f with
  | case1 y => simp
  | case2 => simp
  | case3 => simp
  | case4 f ih => simpa [Formula.buried_not hnot] using ih
  | case5 f g ihf ihg =>
    simp [Formula.buried_binary hor, ihf, ihg, and_or_left, or_or_or_comm]
  | case6 f g ihf ihg =>
    simp [Formula.buried_binary hand, ihf, ihg, and_or_left, or_or_or_comm]
  | _ f g ih => exact Iff.trans ih (mem_vars_buried_foreign (by simp [Basis.operators]))

/-- No reduction drops a variable, and none brings in another name than the padding, which comes with a
constant. The pass over `{->,F}` keeps those with no operator to be rewritten above them. -/
theorem reductions_keep_variables (padding : String) (f : Formula) :
    (∀ B : Basis, (f.form B padding).vars = f.paddedVars padding) ∧
    (f.overNotAnd padding).vars = f.paddedVars padding ∧
    (f.overNand padding).vars = f.paddedVars padding ∧
    (f.overImpliesNot padding).vars = f.paddedVars padding ∧
    (f.overImpliesFalse padding).vars =
      if f.Buried {.not, .binary .and, .binary .or} then f.vars.insert padding else f.vars := by
  refine ⟨fun B => vars_form B padding f, ?_, ?_, ?_, ?_⟩
  · exact vars_eq_paddedVars fun m => firstUnassigned_overNotAnd padding m [] f
  · exact vars_eq_paddedVars fun m => firstUnassigned_overNand padding m [] f
  · exact vars_eq_paddedVars fun m => firstUnassigned_overImpliesNot padding m [] f
  · apply ExtTreeSet.ext_mem
    intro x
    rw [mem_vars_overImpliesFalse, mem_insert_if]
    rfl

end ConnectiveBases
