import Mathlib.Logic.Function.Iterate
import ConnectiveBases.Proofs.FormChains
import ConnectiveBases.Proofs.FormLayers
import ConnectiveBases.Proofs.FormSize

namespace ConnectiveBases

/-- The basis has no operator in common with `{~,&,|}`. -/
def Basis.Foreign (B : Basis) : Prop := ∀ o ∈ B.operators, o ∉ Basis.notAndOr.operators

theorem foreign_nand : Basis.nand.Foreign := by
  simp [Basis.Foreign, Basis.operators]

theorem foreign_impliesFalse : Basis.impliesFalse.Foreign := by
  simp [Basis.Foreign, Basis.operators]

section

variable {B : Basis} {padding : String} {f : Formula}

/-- No layer of a reduction makes a formula smaller, so one that comes back unchanged was left alone by
every layer. -/
theorem covers_of_form_eq_self (h : f.form B padding = f) :
    Basis.notAndOr.covers f ∧ B.covers f := by
  have hB : B.covers f := h ▸ covers_form B padding f
  refine ⟨?_, hB⟩
  by_contra hor
  have hlt : f.size < (f.notAndOrForm padding).size :=
    size_lt_form_of_not_covers .notAndOr (Bool.eq_false_iff.mpr hor)
  have hle : (f.notAndOrForm padding).size ≤ ((f.notAndOrForm padding).form B padding).size :=
    size_le_form B _
  rw [form_notAndOrForm B padding padding f, h] at hle
  omega

theorem isVar_eq_false : f.isVar = false ↔ ∀ x, f ≠ .var x := by
  cases f <;> simp [Formula.isVar]

theorem form_ne_var (h : ∀ x, f ≠ .var x) : ∀ x, f.form B padding ≠ .var x := by
  rw [← isVar_eq_false] at h ⊢
  rw [isVar_form, h]

theorem form_eq_self_iff_var (hforeign : B.Foreign) : f.form B padding = f ↔ ∃ x, f = .var x := by
  constructor
  · intro h
    obtain ⟨hor, hB⟩ := covers_of_form_eq_self h
    have hnone : ∀ o, o ∉ f.operators := by
      intro o ho
      have hin := (covers_iff_subset.mp hB).1 o ho
      exact hforeign o hin ((covers_iff_subset.mp hor).1 o ho)
    cases f with
    | var x => exact ⟨x, rfl⟩
    | const v => simp [Basis.covers, Basis.hasFalsum] at hor
    | not f => exact absurd (by simp) (hnone .not)
    | binary c f g => exact absurd (by simp) (hnone (.binary c))
  · rintro ⟨x, rfl⟩
    exact form_var B padding x

theorem size_lt_form_of_foreign (hforeign : B.Foreign) (h : ∀ x, f ≠ .var x) :
    f.size < (f.form B padding).size := by
  rcases form_eq_or_size_lt B f with heq | hlt
  · obtain ⟨x, hx⟩ := (form_eq_self_iff_var hforeign).mp heq
    exact absurd hx (h x)
  · exact hlt

theorem size_lt_iterate_form (hforeign : B.Foreign) (h : ∀ x, f ≠ .var x) (n : Nat) :
    ((Formula.form B padding)^[n] f).size < ((Formula.form B padding)^[n + 1] f).size := by
  induction n generalizing f with
  | zero => exact size_lt_form_of_foreign hforeign h
  | succ n ih =>
    rw [Function.iterate_succ_apply, Function.iterate_succ_apply _ (n + 1)]
    exact ih (form_ne_var h)

theorem negations_of_covers (hor : Basis.notAndOr.covers f) (hB : Basis.impliesNot.covers f) :
    ∃ k x, f = Formula.not^[k] (.var x) := by
  induction f with
  | var x => exact ⟨0, x, rfl⟩
  | const v => simp [Basis.covers, Basis.hasFalsum] at hor
  | not f ih =>
    obtain ⟨k, x, hk⟩ := ih (Basis.covers_operand hor) (Basis.covers_operand hB)
    refine ⟨k + 1, x, ?_⟩
    rw [Function.iterate_succ_apply', ← hk]
  | binary c f g =>
    have hfirst := (covers_iff_subset.mp hor).1 (.binary c) (by simp)
    have hsecond := (covers_iff_subset.mp hB).1 (.binary c) (by simp)
    cases c <;> simp [Basis.operators] at hfirst hsecond

theorem impliesNotForm_negations (k : Nat) (x : String) :
    (Formula.not^[k] (.var x)).impliesNotForm padding = Formula.not^[k] (.var x) := by
  induction k with
  | zero => exact form_var .impliesNot padding x
  | succ k ih =>
    rw [Function.iterate_succ_apply']
    exact (form_not .impliesNot _).trans (congrArg Formula.not ih)

end

/-- A reduction leaves a formula as it is or makes it larger. Only over `{~,&,|}` and `{~,&}` does it stop at
whatever is over the basis. -/
theorem forms_stop_or_grow (u v : String) (f : Formula) :
    (f.notAndOrForm u = f ↔ f.isOver .notAndOr) ∧
    (f.notAndForm u = f ↔ f.isOver .notAnd) ∧
    (f.nandForm u = f ↔ ∃ x, f = .var x) ∧
    (f.impliesNotForm u = f ↔ ∃ k x, f = Formula.not^[k] (.var x)) ∧
    (f.impliesFalseForm u = f ↔ ∃ x, f = .var x) ∧
    (∀ B : Basis, f.size ≤ (f.form B u).size ∧ ((f.form B u).size = f.size ↔ f.form B u = f)) ∧
    (f.notAndOrForm u).notAndOrForm v = f.notAndOrForm u ∧
    (f.notAndForm u).notAndForm v = f.notAndForm u ∧
    ((∀ x, f ≠ .var x) → ∀ n,
      ((Formula.nandForm u)^[n] f).size < ((Formula.nandForm u)^[n + 1] f).size ∧
      ((Formula.impliesFalseForm u)^[n] f).size < ((Formula.impliesFalseForm u)^[n + 1] f).size) := by
  refine ⟨?_, ?_, form_eq_self_iff_var foreign_nand, ?_, form_eq_self_iff_var foreign_impliesFalse, ?_,
    form_notAndOrForm .notAndOr u v f, notAndForm_notAndForm u v f, ?_⟩
  · rw [isOver_iff_covers]
    exact ⟨fun h => (covers_of_form_eq_self (B := .notAndOr) h).2, notAndOrForm_of_covers u⟩
  · rw [isOver_iff_covers]
    exact ⟨fun h => (covers_of_form_eq_self (B := .notAnd) h).2, notAndForm_of_covers u⟩
  · constructor
    · intro h
      obtain ⟨hor, hB⟩ := covers_of_form_eq_self (B := .impliesNot) h
      exact negations_of_covers hor hB
    · rintro ⟨k, x, rfl⟩
      exact impliesNotForm_negations k x
  · intro B
    exact ⟨size_le_form B f, size_form_eq_iff B⟩
  · intro h n
    exact ⟨size_lt_iterate_form foreign_nand h n, size_lt_iterate_form foreign_impliesFalse h n⟩

theorem forms_stop_or_grow_negation :
    let f := Formula.not (.not (.var "q"))
    (∀ x, f ≠ .var x) ∧ f.impliesNotForm "p" = f ∧ f.nandForm "p" ≠ f ∧
      ((Formula.nandForm "p")^[2] f).size < ((Formula.nandForm "p")^[3] f).size ∧
      ((Formula.impliesFalseForm "p")^[2] f).size < ((Formula.impliesFalseForm "p")^[3] f).size := by
  intro f
  have hvar : ∀ x, f ≠ .var x := by simp [f]
  obtain ⟨-, -, hnand, hnot, -, -, -, -, hgrow⟩ := forms_stop_or_grow "p" "p" f
  refine ⟨hvar, hnot.mpr ⟨2, "q", rfl⟩, ?_, hgrow hvar 2⟩
  intro h
  obtain ⟨x, hx⟩ := hnand.mp h
  exact hvar x hx

end ConnectiveBases
