import ConnectiveBases.Proofs.Decisions

namespace ConnectiveBases

open Std (ExtTreeSet)

/-- A formula in which the place of one subformula is left open. -/
inductive Context where
  | hole
  | not (operand : Context)
  | left (connective : Connective) (left : Context) (right : Formula)
  | right (connective : Connective) (left : Formula) (right : Context)
  deriving DecidableEq

def Context.fill (f : Formula) : Context → Formula
  | hole => f
  | not C => .not (C.fill f)
  | left c C g => .binary c (C.fill f) g
  | right c g C => .binary c g (C.fill f)

/-- The formulas have the same value, whatever values the names have. -/
def Formula.Equivalent (f g : Formula) : Prop := ∀ σ, f.value σ = g.value σ

theorem equivalent_equivalence : Equivalence Formula.Equivalent where
  refl _ _ := rfl
  symm h σ := (h σ).symm
  trans h k σ := (h σ).trans (k σ)

theorem equivalent_fill {f g : Formula} (h : f.Equivalent g) (C : Context) :
    (C.fill f).Equivalent (C.fill g) := by
  intro σ
  induction C with
  | hole => exact h σ
  | not C ih => rw [Context.fill, Context.fill, Formula.value, Formula.value, ih]
  | left c C g ih => rw [Context.fill, Context.fill, Formula.value, Formula.value, ih]
  | right c g C ih => rw [Context.fill, Context.fill, Formula.value, Formula.value, ih]

/-- The models over the variables of two formulas say as much as all valuations do, which do not hang on
what the variables are. So models over different sets of variables need not be fitted to each other. -/
theorem equivalent_iff_eval {f g : Formula} :
    f.Equivalent g ↔
      ∀ m : Model, (∀ x ∈ f.vars ∪ g.vars, (m.get? x).isSome) → f.eval m = g.eval m := by
  constructor
  · intro h m hm
    obtain ⟨hf, hg⟩ := assigned_of_union hm
    rw [eval_ok_of_assigned hf, eval_ok_of_assigned hg, h]
  · intro h σ
    obtain ⟨m, -, hvalues⟩ := extensions_exhaust Model.empty (f.vars ∪ g.vars).toList σ
    have hget : ∀ x ∈ f.vars ∪ g.vars, m.get? x = some (σ x) :=
      fun x hx => hvalues x (ExtTreeSet.mem_toList.mpr hx)
    have hassigned : ∀ x ∈ f.vars ∪ g.vars, (m.get? x).isSome := fun x hx => by simp [hget x hx]
    have hvaluation : ∀ x ∈ f.vars ∪ g.vars, σ x = m.valuation x :=
      fun x hx => by simp [Model.valuation, hget x hx]
    obtain ⟨hf, hg⟩ := assigned_of_union hassigned
    have heval := h m hassigned
    rw [eval_ok_of_assigned hf, eval_ok_of_assigned hg] at heval
    calc f.value σ
      _ = f.value m.valuation :=
        value_congr fun x hx => hvaluation x (ExtTreeSet.mem_union_of_left hx)
      _ = g.value m.valuation := Except.ok.inj heval
      _ = g.value σ :=
        (value_congr fun x hx => hvaluation x (ExtTreeSet.mem_union_of_right hx)).symm

theorem checkEquivalence_true_iff_equivalent {f g : Formula} :
    f.checkEquivalence g = .ok true ↔ (f.vars ∪ g.vars).size < 64 ∧ f.Equivalent g := by
  rw [checkEquivalence_eq_ok_true, equivalent_iff_eval]

theorem agreesIn_comm (f g : Formula) : f.agreesIn g = g.agreesIn f := by
  funext m
  unfold Formula.agreesIn
  cases f.eval m with
  | error e => cases g.eval m <;> rfl
  | ok x =>
    cases g.eval m with
    | error e => rfl
    | ok y => exact BEq.comm

theorem union_vars_comm (f g : Formula) : f.vars ∪ g.vars = g.vars ∪ f.vars := by
  apply ExtTreeSet.ext_mem
  intro x
  rw [ExtTreeSet.mem_union_iff, ExtTreeSet.mem_union_iff, or_comm]

theorem checkEquivalence_comm (f g : Formula) : f.checkEquivalence g = g.checkEquivalence f := by
  rw [Formula.checkEquivalence, Formula.checkEquivalence, union_vars_comm, agreesIn_comm]

/-- Where it is not refused, the test for equivalence is reflexive, symmetric and transitive, and formulas
that pass it may stand for each other at any place. -/
theorem equivalence_test_is_congruence (f g h : Formula) (C : Context) :
    (f.vars.size < 64 → f.checkEquivalence f = .ok true) ∧
    f.checkEquivalence g = g.checkEquivalence f ∧
    (f.checkEquivalence g = .ok true → g.checkEquivalence h = .ok true →
      (f.vars ∪ h.vars).size < 64 → f.checkEquivalence h = .ok true) ∧
    (g.checkEquivalence h = .ok true → ((C.fill g).vars ∪ (C.fill h).vars).size < 64 →
      (C.fill g).checkEquivalence (C.fill h) = .ok true) := by
  refine ⟨?_, checkEquivalence_comm f g, ?_, ?_⟩
  · intro hsize
    have hself : f.vars ∪ f.vars = f.vars := ExtTreeSet.ext_mem fun x => by simp
    exact checkEquivalence_true_iff_equivalent.mpr ⟨hself.symm ▸ hsize, equivalent_equivalence.refl f⟩
  · intro hfg hgh hsize
    obtain ⟨-, hfg⟩ := checkEquivalence_true_iff_equivalent.mp hfg
    obtain ⟨-, hgh⟩ := checkEquivalence_true_iff_equivalent.mp hgh
    exact checkEquivalence_true_iff_equivalent.mpr ⟨hsize, equivalent_equivalence.trans hfg hgh⟩
  · intro hgh hsize
    obtain ⟨-, hgh⟩ := checkEquivalence_true_iff_equivalent.mp hgh
    exact checkEquivalence_true_iff_equivalent.mpr ⟨hsize, equivalent_fill hgh C⟩

theorem equivalence_test_is_congruence_middle :
    let f := Formula.implies (.var "p") (.var "p")
    let g := Formula.nand (.var "q") (.and (.var "r") (.not (.var "q")))
    let h := Formula.verum
    let C := Context.left .xor (.not (.right .nor (.var "p") .hole)) (.var "s")
    f.vars.size < 64 ∧ f.checkEquivalence f = .ok true ∧
      f.checkEquivalence g = .ok true ∧ g.checkEquivalence h = .ok true ∧
      (f.vars ∪ h.vars).size < 64 ∧ f.checkEquivalence h = .ok true ∧
      ((C.fill g).vars ∪ (C.fill h).vars).size < 64 ∧
      (C.fill g).checkEquivalence (C.fill h) = .ok true := by
  intro f g h C
  have hf : f.vars.size < 64 := by decide +kernel
  have hfg : f.checkEquivalence g = .ok true := by
    refine checkEquivalence_true_iff_equivalent.mpr ⟨by decide +kernel, fun σ => ?_⟩
    simp only [f, g, Formula.value, Connective.apply]
    cases σ "p" <;> cases σ "q" <;> simp
  have hgh : g.checkEquivalence h = .ok true := by
    refine checkEquivalence_true_iff_equivalent.mpr ⟨by decide +kernel, fun σ => ?_⟩
    simp only [g, h, Formula.value, Connective.apply]
    cases σ "q" <;> simp
  have hfh : (f.vars ∪ h.vars).size < 64 := by decide +kernel
  have hC : ((C.fill g).vars ∪ (C.fill h).vars).size < 64 := by decide +kernel
  obtain ⟨hrefl, -, htrans, hfill⟩ := equivalence_test_is_congruence f g h C
  exact ⟨hf, hrefl hf, hfg, hgh, hfh, htrans hfg hgh hfh, hC, hfill hgh hC⟩

end ConnectiveBases
