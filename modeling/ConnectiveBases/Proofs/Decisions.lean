import ConnectiveBases.Proofs.LeafNames
import ConnectiveBases.Proofs.BitCounting

namespace ConnectiveBases

theorem checkTautology_of_lt {f : Formula} (h : f.vars.size < 64) :
    f.checkTautology = .ok ((Model.empty.extensions f.vars.toList).all f.isTrueIn) := by
  have hlength : f.vars.toList.length < 64 := by rwa [Std.ExtTreeSet.length_toList]
  simp only [Formula.checkTautology, checkEnumerable_of_lt hlength, ← Std.Iter.all_toList,
    toList_allModels hlength]
  rfl

theorem checkTautology_of_le {f : Formula} (h : 64 ≤ f.vars.size) :
    f.checkTautology = .error (.tooManyVariables f.vars.size) := by
  have hlength : 64 ≤ f.vars.toList.length := by rwa [Std.ExtTreeSet.length_toList]
  simp only [Formula.checkTautology, checkEnumerable_of_le hlength, Std.ExtTreeSet.length_toList]
  rfl

theorem isTrueIn_iff_agreesIn (f g : Formula) (m : Model) :
    (Formula.iff f g).isTrueIn m = f.agreesIn g m := by
  unfold Formula.isTrueIn Formula.agreesIn
  simp only [Formula.eval]
  cases f.eval m with
  | error e => rfl
  | ok x => cases g.eval m <;> rfl

/-- Two formulas are compared as the formula that joins them by `<->` is tested, the refusal of too
many variables included. -/
theorem checkEquivalence_eq_iff (f g : Formula) :
    f.checkEquivalence g = (Formula.iff f g).checkTautology := by
  have htest : f.agreesIn g = (Formula.iff f g).isTrueIn :=
    funext fun m => (isTrueIn_iff_agreesIn f g m).symm
  simp only [Formula.checkEquivalence, Formula.checkTautology, htest]
  rfl

theorem all_extensions_isTrueIn_iff (f : Formula) :
    (Model.empty.extensions f.vars.toList).all f.isTrueIn ↔
      ∀ m : Model, (∀ x ∈ f.vars, (m.get? x).isSome) → f.eval m = .ok true := by
  rw [all_extensions_iff]
  · simp only [Std.ExtTreeSet.mem_toList, Formula.isTrueIn_iff]
  · intro m n hsame
    have heval : f.eval m = f.eval n :=
      eval_congr fun x hx => hsame x (Std.ExtTreeSet.mem_toList.mpr hx)
    simp only [Formula.isTrueIn, heval]

theorem checkTautology_answer (f : Formula) :
    (f.checkTautology = .error (.tooManyVariables f.vars.size) ↔ 64 ≤ f.vars.size) ∧
      (f.vars.size < 64 → ∃ b, f.checkTautology = .ok b ∧ (b = true ↔
        ∀ m : Model, (∀ x ∈ f.vars, (m.get? x).isSome) → f.eval m = .ok true)) := by
  refine ⟨⟨?_, checkTautology_of_le⟩, ?_⟩
  · intro herror
    by_cases h : f.vars.size < 64
    · rw [checkTautology_of_lt h] at herror
      cases herror
    · omega
  · intro h
    exact ⟨_, checkTautology_of_lt h, all_extensions_isTrueIn_iff f⟩

theorem assigned_of_union {f g : Formula} {m : Model}
    (h : ∀ x ∈ f.vars ∪ g.vars, (m.get? x).isSome) :
    (∀ x ∈ f.vars, (m.get? x).isSome) ∧ ∀ x ∈ g.vars, (m.get? x).isSome := by
  constructor
  · intro x hx
    exact h x (Std.ExtTreeSet.mem_union_of_left hx)
  · intro x hx
    exact h x (Std.ExtTreeSet.mem_union_of_right hx)

theorem eval_iff_eq_ok_true {f g : Formula} {m : Model}
    (h : ∀ x ∈ f.vars ∪ g.vars, (m.get? x).isSome) :
    (Formula.iff f g).eval m = .ok true ↔ f.eval m = g.eval m := by
  obtain ⟨hf, hg⟩ := assigned_of_union h
  rw [← Formula.isTrueIn_iff, isTrueIn_iff_agreesIn, Formula.agreesIn_iff, eval_ok_of_assigned hf,
    eval_ok_of_assigned hg]
  simp [eq_comm]

theorem checkEquivalence_of_le {f g : Formula} (h : 64 ≤ (f.vars ∪ g.vars).size) :
    f.checkEquivalence g = .error (.tooManyVariables (f.vars ∪ g.vars).size) := by
  rw [checkEquivalence_eq_iff]
  exact checkTautology_of_le (f := .iff f g) h

theorem checkEquivalence_eq_ok_true {f g : Formula} :
    f.checkEquivalence g = .ok true ↔ (f.vars ∪ g.vars).size < 64 ∧
      ∀ m : Model, (∀ x ∈ f.vars ∪ g.vars, (m.get? x).isSome) → f.eval m = g.eval m := by
  by_cases hsize : (f.vars ∪ g.vars).size < 64
  · rw [checkEquivalence_eq_iff, checkTautology_of_lt (f := .iff f g) hsize, Except.ok.injEq,
      all_extensions_isTrueIn_iff, and_iff_right hsize]
    exact forall_congr' fun m => forall_congr' fun hm => eval_iff_eq_ok_true hm
  · rw [checkEquivalence_of_le (Nat.le_of_not_lt hsize)]
    simp [hsize]

/-- The two decisions are about all models that give values to the variables, though only finitely many are
looked at, and they are refused from 64 variables on. -/
theorem decisions_hold_in_all_models (f g : Formula) :
    (f.checkTautology = .error (.tooManyVariables f.vars.size) ↔ 64 ≤ f.vars.size) ∧
    (f.vars.size < 64 → ∃ b, f.checkTautology = .ok b ∧ (b = true ↔
      ∀ m : Model, (∀ x ∈ f.vars, (m.get? x).isSome) → f.eval m = .ok true)) ∧
    (f.checkEquivalence g = .error (.tooManyVariables (f.vars ∪ g.vars).size) ↔
      64 ≤ (f.vars ∪ g.vars).size) ∧
    ((f.vars ∪ g.vars).size < 64 → ∃ b, f.checkEquivalence g = .ok b ∧ (b = true ↔
      ∀ m : Model, (∀ x ∈ f.vars ∪ g.vars, (m.get? x).isSome) → f.eval m = g.eval m)) ∧
    (∀ m ∈ (allModels (f.vars ∪ g.vars).toList).toList,
      ∃ x y, f.eval m = .ok x ∧ g.eval m = .ok y) ∧
    f.checkEquivalence g = (Formula.iff f g).checkTautology := by
  obtain ⟨hrefused, hdecided⟩ := checkTautology_answer f
  obtain ⟨hrefused', hdecided'⟩ := checkTautology_answer (Formula.iff f g)
  rw [checkEquivalence_eq_iff]
  refine ⟨hrefused, hdecided, hrefused', ?_, ?_, rfl⟩
  · intro h
    obtain ⟨b, hb, hmodels⟩ := hdecided' h
    refine ⟨b, hb, hmodels.trans ?_⟩
    constructor
    · intro hall m hm
      exact (eval_iff_eq_ok_true hm).mp (hall m hm)
    · intro hall m hm
      exact (eval_iff_eq_ok_true hm).mpr (hall m hm)
  · intro m hm
    have hassigned : ∀ x ∈ f.vars ∪ g.vars, (m.get? x).isSome :=
      fun x hx => assigned_of_mem_allModels hm (Std.ExtTreeSet.mem_toList.mpr hx)
    obtain ⟨hf, hg⟩ := assigned_of_union hassigned
    exact ⟨_, _, eval_ok_of_assigned hf, eval_ok_of_assigned hg⟩

theorem decisions_implies_or :
    let f := Formula.implies (.var "p") (.var "q")
    let g := Formula.or (.not (.var "p")) (.var "q")
    (f.vars ∪ g.vars).size < 64 ∧ f.checkEquivalence g = .ok true := by
  intro f g
  have hsize : (f.vars ∪ g.vars).size < 64 := by decide +kernel
  obtain ⟨-, -, -, hdecided, -⟩ := decisions_hold_in_all_models f g
  obtain ⟨b, hb, hmodels⟩ := hdecided hsize
  have htrue : b = true := hmodels.mpr fun m _ => by
    simp only [f, g, Formula.eval]
    cases m.get? "p" with
    | none => rfl
    | some x => rfl
  exact ⟨hsize, htrue ▸ hb⟩

end ConnectiveBases
