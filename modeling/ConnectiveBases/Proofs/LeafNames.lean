import ConnectiveBases.Evaluation

namespace ConnectiveBases

/-- The names at the leaves from left to right, where every constant counts as the given names. -/
@[simp] def Formula.leafNames (atConstant : List String) : Formula → List String
  | var x => [x]
  | const _ => atConstant
  | not f => f.leafNames atConstant
  | binary _ f g => f.leafNames atConstant ++ g.leafNames atConstant

@[simp] def Formula.value (σ : String → Bool) : Formula → Bool
  | var x => σ x
  | const v => v
  | not f => !f.value σ
  | binary c f g => c.apply (f.value σ) (g.value σ)

def Model.firstUnassigned (m : Model) (names : List String) : Option String :=
  names.find? fun x => (m.get? x).isNone

/-- The name is without a value, and each name before it has one. -/
def Model.IsFirstUnassigned (m : Model) (names : List String) (x : String) : Prop :=
  ∃ before after, names = before ++ x :: after ∧ (∀ y ∈ before, (m.get? y).isSome) ∧ m.get? x = none

/-- The values in the model, and `false` for a name without one. -/
def Model.valuation (m : Model) (name : String) : Bool := (m.get? name).getD false

/-- What is answered when the names are looked up in their order before the value is given. -/
def Model.answer (m : Model) (names : List String) (value : Bool) : Except Failure Bool :=
  match m.firstUnassigned names with
  | some x => .error (.unassignedVariable x)
  | none => .ok value

@[simp] theorem firstUnassigned_nil (m : Model) : m.firstUnassigned [] = none := rfl

@[simp] theorem firstUnassigned_append (m : Model) (xs ys : List String) :
    m.firstUnassigned (xs ++ ys) = (m.firstUnassigned xs).or (m.firstUnassigned ys) :=
  List.find?_append

theorem firstUnassigned_singleton (m : Model) (x : String) :
    m.firstUnassigned [x] = if (m.get? x).isSome then none else some x := by
  cases h : m.get? x <;> simp [Model.firstUnassigned, h]

theorem firstUnassigned_eq_none {m : Model} {names : List String} :
    m.firstUnassigned names = none ↔ ∀ x ∈ names, (m.get? x).isSome := by
  simp [Model.firstUnassigned, Option.isSome_iff_ne_none]

theorem firstUnassigned_eq_some {m : Model} {names : List String} {x : String} :
    m.firstUnassigned names = some x ↔ m.IsFirstUnassigned names x := by
  rw [Model.firstUnassigned, List.find?_eq_some_iff_append, Model.IsFirstUnassigned]
  simp only [Bool.not_eq_true', Option.isNone_iff_eq_none, Option.isNone_eq_false_iff]
  constructor
  · rintro ⟨hnone, before, after, heq, hbefore⟩
    exact ⟨before, after, heq, hbefore, hnone⟩
  · rintro ⟨before, after, heq, hbefore, hnone⟩
    exact ⟨hnone, before, after, heq, hbefore⟩

/-- Which name is missing hangs on what names have values, not on the values. -/
theorem firstUnassigned_congr {m n : Model} {names : List String}
    (h : ∀ x ∈ names, (m.get? x).isSome = (n.get? x).isSome) :
    m.firstUnassigned names = n.firstUnassigned names := by
  induction names with
  | nil => rfl
  | cons y names ih =>
    have hy := h y (by simp)
    have hrest := ih fun x hx => h x (List.mem_cons_of_mem y hx)
    have hsplit : y :: names = [y] ++ names := rfl
    rw [hsplit, firstUnassigned_append, firstUnassigned_append, firstUnassigned_singleton,
      firstUnassigned_singleton, hy, hrest]

theorem answer_of_assigned {m : Model} {names : List String} (h : ∀ x ∈ names, (m.get? x).isSome)
    (v : Bool) : m.answer names v = .ok v := by
  simp only [Model.answer, firstUnassigned_eq_none.mpr h]

theorem assigned_of_answer {m : Model} {names : List String} {v w : Bool}
    (h : m.answer names v = .ok w) : (∀ x ∈ names, (m.get? x).isSome) ∧ v = w := by
  unfold Model.answer at h
  split at h
  next => cases h
  next hnone => exact ⟨firstUnassigned_eq_none.mp hnone, Except.ok.inj h⟩

theorem answer_of_unassigned {m : Model} {names : List String} {x : String}
    (h : m.firstUnassigned names = some x) (v : Bool) :
    m.answer names v = .error (.unassignedVariable x) := by
  simp only [Model.answer, h]

theorem answer_eq_error {m : Model} {names : List String} {v : Bool} {e : Failure} :
    m.answer names v = .error e ↔
      ∃ x, m.firstUnassigned names = some x ∧ e = .unassignedVariable x := by
  cases h : m.firstUnassigned names with
  | none => simp [Model.answer, h]
  | some x => simp [Model.answer, h, eq_comm]

/-- All operands are looked at before a value is made, so evaluating is the search for a name without
a value and then a total evaluation. -/
theorem eval_eq_answer (f : Formula) (m : Model) :
    f.eval m = m.answer (f.leafNames []) (f.value m.valuation) := by
  induction f with
  | var x =>
    cases h : m.get? x with
    | none => simp [Formula.eval, Model.answer, firstUnassigned_singleton, h]
    | some v => simp [Formula.eval, Model.answer, firstUnassigned_singleton, Model.valuation, h]
  | const v => rfl
  | not f ih =>
    simp only [Formula.eval, ih, Formula.leafNames, Formula.value, Model.answer]
    cases m.firstUnassigned (f.leafNames []) <;> rfl
  | binary c f g ihf ihg =>
    simp only [Formula.eval, ihf, ihg, Formula.leafNames, Formula.value, Model.answer,
      firstUnassigned_append]
    cases m.firstUnassigned (f.leafNames []) with
    | some x => rfl
    | none => cases m.firstUnassigned (g.leafNames []) <;> rfl

theorem eval_eq_of_leafNames {f g : Formula} {m : Model}
    (hnames : m.firstUnassigned (f.leafNames []) = m.firstUnassigned (g.leafNames []))
    (hvalue : f.value m.valuation = g.value m.valuation) : f.eval m = g.eval m := by
  rw [eval_eq_answer, eval_eq_answer, Model.answer, Model.answer, hnames, hvalue]

theorem mem_leafNames_nil {f : Formula} {x : String} : x ∈ f.leafNames [] ↔ x ∈ f.vars := by
  induction f with
  | var y => simp
  | const v => simp
  | not f ih => simpa using ih
  | binary c f g ihf ihg => simp [ihf, ihg]

theorem eval_ok_of_assigned {f : Formula} {m : Model} (h : ∀ x ∈ f.vars, (m.get? x).isSome) :
    f.eval m = .ok (f.value m.valuation) := by
  rw [eval_eq_answer]
  exact answer_of_assigned (fun x hx => h x (mem_leafNames_nil.mp hx)) _

theorem assigned_of_eval_ok {f : Formula} {m : Model} {v : Bool} (h : f.eval m = .ok v) :
    ∀ x ∈ f.vars, (m.get? x).isSome := by
  rw [eval_eq_answer] at h
  obtain ⟨hassigned, -⟩ := assigned_of_answer h
  exact fun x hx => hassigned x (mem_leafNames_nil.mpr hx)

theorem eval_eq_error {f : Formula} {m : Model} {e : Failure} :
    f.eval m = .error e ↔
      ∃ x, m.firstUnassigned (f.leafNames []) = some x ∧ e = .unassignedVariable x := by
  rw [eval_eq_answer, answer_eq_error]

theorem leafNames_nil_subset {f : Formula} {names : List String} {x : String}
    (h : x ∈ f.leafNames []) : x ∈ f.leafNames names := by
  induction f with
  | var y => exact h
  | const v => simp at h
  | not f ih => exact ih h
  | binary c f g ihf ihg =>
    rcases List.mem_append.mp h with hf | hg
    · exact List.mem_append_left _ (ihf hf)
    · exact List.mem_append_right _ (ihg hg)

theorem constants_eq_empty_binary {c : Connective} {f g : Formula} :
    (Formula.binary c f g).constants = ∅ ↔ f.constants = ∅ ∧ g.constants = ∅ := by
  simp only [Std.ExtTreeSet.eq_empty_iff_forall_not_mem, Formula.mem_constants_binary, not_or,
    forall_and]

theorem or_no_constant_of_binary {P : Prop} {c : Connective} {f g : Formula}
    (h : P ∨ (Formula.binary c f g).constants = ∅) :
    (P ∨ f.constants = ∅) ∧ (P ∨ g.constants = ∅) := by
  rcases h with h | h
  · exact ⟨Or.inl h, Or.inl h⟩
  · obtain ⟨hf, hg⟩ := constants_eq_empty_binary.mp h
    exact ⟨Or.inr hf, Or.inr hg⟩

theorem leafNames_of_no_constant {f : Formula} (h : f.constants = ∅) (names : List String) :
    f.leafNames names = f.leafNames [] := by
  induction f with
  | var x => rfl
  | const v =>
    have hv := Std.ExtTreeSet.eq_empty_iff_forall_not_mem.mp h v
    simp at hv
  | not f ih => exact ih h
  | binary c f g ihf ihg =>
    obtain ⟨hf, hg⟩ := constants_eq_empty_binary.mp h
    simp only [Formula.leafNames, ihf hf, ihg hg]

theorem firstUnassigned_leafNames_of_some {m : Model} {padding : String}
    (h : (m.get? padding).isSome) (f : Formula) :
    m.firstUnassigned (f.leafNames [padding]) = m.firstUnassigned (f.leafNames []) := by
  induction f with
  | var x => rfl
  | const v => simp [firstUnassigned_singleton, h]
  | not f ih => exact ih
  | binary c f g ihf ihg => simp only [Formula.leafNames, firstUnassigned_append, ihf, ihg]

/-- A padding that has a value, or that no constant asks for, is never the name that is missing. -/
theorem firstUnassigned_leafNames {m : Model} {padding : String} {f : Formula}
    (h : (m.get? padding).isSome ∨ f.constants = ∅) :
    m.firstUnassigned (f.leafNames [padding]) = m.firstUnassigned (f.leafNames []) := by
  rcases h with h | h
  · exact firstUnassigned_leafNames_of_some h f
  · rw [leafNames_of_no_constant h]

theorem value_congr {f : Formula} {σ τ : String → Bool} (h : ∀ x ∈ f.vars, σ x = τ x) :
    f.value σ = f.value τ := by
  induction f with
  | var x => exact h x (by simp)
  | const v => rfl
  | not f ih => rw [Formula.value, Formula.value, ih h]
  | binary c f g ihf ihg =>
    have hf := ihf fun x hx => h x (by simp [hx])
    have hg := ihg fun x hx => h x (by simp [hx])
    rw [Formula.value, Formula.value, hf, hg]

/-- The answer of an evaluation, a failure included, rests on the names in the formula alone. -/
theorem eval_congr {f : Formula} {m n : Model} (h : ∀ x ∈ f.vars, m.get? x = n.get? x) :
    f.eval m = f.eval n := by
  induction f with
  | var x => simp only [Formula.eval, h x (by simp)]
  | const v => rfl
  | not f ih => simp only [Formula.eval, ih h]
  | binary c f g ihf ihg =>
    have hf := ihf fun x hx => h x (by simp [hx])
    have hg := ihg fun x hx => h x (by simp [hx])
    simp only [Formula.eval, hf, hg]

/-- Evaluation gives a value as soon as all variables have one, and otherwise blames the leftmost leaf without
one, whatever operators join the leaves and whatever values the others have. -/
theorem eval_blames_first_unassigned (f : Formula) (m : Model) :
    ((∃ v, f.eval m = .ok v) ↔ ∀ x ∈ f.vars, (m.get? x).isSome) ∧
    (∀ e, f.eval m = .error e ↔
      ∃ x, m.IsFirstUnassigned (f.leafNames []) x ∧ e = .unassignedVariable x) ∧
    (∀ (g : Formula) (n : Model), g.leafNames [] = f.leafNames [] →
      (∀ x ∈ f.vars, (n.get? x).isSome = (m.get? x).isSome) →
        ∀ e, g.eval n = .error e ↔ f.eval m = .error e) ∧
    ∀ n : Model, (∀ x ∈ f.vars, m.get? x = n.get? x) → f.eval m = f.eval n := by
  refine ⟨⟨?_, ?_⟩, ?_, ?_, ?_⟩
  · rintro ⟨v, hv⟩
    exact assigned_of_eval_ok hv
  · intro h
    exact ⟨_, eval_ok_of_assigned h⟩
  · intro e
    rw [eval_eq_error]
    simp only [firstUnassigned_eq_some]
  · intro g n hleaves hassigned e
    have hsame : n.firstUnassigned (f.leafNames []) = m.firstUnassigned (f.leafNames []) :=
      firstUnassigned_congr fun x hx => hassigned x (mem_leafNames_nil.mp hx)
    rw [eval_eq_error, eval_eq_error, hleaves, hsame]
  · intro n h
    exact eval_congr h

theorem eval_blames_first_unassigned_settled :
    let f := Formula.and .falsum (.implies (.var "r") (.or (.var "q") (.var "s")))
    let g := Formula.nor (.iff (.var "r") .verum) (.and (.var "q") (.not (.var "s")))
    let m := Model.empty.insert "r" false
    f.eval m = .error (.unassignedVariable "q") ∧ g.leafNames [] = f.leafNames [] ∧
      (∀ x ∈ f.vars, ((m.insert "r" true).get? x).isSome = (m.get? x).isSome) ∧
      g.eval (m.insert "r" true) = .error (.unassignedVariable "q") ∧
      (∀ x ∈ f.vars, m.get? x = (m.insert "p" true).get? x) ∧ f.eval m = f.eval (m.insert "p" true) := by
  intro f g m
  obtain ⟨-, hblame, hany, hlocal⟩ := eval_blames_first_unassigned f m
  have hr : m.get? "r" = some false := by simp [m]
  have hq : m.get? "q" = none := by simp [m, Model.get?_insert]
  have herror : f.eval m = .error (.unassignedVariable "q") :=
    (hblame _).mpr ⟨"q", ⟨["r"], ["s"], rfl, by simp [hr], hq⟩, rfl⟩
  have hassigned : ∀ x ∈ f.vars, ((m.insert "r" true).get? x).isSome = (m.get? x).isSome := by
    intro x hx
    rw [Model.get?_insert]
    split
    next heq => simp [← heq, hr]
    next => rfl
  have hunused : ∀ x ∈ f.vars, m.get? x = (m.insert "p" true).get? x := by
    intro x hx
    have hne : "p" ≠ x := by
      rintro rfl
      simp [f] at hx
    exact (Model.get?_insert_of_ne hne m true).symm
  exact ⟨herror, rfl, hassigned, (hany g _ rfl hassigned _).mpr herror, hunused, hlocal _ hunused⟩

end ConnectiveBases
