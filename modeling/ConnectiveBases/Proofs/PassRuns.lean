import ConnectiveBases.Proofs.FormSize

namespace ConnectiveBases

namespace Pass

/-- Where a pass has nothing of its own for the root it calls itself with this formula, which is not
below the root. -/
def detour (P : Pass) (padding : String) : Formula → Option Formula
  | .var _ => none
  | .const v => if (P.constant padding v).isSome then none else some (constantFrom padding v)
  | .not _ => none
  | .binary c f g =>
    if (P.rule c).isSome then none else some ((Formula.binary c f g).form P.source padding)

/-- The calls that a pass makes from a formula on, and the formula it ends with. The number counts, on
the path of calls where they are most, those that meet a constant or make a detour. -/
inductive Run (P : Pass) (padding : String) : Formula → Formula → Nat → Prop
  | var (x : String) : Run P padding (.var x) (.var x) 0
  | const {v : Bool} {r : Formula} (hr : P.constant padding v = some r) : Run P padding (.const v) r 1
  | not {f r : Formula} {n : Nat} (call : Run P padding f r n) :
    Run P padding (.not f) (P.negate r) n
  | binary {c : Connective} {r : Formula → Formula → Formula} {f g s t : Formula} {n k : Nat}
    (hr : P.rule c = some r) (left : Run P padding f s n) (right : Run P padding g t k) :
    Run P padding (.binary c f g) (r s t) (max n k)
  | detour {f g r : Formula} {n : Nat} (hd : P.detour padding f = some g)
    (call : Run P padding g r n) : Run P padding f r (n + 1)

/-- One for a formula that is not over the source of the pass. -/
def detours (P : Pass) (f : Formula) : Nat := if P.source.covers f then 0 else 1

theorem detours_le_one (P : Pass) (f : Formula) : P.detours f ≤ 1 := by
  unfold detours
  split <;> omega

section

variable {P : Pass} {padding : String}

theorem detour_const {v : Bool} (hr : P.constant padding v = none) :
    P.detour padding (.const v) = some (constantFrom padding v) := by
  simp [detour, hr]

theorem detour_binary {c : Connective} (hr : P.rule c = none) (f g : Formula) :
    P.detour padding (.binary c f g) = some ((Formula.binary c f g).form P.source padding) := by
  simp [detour, hr]

theorem detour_cases {f g : Formula} (h : P.detour padding f = some g) :
    g = f.form P.source padding ∧
      ((∃ v, f = .const v ∧ P.constant padding v = none) ∨
        ∃ c a b, f = .binary c a b ∧ P.rule c = none) := by
  cases f with
  | var x => cases h
  | not f => cases h
  | const v =>
    cases hr : P.constant padding v with
    | some r => simp [detour, hr] at h
    | none =>
      have hg : g = constantFrom padding v := Option.some.inj (h.symm.trans (detour_const hr))
      have hP := eq_notAnd_of_constant hr
      subst P
      exact ⟨hg, Or.inl ⟨v, rfl, hr⟩⟩
  | binary c a b =>
    cases hr : P.rule c with
    | some r => simp [detour, hr] at h
    | none =>
      have hg := Option.some.inj (h.symm.trans (detour_binary hr a b))
      exact ⟨hg, Or.inr ⟨c, a, b, rfl, hr⟩⟩

theorem not_covers_of_detour {f g : Formula} (h : P.detour padding f = some g) :
    P.source.covers f = false := by
  obtain ⟨-, ⟨v, rfl, -⟩ | ⟨c, a, b, rfl, hr⟩⟩ := detour_cases h
  · exact P.covers_source_const v
  · simp [covers_source_binary, hr]

theorem covers_detour {f g : Formula} (h : P.detour padding f = some g) : P.source.covers g := by
  rw [(detour_cases h).1]
  exact covers_form P.source padding f

theorem over_detour {f g : Formula} (h : P.detour padding f = some g) :
    f.over P.target padding = g.over P.target padding := by
  obtain ⟨rfl, ⟨v, rfl, hr⟩ | ⟨c, a, b, rfl, hr⟩⟩ := detour_cases h
  · exact over_of_no_constant hr
  · exact over_of_no_rule hr a b

theorem size_lt_detour {f g : Formula} (h : P.detour padding f = some g) : f.size < g.size := by
  rw [(detour_cases h).1]
  exact size_lt_form_of_not_covers P.source (not_covers_of_detour h)

/-- Over the source every node has a rule, so the calls go down the formula and nowhere else. -/
theorem run_of_covers {f : Formula} (h : P.source.covers f) :
    P.Run padding f (f.over P.target padding) 0 := by
  induction f with
  | var x =>
    rw [over_var]
    exact .var x
  | const v => simp [covers_source_const] at h
  | not f ih =>
    rw [over_not]
    exact .not (ih (P.covers_source_not f ▸ h))
  | binary c f g ihf ihg =>
    simp only [covers_source_binary, Bool.and_eq_true] at h
    obtain ⟨⟨hc, hf⟩, hg⟩ := h
    obtain ⟨r, hr⟩ := Option.isSome_iff_exists.mp hc
    rw [over_of_rule hr]
    exact .binary hr (ihf hf) (ihg hg)

theorem detours_not (P : Pass) (f : Formula) : P.detours (.not f) = P.detours f := by
  rw [detours, covers_source_not, detours]

theorem detours_of_rule {c : Connective} {r : Formula → Formula → Formula} (hr : P.rule c = some r)
    (f g : Formula) : P.detours (.binary c f g) = max (P.detours f) (P.detours g) := by
  simp only [detours, covers_source_binary, hr, Option.isSome_some, Bool.true_and]
  cases P.source.covers f <;> cases P.source.covers g <;> rfl

theorem detours_of_covers {f : Formula} (h : P.source.covers f) : P.detours f = 0 := if_pos h

theorem detours_const (P : Pass) (v : Bool) : P.detours (.const v) = 1 := by
  simp [detours, covers_source_const]

theorem detours_of_detour {f g : Formula} (h : P.detour padding f = some g) : P.detours f = 1 := by
  simp [detours, not_covers_of_detour h]

theorem run_of_detour {f g : Formula} (h : P.detour padding f = some g) :
    P.Run padding f (f.over P.target padding) (P.detours f) := by
  rw [over_detour h, detours_of_detour h]
  exact .detour h (run_of_covers (covers_detour h))

theorem run_over (P : Pass) (padding : String) (f : Formula) :
    P.Run padding f (f.over P.target padding) (P.detours f) := by
  induction f with
  | var x =>
    rw [over_var]
    exact .var x
  | const v =>
    cases hr : P.constant padding v with
    | none => exact run_of_detour (detour_const hr)
    | some r =>
      rw [over_of_constant hr, detours_const]
      exact .const hr
  | not f ih =>
    rw [over_not, detours_not]
    exact .not ih
  | binary c f g ihf ihg =>
    cases hr : P.rule c with
    | none => exact run_of_detour (detour_binary hr f g)
    | some r =>
      rw [over_of_rule hr, detours_of_rule hr]
      exact .binary hr ihf ihg

theorem eq_of_run {f r : Formula} {n : Nat} (h : P.Run padding f r n) :
    r = f.over P.target padding ∧ n = P.detours f := by
  induction h with
  | var x => exact ⟨(over_var P x).symm, rfl⟩
  | const hr => exact ⟨(over_of_constant hr).symm, (P.detours_const _).symm⟩
  | not call ih =>
    obtain ⟨hr, hn⟩ := ih
    rw [over_not, detours_not]
    exact ⟨congrArg P.negate hr, hn⟩
  | binary hr left right ihl ihr =>
    obtain ⟨hs, hn⟩ := ihl
    obtain ⟨ht, hk⟩ := ihr
    rw [over_of_rule hr, detours_of_rule hr, hs, ht, hn, hk]
    exact ⟨rfl, rfl⟩
  | detour hd call ih =>
    obtain ⟨hr, hn⟩ := ih
    rw [over_detour hd, detours_of_detour hd, hn, detours_of_covers (covers_detour hd)]
    exact ⟨hr, rfl⟩

theorem eq_zero_of_run {f r : Formula} {n : Nat} (hf : P.source.covers f)
    (h : P.Run padding f r n) : n = 0 :=
  (eq_of_run h).2.trans (detours_of_covers hf)

end

end Pass

/-- Each pass ends and makes at most one detour on the way to a leaf, none over its source, though a detour
goes on with a larger formula that is no part of the one it is made from. -/
theorem runs_detour_at_most_once (P : Pass) (padding : String) (g : Formula) :
    (∃ r n, P.Run padding g r n) ∧
    (∀ r n, P.Run padding g r n → r = g.over P.target padding ∧ n ≤ 1) ∧
    (g.isOver P.source → ∀ r n, P.Run padding g r n → n = 0) ∧
    (∀ h, P.detour padding g = some h → g.size < h.size ∧ h ∉ g.subformulas ∧
      ∀ r n, P.Run padding h r n → n = 0) ∧
    (∀ r n, P.Run padding (g.form P.source padding) r n → r = g.form P.target padding ∧ n = 0) := by
  refine ⟨⟨_, _, P.run_over padding g⟩, ?_, ?_, ?_, ?_⟩
  · intro r n hrun
    obtain ⟨hr, hn⟩ := Pass.eq_of_run hrun
    exact ⟨hr, hn ▸ P.detours_le_one g⟩
  · intro hover r n hrun
    exact Pass.eq_zero_of_run (isOver_iff_covers.mp hover) hrun
  · intro h hd
    have hlt := Pass.size_lt_detour hd
    refine ⟨hlt, ?_, fun r n hrun => Pass.eq_zero_of_run (Pass.covers_detour hd) hrun⟩
    intro hmem
    have hle := Formula.size_le_of_mem_subformulas hmem
    omega
  · intro r n hrun
    rw [Pass.form_target]
    exact ⟨(Pass.eq_of_run hrun).1, Pass.eq_zero_of_run (covers_form P.source padding g) hrun⟩

theorem runs_detour_at_most_once_or :
    let g := Formula.or (.var "q") .verum
    let h := Formula.notAndForm "p" g
    Pass.nand.detour "p" g = some h ∧ h.isOver .notAnd ∧ g.size < h.size ∧
      Pass.nand.Run "p" h (h.overNand "p") 0 := by
  intro g h
  have hd : Pass.nand.detour "p" g = some h := rfl
  have hover : h.isOver .notAnd := isOver_iff_covers.mpr (covers_notAndForm "p" g)
  obtain ⟨-, -, -, hdetour, -⟩ := runs_detour_at_most_once .nand "p" g
  obtain ⟨⟨r, n, hrun⟩, hends, hfree, -⟩ := runs_detour_at_most_once .nand "p" h
  obtain ⟨hlt, -⟩ := hdetour h hd
  have hr : r = h.overNand "p" := (hends r n hrun).1
  have hn : n = 0 := hfree hover r n hrun
  exact ⟨hd, hover, hlt, hr ▸ hn ▸ hrun⟩

end ConnectiveBases
