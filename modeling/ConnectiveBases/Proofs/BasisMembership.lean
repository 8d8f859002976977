import ConnectiveBases.Form

namespace ConnectiveBases

open Std (ExtTreeSet ExtDTreeMap DTreeMap)

/-- One step of a walk that ends at the first element that fails the test. -/
def walkStep {α : Type} (p : α → Bool) (a : α) (_ : Option Bool × Unit) :
    Id (ForInStep (Option Bool × Unit)) :=
  if p a = false then pure (.done (some false, ())) else pure (.yield (none, ()))

theorem forIn_walkStep {α : Type} (p : α → Bool) (xs : List α) :
    (forIn (m := Id) xs (none, ()) (walkStep p)).run =
      (if xs.all p then none else some false, ()) := by
  induction xs with
  | nil => rfl
  | cons x xs ih =>
    rw [List.forIn_cons]
    cases hx : p x with
    | false => simp [walkStep, hx]
    | true => simpa [walkStep, hx] using ih

theorem treeSet_all_iff {α : Type} [Ord α] [Std.TransOrd α] [Std.LawfulEqOrd α]
    (t : ExtTreeSet α) (p : α → Bool) : t.all p ↔ ∀ a ∈ t, p a := by
  have hlist : t.all p = t.toList.all p := by
    obtain ⟨⟨d⟩⟩ := t
    induction d using ExtDTreeMap.inductionOn with
    | mk d =>
      have hwalk := forIn_walkStep p d.keys
      rw [← DTreeMap.forIn_eq_forIn_keys] at hwalk
      change (forIn (m := Id) d.inner (none, ()) (fun x _ =>
        if p x.1 = false then pure (.done (some false, ())) else pure (.yield (none, ())))).run = _
        at hwalk
      change d.all (fun a _ => p a) = d.keys.all p
      unfold DTreeMap.all DTreeMap.Internal.Impl.all
      simp only [Id.run_bind, hwalk]
      cases d.keys.all p <;> rfl
  rw [hlist, List.all_eq_true]
  simp only [ExtTreeSet.mem_toList]

theorem isOver_iff_subset {B : Basis} {f : Formula} :
    f.isOver B ↔ (∀ o ∈ f.operators, o ∈ B.operators) ∧
      ∀ v ∈ f.constants, v = false ∧ B.hasFalsum := by
  simp [Formula.isOver, treeSet_all_iff]

theorem covers_iff_subset {B : Basis} {f : Formula} :
    B.covers f ↔ (∀ o ∈ f.operators, o ∈ B.operators) ∧
      ∀ v ∈ f.constants, v = false ∧ B.hasFalsum := by
  induction f with
  | var x => simp [Basis.covers]
  | const v => simp [Basis.covers]
  | not f ih =>
    simp only [Basis.covers, Bool.and_eq_true, ih, Formula.mem_operators_not,
      Formula.mem_constants_not, ExtTreeSet.contains_iff_mem]
    constructor
    · rintro ⟨hnot, hops, hconst⟩
      refine ⟨?_, hconst⟩
      rintro o (rfl | ho)
      · exact hnot
      · exact hops o ho
    · rintro ⟨hops, hconst⟩
      exact ⟨hops _ (Or.inl rfl), fun o ho => hops o (Or.inr ho), hconst⟩
  | binary c f g ihf ihg =>
    simp only [Basis.covers, Bool.and_eq_true, ihf, ihg, Formula.mem_operators_binary,
      Formula.mem_constants_binary, ExtTreeSet.contains_iff_mem]
    constructor
    · rintro ⟨⟨hc, hf, hfc⟩, hg, hgc⟩
      refine ⟨?_, ?_⟩
      · rintro o (rfl | ho | ho)
        · exact hc
        · exact hf o ho
        · exact hg o ho
      · rintro v (hv | hv)
        · exact hfc v hv
        · exact hgc v hv
    · rintro ⟨hops, hconst⟩
      exact ⟨⟨hops _ (Or.inl rfl), fun o ho => hops o (Or.inr (Or.inl ho)),
        fun v hv => hconst v (Or.inl hv)⟩, fun o ho => hops o (Or.inr (Or.inr ho)),
        fun v hv => hconst v (Or.inr hv)⟩

/-- The collected sets judge a formula as its nodes do. -/
theorem isOver_iff_covers {B : Basis} {f : Formula} : f.isOver B ↔ B.covers f :=
  isOver_iff_subset.trans covers_iff_subset.symm

theorem constants_of_covers {B : Basis} {f : Formula} (hB : B.hasFalsum = false)
    (h : B.covers f) : f.constants = ∅ := by
  rw [ExtTreeSet.eq_empty_iff_forall_not_mem]
  intro v hv
  have hfalsum := ((covers_iff_subset.mp h).2 v hv).2
  simp [hB] at hfalsum

theorem constants_notAndOrForm (padding : String) (f : Formula) :
    (f.notAndOrForm padding).constants = ∅ :=
  constants_of_covers rfl (covers_notAndOrForm padding f)

/-- A form is over its basis by the collected sets as well, so the check of each of the five forms
against its own basis cannot fail. -/
theorem form_within_basis (B : Basis) (padding : String) (f : Formula) :
    (f.form B padding).isOver B ∧
      (∀ o ∈ (f.form B padding).operators, o ∈ B.operators) ∧
      true ∉ (f.form B padding).constants ∧
      (false ∈ (f.form B padding).constants → B = .impliesFalse) ∧
      (f.notAndOrForm padding).isOver .notAndOr ∧ (f.notAndForm padding).isOver .notAnd ∧
      (f.nandForm padding).isOver .nand ∧ (f.impliesNotForm padding).isOver .impliesNot ∧
      (f.impliesFalseForm padding).isOver .impliesFalse := by
  have hover : ∀ C : Basis, (f.form C padding).isOver C :=
    fun C => isOver_iff_covers.mpr (covers_form C padding f)
  obtain ⟨hops, hconst⟩ := isOver_iff_subset.mp (hover B)
  refine ⟨hover B, hops, ?_, ?_, hover .notAndOr, hover .notAnd, hover .nand, hover .impliesNot,
    hover .impliesFalse⟩
  · intro htrue
    have heq := (hconst true htrue).1
    cases heq
  · intro hfalse
    have hB := (hconst false hfalse).2
    simpa [Basis.hasFalsum] using hB

end ConnectiveBases
