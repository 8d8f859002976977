import ConnectiveBases.Proofs.BasisMembership
import ConnectiveBases.Proofs.PostorderRecord

namespace ConnectiveBases

open Formula (subformulas)

/-- What a basis says about a single node, whatever the operands are. -/
def Basis.Allows {α : Type} (B : Basis) : Node α → Prop
  | .var _ => True
  | .const v => v = false ∧ B = .impliesFalse
  | .not _ => Operator.not ∈ B.operators
  | .binary c _ _ => Operator.binary c ∈ B.operators

theorem covers_iff_root {B : Basis} {f : Formula} :
    B.covers f ↔ B.Allows f.root ∧ ∀ g ∈ f.root.operands, B.covers g := by
  cases f with
  | var x => simp [Basis.covers, Formula.root, Basis.Allows, Node.operands]
  | const v => simp [Basis.covers, Formula.root, Basis.Allows, Node.operands, Basis.hasFalsum]
  | not f => simp [Basis.covers, Formula.root, Basis.Allows, Node.operands]
  | binary c f g => simp [Basis.covers, Formula.root, Basis.Allows, Node.operands, and_assoc]

theorem mem_subformulas {f g : Formula} :
    g ∈ f.subformulas ↔ g = f ∨ ∃ h ∈ f.root.operands, g ∈ h.subformulas := by
  cases f <;> simp [subformulas, Formula.root, Node.operands]

theorem mem_subformulas_self (f : Formula) : f ∈ f.subformulas :=
  mem_subformulas.mpr (Or.inl rfl)

/-- Every formula comes from below its root, so a property that goes from the operands up to the formula
above them holds of all formulas. -/
theorem Formula.induction_by_root {P : Formula → Prop}
    (step : ∀ f : Formula, (∀ g ∈ f.root.operands, P g) → P f) (f : Formula) : P f := by
  induction f with
  | var x => exact step _ (by simp [root, Node.operands])
  | const v => exact step _ (by simp [root, Node.operands])
  | not f ih => exact step _ (by simpa [root, Node.operands] using ih)
  | binary c f g ihf ihg => exact step _ (by simpa [root, Node.operands] using ⟨ihf, ihg⟩)

theorem mem_subformulas_trans {f g h : Formula} (hgf : g ∈ f.subformulas) (hhg : h ∈ g.subformulas) :
    h ∈ f.subformulas := by
  induction f using Formula.induction_by_root with
  | step f ih =>
    rcases mem_subformulas.mp hgf with rfl | ⟨k, hk, hgk⟩
    · exact hhg
    · exact mem_subformulas.mpr (Or.inr ⟨k, hk, ih k hk hgk⟩)

theorem covers_iff_allows {B : Basis} {f : Formula} :
    B.covers f ↔ ∀ g ∈ f.subformulas, B.Allows g.root := by
  induction f using Formula.induction_by_root with
  | step f ih =>
    rw [covers_iff_root]
    constructor
    · rintro ⟨hroot, hoperands⟩ g hg
      rcases mem_subformulas.mp hg with rfl | ⟨k, hk, hgk⟩
      · exact hroot
      · exact (ih k hk).mp (hoperands k hk) g hgk
    · intro hall
      refine ⟨hall f (mem_subformulas_self f), ?_⟩
      intro k hk
      exact (ih k hk).mpr fun g hg => hall g (mem_subformulas.mpr (Or.inr ⟨k, hk, hg⟩))

theorem isOver_iff_allows {B : Basis} {f : Formula} :
    f.isOver B ↔ ∀ g ∈ f.subformulas, B.Allows g.root :=
  isOver_iff_covers.trans covers_iff_allows

/-- What a basis says about a node does not depend on how the operands are given. -/
theorem allows_noteAt {B : Basis} (k : Nat) (f : Formula) : B.Allows (f.noteAt k) ↔ B.Allows f.root := by
  cases f <;> rfl

theorem forall_postorder_allows_iff {B : Basis} {f : Formula} :
    (∀ l ∈ f.postorder, B.Allows l) ↔ ∀ g ∈ f.subformulas, B.Allows g.root := by
  constructor
  · intro h g hg
    obtain ⟨k, hk⟩ := List.mem_iff_getElem?.mp (f.collapseOrder_perm.mem_iff.mpr hg)
    have hnote := h (g.noteAt k) (Formula.mem_postorder.mpr ⟨k, g, hk, rfl⟩)
    exact (allows_noteAt k g).mp hnote
  · intro h l hl
    obtain ⟨k, g, hk, rfl⟩ := Formula.mem_postorder.mp hl
    have hmem := f.collapseOrder_perm.mem_iff.mp (List.mem_of_getElem? hk)
    exact (allows_noteAt k g).mpr (h g hmem)

theorem isOver_iff_root {B : Basis} {f : Formula} :
    f.isOver B ↔ B.Allows f.root ∧ ∀ g ∈ f.root.operands, g.isOver B := by
  simp only [isOver_iff_covers]
  exact covers_iff_root

/-- A formula is over a basis just when the basis allows each of its nodes. So its subformulas are over it
too, and the operators of the basis lead from such formulas to no others. -/
theorem basis_judges_each_node (B : Basis) (f : Formula) :
    (f.isOver B ↔ ∀ g ∈ f.subformulas, B.Allows g.root) ∧
    (f.isOver B ↔ ∀ l ∈ f.postorder, B.Allows l) ∧
    (f.isOver B → ∀ g ∈ f.subformulas, g.isOver B) ∧
    ((Formula.not f).isOver B ↔ Operator.not ∈ B.operators ∧ f.isOver B) ∧
    ∀ c g, (Formula.binary c f g).isOver B ↔
      Operator.binary c ∈ B.operators ∧ f.isOver B ∧ g.isOver B := by
  refine ⟨isOver_iff_allows, isOver_iff_allows.trans forall_postorder_allows_iff.symm, ?_, ?_, ?_⟩
  · intro h g hg
    exact isOver_iff_allows.mpr fun k hk => isOver_iff_allows.mp h k (mem_subformulas_trans hg hk)
  · rw [isOver_iff_root]
    simp [Formula.root, Node.operands, Basis.Allows]
  · intro c g
    rw [isOver_iff_root]
    simp [Formula.root, Node.operands, Basis.Allows]

theorem basis_judges_each_node_falsum :
    let f := Formula.implies (.implies (.var "p") .falsum) .falsum
    f.isOver .impliesFalse ∧ (Formula.implies (.var "p") .falsum).isOver .impliesFalse ∧
      Formula.falsum.isOver .impliesFalse ∧ (Formula.implies f f).isOver .impliesFalse ∧
      ¬ (Formula.not f).isOver .impliesFalse := by
  intro f
  have hf : f.isOver .impliesFalse := rfl
  obtain ⟨-, -, hsub, hnot, hbinary⟩ := basis_judges_each_node .impliesFalse f
  refine ⟨hf, hsub hf _ (by simp [f, subformulas]), hsub hf _ (by simp [f, subformulas]), ?_, ?_⟩
  · exact (hbinary .implies f).mpr ⟨by simp [Basis.operators], hf, hf⟩
  · intro h
    have hmem := (hnot.mp h).1
    simp [Basis.operators] at hmem

end ConnectiveBases
