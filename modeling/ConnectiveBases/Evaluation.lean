import ConnectiveBases.Formula
import ConnectiveBases.Model

namespace ConnectiveBases

/-- Both operands of a connective are evaluated, the left one first, even where one of them alone
would settle the value: so the leftmost variable without a value is the one that is reported. -/
def Formula.eval (m : Model) : Formula → Except Failure Bool
  | var x =>
    match m.get? x with
    | some v => .ok v
    | none => .error (.unassignedVariable x)
  | const v => .ok v
  | not f => do
    let x ← f.eval m
    return !x
  | binary c f g => do
    let x ← f.eval m
    let y ← g.eval m
    return c.apply x y

/-- One value for each model, unless some model leaves a variable without a value. -/
def Formula.valuesIn (f : Formula) (models : List Model) : Except Failure (List Bool) :=
  models.mapM fun m => f.eval m

/-- A model in which a variable has no value makes a formula neither true nor false. -/
def Formula.isTrueIn (f : Formula) (m : Model) : Bool :=
  match f.eval m with
  | .ok x => x
  | .error _ => false

def Formula.agreesIn (f g : Formula) (m : Model) : Bool :=
  match f.eval m, g.eval m with
  | .ok x, .ok y => x == y
  | _, _ => false

theorem Formula.isTrueIn_iff {f : Formula} {m : Model} : f.isTrueIn m ↔ f.eval m = .ok true := by
  unfold Formula.isTrueIn
  split
  next x h => simp [h]
  next e h => simp [h]

theorem Formula.agreesIn_iff {f g : Formula} {m : Model} :
    f.agreesIn g m ↔ ∃ x, f.eval m = .ok x ∧ g.eval m = .ok x := by
  unfold Formula.agreesIn
  split
  next x y hf hg =>
    rw [beq_iff_eq]
    exact ⟨fun h => ⟨y, h ▸ hf, hg⟩, fun ⟨z, hz, hw⟩ =>
      (Except.ok.inj (hf.symm.trans hz)).trans (Except.ok.inj (hg.symm.trans hw)).symm⟩
  next hn =>
    simp only [Bool.false_eq_true, false_iff, not_exists, not_and]
    exact fun x hf hg => hn x x hf hg

end ConnectiveBases
