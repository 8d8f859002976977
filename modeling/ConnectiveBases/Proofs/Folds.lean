import ConnectiveBases.Evaluation
import ConnectiveBases.Form
import ConnectiveBases.Node

namespace ConnectiveBases

open Std (ExtTreeSet)

namespace Node

theorem mapM_id_map {m : Type → Type} [Monad m] {α β : Type} (φ : α → m β) (l : Node α) :
    (l.map φ).mapM id = l.mapM φ := by
  cases l <;> rfl

def vars : Node (ExtTreeSet String) → ExtTreeSet String
  | var x => {x}
  | const _ => ∅
  | not a => a
  | binary _ a b => a ∪ b

def operators : Node (ExtTreeSet Operator) → ExtTreeSet Operator
  | var _ => ∅
  | const _ => ∅
  | not a => a.insert .not
  | binary c a b => (a ∪ b).insert (.binary c)

def constants : Node (ExtTreeSet Bool) → ExtTreeSet Bool
  | var _ => ∅
  | const v => {v}
  | not a => a
  | binary _ a b => a ∪ b

def size : Node Nat → Nat
  | var _ => 1
  | const _ => 1
  | not a => a + 1
  | binary _ a b => a + b + 1

def depth : Node Nat → Nat
  | var _ => 0
  | const _ => 0
  | not a => a + 1
  | binary _ a b => max a b + 1

/-- The left operand is the first to fail. -/
def eval (m : Model) : Node (Except Failure Bool) → Except Failure Bool
  | var x =>
    match m.get? x with
    | some v => .ok v
    | none => .error (.unassignedVariable x)
  | const v => .ok v
  | not a => return !(← a)
  | binary c a b => return c.apply (← a) (← b)

def notAndOrForm (padding : String) : Node Formula → Formula
  | var x => .var x
  | const v => constantFrom padding v
  | not a => .not a
  | binary c a b => c.expand a b

end Node

/-- A function is a fold as soon as its value at a formula comes from its values right below the root. -/
theorem eq_fold {α : Type} {φ : Formula → α} {collapse : Node α → α}
    (h : ∀ f, φ f = collapse (f.root.map φ)) (f : Formula) : φ f = f.fold collapse := by
  induction f with
  | var x => exact h _
  | const v => exact h _
  | not f ih => rw [h, Formula.fold_eq, Formula.root, Node.map, Node.map, ih]
  | binary c f g ihf ihg => rw [h, Formula.fold_eq, Formula.root, Node.map, Node.map, ihf, ihg]

/-- Effects are values like others. -/
theorem foldM_eq_fold {m : Type → Type} [Monad m] [LawfulMonad m] {α : Type} (collapse : Node α → m α)
    (f : Formula) : f.foldM collapse = f.fold fun l => l.mapM id >>= collapse := by
  refine eq_fold (fun g => ?_) f
  rw [Formula.foldM_eq, Node.mapM_id_map]

/-- All that is read off a formula node by node is a fold, its value and its form over `{~,&,|}` included. -/
theorem traversals_are_folds (f : Formula) (m : Model) (padding : String) :
    f.vars = f.fold Node.vars ∧ f.operators = f.fold Node.operators ∧
    f.constants = f.fold Node.constants ∧ f.size = f.fold Node.size ∧ f.depth = f.fold Node.depth ∧
    f.eval m = f.fold (Node.eval m) ∧ f.notAndOrForm padding = f.fold (Node.notAndOrForm padding) := by
  refine ⟨eq_fold ?_ f, eq_fold ?_ f, eq_fold ?_ f, eq_fold ?_ f, eq_fold ?_ f, eq_fold ?_ f,
    eq_fold ?_ f⟩
  all_goals
    intro g
    cases g <;> rfl

end ConnectiveBases
