import ConnectiveBases.Formula

namespace ConnectiveBases

/-- One node of a formula with a value of any kind in the place of each operand. -/
inductive Node (α : Type) where
  | var (name : String)
  | const (value : Bool)
  | not (operand : α)
  | binary (connective : Connective) (left right : α)
  deriving DecidableEq

def Node.map {α β : Type} (φ : α → β) : Node α → Node β
  | var x => .var x
  | const v => .const v
  | not a => .not (φ a)
  | binary c a b => .binary c (φ a) (φ b)

/-- The same where `φ` has effects: those on the left operand come before those on the right one. -/
def Node.mapM {m : Type → Type} [Monad m] {α β : Type} (φ : α → m β) : Node α → m (Node β)
  | var x => pure (.var x)
  | const v => pure (.const v)
  | not a => do return .not (← φ a)
  | binary c a b => do return .binary c (← φ a) (← φ b)

/-- The operands from left to right. -/
def Node.operands {α : Type} : Node α → List α
  | var _ => []
  | const _ => []
  | not a => [a]
  | binary _ a b => [a, b]

/-- Notes a node down and answers its position in the notes. -/
def Node.note (l : Node Nat) : StateM (Array (Node Nat)) Nat :=
  modifyGet fun notes => (notes.size, notes.push l)

namespace Formula

/-- The root with the formulas right below it. -/
def root : Formula → Node Formula
  | var x => .var x
  | const v => .const v
  | not f => .not f
  | binary c f g => .binary c f g

/-- Collapses every node once, each after its operands and the left operand before the right. -/
def foldM {m : Type → Type} [Monad m] {α : Type} (collapse : Node α → m α) : Formula → m α
  | var x => collapse (.var x)
  | const v => collapse (.const v)
  | not f => do
    let a ← f.foldM collapse
    collapse (.not a)
  | binary c f g => do
    let a ← f.foldM collapse
    let b ← g.foldM collapse
    collapse (.binary c a b)

/-- The same where collapsing has no effect but its value. -/
def fold {α : Type} (collapse : Node α → α) (f : Formula) : α :=
  Id.run (f.foldM fun l => pure (collapse l))

theorem fold_eq {α : Type} (collapse : Node α → α) (f : Formula) :
    f.fold collapse = collapse (f.root.map (fold collapse)) := by
  cases f <;> rfl

theorem foldM_eq {m : Type → Type} [Monad m] [LawfulMonad m] {α : Type} (collapse : Node α → m α)
    (f : Formula) : f.foldM collapse = f.root.mapM (foldM collapse) >>= collapse := by
  cases f with
  | var x => simp [foldM, root, Node.mapM]
  | const v => simp [foldM, root, Node.mapM]
  | not f => simp [foldM, root, Node.mapM]
  | binary c f g => simp [foldM, root, Node.mapM]

/-- The nodes in the order of `foldM`, with the positions of operands in the place of operands. -/
def postorder (f : Formula) : List (Node Nat) :=
  ((f.foldM Node.note).run #[]).2.toList

end Formula

end ConnectiveBases
