import ConnectiveBases.Formula

namespace ConnectiveBases

/-- A formula as someone wrote it down: any text may stand in the place of an operator. -/
inductive RawFormula where
  | var (name : String)
  | const (value : Bool)
  | unary (symbol : String) (operand : RawFormula)
  | binary (symbol : String) (left right : RawFormula)
  deriving DecidableEq

/-- `~` alone is unary; the symbol of a connective is as unknown here as any other text. -/
def Formula.applyUnary (symbol : String) (f : Formula) : Except Failure Formula := do
  match ← Operator.read symbol with
  | .not => return .not f
  | .binary _ => throw (.unknownOperator symbol)

def Formula.applyBinary (symbol : String) (f g : Formula) : Except Failure Formula := do
  return .binary (← Connective.read symbol) f g

/-- Operands are read before the symbol above them and the left one before the right one, so the
first unknown symbol in post-order is the one that is reported. -/
def RawFormula.read : RawFormula → Except Failure Formula
  | var x => return .var x
  | const v => return .const v
  | unary s t => do
    let f ← t.read
    f.applyUnary s
  | binary s t u => do
    let f ← t.read
    let g ← u.read
    f.applyBinary s g

/-- A formula with each operator replaced by its symbol. -/
def Formula.raw : Formula → RawFormula
  | var x => .var x
  | const v => .const v
  | not f => .unary Operator.not.symbol f.raw
  | binary c f g => .binary c.symbol f.raw g.raw

@[simp] theorem Formula.read_raw (f : Formula) : f.raw.read = .ok f := by
  induction f with
  | var => rfl
  | const => rfl
  | not f ih => simp only [Formula.raw, RawFormula.read, ih]; rfl
  | binary c f g ihf ihg =>
    simp only [Formula.raw, RawFormula.read, ihf, ihg]
    change (Connective.read c.symbol >>= fun d => pure (Formula.binary d f g)) = _
    rw [Connective.read_symbol]
    rfl

end ConnectiveBases
