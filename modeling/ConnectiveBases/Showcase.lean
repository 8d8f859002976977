import ConnectiveBases.Enumeration
import ConnectiveBases.Form

namespace ConnectiveBases

/-- What is wrong with a formula that should express another one over a basis. -/
inductive Complaint where
  | outsideBasis (result : Formula) (B : Basis)
  | notEquivalent (result source : Formula)
  | failed (failure : Failure)
  deriving DecidableEq

def Complaint.message : Complaint → String
  | outsideBasis g B => g.text ++ " is not in " ++ B.name
  | notEquivalent g f => g.text ++ " is not equivalent to " ++ f.text
  | failed failure => failure.message

def orComplain {α : Type} : Except Failure α → Except Complaint α
  | .ok a => .ok a
  | .error e => .error (.failed e)

/-- Passes a formula that is over the basis and equivalent to the one it comes from. -/
def checkForm (B : Basis) (f g : Formula) : Except Complaint Unit := do
  if !g.isOver B then throw (.outsideBasis g B)
  if !(← orComplain (f.checkEquivalence g)) then throw (.notEquivalent g f)

namespace Showcase

structure Options where
  /-- The bases in which each sample is shown. -/
  bases : List Basis
  /-- Whether the padding is chosen apart from the variables of the sample. -/
  fresh : Bool
  /-- Whether truth tables follow. -/
  tables : Bool

def samples : List Formula :=
  let p := .var "p"
  let q := .var "q"
  let r := .var "r"
  [.implies p q, .verum, .and p q, .or p q, .iff p q, .xor (.nand p r) (.nor q .falsum)]

def padRight (width : Nat) (s : String) : String := s.pushn ' ' (width - s.length)

def assignments (m : Model) : String :=
  " ".intercalate (m.toList.map fun (x, v) => x ++ "=" ++ (Formula.const v).text)

def truthWord (v : Bool) : String := if v then "true" else "false"

/-- One line for each model over the variables of both formulas, with the values of both. -/
def table (f g : Formula) : Except Failure (List String) := do
  let models ← modelsOver (f.vars ∪ g.vars).toList
  let before ← f.valuesIn models
  let after ← g.valuesIn models
  return (models.zip (before.zip after)).map fun (m, x, y) =>
    "    " ++ padRight 16 (assignments m) ++ " " ++ truthWord x ++ " " ++ truthWord y

def Options.padding (o : Options) (f : Formula) : String :=
  if o.fresh then f.freshPadding else defaultPadding

/-- A sample over one basis, checked before its table is made. -/
def Options.basisLines (o : Options) (f : Formula) (B : Basis) : Except Complaint (List String) := do
  let g := f.form B (o.padding f)
  checkForm B f g
  let rows ← if o.tables then orComplain (table f g) else pure []
  return ("  " ++ padRight 8 B.name ++ " " ++ g.text ++ " (size " ++ Nat.repr g.size ++ ", depth " ++
    Nat.repr g.depth ++ ")") :: rows

def Options.sampleLines (o : Options) (f : Formula) : Except Complaint (List String) := do
  let blocks ← o.bases.mapM (o.basisLines f)
  return ("f = " ++ f.text) :: blocks.flatten ++ [""]

def Options.lines (o : Options) : Except Complaint (List String) := do
  return (← samples.mapM o.sampleLines).flatten

end Showcase

end ConnectiveBases
