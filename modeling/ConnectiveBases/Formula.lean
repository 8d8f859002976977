import ConnectiveBases.Operator

namespace ConnectiveBases

open Std (ExtTreeSet)

/-- Propositional formulas. A variable may have any name, the empty one included. -/
inductive Formula where
  | var (name : String)
  | const (value : Bool)
  | not (operand : Formula)
  | binary (connective : Connective) (left right : Formula)
  deriving DecidableEq

namespace Formula

@[match_pattern] abbrev verum : Formula := .const true
@[match_pattern] abbrev falsum : Formula := .const false
@[match_pattern] abbrev and (f g : Formula) : Formula := .binary .and f g
@[match_pattern] abbrev or (f g : Formula) : Formula := .binary .or f g
@[match_pattern] abbrev implies (f g : Formula) : Formula := .binary .implies f g
@[match_pattern] abbrev xor (f g : Formula) : Formula := .binary .xor f g
@[match_pattern] abbrev iff (f g : Formula) : Formula := .binary .iff f g
@[match_pattern] abbrev nand (f g : Formula) : Formula := .binary .nand f g
@[match_pattern] abbrev nor (f g : Formula) : Formula := .binary .nor f g

/-- Number of nodes. -/
def size : Formula → Nat
  | var _ => 1
  | const _ => 1
  | not f => f.size + 1
  | binary _ f g => f.size + g.size + 1

/-- Number of edges on a longest path down from the root. -/
def depth : Formula → Nat
  | var _ => 0
  | const _ => 0
  | not f => f.depth + 1
  | binary _ f g => max f.depth g.depth + 1

theorem size_pos (f : Formula) : 0 < f.size := by
  cases f <;> simp [size]

/-- The names of the variables that occur. -/
def vars : Formula → ExtTreeSet String
  | var x => {x}
  | const _ => ∅
  | not f => f.vars
  | binary _ f g => f.vars ∪ g.vars

/-- The operators that occur. -/
def operators : Formula → ExtTreeSet Operator
  | var _ => ∅
  | const _ => ∅
  | not f => f.operators.insert .not
  | binary c f g => (f.operators ∪ g.operators).insert (.binary c)

/-- The constants that occur. -/
def constants : Formula → ExtTreeSet Bool
  | var _ => ∅
  | const v => {v}
  | not f => f.constants
  | binary _ f g => f.constants ∪ g.constants

/-- Every two-place node stands in parentheses, so no precedence is needed. Names are written as
they are, without any escape. -/
def text : Formula → String
  | var x => x
  | const true => "T"
  | const false => "F"
  | not f => Operator.not.symbol ++ f.text
  | binary c f g => "(" ++ f.text ++ c.symbol ++ g.text ++ ")"

@[simp] theorem mem_vars_var {x y : String} : x ∈ (var y).vars ↔ x = y := by
  rw [eq_comm]; simp [vars]

@[simp] theorem not_mem_vars_const {x : String} {v : Bool} : x ∉ (const v).vars := by
  simp [vars]

@[simp] theorem mem_vars_not {x : String} {f : Formula} :
    x ∈ (not f).vars ↔ x ∈ f.vars := Iff.rfl

@[simp] theorem mem_vars_binary {x : String} {c : Connective} {f g : Formula} :
    x ∈ (binary c f g).vars ↔ x ∈ f.vars ∨ x ∈ g.vars := by
  simp [vars]

@[simp] theorem not_mem_operators_var {o : Operator} {x : String} : o ∉ (var x).operators := by
  simp [operators]

@[simp] theorem not_mem_operators_const {o : Operator} {v : Bool} : o ∉ (const v).operators := by
  simp [operators]

@[simp] theorem mem_operators_not {o : Operator} {f : Formula} :
    o ∈ (not f).operators ↔ o = .not ∨ o ∈ f.operators := by
  rw [eq_comm (a := o)]; simp [operators]

@[simp] theorem mem_operators_binary {o : Operator} {c : Connective} {f g : Formula} :
    o ∈ (binary c f g).operators ↔ o = .binary c ∨ o ∈ f.operators ∨ o ∈ g.operators := by
  rw [eq_comm (a := o)]; simp [operators]

@[simp] theorem not_mem_constants_var {v : Bool} {x : String} : v ∉ (var x).constants := by
  simp [constants]

@[simp] theorem mem_constants_const {v w : Bool} : v ∈ (const w).constants ↔ v = w := by
  rw [eq_comm]; simp [constants]

@[simp] theorem mem_constants_not {v : Bool} {f : Formula} :
    v ∈ (not f).constants ↔ v ∈ f.constants := Iff.rfl

@[simp] theorem mem_constants_binary {v : Bool} {c : Connective} {f g : Formula} :
    v ∈ (binary c f g).constants ↔ v ∈ f.constants ∨ v ∈ g.constants := by
  simp [constants]

end Formula

end ConnectiveBases
