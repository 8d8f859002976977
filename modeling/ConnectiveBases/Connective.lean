namespace ConnectiveBases

/-- The three ways in which a request about formulas can fail. -/
inductive Failure where
  /-- A symbol stands where it names no operator of the arity that is needed. -/
  | unknownOperator (symbol : String)
  /-- A formula mentions a variable to which the model gives no value. -/
  | unassignedVariable (name : String)
  /-- Models over this many names are not enumerated. -/
  | tooManyVariables (count : Nat)
  deriving DecidableEq

def Failure.message : Failure → String
  | unknownOperator symbol => "Unknown operator: " ++ symbol
  | unassignedVariable name => "Unassigned variable: " ++ name
  | tooManyVariables count => "Too many variables to enumerate: " ++ Nat.repr count

/-- The two-place connectives. -/
inductive Connective where
  | and | or | implies | xor | iff | nand | nor
  deriving DecidableEq

def Connective.all : List Connective := [.and, .or, .implies, .xor, .iff, .nand, .nor]

theorem Connective.mem_all (c : Connective) : c ∈ Connective.all := by
  cases c <;> decide

def Connective.symbol : Connective → String
  | and => "&"
  | or => "|"
  | implies => "->"
  | xor => "+"
  | iff => "<->"
  | nand => "-&"
  | nor => "-|"

/-- The truth table. -/
def Connective.apply : Connective → Bool → Bool → Bool
  | and, x, y => x && y
  | or, x, y => x || y
  | implies, x, y => !x || y
  | xor, x, y => x != y
  | iff, x, y => x == y
  | nand, x, y => !(x && y)
  | nor, x, y => !(x || y)

/-- The connective that a symbol names. No other spelling is read, and `~` is not two-place. -/
def Connective.read (symbol : String) : Except Failure Connective :=
  match Connective.all.find? (·.symbol = symbol) with
  | some c => .ok c
  | none => .error (.unknownOperator symbol)

@[simp] theorem Connective.read_symbol (c : Connective) : Connective.read c.symbol = .ok c := by
  cases c <;> rfl

theorem Connective.symbol_of_read {s : String} {c : Connective} (h : Connective.read s = .ok c) :
    c.symbol = s := by
  unfold Connective.read at h
  split at h
  next d hd =>
    cases h
    simpa using List.find?_some hd
  next => cases h

theorem Connective.read_error {s : String} {e : Failure} (h : Connective.read s = .error e) :
    e = .unknownOperator s := by
  unfold Connective.read at h
  split at h
  next => cases h
  next => cases h; rfl

end ConnectiveBases
