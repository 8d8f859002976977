import Std.Data.ExtTreeSet
import ConnectiveBases.Connective

namespace ConnectiveBases

/-- Negation is the one operator with a single operand. -/
inductive Operator where
  | not
  | binary (connective : Connective)
  deriving DecidableEq

def Operator.all : List Operator := .not :: Connective.all.map .binary

theorem Operator.mem_all (o : Operator) : o ∈ Operator.all := by
  rcases o with _ | c
  · decide
  · exact List.mem_cons_of_mem _ (List.mem_map_of_mem c.mem_all)

def Operator.symbol : Operator → String
  | not => "~"
  | binary c => c.symbol

/-- The operator, of either arity, that a symbol names. -/
def Operator.read (symbol : String) : Except Failure Operator :=
  match Operator.all.find? (·.symbol = symbol) with
  | some o => .ok o
  | none => .error (.unknownOperator symbol)

theorem Operator.symbol_of_read {s : String} {o : Operator} (h : Operator.read s = .ok o) :
    o.symbol = s := by
  unfold Operator.read at h
  split at h
  next u hu =>
    cases h
    simpa using List.find?_some hu
  next => cases h

theorem Operator.read_error {s : String} {e : Failure} (h : Operator.read s = .error e) :
    e = .unknownOperator s := by
  unfold Operator.read at h
  split at h
  next => cases h
  next => cases h; rfl

/-- Position in the order `~ & | -> + <-> -& -|`. -/
def Operator.rank (o : Operator) : Nat := Operator.all.idxOf o

theorem Operator.rank_injective {o u : Operator} (h : o.rank = u.rank) : o = u := by
  have hall : ∀ o ∈ Operator.all, ∀ u ∈ Operator.all, o.rank = u.rank → o = u := by decide
  exact hall o o.mem_all u u.mem_all h

instance : Ord Operator := ⟨compareOn Operator.rank⟩

instance : Std.TransOrd Operator := inferInstanceAs (Std.TransCmp (compareOn Operator.rank))

theorem Operator.compare_eq_compare_rank (o u : Operator) : compare o u = compare o.rank u.rank := rfl

instance : Std.LawfulEqOrd Operator where
  compare_self := by intro o; simp
  eq_of_compare := by
    intro o u h
    rw [Operator.compare_eq_compare_rank] at h
    exact Operator.rank_injective (Std.LawfulEqOrd.eq_of_compare h)

/-- Operators in their order, repetitions kept. -/
def Operator.sort (os : List Operator) : List Operator :=
  os.mergeSort fun o u => (compare o u).isLE

end ConnectiveBases
