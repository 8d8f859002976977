import Std.Data.Iterators
import ConnectiveBases.Evaluation

namespace ConnectiveBases

/-- Sixty-three names are the most over which models are enumerated. -/
def checkEnumerable (names : List String) : Except Failure Unit :=
  if names.length < 64 then .ok () else .error (.tooManyVariables names.length)

theorem checkEnumerable_of_lt {names : List String} (h : names.length < 64) :
    checkEnumerable names = .ok () :=
  if_pos h

theorem checkEnumerable_of_le {names : List String} (h : 64 ≤ names.length) :
    checkEnumerable names = .error (.tooManyVariables names.length) :=
  if_neg (Nat.not_lt_of_le h)

/-- The model in which the names have the bits of the number as their values, the first name the
highest one. Where a name is repeated, its last place decides. -/
def Model.ofBits (names : List String) (bits : UInt64) : Model :=
  ofList (names.mapIdx fun i x => (x, bits >>> (names.length - 1 - i).toUInt64 &&& 1 == 1))

/-- The models of all numbers with as many bits as there are names. Each is formed when it is asked
for: a list of all of them could be longer than what any machine holds. -/
def allModels (names : List String) :=
  ((0 : UInt64)...<1 <<< names.length.toUInt64).iter.map (Model.ofBits names)

/-- Every way of giving the names values. -/
def modelsOver (names : List String) : Except Failure (List Model) := do
  checkEnumerable names
  return (allModels names).toList

def firstModelsOver (names : List String) (limit : Nat) : Except Failure (List Model) := do
  checkEnumerable names
  return ((allModels names).take limit).toList

/-- The first `limit` rows of the truth table over the names. A failure ends it. -/
def Formula.firstRows (f : Formula) (names : List String) (limit : Nat) :
    Except Failure (List Bool) := do
  checkEnumerable names
  let rows ← ((allModels names).take limit).foldM (fun rows m => return (← f.eval m) :: rows) []
  return rows.reverse

def Formula.truthTable (f : Formula) (names : List String) : Except Failure (List Bool) :=
  f.firstRows names (1 <<< names.length)

/-- Whether the formula is true in every model over its variables. -/
def Formula.checkTautology (f : Formula) : Except Failure Bool := do
  let names := f.vars.toList
  checkEnumerable names
  return (allModels names).all f.isTrueIn

/-- Whether the formulas have the same value in every model over the variables of both. -/
def Formula.checkEquivalence (f g : Formula) : Except Failure Bool := do
  let names := (f.vars ∪ g.vars).toList
  checkEnumerable names
  return (allModels names).all (f.agreesIn g)

theorem firstModelsOver_eq_take (names : List String) (limit : Nat) :
    firstModelsOver names limit = (do return (← modelsOver names).take limit) := by
  unfold firstModelsOver modelsOver
  rw [Std.Iter.toList_take_of_finite]
  cases checkEnumerable names <;> rfl

theorem Formula.firstRows_eq (f : Formula) (names : List String) (limit : Nat) :
    f.firstRows names limit = (do f.valuesIn ((← modelsOver names).take limit)) := by
  unfold Formula.firstRows modelsOver Formula.valuesIn
  rw [← Std.Iter.foldlM_toList, Std.Iter.toList_take_of_finite]
  cases checkEnumerable names with
  | error e => rfl
  | ok _ => exact (List.mapM_eq_reverse_foldlM_cons (m := Except Failure)).symm

end ConnectiveBases
