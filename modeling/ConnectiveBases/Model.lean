import Std.Data.ExtTreeMap

namespace ConnectiveBases

open Std (ExtTreeMap)

/-- A truth value for each of finitely many variables, held in the order of their names. -/
structure Model where
  values : ExtTreeMap String Bool
  deriving DecidableEq

namespace Model

def empty : Model := ⟨∅⟩

def get? (m : Model) (name : String) : Option Bool := m.values[name]?

/-- A value that the name had before is forgotten. -/
def insert (m : Model) (name : String) (value : Bool) : Model := ⟨m.values.insert name value⟩

/-- The same for the model at hand, which is changed in place. -/
def set (name : String) (value : Bool) : StateM Model Unit := modify (·.insert name value)

/-- Of several values for one name the last one counts. -/
def ofList (pairs : List (String × Bool)) : Model := ⟨ExtTreeMap.ofList pairs⟩

/-- Number of names that have a value. -/
def size (m : Model) : Nat := m.values.size

def isEmpty (m : Model) : Bool := m.values.isEmpty

/-- Each name once, in increasing order. -/
def toList (m : Model) : List (String × Bool) := m.values.toList

@[simp] theorem get?_empty (x : String) : empty.get? x = none := by
  simp [empty, get?]

@[simp] theorem get?_insert_self (m : Model) (x : String) (v : Bool) : (m.insert x v).get? x = some v := by
  simp [insert, get?]

theorem get?_insert (m : Model) (x y : String) (v : Bool) :
    (m.insert x v).get? y = if x = y then some v else m.get? y := by
  simp [insert, get?, ExtTreeMap.getElem?_insert]

theorem get?_insert_of_ne {x y : String} (h : x ≠ y) (m : Model) (v : Bool) :
    (m.insert x v).get? y = m.get? y := by
  rw [get?_insert, if_neg h]

/-- Models are equal as soon as they answer alike. -/
theorem ext_get? {m n : Model} (h : ∀ x, m.get? x = n.get? x) : m = n := by
  cases m; cases n
  exact congrArg Model.mk (ExtTreeMap.ext_getElem? (h ·))

theorem ofList_eq_foldl (pairs : List (String × Bool)) :
    ofList pairs = pairs.foldl (fun m p => m.insert p.1 p.2) empty := by
  have hall : ∀ t : ExtTreeMap String Bool,
      Model.mk (t.insertMany pairs) = pairs.foldl (fun m p => m.insert p.1 p.2) ⟨t⟩ := by
    induction pairs with
    | nil => intro t; simp
    | cons p pairs ih =>
      intro t
      rw [ExtTreeMap.insertMany_cons, ih]
      rfl
  rw [ofList, ExtTreeMap.ofList_eq_insertMany_empty]
  exact hall ∅

theorem isSome_get?_ofList {pairs : List (String × Bool)} {x : String} :
    ((ofList pairs).get? x).isSome ↔ x ∈ pairs.map Prod.fst := by
  rw [get?, ofList, ExtTreeMap.isSome_getElem?_eq_contains, ExtTreeMap.contains_ofList,
    List.contains_iff_mem]

theorem mem_toList {m : Model} {x : String} {v : Bool} : (x, v) ∈ m.toList ↔ m.get? x = some v :=
  ExtTreeMap.mem_toList_iff_getElem?_eq_some

end Model

end ConnectiveBases
