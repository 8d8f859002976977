import Mathlib.Data.List.Dedup
import Mathlib.Data.String.Basic
import ConnectiveBases.Model

namespace ConnectiveBases

open Std (ExtTreeMap)

namespace Model

/-- The ways in which a model comes about: all at once, by changes in place and by copies that differ from an
earlier model in one name. -/
inductive History where
  | empty
  | ofList (pairs : List (String × Bool))
  | set (earlier : History) (name : String) (value : Bool)
  | insert (earlier : History) (name : String) (value : Bool)
  deriving DecidableEq

def History.model : History → Model
  | empty => Model.empty
  | ofList pairs => Model.ofList pairs
  | set h x v => ((Model.set x v).run h.model).2
  | insert h x v => h.model.insert x v

/-- The names and values that were given, in the order of time. -/
def History.pairs : History → List (String × Bool)
  | empty => []
  | ofList pairs => pairs
  | set h x v => h.pairs ++ [(x, v)]
  | insert h x v => h.pairs ++ [(x, v)]

/-- The model says of each name what the last pair with that name says, and lists these names once each, in
increasing order. -/
structure HoldsLastOf (m : Model) (pairs : List (String × Bool)) : Prop where
  get?_eq : ∀ x, m.get? x = pairs.reverse.lookup x
  size_eq : m.size = (pairs.map Prod.fst).dedup.length
  increasing : m.toList.Pairwise fun p q => p.1 < q.1
  mem_iff : ∀ x v, (x, v) ∈ m.toList ↔ pairs.reverse.lookup x = some v

theorem lookup_reverse_concat (pairs : List (String × Bool)) (x y : String) (v : Bool) :
    (pairs ++ [(x, v)]).reverse.lookup y = if x = y then some v else pairs.reverse.lookup y := by
  rw [List.reverse_append, List.reverse_singleton, List.singleton_append, List.lookup_cons]
  by_cases h : x = y
  · simp [h]
  · have hne : (y == x) = false := by simpa using Ne.symm h
    simp [h, hne]

theorem exists_lookup_reverse_iff (pairs : List (String × Bool)) (x : String) :
    (∃ v, pairs.reverse.lookup x = some v) ↔ x ∈ pairs.map Prod.fst := by
  rw [← Option.isSome_iff_exists, ← not_iff_not, Bool.not_eq_true, Option.isSome_eq_false_iff,
    Option.isNone_iff_eq_none, List.lookup_eq_none_iff]
  simp only [List.mem_reverse, bne_iff_ne, List.mem_map, not_exists, not_and]
  constructor
  · intro h p hp heq
    exact h p hp heq.symm
  · intro h p hp heq
    exact h p hp heq.symm

theorem toList_increasing (m : Model) : m.toList.Pairwise fun p q => p.1 < q.1 := by
  have hordered := ExtTreeMap.ordered_keys_toList (t := m.values)
  exact hordered.imp fun h => compare_lt_iff_lt.mp h

/-- The names with a value are those of the pairs, and both lists have each of them once. -/
theorem size_of_get? {m : Model} {pairs : List (String × Bool)}
    (h : ∀ x, m.get? x = pairs.reverse.lookup x) : m.size = (pairs.map Prod.fst).dedup.length := by
  have hlisted : (m.toList.map Prod.fst).Nodup := by
    have hincreasing : (m.toList.map Prod.fst).Pairwise (· < ·) :=
      List.pairwise_map.mpr m.toList_increasing
    exact hincreasing.imp fun hlt => ne_of_lt hlt
  have hsame : ∀ x, x ∈ m.toList.map Prod.fst ↔ x ∈ (pairs.map Prod.fst).dedup := by
    intro x
    rw [List.mem_dedup, ← exists_lookup_reverse_iff pairs x, ← h x, List.mem_map]
    constructor
    · rintro ⟨⟨y, v⟩, hmem, rfl⟩
      exact ⟨v, mem_toList.mp hmem⟩
    · rintro ⟨v, hv⟩
      exact ⟨(x, v), mem_toList.mpr hv, rfl⟩
  have hperm := (List.perm_ext_iff_of_nodup hlisted (List.nodup_dedup _)).mpr hsame
  calc m.size
    _ = m.toList.length := ExtTreeMap.length_toList.symm
    _ = (m.toList.map Prod.fst).length := List.length_map _ |>.symm
    _ = (pairs.map Prod.fst).dedup.length := hperm.length_eq

/-- The rest of what a model shows hangs on its answers alone. -/
theorem holdsLastOf_of_get? {m : Model} {pairs : List (String × Bool)}
    (h : ∀ x, m.get? x = pairs.reverse.lookup x) : m.HoldsLastOf pairs where
  get?_eq := h
  size_eq := size_of_get? h
  increasing := m.toList_increasing
  mem_iff x v := by rw [mem_toList, h]

theorem HoldsLastOf.insert {m : Model} {pairs : List (String × Bool)} (h : m.HoldsLastOf pairs)
    (x : String) (v : Bool) : (m.insert x v).HoldsLastOf (pairs ++ [(x, v)]) := by
  apply holdsLastOf_of_get?
  intro y
  rw [get?_insert, lookup_reverse_concat, h.get?_eq]

theorem holdsLastOf_empty : empty.HoldsLastOf [] :=
  holdsLastOf_of_get? fun x => get?_empty x

theorem HoldsLastOf.insertAll {m : Model} {pairs : List (String × Bool)} (h : m.HoldsLastOf pairs)
    (later : List (String × Bool)) :
    (later.foldl (fun m p => m.insert p.1 p.2) m).HoldsLastOf (pairs ++ later) := by
  induction later generalizing m pairs with
  | nil => simpa using h
  | cons p later ih =>
    have hnext := ih (h.insert p.1 p.2)
    simpa using hnext

theorem holdsLastOf_ofList (pairs : List (String × Bool)) : (ofList pairs).HoldsLastOf pairs := by
  rw [ofList_eq_foldl]
  exact holdsLastOf_empty.insertAll pairs

theorem holdsLastOf_history (h : History) : h.model.HoldsLastOf h.pairs := by
  induction h with
  | empty => exact holdsLastOf_empty
  | ofList pairs => exact holdsLastOf_ofList pairs
  | set h x v ih => exact ih.insert x v
  | insert h x v ih => exact ih.insert x v

theorem run_forM_set (pairs : List (String × Bool)) (m : Model) :
    (forM pairs fun p => set p.1 p.2 : StateM Model Unit).run m =
      ((), pairs.foldl (fun m p => m.insert p.1 p.2) m) := by
  induction pairs generalizing m with
  | nil => rfl
  | cons p pairs ih =>
    rw [List.forM_cons, StateT.run_bind, List.foldl_cons, ← ih]
    rfl

theorem history_model_eq (h : History) : h.model = ofList h.pairs := by
  apply ext_get?
  intro x
  rw [(holdsLastOf_history h).get?_eq, (holdsLastOf_ofList h.pairs).get?_eq]

theorem eq_iff_get? {m n : Model} : m = n ↔ ∀ x, m.get? x = n.get? x := by
  constructor
  · rintro rfl x
    rfl
  · exact ext_get?

theorem toList_injective {m n : Model} (h : m.toList = n.toList) : m = n := by
  cases m; cases n
  exact congrArg Model.mk (ExtTreeMap.toList_inj.mp h)

end Model

/-- A model keeps of all that it was given the last value of each name, and nothing of how and when it was
given. So equal answers make equal models, and these have one listing, whatever they came from. -/
theorem models_forget_their_history (pairs : List (String × Bool)) (h k : Model.History) :
    ((forM pairs fun p => Model.set p.1 p.2 : StateM Model Unit).run Model.empty).2 =
      Model.ofList pairs ∧
    pairs.foldl (fun m p => m.insert p.1 p.2) Model.empty = Model.ofList pairs ∧
    (Model.ofList pairs).HoldsLastOf pairs ∧
    h.model = Model.ofList h.pairs ∧
    (h.model = k.model ↔ ∀ x, h.model.get? x = k.model.get? x) ∧
    (h.model.toList = k.model.toList ↔ ∀ x, h.model.get? x = k.model.get? x) ∧
    ∀ x v y, (h.set x v).model.get? y = (if x = y then some v else h.model.get? y) ∧
      (h.insert x v).model.get? y = (if x = y then some v else h.model.get? y) := by
  refine ⟨?_, (Model.ofList_eq_foldl pairs).symm, Model.holdsLastOf_ofList pairs,
    Model.history_model_eq h, Model.eq_iff_get?, ?_, ?_⟩
  · rw [Model.run_forM_set, Model.ofList_eq_foldl]
  · rw [← Model.eq_iff_get?]
    exact ⟨Model.toList_injective, congrArg Model.toList⟩
  · intro x v y
    have hget := h.model.get?_insert x y v
    exact ⟨hget, hget⟩

/-- Each name stands once in the listing, with its last value. -/
example : (((Model.History.ofList [("q", true), ("p", false), ("q", true)]).set "p" true).insert "q"
    false).model.toList = [("p", true), ("q", false)] := rfl

end ConnectiveBases
