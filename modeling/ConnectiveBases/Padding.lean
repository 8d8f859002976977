import ConnectiveBases.Formula

namespace ConnectiveBases

open Std (ExtTreeSet)

/-- The variable out of which constants are built unless another one is asked for. -/
def defaultPadding : String := "p"

/-- `p`, `p1`, `p2`, … -/
def paddingCandidate (i : Nat) : String :=
  if i = 0 then defaultPadding else defaultPadding ++ Nat.repr i

/-- The first candidate, from the `i`-th on, that is not used. A used candidate is struck off the
set of used names, which no later candidate can notice and which bounds the search. -/
def firstUnused (used : ExtTreeSet String) (i : Nat) : String :=
  if paddingCandidate i ∈ used then firstUnused (used.erase (paddingCandidate i)) (i + 1)
  else paddingCandidate i
termination_by used.size
decreasing_by
  rename_i h
  have hpos : used.size ≠ 0 := fun hz => by
    have hempty : used = ∅ := ExtTreeSet.eq_empty_iff_size_eq_zero.mpr hz
    simp [hempty] at h
  rw [ExtTreeSet.size_erase, if_pos (ExtTreeSet.mem_iff_contains.mp h)]
  omega

/-- A name that is no variable of the formula. -/
def Formula.freshPadding (f : Formula) : String := firstUnused f.vars 0

/-- A constant as a formula without constants: `T` as `(p|~p)` and `F` as its negation, for any
name in the place of `p`, since the value of `p` makes no difference. -/
def constantFrom (padding : String) : Bool → Formula
  | true => .or (.var padding) (.not (.var padding))
  | false => .not (.or (.var padding) (.not (.var padding)))

end ConnectiveBases
