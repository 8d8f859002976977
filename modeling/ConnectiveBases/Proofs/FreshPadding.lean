import Std.Data.String.ToNat
import ConnectiveBases.Padding

namespace ConnectiveBases

open Std (ExtTreeSet)

/-- No candidate is written in the same way as another: `p` is the one without a numeral. -/
theorem paddingCandidate_injective {i j : Nat} (h : paddingCandidate i = paddingCandidate j) :
    i = j := by
  have hbare : ∀ k, defaultPadding ≠ defaultPadding ++ Nat.repr k := by
    intro k hk
    have hlength := congrArg String.length hk
    have hpos : 0 < (Nat.repr k).length := Nat.length_repr_pos
    rw [String.length_append] at hlength
    omega
  unfold paddingCandidate at h
  split at h
  next hi =>
    split at h
    next hj => omega
    next => exact absurd h (hbare j)
  next =>
    split at h
    next => exact absurd h.symm (hbare i)
    next => exact Nat.repr_injective ((String.append_right_inj _).mp h)

/-- The search ends at the first candidate, from where it starts, that is no used name. -/
theorem firstUnused_spec (used : ExtTreeSet String) (i : Nat) :
    ∃ j, i ≤ j ∧ firstUnused used i = paddingCandidate j ∧ paddingCandidate j ∉ used ∧
      ∀ k, i ≤ k → k < j → paddingCandidate k ∈ used := by
  fun_induction firstUnused used i with
  | case1 used i hmem ih =>
    obtain ⟨j, hij, heq, hfree, hused⟩ := ih
    refine ⟨j, by omega, heq, ?_, ?_⟩
    · intro hj
      have hne : paddingCandidate i ≠ paddingCandidate j := by
        intro h
        have hsame := paddingCandidate_injective h
        omega
      exact hfree (ExtTreeSet.mem_erase.mpr ⟨by simpa using hne, hj⟩)
    · intro k hik hkj
      by_cases hk : k = i
      · subst k
        exact hmem
      · exact ExtTreeSet.mem_of_mem_erase (hused k (by omega) hkj)
  | case2 used i hfree =>
    refine ⟨i, Nat.le_refl i, rfl, hfree, ?_⟩
    intro k hik hki
    omega

theorem freshPadding_not_mem (f : Formula) : f.freshPadding ∉ f.vars := by
  obtain ⟨j, -, heq, hfree, -⟩ := firstUnused_spec f.vars 0
  rw [Formula.freshPadding, heq]
  exact hfree

end ConnectiveBases
