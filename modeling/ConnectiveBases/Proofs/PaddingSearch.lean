import Mathlib.Algebra.Order.Ring.Nat
import Mathlib.Data.List.Nodup
import ConnectiveBases.Proofs.FreshPadding

namespace ConnectiveBases

open Std (ExtTreeSet)

/-- The turns made, the counter and the candidate whenever the search for a fresh name tests one. A turn is
made only where the candidate is used and the counter, a machine integer, can still go up. -/
inductive SearchReach (used : ExtTreeSet String) : Nat → Int32 → String → Prop
  | start : SearchReach used 0 0 defaultPadding
  | turn {n i x} : SearchReach used n i x → x ∈ used → i < Int32.maxValue →
      SearchReach used (n + 1) (i + 1) (defaultPadding ++ toString (i + 1))

theorem toInt_add_one {i : Int32} (h : i < Int32.maxValue) : (i + 1).toInt = i.toInt + 1 := by
  have hlt := Int32.lt_iff_toInt_lt.mp h
  have hlow := Int32.le_toInt i
  rw [Int32.toInt_maxValue] at hlt
  rw [Int32.toInt_add, Int32.toInt_one]
  exact Int.bmod_eq_of_le (by omega) (by omega)

/-- What each turn keeps: the counter counts the turns, the candidate is the one of that number and all
before it are used. -/
theorem searchReach_spec {used : ExtTreeSet String} {n : Nat} {i : Int32} {x : String}
    (h : SearchReach used n i x) :
    i.toInt = n ∧ x = paddingCandidate n ∧ ∀ k < n, paddingCandidate k ∈ used := by
  induction h with
  | start => exact ⟨rfl, rfl, by simp⟩
  | @turn n i x _ hx hi ih =>
    obtain ⟨hcount, hcandidate, hearlier⟩ := ih
    have hnext : (i + 1).toInt = (n + 1 : Nat) := by
      rw [toInt_add_one hi, hcount]
      rfl
    refine ⟨hnext, ?_, ?_⟩
    · change defaultPadding ++ toString (i + 1).toInt = _
      rw [hnext]
      rfl
    · exact Nat.forall_lt_succ_right.mpr ⟨hearlier, hcandidate ▸ hx⟩

/-- Candidates are all different, so used ones are no more than there are used names. -/
theorem le_size_of_used {used : ExtTreeSet String} {n : Nat}
    (h : ∀ k < n, paddingCandidate k ∈ used) : n ≤ used.size := by
  have hdistinct : ((List.range n).map paddingCandidate).Nodup :=
    List.nodup_range.map fun _ _ => paddingCandidate_injective
  have hsubset : (List.range n).map paddingCandidate ⊆ used.toList := by
    intro x hx
    obtain ⟨k, hk, rfl⟩ := List.mem_map.mp hx
    exact ExtTreeSet.mem_toList.mpr (h k (List.mem_range.mp hk))
  simpa using hdistinct.length_le_of_subset hsubset

/-- A search that has still to go on has made fewer turns than there are used names. -/
theorem searchReach_turns_lt {used : ExtTreeSet String} {n : Nat} {i : Int32} {x : String}
    (h : SearchReach used n i x) (hx : x ∈ used) : n < used.size := by
  obtain ⟨-, hcandidate, hearlier⟩ := searchReach_spec h
  exact le_size_of_used (Nat.forall_lt_succ_right.mpr ⟨hearlier, hcandidate ▸ hx⟩)

theorem searchReach_counter_lt {used : ExtTreeSet String} (hsize : used.size < 2 ^ 31) {n : Nat}
    {i : Int32} {x : String} (h : SearchReach used n i x) (hx : x ∈ used) : i < Int32.maxValue := by
  have hlt := searchReach_turns_lt h hx
  rw [Int32.lt_iff_toInt_lt, (searchReach_spec h).1, Int32.toInt_maxValue]
  omega

/-- Nothing stops the search short of the first unused candidate, the counter included. -/
theorem searchReach_of_used {used : ExtTreeSet String} (hsize : used.size < 2 ^ 31) {n : Nat}
    (h : ∀ k < n, paddingCandidate k ∈ used) : ∃ i, SearchReach used n i (paddingCandidate n) := by
  induction n with
  | zero => exact ⟨0, .start⟩
  | succ n ih =>
    obtain ⟨i, hreach⟩ := ih fun k hk => h k (by omega)
    have hused := h n (by omega)
    have hturn := hreach.turn hused (searchReach_counter_lt hsize hreach hused)
    obtain ⟨-, hcandidate, -⟩ := searchReach_spec hturn
    exact ⟨i + 1, hcandidate ▸ hturn⟩

theorem freshPadding_eq_default_iff (f : Formula) :
    f.freshPadding = defaultPadding ↔ defaultPadding ∉ f.vars := by
  constructor
  · intro h
    exact h ▸ freshPadding_not_mem f
  · intro h
    obtain ⟨n, -, heq, -, hused⟩ := firstUnused_spec f.vars 0
    have hzero : n = 0 := by
      by_contra hne
      exact h (hused 0 (Nat.le_refl 0) (by omega))
    rw [Formula.freshPadding, heq, hzero]
    rfl

/-- The search for a fresh name ends at the first candidate that is no variable, after at most as many turns
as there are variables and before the counter overflows. -/
theorem fresh_padding_ends_search (f : Formula) (h : f.vars.size < 2 ^ 31) :
    ∃ (n : Nat) (i : Int32), SearchReach f.vars n i f.freshPadding ∧ n ≤ f.vars.size ∧
      f.freshPadding ∉ f.vars ∧
      (n = 0 ∧ f.freshPadding = "p" ∨ 1 ≤ n ∧ f.freshPadding = "p" ++ Nat.repr n) ∧
      (∀ k < n, paddingCandidate k ∈ f.vars) ∧
      (∀ m j x, SearchReach f.vars m j x →
        m ≤ n ∧ (x ∈ f.vars → j < Int32.maxValue) ∧ (x ∉ f.vars → x = f.freshPadding)) ∧
      (f.freshPadding = defaultPadding ↔ defaultPadding ∉ f.vars) := by
  obtain ⟨n, -, heq, hfree, hused⟩ := firstUnused_spec f.vars 0
  have hearlier : ∀ k < n, paddingCandidate k ∈ f.vars := fun k hk => hused k (Nat.zero_le k) hk
  have hfresh : f.freshPadding = paddingCandidate n := heq
  obtain ⟨i, hreach⟩ := searchReach_of_used h hearlier
  refine ⟨n, i, hfresh ▸ hreach, le_size_of_used hearlier, freshPadding_not_mem f, ?_, hearlier, ?_,
    freshPadding_eq_default_iff f⟩
  · rw [hfresh]
    rcases Nat.eq_zero_or_pos n with rfl | hpos
    · exact Or.inl ⟨rfl, rfl⟩
    · exact Or.inr ⟨hpos, if_neg (by omega)⟩
  · intro m j x hm
    obtain ⟨-, hcandidate, hbefore⟩ := searchReach_spec hm
    have hle : m ≤ n := by
      by_contra hlt
      exact hfree (hbefore n (by omega))
    refine ⟨hle, searchReach_counter_lt h hm, ?_⟩
    intro hx
    have hge : n ≤ m := by
      by_contra hlt
      exact hx (hcandidate ▸ hearlier m (by omega))
    rw [hfresh, hcandidate, Nat.le_antisymm hle hge]

theorem fresh_padding_ends_search_gap :
    let f := Formula.nor (.or (.var "p") (.var "p01")) (.and (.var "p1") (.var "p3"))
    f.vars.size < 2 ^ 31 ∧ f.freshPadding = "p2" ∧ (∃ i, SearchReach f.vars 2 i "p2") ∧
      SearchReach f.vars 1 1 "p1" ∧ "p1" ∈ f.vars ∧ (1 : Int32) < Int32.maxValue := by
  intro f
  have hsize : f.vars.size < 2 ^ 31 := by decide +kernel
  have hp2 : paddingCandidate 2 ∉ f.vars := by decide +kernel
  have hp1 : "p1" ∈ f.vars := by simp [f]
  have hstart : defaultPadding ∈ f.vars := by simp [f, defaultPadding]
  have hturn : SearchReach f.vars 1 1 "p1" := SearchReach.start.turn hstart (by decide)
  obtain ⟨n, i, hreach, -, hfree, hname, hearlier, hall, -⟩ := fresh_padding_ends_search f hsize
  obtain ⟨hge, hcounter, -⟩ := hall 1 1 "p1" hturn
  have hle : n ≤ 2 := by
    by_contra hlt
    exact hp2 (hearlier 2 (by omega))
  obtain ⟨-, hname⟩ := hname.resolve_left (by omega)
  have hne : n ≠ 1 := by
    rintro rfl
    rw [hname] at hfree
    exact hfree hp1
  obtain rfl : n = 2 := by omega
  have heq : f.freshPadding = "p2" := hname
  exact ⟨hsize, heq, ⟨i, heq ▸ hreach⟩, hturn, hp1, hcounter hp1⟩

end ConnectiveBases
