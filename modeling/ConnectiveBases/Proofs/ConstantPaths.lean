import ConnectiveBases.Formula
import Mathlib.Logic.Basic

namespace ConnectiveBases

open Std (ExtTreeSet)

namespace Formula

/-- For each constant, from left to right, the operators above it, from the root down. -/
def constantPaths : Formula → List (List Operator)
  | var _ => []
  | const _ => [[]]
  | not f => f.constantPaths.map (.not :: ·)
  | binary c f g => (f.constantPaths ++ g.constantPaths).map (.binary c :: ·)

/-- Some constant has only the given operators above it. -/
def Exposed (os : ExtTreeSet Operator) (f : Formula) : Prop :=
  ∃ path ∈ f.constantPaths, ∀ o ∈ path, o ∈ os

/-- Some constant lies below another operator than the given ones. -/
def Buried (os : ExtTreeSet Operator) (f : Formula) : Prop :=
  ∃ path ∈ f.constantPaths, ∃ o ∈ path, o ∉ os

instance (os : ExtTreeSet Operator) (f : Formula) : Decidable (f.Exposed os) :=
  inferInstanceAs (Decidable (∃ path ∈ f.constantPaths, ∀ o ∈ path, o ∈ os))

instance (os : ExtTreeSet Operator) (f : Formula) : Decidable (f.Buried os) :=
  inferInstanceAs (Decidable (∃ path ∈ f.constantPaths, ∃ o ∈ path, o ∉ os))

theorem constantPaths_eq_nil {f : Formula} : f.constantPaths = [] ↔ f.constants = ∅ := by
  rw [ExtTreeSet.eq_empty_iff_forall_not_mem]
  induction f with
  | var x => simp [constantPaths]
  | const v => simp [constantPaths]
  | not f ih => simpa [constantPaths] using ih
  | binary c f g ihf ihg => simp [constantPaths, ihf, ihg, forall_and]

section

variable {os : ExtTreeSet Operator}

@[simp] theorem not_exposed_var {x : String} : ¬ (var x).Exposed os := by
  simp [Exposed, constantPaths]

@[simp] theorem exposed_const {v : Bool} : (const v).Exposed os := by
  simp [Exposed, constantPaths]

@[simp] theorem exposed_not {f : Formula} : (not f).Exposed os ↔ .not ∈ os ∧ f.Exposed os := by
  simp only [Exposed, constantPaths, List.mem_map, exists_exists_and_eq_and, List.forall_mem_cons]
  constructor
  · rintro ⟨path, hpath, hnot, hos⟩
    exact ⟨hnot, path, hpath, hos⟩
  · rintro ⟨hnot, path, hpath, hos⟩
    exact ⟨path, hpath, hnot, hos⟩

@[simp] theorem exposed_binary {c : Connective} {f g : Formula} :
    (binary c f g).Exposed os ↔ .binary c ∈ os ∧ (f.Exposed os ∨ g.Exposed os) := by
  simp only [Exposed, constantPaths, List.mem_map, exists_exists_and_eq_and, List.forall_mem_cons,
    List.mem_append]
  constructor
  · rintro ⟨path, hf | hg, hc, hos⟩
    · exact ⟨hc, Or.inl ⟨path, hf, hos⟩⟩
    · exact ⟨hc, Or.inr ⟨path, hg, hos⟩⟩
  · rintro ⟨hc, ⟨path, hf, hos⟩ | ⟨path, hg, hos⟩⟩
    · exact ⟨path, Or.inl hf, hc, hos⟩
    · exact ⟨path, Or.inr hg, hc, hos⟩

example :
    let f := Formula.not (.or .verum (.var "q"))
    f.Exposed {.not, .binary .and, .binary .or} ∧ ¬ f.Exposed {.not, .binary .and} := by
  decide

@[simp] theorem not_buried_var {x : String} : ¬ (var x).Buried os := by
  simp [Buried, constantPaths]

@[simp] theorem not_buried_const {v : Bool} : ¬ (const v).Buried os := by
  simp [Buried, constantPaths]

theorem not_buried_of_no_constant {f : Formula} (h : f.constants = ∅) : ¬ f.Buried os := by
  rintro ⟨path, hpath, -⟩
  rw [constantPaths_eq_nil.mpr h] at hpath
  simp at hpath

theorem buried_not {f : Formula} (h : .not ∈ os) : (not f).Buried os ↔ f.Buried os := by
  simp [Buried, constantPaths, h]

theorem buried_binary {c : Connective} {f g : Formula} (h : .binary c ∈ os) :
    (binary c f g).Buried os ↔ f.Buried os ∨ g.Buried os := by
  simp [Buried, constantPaths, h, or_and_right, exists_or]

theorem buried_binary_of_not_mem {c : Connective} {f g : Formula} (h : .binary c ∉ os) :
    (binary c f g).Buried os ↔ (binary c f g).constants ≠ ∅ := by
  rw [ne_eq, ← constantPaths_eq_nil]
  constructor
  · rintro ⟨path, hpath, -⟩
    exact List.ne_nil_of_mem hpath
  · intro hne
    obtain ⟨path, hpath⟩ := List.exists_mem_of_ne_nil _ hne
    obtain ⟨rest, -, rfl⟩ := List.mem_map.mp hpath
    exact ⟨_, hpath, .binary c, by simp, h⟩

end

end Formula

end ConnectiveBases
