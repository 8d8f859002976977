import Mathlib.Algebra.Order.Ring.Nat
import ConnectiveBases.Enumeration

namespace ConnectiveBases

/-- The model with each name set in every way, `false` before `true` and the first name varying
slowest. Where a name is repeated, its later place decides. -/
def Model.extensions (m : Model) : List String → List Model
  | [] => [m]
  | x :: names => (m.insert x false).extensions names ++ (m.insert x true).extensions names

theorem Model.length_extensions (m : Model) (names : List String) :
    (m.extensions names).length = 2 ^ names.length := by
  induction names generalizing m with
  | nil => rfl
  | cons x names ih =>
    simp only [extensions, List.length_append, ih, List.length_cons, Nat.pow_succ]
    omega

theorem extensions_keep {m e : Model} {names : List String} (he : e ∈ m.extensions names)
    {x : String} (hx : x ∉ names) : e.get? x = m.get? x := by
  induction names generalizing m with
  | nil =>
    have heq : e = m := by simpa [Model.extensions] using he
    rw [heq]
  | cons y names ih =>
    have hne := List.ne_of_not_mem_cons hx
    have hrest := List.not_mem_of_not_mem_cons hx
    rcases List.mem_append.mp he with he | he
    · rw [ih he hrest, Model.get?_insert_of_ne (Ne.symm hne)]
    · rw [ih he hrest, Model.get?_insert_of_ne (Ne.symm hne)]

theorem extensions_assign {m e : Model} {names : List String} (he : e ∈ m.extensions names)
    {x : String} (hx : x ∈ names) : (e.get? x).isSome := by
  induction names generalizing m with
  | nil => simp at hx
  | cons y names ih =>
    by_cases hrest : x ∈ names
    · rcases List.mem_append.mp he with he | he
      · exact ih he hrest
      · exact ih he hrest
    · have heq : x = y := (List.mem_cons.mp hx).resolve_right hrest
      subst y
      rcases List.mem_append.mp he with he | he
      · simp [extensions_keep he hrest]
      · simp [extensions_keep he hrest]

/-- The model gives values to the names and to no others. -/
def Model.AssignsExactly (m : Model) (names : List String) : Prop :=
  ∀ x, (m.get? x).isSome ↔ x ∈ names

theorem assignsExactly_of_mem {names : List String} {e : Model}
    (he : e ∈ Model.empty.extensions names) : e.AssignsExactly names := by
  intro x
  refine ⟨?_, extensions_assign he⟩
  intro hx
  by_cases hmem : x ∈ names
  · exact hmem
  · rw [extensions_keep he hmem] at hx
    simp at hx

/-- No way of giving the names values is left out. Where a name is repeated, the extension is the one
in which all its places agree. -/
theorem extensions_exhaust (m : Model) (names : List String) (σ : String → Bool) :
    ∃ e ∈ m.extensions names, ∀ x ∈ names, e.get? x = some (σ x) := by
  induction names generalizing m with
  | nil => exact ⟨m, by simp [Model.extensions], by simp⟩
  | cons y names ih =>
    obtain ⟨e, he, hvalues⟩ := ih (m.insert y (σ y))
    refine ⟨e, ?_, ?_⟩
    · cases hy : σ y with
      | false => exact List.mem_append_left _ (hy ▸ he)
      | true => exact List.mem_append_right _ (hy ▸ he)
    · intro x hx
      by_cases hrest : x ∈ names
      · exact hvalues x hrest
      · have heq : x = y := (List.mem_cons.mp hx).resolve_right hrest
        subst y
        rw [extensions_keep he hrest, Model.get?_insert_self]

/-- A test that looks at the names alone passes in all extensions only if it passes in every model
in which they have values, whatever other names have values there. -/
theorem all_extensions_iff {p : Model → Bool} {names : List String}
    (hlocal : ∀ m n : Model, (∀ x ∈ names, m.get? x = n.get? x) → p m = p n) (base : Model) :
    (base.extensions names).all p ↔ ∀ m : Model, (∀ x ∈ names, (m.get? x).isSome) → p m := by
  rw [List.all_eq_true]
  constructor
  · intro h m hassigned
    obtain ⟨e, he, hvalues⟩ := extensions_exhaust base names fun x => (m.get? x).getD false
    have hsame : ∀ x ∈ names, m.get? x = e.get? x := by
      intro x hx
      obtain ⟨v, hv⟩ := Option.isSome_iff_exists.mp (hassigned x hx)
      rw [hvalues x hx, hv]
      rfl
    rw [hlocal m e hsame]
    exact h e he
  · intro h e he
    exact h e fun x hx => extensions_assign he hx

end ConnectiveBases
