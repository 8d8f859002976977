import Mathlib.Algebra.BigOperators.Group.List.Lemmas
import Mathlib.Algebra.Group.Action.Defs
import Mathlib.Algebra.Order.Ring.Nat
import Mathlib.Data.List.Dedup
import Mathlib.Data.List.Lex
import Mathlib.Order.BooleanAlgebra.Basic
import ConnectiveBases.Proofs.BitCounting
import ConnectiveBases.Proofs.LeafNames

namespace ConnectiveBases

/-- The place is the last one at which the name stands. -/
def IsLastPlace (names : List String) (x : String) (j : Nat) : Prop :=
  names[j]? = some x ∧ x ∉ names.drop (j + 1)

theorem exists_lastPlace {names : List String} {x : String} (h : x ∈ names) :
    ∃ j, IsLastPlace names x j := by
  induction names with
  | nil => simp at h
  | cons y names ih =>
    by_cases hrest : x ∈ names
    · obtain ⟨j, hplace, hlater⟩ := ih hrest
      exact ⟨j + 1, by simpa using hplace, by simpa using hlater⟩
    · have heq : x = y := (List.mem_cons.mp h).resolve_right hrest
      exact ⟨0, by simp [heq], by simpa using hrest⟩

theorem get?_extensions {m e : Model} {names : List String} {k : Nat}
    (he : (m.extensions names)[k]? = some e) {x : String} {j : Nat} (hj : IsLastPlace names x j) :
    e.get? x = some (k.testBit (names.length - 1 - j)) := by
  induction names generalizing m k j with
  | nil => simp [IsLastPlace] at hj
  | cons y names ih =>
    have hk : k < 2 ^ (names.length + 1) := by
      obtain ⟨hlt, -⟩ := List.getElem?_eq_some_iff.mp he
      rwa [Model.length_extensions] at hlt
    rw [getElem?_extensions_cons m y names hk] at he
    obtain ⟨hplace, hlater⟩ := hj
    cases j with
    | zero =>
      have hxy : y = x := by simpa using hplace
      subst y
      rw [extensions_keep (List.mem_of_getElem? he) hlater, Model.get?_insert_self]
      simp
    | succ j =>
      have hlast : IsLastPlace names x j := ⟨by simpa using hplace, by simpa using hlater⟩
      have hlt : j < names.length := (List.getElem?_eq_some_iff.mp hlast.1).1
      have hindex : names.length + 1 - 1 - (j + 1) = names.length - 1 - j := by omega
      have hlow : names.length - 1 - j < names.length := by omega
      rw [ih he hlast, Nat.testBit_mod_two_pow, List.length_cons, hindex, decide_eq_true hlow,
        Bool.true_and]

/-- Setting the first name leaves a model to be looked for among the extensions over the others, provided
that one of those sets the name again or that it was set as the model has it. -/
theorem keeps_insert {m e : Model} {y : String} {v : Bool} {names : List String}
    (hkeep : ∀ x, x ∉ y :: names → e.get? x = m.get? x) (hy : y ∈ names ∨ e.get? y = some v) :
    ∀ x, x ∉ names → e.get? x = (m.insert y v).get? x := by
  intro x hx
  rw [Model.get?_insert]
  split
  next heq => exact hy.elim (fun hmem => absurd hmem (heq ▸ hx)) (heq ▸ ·)
  next hne => exact hkeep x (by simp [hx, Ne.symm hne])

theorem count_extensions_insert_not {m e : Model} {y : String} {v : Bool} {names : List String}
    (hy : y ∉ names) (hv : e.get? y = some v) :
    ((m.insert y !v).extensions names).count e = 0 := by
  rw [List.count_eq_zero]
  intro he
  have hset := extensions_keep he hy
  rw [hv, Model.get?_insert_self] at hset
  simp at hset

/-- A model that keeps to the given one outside the names, and gives each of them a value, comes up as
often as the repeated places among the names can be filled. -/
theorem count_extensions {m e : Model} {names : List String}
    (hkeep : ∀ x, x ∉ names → e.get? x = m.get? x) (hassigned : ∀ x ∈ names, (e.get? x).isSome) :
    (m.extensions names).count e = 2 ^ (names.length - names.dedup.length) := by
  induction names generalizing m with
  | nil =>
    have heq : e = m := Model.ext_get? fun x => hkeep x (by simp)
    simp [Model.extensions, heq]
  | cons y names ih =>
    have hrest : ∀ x ∈ names, (e.get? x).isSome := fun x hx => hassigned x (by simp [hx])
    have hle := names.dedup_sublist.length_le
    rw [Model.extensions, List.count_append]
    by_cases hy : y ∈ names
    · have hhalf := fun v => ih (keeps_insert (v := v) hkeep (Or.inl hy)) hrest
      rw [hhalf, hhalf, List.dedup_cons_of_mem hy, List.length_cons, Nat.sub_add_comm hle, Nat.pow_succ]
      omega
    · obtain ⟨v, hv⟩ := Option.isSome_iff_exists.mp (hassigned y (by simp))
      have hsame := ih (keeps_insert hkeep (Or.inr hv)) hrest
      have hother := count_extensions_insert_not (m := m) hy hv
      rw [List.dedup_cons_of_notMem hy, List.length_cons, List.length_cons, Nat.add_sub_add_right]
      cases v with
      | false =>
        rw [Bool.not_false] at hother
        rw [hsame, hother, Nat.add_zero]
      | true =>
        rw [Bool.not_true] at hother
        rw [hsame, hother, Nat.zero_add]

theorem pairwise_extensions {names : List String} (h : names.Nodup) (m : Model) :
    (m.extensions names).Pairwise fun e e' =>
      List.Lex (· < ·) (names.map e.valuation) (names.map e'.valuation) := by
  induction names generalizing m with
  | nil => simp [Model.extensions]
  | cons y names ih =>
    obtain ⟨hy, hrest⟩ := List.nodup_cons.mp h
    have hfirst : ∀ {v e}, e ∈ (m.insert y v).extensions names → e.valuation y = v := by
      intro v e he
      rw [Model.valuation, extensions_keep he hy, Model.get?_insert_self, Option.getD_some]
    have hhalf : ∀ v, ((m.insert y v).extensions names).Pairwise fun e e' =>
        List.Lex (· < ·) ((y :: names).map e.valuation) ((y :: names).map e'.valuation) := by
      intro v
      refine (ih hrest (m.insert y v)).imp_of_mem ?_
      intro e e' he he' hlex
      rw [List.map_cons, List.map_cons, hfirst he, hfirst he']
      exact List.Lex.cons hlex
    rw [Model.extensions, List.pairwise_append]
    refine ⟨hhalf false, hhalf true, ?_⟩
    intro e he e' he'
    rw [List.map_cons, List.map_cons, hfirst he, hfirst he']
    exact List.Lex.rel (by decide)

theorem length_dedup_extensions (m : Model) (names : List String) :
    (m.extensions names).dedup.length = 2 ^ names.dedup.length := by
  have hle := names.dedup_sublist.length_le
  have hcount : ∀ e ∈ m.extensions names,
      (m.extensions names).count e = 2 ^ (names.length - names.dedup.length) := by
    intro e he
    exact count_extensions (fun x hx => extensions_keep he hx) fun x hx => extensions_assign he hx
  have hsum : ((m.extensions names).dedup.map fun e => (m.extensions names).count e).sum =
      (m.extensions names).dedup.length * 2 ^ (names.length - names.dedup.length) := by
    rw [List.sum_eq_card_nsmul _ (2 ^ (names.length - names.dedup.length)) ?_, List.length_map,
      smul_eq_mul]
    intro c hc
    obtain ⟨e, he, rfl⟩ := List.mem_map.mp hc
    exact hcount e (List.mem_dedup.mp he)
  have htotal := List.sum_map_count_dedup_eq_length (m.extensions names)
  have hpow : 2 ^ names.length = 2 ^ names.dedup.length * 2 ^ (names.length - names.dedup.length) := by
    rw [← Nat.pow_add, Nat.add_sub_cancel' hle]
  rw [hsum, Model.length_extensions, hpow] at htotal
  exact Nat.eq_of_mul_eq_mul_right (Nat.two_pow_pos _) htotal

theorem count_of_assignsExactly {names : List String} {e : Model} (h : e.AssignsExactly names) :
    (Model.empty.extensions names).count e = 2 ^ (names.length - names.dedup.length) := by
  refine count_extensions (fun x hx => ?_) fun x hx => (h x).mpr hx
  have hnone : ¬ (e.get? x).isSome := fun hsome => hx ((h x).mp hsome)
  rw [Model.get?_empty]
  simpa using hnone

/-- Below 64 names every way of giving them values comes up equally often, and the number of a model spells
its values, the first name at the highest bit and a repeated name at its last place. -/
theorem models_spell_their_numbers (names : List String) :
    (64 ≤ names.length → modelsOver names = .error (.tooManyVariables names.length) ∧
      ∀ limit, firstModelsOver names limit = .error (.tooManyVariables names.length)) ∧
    (names.length < 64 → ∃ models : List Model, modelsOver names = .ok models ∧
      (∀ limit, firstModelsOver names limit = .ok (models.take limit)) ∧
      models.length = 2 ^ names.length ∧
      (∀ (k : Nat) (e : Model), models[k]? = some e → e.AssignsExactly names ∧
        ∀ x j, IsLastPlace names x j → e.get? x = some (k.testBit (names.length - 1 - j))) ∧
      (∀ e : Model, e.AssignsExactly names →
        models.count e = 2 ^ (names.length - names.dedup.length)) ∧
      models.dedup.length = 2 ^ names.dedup.length ∧
      (names.Nodup → (∀ e : Model, e.AssignsExactly names → models.count e = 1) ∧
        models.Pairwise fun e e' =>
          List.Lex (· < ·) (names.map e.valuation) (names.map e'.valuation))) := by
  constructor
  · intro h
    refine ⟨modelsOver_of_le h, fun limit => ?_⟩
    rw [firstModelsOver_eq_take, modelsOver_of_le h]
    rfl
  · intro h
    refine ⟨_, modelsOver_of_lt h, ?_, Model.length_extensions _ _, ?_, ?_,
      length_dedup_extensions _ _, ?_⟩
    · intro limit
      rw [firstModelsOver_eq_take, modelsOver_of_lt h]
      rfl
    · intro k e he
      exact ⟨assignsExactly_of_mem (List.mem_of_getElem? he), fun x j hj => get?_extensions he hj⟩
    · intro e he
      exact count_of_assignsExactly he
    · intro hdistinct
      refine ⟨fun e he => ?_, pairwise_extensions hdistinct _⟩
      rw [count_of_assignsExactly he, hdistinct.dedup, Nat.sub_self, Nat.pow_zero]

theorem models_spell_their_numbers_repeated :
    let e := (Model.empty.insert "p" false).insert "q" true
    (["p", "q", "p"].length < 64 ∧ e.AssignsExactly ["p", "q", "p"] ∧
      ∃ models, modelsOver ["p", "q", "p"] = .ok models ∧ models.length = 8 ∧ models.count e = 2 ∧
        ∃ d, models[6]? = some d ∧ d.get? "p" = some false ∧ d.get? "q" = some true) ∧
    (["q", "p"].Nodup ∧ ∃ models, modelsOver ["q", "p"] = .ok models ∧
      models.Pairwise fun d d' =>
        List.Lex (· < ·) (["q", "p"].map d.valuation) (["q", "p"].map d'.valuation)) ∧
    64 ≤ (List.replicate 64 "p").length ∧
    firstModelsOver (List.replicate 64 "p") 0 = .error (.tooManyVariables 64) := by
  intro e
  have hexact : e.AssignsExactly ["p", "q", "p"] := by
    intro x
    simp only [e, Model.get?_insert, Model.get?_empty]
    split
    next hq => simp [← hq]
    next hq =>
      split
      next hp => simp [← hp]
      next hp => simp [Ne.symm hp, Ne.symm hq]
  refine ⟨⟨by decide, hexact, ?_⟩, ⟨by decide, ?_⟩, by simp, ?_⟩
  · obtain ⟨-, hsmall⟩ := models_spell_their_numbers ["p", "q", "p"]
    obtain ⟨models, hok, -, hlength, hbits, hcount, -⟩ := hsmall (by decide)
    have hlt : 6 < models.length := by
      rw [hlength]
      decide
    obtain ⟨-, hvalues⟩ := hbits 6 models[6] (List.getElem?_eq_getElem hlt)
    exact ⟨models, hok, hlength, hcount e hexact, models[6], List.getElem?_eq_getElem hlt,
      hvalues "p" 2 ⟨rfl, by simp⟩, hvalues "q" 1 ⟨rfl, by simp⟩⟩
  · obtain ⟨-, hsmall⟩ := models_spell_their_numbers ["q", "p"]
    obtain ⟨models, hok, -, -, -, -, -, hdistinct⟩ := hsmall (by decide)
    exact ⟨models, hok, (hdistinct (by decide)).2⟩
  · obtain ⟨hrefused, -⟩ := models_spell_their_numbers (List.replicate 64 "p")
    exact (hrefused (by simp)).2 0

end ConnectiveBases
