import ConnectiveBases.Proofs.ModelOrder

namespace ConnectiveBases

theorem valuesIn_cons (f : Formula) (m : Model) (models : List Model) :
    f.valuesIn (m :: models) = (do return (← f.eval m) :: (← f.valuesIn models)) :=
  List.mapM_cons

theorem valuesIn_of_map {f : Formula} {models : List Model} {values : List Bool}
    (h : models.map (fun m => f.eval m) = values.map .ok) : f.valuesIn models = .ok values := by
  induction models generalizing values with
  | nil =>
    have hnil : values = [] := List.map_eq_nil_iff.mp h.symm
    rw [hnil]
    rfl
  | cons m models ih =>
    cases values with
    | nil => cases h
    | cons v values =>
      rw [List.map_cons, List.map_cons] at h
      obtain ⟨hv, hvalues⟩ := List.cons.inj h
      rw [valuesIn_cons, hv, ih hvalues]
      rfl

/-- A failure ends the collecting: the models after it are not even looked at. -/
theorem valuesIn_of_failure {f : Formula} {before : List Model} {m : Model} {e : Failure}
    (hbefore : ∀ d ∈ before, ∃ v, f.eval d = .ok v) (hm : f.eval m = .error e) (after : List Model) :
    f.valuesIn (before ++ m :: after) = .error e := by
  induction before with
  | nil =>
    rw [List.nil_append, valuesIn_cons, hm]
    rfl
  | cons d before ih =>
    obtain ⟨v, hv⟩ := hbefore d (by simp)
    rw [List.cons_append, valuesIn_cons, hv, ih fun d hd => hbefore d (by simp [hd])]
    rfl

theorem values_or_first_failure (f : Formula) (models : List Model) :
    (∃ values : List Bool, models.map (fun m => f.eval m) = values.map .ok) ∨
      ∃ before m after e, models = before ++ m :: after ∧
        (∀ d ∈ before, ∃ v, f.eval d = .ok v) ∧ f.eval m = .error e := by
  induction models with
  | nil => exact Or.inl ⟨[], rfl⟩
  | cons m models ih =>
    cases hm : f.eval m with
    | error e => exact Or.inr ⟨[], m, models, e, rfl, by simp, hm⟩
    | ok v =>
      rcases ih with ⟨values, hvalues⟩ | ⟨before, d, after, e, rfl, hbefore, hd⟩
      · exact Or.inl ⟨v :: values, by rw [List.map_cons, List.map_cons, hm, hvalues]⟩
      · refine Or.inr ⟨m :: before, d, after, e, rfl, ?_, hd⟩
        intro d' hd'
        rcases List.mem_cons.mp hd' with rfl | hmem
        · exact ⟨v, hm⟩
        · exact hbefore d' hmem

theorem valuesIn_eq_ok {f : Formula} {models : List Model} {values : List Bool} :
    f.valuesIn models = .ok values ↔ models.map (fun m => f.eval m) = values.map .ok := by
  refine ⟨?_, valuesIn_of_map⟩
  intro h
  rcases values_or_first_failure f models with
    ⟨values', hvalues'⟩ | ⟨before, m, after, e, rfl, hbefore, hm⟩
  · rw [hvalues', Except.ok.inj ((valuesIn_of_map hvalues').symm.trans h)]
  · rw [valuesIn_of_failure hbefore hm] at h
    cases h

theorem valuesIn_eq_error {f : Formula} {models : List Model} {e : Failure} :
    f.valuesIn models = .error e ↔ ∃ before m after, models = before ++ m :: after ∧
      (∀ d ∈ before, ∃ v, f.eval d = .ok v) ∧ f.eval m = .error e := by
  constructor
  · intro h
    rcases values_or_first_failure f models with
      ⟨values, hvalues⟩ | ⟨before, m, after, e', rfl, hbefore, hm⟩
    · rw [valuesIn_of_map hvalues] at h
      cases h
    · rw [valuesIn_of_failure hbefore hm] at h
      cases h
      exact ⟨before, m, after, rfl, hbefore, hm⟩
  · rintro ⟨before, m, after, rfl, hbefore, hm⟩
    exact valuesIn_of_failure hbefore hm after

theorem exists_valuesIn_iff {f : Formula} {models : List Model} :
    (∃ values, f.valuesIn models = .ok values) ↔ ∀ m ∈ models, ∃ v, f.eval m = .ok v := by
  constructor
  · rintro ⟨values, hvalues⟩ m hm
    have hmem : f.eval m ∈ models.map fun m => f.eval m := List.mem_map_of_mem hm
    rw [valuesIn_eq_ok.mp hvalues] at hmem
    obtain ⟨v, -, hv⟩ := List.mem_map.mp hmem
    exact ⟨v, hv.symm⟩
  · intro h
    rcases values_or_first_failure f models with
      ⟨values, hvalues⟩ | ⟨before, m, after, e, rfl, -, hm⟩
    · exact ⟨values, valuesIn_of_map hvalues⟩
    · obtain ⟨v, hv⟩ := h m (by simp)
      rw [hm] at hv
      cases hv

/-- The values of the names are the bits of the number, the first name taking the highest one and a
repeated name the one of its last place. -/
def Model.SpellsNumber (m : Model) (names : List String) (k : Nat) : Prop :=
  ∀ x j, IsLastPlace names x j → m.get? x = some (k.testBit (names.length - 1 - j))

theorem get?_eq_of_spellsNumber {m n : Model} {names : List String} {k : Nat}
    (hm : m.SpellsNumber names k) (hn : n.SpellsNumber names k) {x : String} (hx : x ∈ names) :
    m.get? x = n.get? x := by
  obtain ⟨j, hj⟩ := exists_lastPlace hx
  rw [hm x j hj, hn x j hj]

/-- The leftmost of the leaves that is none of the names. -/
def IsFirstMissing (names leaves : List String) (x : String) : Prop :=
  ∃ before after, leaves = before ++ x :: after ∧ (∀ y ∈ before, y ∈ names) ∧ x ∉ names

theorem isFirstUnassigned_iff_missing {m : Model} {names leaves : List String} {x : String}
    (h : m.AssignsExactly names) : m.IsFirstUnassigned leaves x ↔ IsFirstMissing names leaves x := by
  have hassigned : ∀ y, (m.get? y).isSome ↔ y ∈ names := h
  have hx : m.get? x = none ↔ x ∉ names := by
    rw [← hassigned]
    simp
  simp only [Model.IsFirstUnassigned, IsFirstMissing, hassigned, hx]

theorem firstRows_of_lt {names : List String} (h : names.length < 64) (f : Formula) (limit : Nat) :
    f.firstRows names limit = f.valuesIn ((Model.empty.extensions names).take limit) := by
  rw [Formula.firstRows_eq, modelsOver_of_lt h]
  rfl

theorem exists_firstRows {f : Formula} {names : List String} (h : names.length < 64)
    (hvars : ∀ x ∈ f.vars, x ∈ names) (limit : Nat) :
    ∃ rows : List Bool, f.firstRows names limit = .ok rows ∧
      rows.length = min limit (2 ^ names.length) := by
  have hvalues : ∀ m ∈ (Model.empty.extensions names).take limit, ∃ v, f.eval m = .ok v := by
    intro m hm
    exact ⟨_, eval_ok_of_assigned fun x hx => extensions_assign (List.mem_of_mem_take hm) (hvars x hx)⟩
  rw [firstRows_of_lt h]
  obtain ⟨rows, hrows⟩ := exists_valuesIn_iff.mpr hvalues
  have hlength := congrArg List.length (valuesIn_eq_ok.mp hrows)
  rw [List.length_map, List.length_map, List.length_take, Model.length_extensions] at hlength
  exact ⟨rows, hrows, hlength.symm⟩

/-- All models over the names leave the same variables without a value, so the first one fails already. -/
theorem firstRows_of_missing {f : Formula} {names : List String} (h : names.length < 64) {limit : Nat}
    (hlimit : 0 < limit) {y : String} (hy : y ∈ f.vars) (hmissing : y ∉ names) :
    ∃ x, IsFirstMissing names (f.leafNames []) x ∧
      f.firstRows names limit = .error (.unassignedVariable x) := by
  have hlength := Model.empty.length_extensions names
  have hpos := Nat.two_pow_pos names.length
  obtain ⟨m, models, hmodels⟩ := List.exists_cons_of_length_pos (hlength ▸ hpos)
  obtain ⟨l, rfl⟩ := Nat.exists_eq_add_one.mpr hlimit
  have hexact : m.AssignsExactly names := assignsExactly_of_mem (hmodels ▸ List.mem_cons_self)
  have hnone : ∀ d ∈ ([] : List Model), ∃ v, f.eval d = .ok v := by simp
  rw [firstRows_of_lt h, hmodels, List.take_succ_cons]
  cases heval : f.eval m with
  | ok v => exact absurd ((hexact y).mp (assigned_of_eval_ok heval y hy)) hmissing
  | error e =>
    obtain ⟨x, hx, rfl⟩ := eval_eq_error.mp heval
    exact ⟨x, (isFirstUnassigned_iff_missing hexact).mp (firstUnassigned_eq_some.mp hx),
      valuesIn_of_failure hnone heval _⟩

theorem spellsNumber_of_getElem? {m : Model} {names : List String} {k : Nat}
    (h : (Model.empty.extensions names)[k]? = some m) : m.SpellsNumber names k :=
  fun _ _ hj => get?_extensions h hj

theorem value_of_eval_ok {f : Formula} {m : Model} {v : Bool} (h : f.eval m = .ok v) :
    f.value m.valuation = v := by
  rw [eval_ok_of_assigned (assigned_of_eval_ok h)] at h
  exact Except.ok.inj h

/-- A row is the value of the formula in every model that spells the number of the row. -/
theorem eval_eq_row {f : Formula} {names : List String} (h : names.length < 64) {limit : Nat}
    {rows : List Bool} (hrows : f.firstRows names limit = .ok rows) {k : Nat} {v : Bool}
    (hv : rows[k]? = some v) {m : Model} (hm : m.SpellsNumber names k) : f.eval m = .ok v := by
  rw [firstRows_of_lt h, valuesIn_eq_ok] at hrows
  have hrow : (rows.map (Except.ok : Bool → Except Failure Bool))[k]? = some (.ok v) := by
    rw [List.getElem?_map, hv, Option.map_some]
  rw [← hrows, List.getElem?_map, Option.map_eq_some_iff] at hrow
  obtain ⟨e, he, heval⟩ := hrow
  have hget : (Model.empty.extensions names)[k]? = some e := by
    rw [List.getElem?_take] at he
    split at he
    next => exact he
    next => cases he
  have hexact : e.AssignsExactly names := assignsExactly_of_mem (List.mem_of_getElem? hget)
  rw [← heval]
  apply eval_congr
  intro x hx
  have hname : x ∈ names := (hexact x).mp (assigned_of_eval_ok heval x hx)
  exact get?_eq_of_spellsNumber hm (spellsNumber_of_getElem? hget) hname

/-- The number of a row spells the values that the names have in it. A variable that is none of the names
spoils all rows, and the leftmost one is blamed. -/
theorem table_rows_spell_their_numbers (f : Formula) (names : List String) (limit : Nat) :
    (names.length < 64 →
      (∃ models, modelsOver names = .ok models ∧
        f.firstRows names limit = f.valuesIn (models.take limit) ∧
        f.truthTable names = f.valuesIn models ∧
        ∀ (k : Nat) (m : Model), models[k]? = some m → m.SpellsNumber names k) ∧
      (limit = 0 → f.firstRows names limit = .ok []) ∧
      (0 < limit → (∀ x ∈ f.vars, x ∈ names) → ∃ rows : List Bool, f.firstRows names limit = .ok rows ∧
        rows.length = min limit (2 ^ names.length) ∧
        ∀ (k : Nat) (v : Bool), rows[k]? = some v →
          ∀ m : Model, m.SpellsNumber names k → f.eval m = .ok v ∧ f.value m.valuation = v) ∧
      (0 < limit → ∀ y ∈ f.vars, y ∉ names → ∃ x, IsFirstMissing names (f.leafNames []) x ∧
        f.firstRows names limit = .error (.unassignedVariable x))) ∧
    ∀ models : List Model,
      ((∃ values, f.valuesIn models = .ok values) ↔ ∀ m ∈ models, ∃ v, f.eval m = .ok v) ∧
      (∀ values : List Bool, f.valuesIn models = .ok values ↔
        models.map (fun m => f.eval m) = values.map .ok) ∧
      ∀ e, f.valuesIn models = .error e ↔ ∃ before m after, models = before ++ m :: after ∧
        (∀ d ∈ before, ∃ v, f.eval d = .ok v) ∧ f.eval m = .error e := by
  refine ⟨?_, fun models => ⟨exists_valuesIn_iff, fun _ => valuesIn_eq_ok, fun _ => valuesIn_eq_error⟩⟩
  intro h
  have htable : f.truthTable names = f.valuesIn (Model.empty.extensions names) := by
    have hlength := Model.empty.length_extensions names
    rw [Formula.truthTable, firstRows_of_lt h, Nat.one_shiftLeft, List.take_of_length_le (by omega)]
  refine ⟨⟨_, modelsOver_of_lt h, firstRows_of_lt h f limit, htable, fun _ _ => spellsNumber_of_getElem?⟩,
    ?_, ?_, fun hlimit y hy hmissing => firstRows_of_missing h hlimit hy hmissing⟩
  · rintro rfl
    rw [firstRows_of_lt h, List.take_zero]
    rfl
  · intro _ hvars
    obtain ⟨rows, hrows, hlength⟩ := exists_firstRows h hvars limit
    refine ⟨rows, hrows, hlength, fun k v hv m hm => ?_⟩
    have hrow := eval_eq_row h hrows hv hm
    exact ⟨hrow, value_of_eval_ok hrow⟩

theorem table_rows_spell_their_numbers_repeated :
    let f := Formula.implies (.var "p") (.var "q")
    let g := Formula.and (.var "q") (.or (.var "s") (.var "r"))
    let names := ["q", "p", "q"]
    let m := ((Model.empty.insert "q" true).insert "p" false).insert "q" true
    let n := ((Model.empty.insert "q" true).insert "p" true).insert "q" false
    names.length < 64 ∧ (∀ x ∈ f.vars, x ∈ names) ∧ m.SpellsNumber names 5 ∧ n.SpellsNumber names 6 ∧
      (∃ rows : List Bool, f.firstRows names 7 = .ok rows ∧ rows.length = 7 ∧
        rows[5]? = some true ∧ rows[6]? = some false) ∧
      "r" ∈ g.vars ∧ "r" ∉ names ∧ g.firstRows names 1 = .error (.unassignedVariable "s") ∧
      g.firstRows names 0 = .ok [] := by
  intro f g names m n
  have hlt : names.length < 64 := by decide
  have hvars : ∀ x ∈ f.vars, x ∈ names := by simp [f, names]
  have hm : m.SpellsNumber names 5 := spellsNumber_of_getElem? rfl
  have hn : n.SpellsNumber names 6 := spellsNumber_of_getElem? rfl
  have hr : "r" ∈ g.vars := by simp [g]
  have hmissing : "r" ∉ names := by decide
  obtain ⟨hf, -⟩ := table_rows_spell_their_numbers f names 7
  obtain ⟨hg, -⟩ := table_rows_spell_their_numbers g names 1
  obtain ⟨hg', -⟩ := table_rows_spell_their_numbers g names 0
  obtain ⟨-, -, hrows, -⟩ := hf hlt
  obtain ⟨-, -, -, hblame⟩ := hg hlt
  obtain ⟨-, hnone, -⟩ := hg' hlt
  obtain ⟨rows, hok, hlength, hvalues⟩ := hrows (by decide) hvars
  have hseven : rows.length = 7 := by
    rw [hlength]
    decide
  have hrow : ∀ {k v} {e : Model}, k < 7 → e.SpellsNumber names k → f.value e.valuation = v →
      rows[k]? = some v := by
    intro k v e hk he hv
    have hget : rows[k]? = some rows[k] := List.getElem?_eq_getElem (by omega)
    obtain ⟨-, hvalue⟩ := hvalues k _ hget e he
    rw [hget, ← hvalue, hv]
  obtain ⟨x, ⟨before, after, hleaves, hbefore, hx⟩, herror⟩ := hblame (by decide) "r" hr hmissing
  have hs : x = "s" := by
    rcases before with _ | ⟨a, _ | ⟨b, before⟩⟩
    · simp [g, names] at hleaves hx
      simp [hleaves] at hx
    · simp [g] at hleaves
      exact hleaves.2.1.symm
    · simp [g] at hleaves
      simp [← hleaves.2.1, names] at hbefore
  exact ⟨hlt, hvars, hm, hn, ⟨rows, hok, hseven, hrow (by decide) hm rfl, hrow (by decide) hn rfl⟩, hr,
    hmissing, hs ▸ herror, hnone rfl⟩

end ConnectiveBases
