import ConnectiveBases.RawFormula

namespace ConnectiveBases

/-- A symbol as someone wrote it down, before one operand or between two. -/
inductive PlacedSymbol where
  | unary (symbol : String)
  | binary (symbol : String)
  deriving DecidableEq

namespace PlacedSymbol

def symbol : PlacedSymbol → String
  | unary s => s
  | binary s => s

/-- The symbol is one of those that may stand in its place. -/
def Fits : PlacedSymbol → Prop
  | unary s => s = "~"
  | binary s => s ∈ ["&", "|", "->", "+", "<->", "-&", "-|"]

instance : DecidablePred Fits
  | unary s => inferInstanceAs (Decidable (s = "~"))
  | binary s => inferInstanceAs (Decidable (s ∈ ["&", "|", "->", "+", "<->", "-&", "-|"]))

theorem fits_binary_iff {s : String} : (binary s).Fits ↔ ∃ c : Connective, c.symbol = s := by
  constructor
  · intro h
    obtain ⟨c, -, hc⟩ := List.mem_map.mp (show s ∈ Connective.all.map Connective.symbol from h)
    exact ⟨c, hc⟩
  · rintro ⟨c, rfl⟩
    exact List.mem_map_of_mem c.mem_all

/-- The first of the symbols that does not fit. -/
def firstMisfit (ps : List PlacedSymbol) : Option PlacedSymbol := ps.find? fun p => ¬ p.Fits

theorem firstMisfit_append_eq_some {ps qs : List PlacedSymbol} {p : PlacedSymbol} :
    firstMisfit (ps ++ qs) = some p ↔
      firstMisfit ps = some p ∨ firstMisfit ps = none ∧ firstMisfit qs = some p := by
  rw [firstMisfit, List.find?_append, Option.or_eq_some_iff]
  rfl

theorem firstMisfit_singleton_eq_some {p q : PlacedSymbol} :
    firstMisfit [q] = some p ↔ ¬ q.Fits ∧ q = p := by
  by_cases h : q.Fits <;> simp [firstMisfit, h]

theorem firstMisfit_eq_none {ps : List PlacedSymbol} :
    firstMisfit ps = none ↔ ∀ p ∈ ps, p.Fits := by
  simp [firstMisfit]

theorem firstMisfit_eq_some {ps : List PlacedSymbol} {p : PlacedSymbol} :
    firstMisfit ps = some p ↔
      ∃ before after, ps = before ++ p :: after ∧ (∀ q ∈ before, q.Fits) ∧ ¬ p.Fits := by
  rw [firstMisfit, List.find?_eq_some_iff_append]
  simp only [decide_not, Bool.not_eq_true', decide_eq_false_iff_not, Bool.not_not, decide_eq_true_eq]
  constructor
  · rintro ⟨hp, before, after, heq, hbefore⟩
    exact ⟨before, after, heq, hbefore, hp⟩
  · rintro ⟨before, after, heq, hbefore, hp⟩
    exact ⟨hp, before, after, heq, hbefore⟩

end PlacedSymbol

/-- The symbols of all nodes, those of the operands before the symbol above them and those of the left
operand before those of the right one. -/
def RawFormula.symbols : RawFormula → List PlacedSymbol
  | var _ => []
  | const _ => []
  | unary s t => t.symbols ++ [.unary s]
  | binary s t u => t.symbols ++ u.symbols ++ [.binary s]

theorem applyUnary_of_misfit {s : String} (h : ¬ (PlacedSymbol.unary s).Fits) (f : Formula) :
    f.applyUnary s = .error (.unknownOperator s) := by
  unfold Formula.applyUnary
  cases hread : Operator.read s with
  | error e =>
    rw [Operator.read_error hread]
    rfl
  | ok o =>
    cases o with
    | not => exact absurd (Operator.symbol_of_read hread).symm h
    | binary c => rfl

theorem applyBinary_of_misfit {s : String} (h : ¬ (PlacedSymbol.binary s).Fits) (f g : Formula) :
    f.applyBinary s g = .error (.unknownOperator s) := by
  unfold Formula.applyBinary
  cases hread : Connective.read s with
  | error e =>
    rw [Connective.read_error hread]
    rfl
  | ok c => exact absurd (PlacedSymbol.fits_binary_iff.mpr ⟨c, Connective.symbol_of_read hread⟩) h

theorem symbols_raw_fit (f : Formula) : ∀ p ∈ f.raw.symbols, p.Fits := by
  intro p hp
  induction f with
  | var x => cases hp
  | const v => cases hp
  | not f ih =>
    rcases List.mem_append.mp hp with hp | hp
    · exact ih hp
    · obtain rfl := List.mem_singleton.mp hp
      exact rfl
  | binary c f g ihf ihg =>
    rcases List.mem_append.mp hp with hp | hp
    · exact (List.mem_append.mp hp).elim ihf ihg
    · obtain rfl := List.mem_singleton.mp hp
      exact PlacedSymbol.fits_binary_iff.mpr ⟨c, rfl⟩

/-- Nothing but the symbols decides whether a raw formula is what some formula looks like. -/
theorem exists_raw_iff {t : RawFormula} : (∃ f : Formula, f.raw = t) ↔ ∀ p ∈ t.symbols, p.Fits := by
  constructor
  · rintro ⟨f, rfl⟩
    exact symbols_raw_fit f
  · intro h
    induction t with
    | var x => exact ⟨.var x, rfl⟩
    | const v => exact ⟨.const v, rfl⟩
    | unary s t ih =>
      obtain ⟨f, rfl⟩ := ih fun p hp => h p (by simp [RawFormula.symbols, hp])
      obtain rfl : s = "~" := h (.unary s) (by simp [RawFormula.symbols])
      exact ⟨.not f, rfl⟩
    | binary s t u iht ihu =>
      obtain ⟨f, rfl⟩ := iht fun p hp => h p (by simp [RawFormula.symbols, hp])
      obtain ⟨g, rfl⟩ := ihu fun p hp => h p (by simp [RawFormula.symbols, hp])
      have hs : (PlacedSymbol.binary s).Fits := h (.binary s) (by simp [RawFormula.symbols])
      obtain ⟨c, rfl⟩ := PlacedSymbol.fits_binary_iff.mp hs
      exact ⟨.binary c f g, rfl⟩

theorem exists_raw_of_no_misfit {t : RawFormula} (h : PlacedSymbol.firstMisfit t.symbols = none) :
    ∃ f : Formula, f.raw = t :=
  exists_raw_iff.mpr (PlacedSymbol.firstMisfit_eq_none.mp h)

theorem read_of_misfit {t : RawFormula} {p : PlacedSymbol}
    (h : PlacedSymbol.firstMisfit t.symbols = some p) : t.read = .error (.unknownOperator p.symbol) := by
  induction t with
  | var x => cases h
  | const v => cases h
  | unary s t ih =>
    rcases PlacedSymbol.firstMisfit_append_eq_some.mp h with h | ⟨ht, h⟩
    · rw [RawFormula.read, ih h]
      rfl
    · obtain ⟨hs, rfl⟩ := PlacedSymbol.firstMisfit_singleton_eq_some.mp h
      obtain ⟨f, rfl⟩ := exists_raw_of_no_misfit ht
      rw [RawFormula.read, Formula.read_raw]
      exact applyUnary_of_misfit hs f
  | binary s t u iht ihu =>
    rcases PlacedSymbol.firstMisfit_append_eq_some.mp h with hoperand | ⟨hoperands, h⟩
    · rcases PlacedSymbol.firstMisfit_append_eq_some.mp hoperand with ht | ⟨ht, hu⟩
      · rw [RawFormula.read, iht ht]
        rfl
      · obtain ⟨f, rfl⟩ := exists_raw_of_no_misfit ht
        rw [RawFormula.read, Formula.read_raw, ihu hu]
        rfl
    · obtain ⟨hs, rfl⟩ := PlacedSymbol.firstMisfit_singleton_eq_some.mp h
      rw [PlacedSymbol.firstMisfit_eq_none, List.forall_mem_append] at hoperands
      obtain ⟨f, rfl⟩ := exists_raw_iff.mpr hoperands.1
      obtain ⟨g, rfl⟩ := exists_raw_iff.mpr hoperands.2
      rw [RawFormula.read, Formula.read_raw, Formula.read_raw]
      exact applyBinary_of_misfit hs f g

theorem read_eq_ok {t : RawFormula} {f : Formula} : t.read = .ok f ↔ f.raw = t := by
  constructor
  · intro h
    cases hmisfit : PlacedSymbol.firstMisfit t.symbols with
    | none =>
      obtain ⟨g, rfl⟩ := exists_raw_of_no_misfit hmisfit
      rw [Formula.read_raw] at h
      cases h
      rfl
    | some p =>
      rw [read_of_misfit hmisfit] at h
      cases h
  · rintro rfl
    exact f.read_raw

theorem read_eq_error {t : RawFormula} {e : Failure} :
    t.read = .error e ↔
      ∃ p, PlacedSymbol.firstMisfit t.symbols = some p ∧ e = .unknownOperator p.symbol := by
  constructor
  · intro h
    cases hmisfit : PlacedSymbol.firstMisfit t.symbols with
    | none =>
      obtain ⟨g, rfl⟩ := exists_raw_of_no_misfit hmisfit
      rw [Formula.read_raw] at h
      cases h
    | some p => exact ⟨p, rfl, Except.error.inj (h.symm.trans (read_of_misfit hmisfit))⟩
  · rintro ⟨p, hp, rfl⟩
    exact read_of_misfit hp

/-- A raw formula is read just when each symbol stands where it may, and then as the formula that looks like
it. Otherwise the first symbol out of place in post-order is blamed. -/
theorem reading_inverts_raw (t : RawFormula) :
    ((∃ f, t.read = .ok f) ↔ ∀ p ∈ t.symbols, p.Fits) ∧
    (∀ f, t.read = .ok f ↔ f.raw = t) ∧
    (∀ f : Formula, f.raw.read = .ok f) ∧
    ∀ e, t.read = .error e ↔ ∃ before p after, t.symbols = before ++ p :: after ∧
      (∀ q ∈ before, q.Fits) ∧ ¬ p.Fits ∧ e = .unknownOperator p.symbol := by
  refine ⟨?_, fun f => read_eq_ok, Formula.read_raw, ?_⟩
  · simp only [read_eq_ok]
    exact exists_raw_iff
  · intro e
    rw [read_eq_error]
    constructor
    · rintro ⟨p, hp, rfl⟩
      obtain ⟨before, after, heq, hbefore, hmisfit⟩ := PlacedSymbol.firstMisfit_eq_some.mp hp
      exact ⟨before, p, after, heq, hbefore, hmisfit, rfl⟩
    · rintro ⟨before, p, after, heq, hbefore, hmisfit, rfl⟩
      exact ⟨p, PlacedSymbol.firstMisfit_eq_some.mpr ⟨before, after, heq, hbefore, hmisfit⟩, rfl⟩

/-- `~` has no place between operands, nor `&` before one; it is the left operand that is looked at first. -/
example : (RawFormula.binary "~" (.unary "&" (.var "p")) (.unary "!" (.var "q"))).read =
    .error (.unknownOperator "&") := rfl

end ConnectiveBases
