import Mathlib.Data.List.Infix
import ConnectiveBases.Node
import ConnectiveBases.Proofs.FormVariables
import ConnectiveBases.Proofs.FreshPadding
import ConnectiveBases.Showcase

namespace ConnectiveBases

/-- The characters of parentheses and of the symbols of operators. -/
def syntaxChars : List Char := ['(', ')', '~', '&', '|', '+', '-', '<', '>']

/-- The characters that may come after a formula within a text: a connective or the end of a pair of
parentheses. -/
def followers : List Char := [')', '&', '|', '+', '-', '<']

/-- The name has no character of the syntax in it and is not the text of a constant. -/
def IsPlainName (x : String) : Prop := (∀ a ∈ x.toList, a ∉ syntaxChars) ∧ x ≠ "T" ∧ x ≠ "F"

instance : DecidablePred IsPlainName := fun x =>
  inferInstanceAs (Decidable ((∀ a ∈ x.toList, a ∉ syntaxChars) ∧ x ≠ "T" ∧ x ≠ "F"))

def Formula.HasPlainNames (f : Formula) : Prop := ∀ x ∈ f.vars, IsPlainName x

/-- What a text goes on with behind a formula in it, if it goes on at all. -/
def EndsFormula : List Char → Prop
  | [] => True
  | a :: _ => a ∈ followers

theorem mem_syntaxChars_of_mem_followers {a : Char} (h : a ∈ followers) : a ∈ syntaxChars := by
  have hall : ∀ a ∈ followers, a ∈ syntaxChars := by simp [followers, syntaxChars]
  exact hall a h

/-- A word ends where the first character of the syntax stands. -/
theorem word_cancel {w v r s : List Char} (hw : ∀ a ∈ w, a ∉ syntaxChars) (hv : ∀ a ∈ v, a ∉ syntaxChars)
    (hr : EndsFormula r) (hs : EndsFormula s) (h : w ++ r = v ++ s) : w = v ∧ r = s := by
  induction w generalizing v with
  | nil =>
    cases v with
    | nil => exact ⟨rfl, h⟩
    | cons b v =>
      obtain rfl : r = b :: (v ++ s) := h
      exact absurd (mem_syntaxChars_of_mem_followers hr) (hv b (by simp))
  | cons a w ih =>
    cases v with
    | nil =>
      obtain rfl : a :: (w ++ r) = s := h
      exact absurd (mem_syntaxChars_of_mem_followers hs) (hw a (by simp))
    | cons b v =>
      obtain ⟨rfl, hrest⟩ := List.cons.inj h
      obtain ⟨rfl, hrs⟩ := ih (fun c hc => hw c (by simp [hc])) (fun c hc => hv c (by simp [hc])) hrest
      exact ⟨rfl, hrs⟩

/-- No symbol of a connective is the beginning of another one. -/
theorem Connective.eq_of_symbol_prefix {c d : Connective} (h : c.symbol.toList <+: d.symbol.toList) :
    c = d := by
  have hall : ∀ c ∈ Connective.all, ∀ d ∈ Connective.all, c.symbol.toList <+: d.symbol.toList → c = d := by
    decide
  exact hall c c.mem_all d d.mem_all h

theorem symbol_cancel {c d : Connective} {r s : List Char}
    (h : c.symbol.toList ++ r = d.symbol.toList ++ s) : c = d ∧ r = s := by
  have hc : c.symbol.toList <+: d.symbol.toList ++ s := ⟨r, h⟩
  have hd : d.symbol.toList <+: d.symbol.toList ++ s := List.prefix_append _ s
  have heq : c = d := by
    rcases List.prefix_or_prefix_of_prefix hc hd with hcd | hdc
    · exact Connective.eq_of_symbol_prefix hcd
    · exact (Connective.eq_of_symbol_prefix hdc).symm
  subst d
  exact ⟨rfl, List.append_cancel_left h⟩

theorem endsFormula_symbol (c : Connective) (rest : List Char) :
    EndsFormula (c.symbol.toList ++ rest) := by
  have hfirst : ∃ a w, c.symbol.toList = a :: w ∧ a ∈ followers := by
    cases c <;> exact ⟨_, _, rfl, by decide⟩
  obtain ⟨a, w, hsymbol, ha⟩ := hfirst
  rw [hsymbol]
  exact ha

theorem endsFormula_parenthesis (rest : List Char) : EndsFormula (')' :: rest) := by
  have hmem : ')' ∈ followers := by decide
  exact hmem

namespace Formula

theorem toList_text_not (f : Formula) : (not f).text.toList = '~' :: f.text.toList := by
  simp [text, Operator.symbol]

theorem toList_text_binary (c : Connective) (f g : Formula) :
    (binary c f g).text.toList =
      '(' :: (f.text.toList ++ (c.symbol.toList ++ (g.text.toList ++ [')']))) := by
  simp [text]

/-- Variables and constants are written as words. -/
theorem toList_text_leaf {f : Formula} (hf : f.HasPlainNames) (hleaf : f.root.operands = []) :
    ∀ a ∈ f.text.toList, a ∉ syntaxChars := by
  cases f with
  | var x => exact (hf x (by simp)).1
  | const v => cases v <;> simp [text, syntaxChars]
  | not f => cases hleaf
  | binary c f g => cases hleaf

theorem text_var_ne_const {x : String} (hx : IsPlainName x) (v : Bool) :
    (var x).text ≠ (const v).text := by
  cases v with
  | false => exact hx.2.2
  | true => exact hx.2.1

theorem eq_of_text_leaf {f g : Formula} (hf : f.HasPlainNames) (hg : g.HasPlainNames)
    (hfleaf : f.root.operands = []) (hgleaf : g.root.operands = []) (h : f.text = g.text) : f = g := by
  cases f with
  | var x =>
    cases g with
    | var y => exact congrArg var h
    | const w => exact absurd h (text_var_ne_const (hf x (by simp)) w)
    | not _ | binary _ _ _ => cases hgleaf
  | const v =>
    cases g with
    | var y => exact absurd h.symm (text_var_ne_const (hg y (by simp)) v)
    | const w =>
      have hconst : ∀ v w : Bool, (const v).text = (const w).text → v = w := by decide
      exact congrArg const (hconst v w h)
    | not _ | binary _ _ _ => cases hgleaf
  | not _ | binary _ _ _ => cases hfleaf

/-- A word, even an empty one, is not taken for a formula with operands, which begins with `~` or `(`. -/
theorem text_leaf_ne_cons {f : Formula} {a : Char} {r t : List Char} (hf : f.HasPlainNames)
    (hleaf : f.root.operands = []) (hr : EndsFormula r) (ha : a ∈ syntaxChars) (hfollows : a ∉ followers) :
    f.text.toList ++ r ≠ a :: t := by
  intro heq
  have hword := toList_text_leaf hf hleaf
  cases hchars : f.text.toList with
  | nil =>
    obtain rfl : r = a :: t := by simpa [hchars] using heq
    exact hfollows hr
  | cons b w =>
    rw [hchars] at heq hword
    obtain ⟨rfl, -⟩ := List.cons.inj heq
    exact hword b (by simp) ha

theorem leaf_cancel {f g : Formula} {r s : List Char} (hf : f.HasPlainNames) (hg : g.HasPlainNames)
    (hleaf : f.root.operands = []) (hr : EndsFormula r) (hs : EndsFormula s)
    (h : f.text.toList ++ r = g.text.toList ++ s) : f = g ∧ r = s := by
  have hsame : g.root.operands = [] → f = g ∧ r = s := by
    intro hgleaf
    obtain ⟨htext, hrest⟩ :=
      word_cancel (toList_text_leaf hf hleaf) (toList_text_leaf hg hgleaf) hr hs h
    exact ⟨eq_of_text_leaf hf hg hleaf hgleaf (String.toList_inj.mp htext), hrest⟩
  cases g with
  | var y => exact hsame rfl
  | const v => exact hsame rfl
  | not g =>
    rw [toList_text_not] at h
    exact absurd h (text_leaf_ne_cons hf hleaf hr (by simp [syntaxChars]) (by simp [followers]))
  | binary c g g' =>
    rw [toList_text_binary] at h
    exact absurd h (text_leaf_ne_cons hf hleaf hr (by simp [syntaxChars]) (by simp [followers]))

theorem hasPlainNames_not {f : Formula} : (not f).HasPlainNames ↔ f.HasPlainNames := Iff.rfl

theorem hasPlainNames_binary {c : Connective} {f g : Formula} :
    (binary c f g).HasPlainNames ↔ f.HasPlainNames ∧ g.HasPlainNames := by
  simp only [HasPlainNames, mem_vars_binary, or_imp, forall_and]

/-- Where a text begins with a formula, nothing else it could begin with has another end. -/
theorem text_cancel {f g : Formula} {r s : List Char} (hf : f.HasPlainNames) (hg : g.HasPlainNames)
    (hr : EndsFormula r) (hs : EndsFormula s) (h : f.text.toList ++ r = g.text.toList ++ s) :
    f = g ∧ r = s := by
  induction f generalizing g r s with
  | var x => exact leaf_cancel hf hg rfl hr hs h
  | const v => exact leaf_cancel hf hg rfl hr hs h
  | not f ih =>
    cases g with
    | var _ | const _ =>
      obtain ⟨heq, hrest⟩ := leaf_cancel hg hf rfl hs hr h.symm
      exact ⟨heq.symm, hrest.symm⟩
    | not g =>
      rw [toList_text_not, toList_text_not] at h
      simp only [List.cons_append, List.cons.injEq, true_and] at h
      obtain ⟨rfl, hrest⟩ := ih (hasPlainNames_not.mp hf) (hasPlainNames_not.mp hg) hr hs h
      exact ⟨rfl, hrest⟩
    | binary d g g' =>
      rw [toList_text_not, toList_text_binary] at h
      simp at h
  | binary c f f' ihf ihf' =>
    cases g with
    | var _ | const _ =>
      obtain ⟨heq, hrest⟩ := leaf_cancel hg hf rfl hs hr h.symm
      exact ⟨heq.symm, hrest.symm⟩
    | not g =>
      rw [toList_text_not, toList_text_binary] at h
      simp at h
    | binary d g g' =>
      rw [toList_text_binary, toList_text_binary] at h
      simp only [List.cons_append, List.append_assoc, List.cons.injEq, true_and] at h
      obtain ⟨hfleft, hfright⟩ := hasPlainNames_binary.mp hf
      obtain ⟨hgleft, hgright⟩ := hasPlainNames_binary.mp hg
      obtain ⟨rfl, hsymbols⟩ := ihf hfleft hgleft (endsFormula_symbol c _) (endsFormula_symbol d _) h
      obtain ⟨rfl, hoperands⟩ := symbol_cancel hsymbols
      obtain ⟨rfl, hends⟩ :=
        ihf' hfright hgright (endsFormula_parenthesis _) (endsFormula_parenthesis _) hoperands
      exact ⟨rfl, (List.cons.inj hends).2⟩

theorem eq_of_text {f g : Formula} (hf : f.HasPlainNames) (hg : g.HasPlainNames)
    (h : f.text = g.text) : f = g := by
  have hchars : f.text.toList ++ [] = g.text.toList ++ [] := by rw [h]
  exact (text_cancel hf hg (r := []) (s := []) True.intro True.intro hchars).1

end Formula

theorem not_mem_syntaxChars_of_isDigit {a : Char} (h : a.isDigit) : a ∉ syntaxChars := by
  have hall : ∀ a ∈ syntaxChars, ¬ a.isDigit := by simp [syntaxChars]
  exact fun ha => hall a ha h

theorem isPlainName_candidate (i : Nat) : IsPlainName (paddingCandidate i) := by
  have hstart : ∃ w, (paddingCandidate i).toList = 'p' :: w ∧ ∀ a ∈ w, a.isDigit := by
    unfold paddingCandidate
    split
    next => exact ⟨[], rfl, by simp⟩
    next =>
      refine ⟨(Nat.repr i).toList, by simp [defaultPadding], ?_⟩
      intro a ha
      rw [Nat.toList_repr] at ha
      exact Nat.isDigit_of_mem_toDigits (by decide) (by decide) ha
  obtain ⟨w, heq, hdigits⟩ := hstart
  refine ⟨?_, ?_, ?_⟩
  · rw [heq]
    intro a ha
    rcases List.mem_cons.mp ha with rfl | ha
    · decide
    · exact not_mem_syntaxChars_of_isDigit (hdigits a ha)
  · intro hT
    rw [hT] at heq
    simp at heq
  · intro hF
    rw [hF] at heq
    simp at heq

theorem isPlainName_padding (o : Showcase.Options) (f : Formula) : IsPlainName (o.padding f) := by
  unfold Showcase.Options.padding
  split
  next =>
    obtain ⟨i, -, heq, -, -⟩ := firstUnused_spec f.vars 0
    rw [Formula.freshPadding, heq]
    exact isPlainName_candidate i
  next => exact isPlainName_candidate 0

theorem hasPlainNames_sample {f : Formula} (h : f ∈ Showcase.samples) : f.HasPlainNames := by
  have hnames : ∀ x ∈ f.vars, x ∈ ["p", "q", "r"] := by
    simp only [Showcase.samples, List.mem_cons, List.not_mem_nil, or_false] at h
    rcases h with rfl | rfl | rfl | rfl | rfl | rfl <;> simp +contextual [or_imp]
  have hplain : ∀ x ∈ ["p", "q", "r"], IsPlainName x := by simp [IsPlainName, syntaxChars]
  exact fun x hx => hplain x (hnames x hx)

theorem hasPlainNames_form {f : Formula} {padding : String} (B : Basis) (hf : f.HasPlainNames)
    (hpadding : IsPlainName padding) : (f.form B padding).HasPlainNames := by
  intro x hx
  rcases mem_vars_form.mp hx with hx | ⟨rfl, -⟩
  · exact hf x hx
  · exact hpadding

/-- Formulas whose names are no pieces of syntax are told apart by their texts. The paddings that are made up
and the names in the samples and their forms are such names. -/
theorem texts_tell_formulas_apart :
    (∀ f g : Formula, f.HasPlainNames → g.HasPlainNames → f.text = g.text → f = g) ∧
    (∀ i, IsPlainName (paddingCandidate i)) ∧
    ∀ f ∈ Showcase.samples, ∀ (o : Showcase.Options) (B : Basis),
      f.HasPlainNames ∧ (f.form B (o.padding f)).HasPlainNames := by
  refine ⟨fun f g => Formula.eq_of_text, isPlainName_candidate, ?_⟩
  intro f hf o B
  have hplain := hasPlainNames_sample hf
  exact ⟨hplain, hasPlainNames_form B hplain (isPlainName_padding o f)⟩

theorem texts_tell_formulas_apart_empty_name :
    let f := (Formula.implies (.var "") (.nand (.var "p1") (.var ""))).form .notAndOr "q"
    let g := Formula.or (.not (.var "")) (.not (.and (.var "p1") (.var "")))
    f.text = "(~|~(p1&))" ∧ g.text = "(~|~(p1&))" ∧ f.HasPlainNames ∧ g.HasPlainNames ∧ f = g := by
  intro f g
  have hplain : ∀ x ∈ ["", "p1"], IsPlainName x := by simp [IsPlainName, syntaxChars]
  have hg : g.HasPlainNames := by
    intro x hx
    refine hplain x ?_
    simp only [g, Formula.mem_vars_binary, Formula.mem_vars_not, Formula.mem_vars_var] at hx
    rcases hx with rfl | rfl | rfl <;> decide
  have hf : f.HasPlainNames := by
    intro x hx
    rcases mem_vars_form.mp hx with hx | ⟨-, hconst⟩
    · refine hplain x ?_
      simp only [Formula.mem_vars_binary, Formula.mem_vars_var] at hx
      rcases hx with rfl | rfl | rfl <;> decide
    · exact absurd rfl hconst
  obtain ⟨happart, -, -⟩ := texts_tell_formulas_apart
  exact ⟨rfl, rfl, hf, hg, happart f g hf hg rfl⟩

/-- A name that has a symbol in it is written like the formula with that symbol. -/
example : (Formula.var "~p").text = (Formula.not (.var "p")).text ∧
    (Formula.var "T").text = Formula.verum.text := by decide

end ConnectiveBases
