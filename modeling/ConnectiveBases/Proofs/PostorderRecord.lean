import Mathlib.Data.List.Nodup
import ConnectiveBases.Node
import ConnectiveBases.Proofs.FormSize

namespace ConnectiveBases

namespace Formula

/-- The subformulas, operands before the formula made of them and those of the left operand before those of
the right one. -/
def collapseOrder : Formula → List Formula
  | var x => [var x]
  | const v => [const v]
  | not f => f.collapseOrder ++ [not f]
  | binary c f g => f.collapseOrder ++ g.collapseOrder ++ [binary c f g]

theorem collapseOrder_perm (f : Formula) : f.collapseOrder.Perm f.subformulas := by
  induction f with
  | var x => rfl
  | const v => rfl
  | not f ih =>
    have hroot := List.perm_append_singleton (not f) f.collapseOrder
    exact hroot.trans (ih.cons (not f))
  | binary c f g ihf ihg =>
    have hroot := List.perm_append_singleton (binary c f g) (f.collapseOrder ++ g.collapseOrder)
    exact hroot.trans ((ihf.append ihg).cons (binary c f g))

/-- The note of the formula when it is made as number `k`, right after the notes of the operands. -/
def noteAt (k : Nat) : Formula → Node Nat
  | var x => .var x
  | const v => .const v
  | not _ => .not (k - 1)
  | binary c _ g => .binary c (k - 1 - g.size) (k - 1)

/-- The notes of formulas that are made one after the other when there are `start` others. -/
def notesOf (start : Nat) (fs : List Formula) : List (Node Nat) :=
  fs.mapIdx fun i f => f.noteAt (start + i)

theorem notesOf_append (start : Nat) (fs gs : List Formula) :
    notesOf start (fs ++ gs) = notesOf start fs ++ notesOf (start + fs.length) gs := by
  simp [notesOf, List.mapIdx_append, Nat.add_assoc, Nat.add_comm fs.length]

@[simp] theorem notesOf_singleton (start : Nat) (f : Formula) :
    notesOf start [f] = [f.noteAt start] := rfl

@[simp] theorem length_collapseOrder (f : Formula) : f.collapseOrder.length = f.size := by
  induction f with
  | var x => rfl
  | const v => rfl
  | not f ih => simp [collapseOrder, size, ih]
  | binary c f g ihf ihg => simp [collapseOrder, size, ihf, ihg, Nat.add_assoc]

/-- The notes that collapsing the formula adds to `start` others. -/
def notes (start : Nat) (f : Formula) : List (Node Nat) := notesOf start f.collapseOrder

@[simp] theorem length_notes (start : Nat) (f : Formula) : (f.notes start).length = f.size := by
  simp [notes, notesOf]

theorem notes_not (start : Nat) (f : Formula) :
    (not f).notes start = f.notes start ++ [.not (start + f.size - 1)] := by
  simp [notes, collapseOrder, notesOf_append, noteAt]

theorem notes_binary (start : Nat) (c : Connective) (f g : Formula) :
    (binary c f g).notes start = f.notes start ++ g.notes (start + f.size) ++
      [.binary c (start + f.size - 1) (start + f.size + g.size - 1)] := by
  have hleft : start + (f.size + g.size) - 1 - g.size = start + f.size - 1 := by
    have hpos := f.size_pos
    omega
  simp [notes, collapseOrder, notesOf_append, noteAt, hleft, Nat.add_assoc]

theorem run_note (l : Node Nat) (before : Array (Node Nat)) :
    l.note.run before = (before.size, before.push l) := rfl

/-- Collapsing a formula adds its notes to those made before and answers the number of the last one. -/
theorem run_foldM_note (f : Formula) (before : Array (Node Nat)) :
    (f.foldM Node.note).run before =
      (before.size + f.size - 1, before ++ (f.notes before.size).toArray) := by
  induction f generalizing before with
  | var x => simp [foldM, run_note, notes, collapseOrder, noteAt, size]
  | const v => simp [foldM, run_note, notes, collapseOrder, noteAt, size]
  | not f ih =>
    have hrun : ((not f).foldM Node.note).run before =
        let r := (f.foldM Node.note).run before
        (Node.note (.not r.1)).run r.2 := rfl
    rw [hrun, ih, notes_not]
    simp [run_note, size]
  | binary c f g ihf ihg =>
    have hrun : ((binary c f g).foldM Node.note).run before =
        let r := (f.foldM Node.note).run before
        let s := (g.foldM Node.note).run r.2
        (Node.note (.binary c r.1 s.1)).run s.2 := rfl
    have hlast : before.size + (f.size + g.size + 1) - 1 = before.size + f.size + g.size := by omega
    simp only [hrun, ihf, ihg, notes_binary, size, hlast]
    simp [run_note, Nat.add_assoc]

theorem postorder_eq (f : Formula) : f.postorder = f.notes 0 := by
  rw [postorder, run_foldM_note]
  simp

theorem getElem?_postorder (f : Formula) (k : Nat) :
    f.postorder[k]? = f.collapseOrder[k]?.map (noteAt k) := by
  rw [postorder_eq, notes, notesOf, List.getElem?_mapIdx]
  simp

theorem mem_postorder {f : Formula} {l : Node Nat} :
    l ∈ f.postorder ↔ ∃ k g, f.collapseOrder[k]? = some g ∧ noteAt k g = l := by
  simp only [List.mem_iff_getElem?, getElem?_postorder, Option.map_eq_some_iff]

theorem exists_collapseOrder_eq (f : Formula) : ∃ below, f.collapseOrder = below ++ [f] := by
  cases f with
  | var x => exact ⟨[], rfl⟩
  | const v => exact ⟨[], rfl⟩
  | not f => exact ⟨_, rfl⟩
  | binary c f g => exact ⟨_, rfl⟩

/-- The formula itself is the last of its block, wherever the block stands. -/
theorem getElem?_block_last (before after : List Formula) (f : Formula) :
    (before ++ f.collapseOrder ++ after)[before.length + f.size - 1]? = some f := by
  obtain ⟨below, hbelow⟩ := exists_collapseOrder_eq f
  have hsize : below.length + 1 = f.size := by
    rw [← length_collapseOrder, hbelow, List.length_append, List.length_singleton]
  have hplace : before.length + f.size - 1 = before.length + below.length := by omega
  rw [hbelow, hplace]
  simp

theorem eq_of_getElem?_concat {fs : List Formula} {f g : Formula} {k : Nat}
    (h : (fs ++ [f])[k]? = some g) : fs[k]? = some g ∨ k = fs.length ∧ f = g := by
  rcases Nat.lt_trichotomy k fs.length with hlt | heq | hgt
  · rw [List.getElem?_append_left hlt] at h
    exact Or.inl h
  · subst k
    exact Or.inr ⟨rfl, by simpa using h⟩
  · have hnone : (fs ++ [f])[k]? = none := by
      simp only [List.getElem?_eq_none_iff, List.length_append, List.length_singleton]
      omega
    rw [hnone] at h
    cases h

/-- What is below the root of a formula is collapsed right before the formula. -/
theorem exists_block {f g : Formula} {k : Nat} (h : f.collapseOrder[k]? = some g) :
    ∃ before after, f.collapseOrder = before ++ g.collapseOrder ++ after ∧
      before.length + g.size = k + 1 := by
  have hwhole : ∀ f : Formula, ∃ before after,
      f.collapseOrder = before ++ f.collapseOrder ++ after ∧ before.length + f.size = f.size :=
    fun f => ⟨[], [], by simp, by simp⟩
  induction f generalizing k with
  | var x =>
    obtain ⟨rfl, rfl⟩ : k = 0 ∧ var x = g := by simpa [collapseOrder, List.getElem?_singleton] using h
    exact hwhole (var x)
  | const v =>
    obtain ⟨rfl, rfl⟩ : k = 0 ∧ const v = g := by
      simpa [collapseOrder, List.getElem?_singleton] using h
    exact hwhole (const v)
  | not f ih =>
    rcases eq_of_getElem?_concat h with hf | ⟨rfl, rfl⟩
    · obtain ⟨before, after, heq, hplace⟩ := ih hf
      exact ⟨before, after ++ [not f], by simp [collapseOrder, heq], hplace⟩
    · rw [length_collapseOrder]
      exact hwhole (not f)
  | binary c f f' ihf ihf' =>
    rcases eq_of_getElem?_concat h with hoperand | ⟨rfl, rfl⟩
    · by_cases hk : k < f.size
      · rw [List.getElem?_append_left (by simpa using hk)] at hoperand
        obtain ⟨before, after, heq, hplace⟩ := ihf hoperand
        exact ⟨before, after ++ f'.collapseOrder ++ [binary c f f'], by simp [collapseOrder, heq], hplace⟩
      · rw [List.getElem?_append_right (by simpa using hk), length_collapseOrder] at hoperand
        obtain ⟨before, after, heq, hplace⟩ := ihf' hoperand
        refine ⟨f.collapseOrder ++ before, after ++ [binary c f f'], by simp [collapseOrder, heq], ?_⟩
        rw [List.length_append, length_collapseOrder]
        omega
    · rw [List.length_append, length_collapseOrder, length_collapseOrder]
      exact hwhole (binary c f f')

/-- The note shows the root of the formula and, for its operands, the numbers that they have in the order:
an only or right operand the number right before, a left one the number before all of the right one. -/
def IsNoteOf (order : List Formula) (k : Nat) (l : Node Nat) : Formula → Prop
  | var x => l = .var x
  | const v => l = .const v
  | not f => ∃ i, l = .not i ∧ i + 1 = k ∧ order[i]? = some f
  | binary c f g => ∃ i j, l = .binary c i j ∧ j + 1 = k ∧ i + g.size = j ∧
      order[i]? = some f ∧ order[j]? = some g

theorem isNoteOf_noteAt {f g : Formula} {k : Nat} (h : f.collapseOrder[k]? = some g) :
    IsNoteOf f.collapseOrder k (g.noteAt k) g := by
  obtain ⟨before, after, heq, hplace⟩ := exists_block h
  rw [heq]
  cases g with
  | var x => rfl
  | const v => rfl
  | not g =>
    have hpos := g.size_pos
    have hoperand := getElem?_block_last before (not g :: after) g
    rw [size] at hplace
    refine ⟨k - 1, rfl, by omega, ?_⟩
    rw [show k - 1 = before.length + g.size - 1 by omega]
    simpa [collapseOrder] using hoperand
  | binary c g g' =>
    have hpos := g.size_pos
    have hpos' := g'.size_pos
    have hleft := getElem?_block_last before (g'.collapseOrder ++ binary c g g' :: after) g
    have hright := getElem?_block_last (before ++ g.collapseOrder) (binary c g g' :: after) g'
    rw [size] at hplace
    rw [List.length_append, length_collapseOrder] at hright
    refine ⟨k - 1 - g'.size, k - 1, rfl, by omega, by omega, ?_, ?_⟩
    · rw [show k - 1 - g'.size = before.length + g.size - 1 by omega]
      simpa [collapseOrder] using hleft
    · rw [show k - 1 = before.length + g.size + g'.size - 1 by omega]
      simpa [collapseOrder] using hright

theorem range_size_concat (start : Nat) (f : Formula) :
    List.range' start (f.size - 1) ++ [start + f.size - 1] = List.range' start f.size := by
  have hpos := f.size_pos
  obtain ⟨n, hn⟩ : ∃ n, f.size = n + 1 := ⟨f.size - 1, by omega⟩
  rw [hn, List.range'_1_concat]
  rfl

/-- All notes but the last, and no others, are mentioned as operands, each of them once. -/
theorem operands_notes (start : Nat) (f : Formula) :
    ((f.notes start).flatMap Node.operands).Perm (List.range' start (f.size - 1)) := by
  induction f generalizing start with
  | var x => rfl
  | const v => rfl
  | not f ih =>
    have hrange : List.range' start ((not f).size - 1) =
        List.range' start (f.size - 1) ++ [start + f.size - 1] := (range_size_concat start f).symm
    rw [notes_not, List.flatMap_append, hrange]
    exact (ih start).append_right _
  | binary c f g ihf ihg =>
    have hrange : List.range' start ((binary c f g).size - 1) =
        (List.range' start (f.size - 1) ++ [start + f.size - 1]) ++
          (List.range' (start + f.size) (g.size - 1) ++ [start + f.size + g.size - 1]) := by
      rw [range_size_concat, range_size_concat, List.range'_append_1]
      rfl
    rw [notes_binary, List.flatMap_append, List.flatMap_append, hrange]
    have hbelow := ((ihf start).append (ihg (start + f.size))).append_right
      [start + f.size - 1, start + f.size + g.size - 1]
    have hswap : (List.range' (start + f.size) (g.size - 1) ++ [start + f.size - 1]).Perm
        ([start + f.size - 1] ++ List.range' (start + f.size) (g.size - 1)) := List.perm_append_comm
    have hroot := (hswap.append_left (List.range' start (f.size - 1))).append_right
      [start + f.size + g.size - 1]
    refine hbelow.trans ?_
    simpa using hroot

theorem operands_postorder (f : Formula) :
    (f.postorder.flatMap Node.operands).Perm (List.range' 0 (f.size - 1)) := by
  rw [postorder_eq]
  exact operands_notes 0 f

theorem exists_mem_operands_iff {f : Formula} {i : Nat} :
    (∃ (k : Nat) (l : Node Nat), f.postorder[k]? = some l ∧ i ∈ l.operands) ↔ i + 1 < f.size := by
  have hmem := (operands_postorder f).mem_iff (a := i)
  rw [List.mem_range'_1, List.mem_flatMap] at hmem
  constructor
  · rintro ⟨k, l, hl, hi⟩
    have hrange := hmem.mp ⟨l, List.mem_of_getElem? hl, hi⟩
    omega
  · intro h
    obtain ⟨l, hl, hi⟩ := hmem.mpr (by omega)
    obtain ⟨k, hk⟩ := List.mem_iff_getElem?.mp hl
    exact ⟨k, l, hk, hi⟩

/-- Each number is mentioned in one note at most. -/
theorem eq_of_mem_operands {f : Formula} {i j k : Nat} {l m : Node Nat} (hl : f.postorder[j]? = some l)
    (hm : f.postorder[k]? = some m) (hil : i ∈ l.operands) (him : i ∈ m.operands) : j = k := by
  have hrange : (List.range' 0 (f.size - 1)).Nodup := List.nodup_range'
  have hnodup := (operands_postorder f).nodup_iff.mpr hrange
  obtain ⟨-, hdisjoint⟩ := List.nodup_flatMap.mp hnodup
  obtain ⟨hj, rfl⟩ := List.getElem?_eq_some_iff.mp hl
  obtain ⟨hk, rfl⟩ := List.getElem?_eq_some_iff.mp hm
  rw [List.pairwise_iff_getElem] at hdisjoint
  rcases Nat.lt_trichotomy j k with hlt | heq | hgt
  · exact absurd him (List.disjoint_left.mp (hdisjoint j k hj hk hlt) hil)
  · exact heq
  · exact absurd hil (List.disjoint_left.mp (hdisjoint k j hk hj hgt) him)

end Formula

/-- The formula that a note stands for, when those of the notes before it are known. -/
def Node.build? (built : List Formula) : Node Nat → Option Formula
  | var x => some (.var x)
  | const v => some (.const v)
  | not i => do return .not (← built[i]?)
  | binary c i j => do return .binary c (← built[i]?) (← built[j]?)

/-- Builds formulas note by note, from those that are there already. -/
def rebuild (built : List Formula) (record : List (Node Nat)) : Option (List Formula) :=
  record.foldlM (fun built l => do return built ++ [← l.build? built]) built

theorem rebuild_append (built : List Formula) (record later : List (Node Nat)) :
    rebuild built (record ++ later) = (rebuild built record).bind (rebuild · later) :=
  List.foldlM_append

theorem rebuild_singleton (built : List Formula) (l : Node Nat) :
    rebuild built [l] = (l.build? built).map fun f => built ++ [f] := by
  cases h : l.build? built with
  | none => simp [rebuild, h]
  | some f => simp [rebuild, h]

/-- Notes that are made when others are there already stand for the formulas collapsed meanwhile. -/
theorem rebuild_notes (built : List Formula) (f : Formula) :
    rebuild built (f.notes built.length) = some (built ++ f.collapseOrder) := by
  induction f generalizing built with
  | var x => rfl
  | const v => rfl
  | not f ih =>
    have hoperand := Formula.getElem?_block_last built [] f
    rw [List.append_nil] at hoperand
    rw [Formula.notes_not, rebuild_append, ih, Option.bind_some, rebuild_singleton, Node.build?, hoperand]
    simp [Formula.collapseOrder]
  | binary c f g ihf ihg =>
    have hright := Formula.getElem?_block_last (built ++ f.collapseOrder) [] g
    have hleft := Formula.getElem?_block_last built g.collapseOrder f
    have hlater := ihg (built ++ f.collapseOrder)
    rw [List.length_append, Formula.length_collapseOrder] at hlater hright
    rw [List.append_nil] at hright
    rw [Formula.notes_binary, rebuild_append, rebuild_append, ihf, Option.bind_some, hlater,
      Option.bind_some, rebuild_singleton, Node.build?, hleft, hright]
    simp [Formula.collapseOrder]

theorem rebuild_postorder (f : Formula) : rebuild [] f.postorder = some f.collapseOrder := by
  rw [Formula.postorder_eq]
  exact rebuild_notes [] f

theorem getLast?_collapseOrder (f : Formula) : f.collapseOrder.getLast? = some f := by
  obtain ⟨below, hbelow⟩ := f.exists_collapseOrder_eq
  rw [hbelow, List.getLast?_concat]

theorem postorder_injective {f g : Formula} (h : f.postorder = g.postorder) : f = g := by
  have hbuilt := rebuild_postorder f
  rw [h, rebuild_postorder, Option.some.injEq] at hbuilt
  have hlast := getLast?_collapseOrder f
  rw [← hbuilt, getLast?_collapseOrder, Option.some.injEq] at hlast
  exact hlast.symm

/-- Collapsing with a function that notes down what it is shown and answers the number of the note makes one
note for each node, in post-order, and the notes say what the formula was. -/
theorem collapsing_notes_postorder (f : Formula) :
    f.foldM Node.note = f.root.mapM (Formula.foldM Node.note) >>= Node.note ∧
    f.postorder.length = f.size ∧
    (∀ before : Array (Node Nat), ((f.foldM Node.note).run before).1 + 1 = before.size + f.size) ∧
    f.collapseOrder.Perm f.subformulas ∧
    (∀ k g, f.collapseOrder[k]? = some g →
      ∃ l, f.postorder[k]? = some l ∧ Formula.IsNoteOf f.collapseOrder k l g) ∧
    (∀ i, (∃! k : Nat, ∃ l : Node Nat, f.postorder[k]? = some l ∧ i ∈ l.operands) ↔ i + 1 < f.size) ∧
    rebuild [] f.postorder = some f.collapseOrder ∧ f.collapseOrder.getLast? = some f ∧
    ∀ g : Formula, f.postorder = g.postorder ↔ f = g := by
  refine ⟨Formula.foldM_eq Node.note f, ?_, ?_, f.collapseOrder_perm, ?_, ?_, rebuild_postorder f,
    getLast?_collapseOrder f, ?_⟩
  · rw [Formula.postorder_eq, Formula.length_notes]
  · intro before
    have hpos := f.size_pos
    rw [Formula.run_foldM_note]
    omega
  · intro k g hg
    exact ⟨g.noteAt k, by rw [Formula.getElem?_postorder, hg, Option.map_some], Formula.isNoteOf_noteAt hg⟩
  · intro i
    rw [← Formula.exists_mem_operands_iff]
    constructor
    · rintro ⟨k, ⟨l, hl, hi⟩, -⟩
      exact ⟨k, l, hl, hi⟩
    · rintro ⟨k, l, hl, hi⟩
      refine ⟨k, ⟨l, hl, hi⟩, ?_⟩
      rintro j ⟨m, hm, him⟩
      exact Formula.eq_of_mem_operands hm hl him hi
  · intro g
    exact ⟨postorder_injective, congrArg Formula.postorder⟩

theorem collapsing_notes_postorder_nor :
    let g := Formula.nor (.var "q") (.not .verum)
    let f := Formula.iff (.var "p") g
    f.postorder = [.var "p", .var "q", .const true, .not 2, .binary .nor 1 3, .binary .iff 0 4] ∧
      f.collapseOrder[4]? = some g ∧
      Formula.IsNoteOf f.collapseOrder 4 (.binary .nor 1 3) g := by
  intro g f
  have hrecord : f.postorder =
      [.var "p", .var "q", .const true, .not 2, .binary .nor 1 3, .binary .iff 0 4] := rfl
  have hplace : f.collapseOrder[4]? = some g := rfl
  obtain ⟨-, -, -, -, hnotes, -⟩ := collapsing_notes_postorder f
  obtain ⟨l, hl, hnote⟩ := hnotes 4 g hplace
  obtain rfl : Node.binary .nor 1 3 = l := by simpa [hrecord] using hl
  exact ⟨hrecord, hplace, hnote⟩

end ConnectiveBases
