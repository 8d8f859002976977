import Mathlib.Algebra.Order.Ring.Nat
import ConnectiveBases.Proofs.Extensions

namespace ConnectiveBases

theorem toNat_toUInt64 {n : Nat} (h : n < 2 ^ 64) : n.toUInt64.toNat = n := by
  rw [Nat.toUInt64_eq, UInt64.toNat_ofNat', Nat.mod_eq_of_lt h]

theorem shifted_bit (bits : UInt64) {i : Nat} (hi : i < 64) :
    (bits >>> i.toUInt64 &&& 1 == 1) = bits.toNat.testBit i := by
  have hbit : (bits >>> i.toUInt64 &&& 1).toNat = bits.toNat / 2 ^ i % 2 := by
    rw [UInt64.toNat_and, UInt64.toNat_shiftRight, toNat_toUInt64 (by omega), Nat.mod_eq_of_lt hi,
      UInt64.toNat_one, Nat.and_one_is_mod, Nat.shiftRight_eq_div_pow]
  rw [Nat.testBit_eq_decide_div_mod_eq, ← hbit, Bool.eq_iff_iff, beq_iff_eq, decide_eq_true_iff,
    ← UInt64.toNat_inj, UInt64.toNat_one]

theorem toNat_one_shiftLeft {n : Nat} (h : n < 64) : ((1 : UInt64) <<< n.toUInt64).toNat = 2 ^ n := by
  have hpow : 2 ^ n < 2 ^ 64 := Nat.pow_lt_pow_right (by decide) h
  rw [UInt64.toNat_shiftLeft, toNat_toUInt64 (by omega), Nat.mod_eq_of_lt h, UInt64.toNat_one,
    Nat.one_shiftLeft, Nat.mod_eq_of_lt hpow]

theorem getElem?_numbers {n : Nat} (h : n < 64) (k : Nat) :
    ((0 : UInt64)...<1 <<< n.toUInt64).toList[k]? = if k < 2 ^ n then some k.toUInt64 else none := by
  have hpow : 2 ^ n < UInt64.size := Nat.pow_lt_pow_right (by decide) h
  have hnext : Std.PRange.UpwardEnumerable.succMany? k (0 : UInt64) =
      if hk : k < UInt64.size then some (UInt64.ofNatLT k hk) else none := by
    simp [Std.PRange.UpwardEnumerable.succMany?]
  rw [Std.Rco.getElem?_toList_eq, hnext]
  by_cases hk : k < UInt64.size
  · have hbelow : UInt64.ofNatLT k hk < 1 <<< n.toUInt64 ↔ k < 2 ^ n := by
      rw [UInt64.lt_iff_toNat_lt, toNat_one_shiftLeft h, UInt64.toNat_ofNatLT]
    simp only [dif_pos hk, Option.filter_some, hbelow, decide_eq_true_eq]
    rw [UInt64.ofNatLT_eq_ofNat]
  · rw [dif_neg hk, if_neg (by omega), Option.filter_none]

/-- The names with bits for their values, the first name with the highest one. -/
def withBits (names : List String) (bit : Nat → Bool) : List (String × Bool) :=
  names.mapIdx fun i x => (x, bit (names.length - 1 - i))

theorem withBits_cons (x : String) (names : List String) (bit : Nat → Bool) :
    withBits (x :: names) bit = (x, bit names.length) :: withBits names bit := by
  have hplace : ∀ i, names.length + 1 - 1 - (i + 1) = names.length - 1 - i := by omega
  simp only [withBits, List.mapIdx_cons, List.length_cons, hplace]
  rfl

theorem withBits_congr {names : List String} {bit bit' : Nat → Bool}
    (h : ∀ j < names.length, bit j = bit' j) : withBits names bit = withBits names bit' := by
  induction names with
  | nil => rfl
  | cons x names ih =>
    have hrest := ih fun j hj => h j (Nat.lt_succ_of_lt hj)
    rw [withBits_cons, withBits_cons, hrest, h names.length (Nat.lt_succ_self _)]

theorem map_fst_withBits (names : List String) (bit : Nat → Bool) :
    (withBits names bit).map Prod.fst = names := by
  induction names with
  | nil => rfl
  | cons x names ih => rw [withBits_cons, List.map_cons, ih]

theorem ofBits_eq (names : List String) (bits : UInt64) :
    Model.ofBits names bits = .ofList (withBits names fun j => bits >>> j.toUInt64 &&& 1 == 1) :=
  rfl

theorem assignsExactly_ofBits (names : List String) (bits : UInt64) :
    (Model.ofBits names bits).AssignsExactly names := by
  intro x
  rw [ofBits_eq, Model.isSome_get?_ofList, map_fst_withBits]

theorem assigned_of_mem_allModels {names : List String} {e : Model} (he : e ∈ (allModels names).toList)
    {x : String} (hx : x ∈ names) : (e.get? x).isSome := by
  rw [allModels, Std.Iter.toList_map] at he
  obtain ⟨bits, -, rfl⟩ := List.mem_map.mp he
  exact (assignsExactly_ofBits names bits x).mpr hx

/-- The first name takes the highest bit of the number, the others take the rest of it. -/
theorem getElem?_extensions_cons (m : Model) (x : String) (names : List String) {k : Nat}
    (hk : k < 2 ^ (names.length + 1)) :
    (m.extensions (x :: names))[k]? =
      ((m.insert x (k.testBit names.length)).extensions names)[k % 2 ^ names.length]? := by
  have hlow := (m.insert x false).length_extensions names
  rw [Model.extensions]
  by_cases h : k < 2 ^ names.length
  · rw [List.getElem?_append_left (by omega), Nat.mod_eq_of_lt h, Nat.testBit_lt_two_pow h]
  · obtain ⟨l, rfl⟩ := Nat.exists_eq_add_of_le (Nat.le_of_not_lt h)
    have hl : l < 2 ^ names.length := by
      rw [Nat.pow_succ] at hk
      omega
    have hbit : (2 ^ names.length + l).testBit names.length = true := by
      rw [Nat.testBit_two_pow_add_eq, Nat.testBit_lt_two_pow hl, Bool.not_false]
    rw [List.getElem?_append_right (by omega), hlow, Nat.add_sub_cancel_left, Nat.add_mod_left,
      Nat.mod_eq_of_lt hl, hbit]

theorem getElem?_extensions_of_lt (m : Model) {names : List String} {k : Nat}
    (hk : k < 2 ^ names.length) :
    (m.extensions names)[k]? =
      some ((withBits names k.testBit).foldl (fun m p => m.insert p.1 p.2) m) := by
  induction names generalizing m k with
  | nil =>
    have hzero : k = 0 := by simpa using hk
    subst k
    rfl
  | cons x names ih =>
    have hlow : k % 2 ^ names.length < 2 ^ names.length := Nat.mod_lt _ (Nat.two_pow_pos _)
    have hrest : withBits names (k % 2 ^ names.length).testBit = withBits names k.testBit := by
      apply withBits_congr
      intro j hj
      rw [Nat.testBit_mod_two_pow, decide_eq_true hj, Bool.true_and]
    rw [getElem?_extensions_cons m x names hk, ih _ hlow, hrest, withBits_cons, List.foldl_cons]

theorem ofBits_eq_foldl {names : List String} (h : names.length < 64) {k : Nat}
    (hk : k < 2 ^ names.length) :
    Model.ofBits names k.toUInt64 =
      (withBits names k.testBit).foldl (fun m p => m.insert p.1 p.2) .empty := by
  have hpow : 2 ^ names.length < 2 ^ 64 := Nat.pow_lt_pow_right (by decide) h
  have hbits : (withBits names fun j => k.toUInt64 >>> j.toUInt64 &&& 1 == 1) =
      withBits names k.testBit := by
    apply withBits_congr
    intro j hj
    rw [shifted_bit _ (by omega), toNat_toUInt64 (by omega)]
  rw [ofBits_eq, hbits, Model.ofList_eq_foldl]

/-- Counting through the bits comes to the same models as setting one name after the other. -/
theorem toList_allModels {names : List String} (h : names.length < 64) :
    (allModels names).toList = Model.empty.extensions names := by
  apply List.ext_getElem?
  intro k
  rw [allModels, Std.Iter.toList_map, Std.Rco.toList_iter, List.getElem?_map, getElem?_numbers h]
  by_cases hk : k < 2 ^ names.length
  · rw [if_pos hk, Option.map_some, getElem?_extensions_of_lt _ hk, ofBits_eq_foldl h hk]
  · have hlength := Model.empty.length_extensions names
    rw [if_neg hk, Option.map_none, List.getElem?_eq_none (by omega)]

theorem modelsOver_of_lt {names : List String} (h : names.length < 64) :
    modelsOver names = .ok (Model.empty.extensions names) := by
  rw [modelsOver, checkEnumerable_of_lt h, toList_allModels h]
  rfl

theorem modelsOver_of_le {names : List String} (h : 64 ≤ names.length) :
    modelsOver names = .error (.tooManyVariables names.length) := by
  rw [modelsOver, checkEnumerable_of_le h]
  rfl

end ConnectiveBases
