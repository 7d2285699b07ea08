import ToastStunt.Waifs.Access

/-!
The places of the properties in the packed array of a waif: reading and assigning one of them.
-/

namespace ToastStunt.Waifs

open Packing

variable {C : Type}

/-! The place of a property in the array. -/

def placeOf (map : PropMap) (i : Nat) : Option Nat :=
  if nMappableProps ≤ i then some (i - nMappableProps + countMapped map)
  else if propMapped map i then some (mappedOffset map i) else none

section

variable {map : PropMap}

theorem sum_countSetBits (clean : Clean map) (n : Nat) :
    ((List.range n).map fun j => countSetBits (map j)).sum = rank (propMapped map) 0 (n * 32) := by
  induction n with
  | zero => rfl
  | succ n ih =>
      rw [List.range_succ, List.map_append, List.sum_append, ih, Nat.succ_mul, rank_add,
        ← countSetBits_eq clean]
      simp

theorem countSetBits_mask (word : BitVec 64) {r : Nat} (low : r < 32) :
    countSetBits (word &&& 0xFFFFFFFF#64 >>> (32 - r)) = rank word.getLsbD 0 r := by
  have mask (k : Nat) : (0xFFFFFFFF#64 >>> (32 - r)).getLsbD k = decide (k < r) := by
    have ones : (0xFFFFFFFF#64).toNat = 2 ^ 32 - 1 := by decide
    rw [BitVec.getLsbD_ushiftRight, BitVec.getLsbD, ones, Nat.testBit_two_pow_sub_one,
      decide_eq_decide]
    omega
  obtain ⟨more, rest⟩ := Nat.exists_eq_add_of_le (Nat.le_of_lt low)
  rw [countSetBits, rest, rank_add]
  have inside : rank (word &&& 0xFFFFFFFF#64 >>> (32 - r)).getLsbD 0 r = rank word.getLsbD 0 r :=
    rank_congr fun k _ bound => by
      rw [BitVec.getLsbD_and, mask, decide_eq_true (by omega), Bool.and_true]
  have outside : rank (word &&& 0xFFFFFFFF#64 >>> (32 - r)).getLsbD (0 + r) more = 0 :=
    rank_none fun k high _ => by
      rw [BitVec.getLsbD_and, mask, decide_eq_false (by omega), Bool.and_false]
  rw [← rest] at *
  rw [inside, outside, Nat.add_zero]

theorem mappedOffset_eq (clean : Clean map) (i : Nat) :
    mappedOffset map i = rank (propMapped map) 0 i := by
  have whole : i = i / 32 * 32 + i % 32 := by omega
  have word : rank (propMapped map) (0 + i / 32 * 32) (i % 32) =
      rank (map (i / 32)).getLsbD 0 (i % 32) := by
    rw [rank_shift]
    refine rank_congr fun k _ bound => ?_
    rw [clean.mapped]
    congr 2 <;> omega
  have parts : rank (propMapped map) 0 i =
      rank (propMapped map) 0 (i / 32 * 32) + rank (map (i / 32)).getLsbD 0 (i % 32) := by
    conv_lhs => rw [whole]
    rw [rank_add, word]
  rw [mappedOffset, sum_countSetBits clean, parts]
  split
  · rename_i zero
    rw [zero]
    rfl
  · rw [countSetBits_mask _ (Nat.mod_lt _ (by decide))]

/-- A property has the place that its rank among those with a place says. -/
theorem placeOf_eq (clean : Clean map) (i : Nat) :
    placeOf map i = if allocated map i then some (rank (allocated map) 0 i) else none := by
  have low {n : Nat} (small : n ≤ nMappableProps) :
      rank (allocated map) 0 n = rank (propMapped map) 0 n :=
    rank_congr fun k _ bound => by
      have inside : ¬nMappableProps ≤ k := by omega
      simp [allocated, inside]
  rw [placeOf]
  split
  · rename_i high
    obtain ⟨more, rfl⟩ := Nat.exists_eq_add_of_le high
    have rest : rank (allocated map) (0 + nMappableProps) more = more :=
      rank_all fun k above _ => by simp [allocated, show nMappableProps ≤ k by omega]
    have on : allocated map (nMappableProps + more) = true := by simp [allocated, high]
    rw [if_pos on, rank_add, low (Nat.le_refl _), rest, countMapped_eq clean, Nat.add_sub_cancel_left,
      Nat.add_comm]
  · rename_i below
    have same : allocated map i = propMapped map i := by simp [allocated, below]
    rw [same, mappedOffset_eq clean, low (Nat.le_of_not_le below)]

end

/-! One property of one waif. -/

section

variable {length i : Nat} {waif : Waif C}

theorem Packed.array_eq (packed : Packed length waif) :
    waif.propvals.getD [] = pack (allocated waif.map) 0 (fields length waif) :=
  packed.pack_fields.symm

theorem propvalAt_placeOf (packed : Packed length waif) (bound : i < length) :
    propvalAt waif (placeOf waif.map i) = .ok ((fields length waif).getD i .clear) := by
  have inside : i < (fields length waif).length := (fields_length length waif).symm ▸ bound
  rw [placeOf_eq packed.clean, List.getD_eq_getElem _ _ inside]
  by_cases on : allocated waif.map i = true
  · have stored : allocated waif.map (0 + i) = true := (Nat.zero_add i).symm ▸ on
    have here := getElem?_pack inside stored
    rw [← packed.array_eq, List.getElem?_eq_getElem inside] at here
    rw [if_pos on, propvalAt]
    simp only [here]
  · have off : allocated waif.map (0 + i) = false := by simpa using on
    rw [if_neg on, propvalAt, packed.blanks i inside off]

theorem allocated_mapProp (map : PropMap) (low : i < nMappableProps) (k : Nat) :
    allocated (mapProp map i) k = (allocated map k || decide (k = i)) := by
  rw [allocated, allocated, propMapped_mapProp, Bool.or_assoc]
  congr 2
  exact decide_eq_decide.mpr eq_comm

theorem allocPropvalOffset_spec (packed : Packed length waif) (bound : i < length)
    (off : allocated waif.map i = false) :
    allocPropvalOffset length waif i = .ok ({ waif with
      map := mapProp waif.map i
      propvals := some ((waif.propvals.getD []).take (rank (allocated waif.map) 0 i) ++
        .clear :: (waif.propvals.getD []).drop (rank (allocated waif.map) 0 i)) },
      rank (allocated waif.map) 0 i) := by
  have low : i < nMappableProps := by
    by_contra high
    rw [allocated, decide_eq_true (Nat.le_of_not_lt high)] at off
    cases off
  have unmapped : propMapped waif.map i = false := by
    rw [allocated, Bool.or_eq_false_iff] at off
    exact off.2
  obtain ⟨front, behind⟩ := rank_mapProp waif.map i
  have mapped : rank (propMapped waif.map) 0 i = rank (allocated waif.map) 0 i :=
    rank_congr fun k _ below => by
      have other : ¬nMappableProps ≤ k := by omega
      simp [allocated, other]
  have total : (waif.propvals.getD []).length = rank (allocated waif.map) 0 i +
      (rank (propMapped waif.map) (i + 1) (nMappableProps - (i + 1)) + (length - nMappableProps)) := by
    rw [packed.size, countPropvals, countMapped_eq packed.clean, mapped_split low, unmapped,
      if_neg Bool.false_ne_true, mapped]
    omega
  have first : takeValues (rank (allocated waif.map) 0 i) (waif.propvals.getD []) =
      .ok ((waif.propvals.getD []).take (rank (allocated waif.map) 0 i),
        (waif.propvals.getD []).drop (rank (allocated waif.map) 0 i)) := by
    rw [takeValues, if_pos (by omega), List.splitAt_eq]
  have second : takeValues (rank (propMapped waif.map) (i + 1) (nMappableProps - (i + 1)) +
      (length - nMappableProps)) ((waif.propvals.getD []).drop (rank (allocated waif.map) 0 i)) =
      .ok ((waif.propvals.getD []).drop (rank (allocated waif.map) 0 i), []) := by
    have size : ((waif.propvals.getD []).drop (rank (allocated waif.map) 0 i)).length =
        rank (propMapped waif.map) (i + 1) (nMappableProps - (i + 1)) + (length - nMappableProps) := by
      rw [List.length_drop]
      omega
    have taken := takeValues_append [] size
    rwa [List.append_nil] at taken
  rw [allocPropvalOffset, unmapped]
  simp only [Bool.false_eq_true, if_false, front, mapped, behind, first, second, bind, Except.bind]
  rfl

structure Stored (length i : Nat) (val : Value C) (waif waif' : Waif C) : Prop where
  packed : Packed length waif'
  values : fields length waif' = (fields length waif).set i val
  classId : waif'.classId = waif.classId
  owner : waif'.owner = waif.owner
  propdefs : waif'.propdefs = waif.propdefs

theorem stored_of_pack (packed : Packed length waif) (bound : i < length) {val : Value C}
    {waif' : Waif C} (clean : Clean waif'.map) (below : MappedBelow waif'.map length)
    (more : ∀ k, allocated waif'.map k = (allocated waif.map k || decide (k = i)))
    (array : waif'.propvals.getD [] =
      pack (allocated waif'.map) 0 ((fields length waif).set i val)) :
    Packed length waif' ∧ fields length waif' = (fields length waif).set i val := by
  have size : ((fields length waif).set i val).length = length := by
    rw [List.length_set, fields_length]
  have whole := packed_of_pack clean (size.symm ▸ below) array fun j inside off => by
    rw [more, Bool.or_eq_false_iff, decide_eq_false_iff_not, Nat.zero_add] at off
    rw [List.getElem_set_ne (Ne.symm off.2)]
    exact packed.blanks j (by rwa [List.length_set] at inside) ((Nat.zero_add j).symm ▸ off.1)
  rwa [size] at whole

/-- The value goes to the place of the property, and the one that was there is given up. -/
theorem storeProp_spec {m : Memory C} (w : Address) (val : Value C)
    (size : propdefsLength m waif = length) (packed : Packed length waif) (bound : i < length) :
    ∃ waif', storeProp w waif i (placeOf waif.map i) val m =
        .ok ((m.setWaif w waif').free [(fields length waif).getD i .clear]) ∧
      Stored length i val waif waif' := by
  have inside : i < (fields length waif).length := (fields_length length waif).symm ▸ bound
  rw [placeOf_eq packed.clean, List.getD_eq_getElem _ _ inside]
  by_cases on : allocated waif.map i = true
  · have stored : allocated waif.map (0 + i) = true := (Nat.zero_add i).symm ▸ on
    have here := getElem?_pack inside stored
    rw [← packed.array_eq, List.getElem?_eq_getElem inside] at here
    let waif' : Waif C := { waif with
      propvals := some ((waif.propvals.getD []).set (rank (allocated waif.map) 0 i) val) }
    have array : waif'.propvals.getD [] =
        pack (allocated waif'.map) 0 ((fields length waif).set i val) := by
      rw [pack_set val inside stored, ← packed.array_eq]
      rfl
    have same : ∀ k, allocated waif'.map k = (allocated waif.map k || decide (k = i)) :=
      fun k => by grind
    obtain ⟨packed', values⟩ := @stored_of_pack _ _ _ _ packed bound val waif'
      packed.clean packed.below same array
    refine ⟨waif', ?_, packed', values, rfl, rfl, rfl⟩
    rw [if_pos on, storeProp, setPropval]
    simp only [here]
    rfl
  · have off : allocated waif.map i = false := by simpa using on
    have low : i < nMappableProps := by
      by_contra high
      rw [allocated, decide_eq_true (Nat.le_of_not_lt high)] at off
      cases off
    have blank := packed.blanks i inside ((Nat.zero_add i).symm ▸ off)
    let r := rank (allocated waif.map) 0 i
    let waif' : Waif C := { waif with
      map := mapProp waif.map i
      propvals := some ((waif.propvals.getD []).take r ++ val :: (waif.propvals.getD []).drop r) }
    have more := allocated_mapProp waif.map low
    have below : MappedBelow (mapProp waif.map i) length := by
      intro k small mapped
      rw [propMapped_mapProp, Bool.or_eq_true, decide_eq_true_eq] at mapped
      rcases mapped with before | rfl
      · exact packed.below k small before
      · exact bound
    have array : waif'.propvals.getD [] =
        pack (allocated waif'.map) 0 ((fields length waif).set i val) := by
      have on' : allocated (mapProp waif.map i) (0 + i) = true := by
        rw [Nat.zero_add, more]
        simp
      have inserted := pack_insert val inside ((Nat.zero_add i).symm ▸ off) on'
        fun k other => by rw [more, decide_eq_false (by omega), Bool.or_false]
      rw [← packed.array_eq] at inserted
      exact inserted.symm
    obtain ⟨packed', values⟩ := @stored_of_pack _ _ _ _ packed bound val waif'
      (packed.clean.mapProp i) below more array
    refine ⟨waif', ?_, packed', values, rfl, rfl, rfl⟩
    have full : r ≤ (waif.propvals.getD []).length := by
      rw [packed.size, countPropvals_eq packed.clean packed.below]
      have parts := @rank_add (allocated waif.map) 0 i (length - i)
      rw [Nat.add_sub_cancel' (Nat.le_of_lt bound)] at parts
      omega
    have front : ((waif.propvals.getD []).take r).length = r := List.length_take_of_le full
    rw [if_neg on, storeProp, size, allocPropvalOffset_spec packed bound off, blank]
    have blanked : ((waif.propvals.getD []).take r ++
        .clear :: (waif.propvals.getD []).drop r)[r]? = some (.clear : Value C) := by
      rw [List.getElem?_append_right (Nat.le_of_eq front), front, Nat.sub_self]
      rfl
    have filled : ((waif.propvals.getD []).take r ++
        .clear :: (waif.propvals.getD []).drop r).set r val =
        (waif.propvals.getD []).take r ++ val :: (waif.propvals.getD []).drop r := by
      rw [List.set_append_right _ _ (Nat.le_of_eq front), front, Nat.sub_self]
      rfl
    simp only [bind, Except.bind, setPropval, Option.getD_some]
    simp only [r] at blanked filled
    simp only [blanked, filled]
    rfl

end

end ToastStunt.Waifs
