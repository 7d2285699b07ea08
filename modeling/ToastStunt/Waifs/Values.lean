import Mathlib.Data.BitVec
import Mathlib.Logic.Function.Basic
import ToastStunt.Db.Types
import ToastStunt.Library.Packing
import ToastStunt.Maps.Keys

/-!
Waifs in memory: the bitmap of a waif, its packed property values, and the values that can be
in them. From structures.h and waif.cc, for a server that forks its checkpoints.
-/

namespace ToastStunt.Waifs

open Packing Maps

abbrev Address := BitVec 64

inductive Value (C : Type) where
  | waif (waif : Address)
  | list (items : List (Value C))
  /-- Keys and values in turn, in the order in which the map is iterated. -/
  | map (items : List (Value C))
  | float (fnum : Double)
  | anon (anon : Option Nat)
  | clear
  | other (content : C)

def Value.isClear {C : Type} : Value C → Bool
  | .clear => true
  | _ => false

def waifMapsz : Nat := 3

def nMappableProps : Nat := waifMapsz * 32

abbrev PropMap := Nat → BitVec 64

/-- `1 << (Mbit % 32)` is an `int`, which is extended with its sign. -/
def bitMask (bit : Nat) : BitVec 64 := ((1#32) <<< (bit % 32)).signExtend 64

def propMapped (map : PropMap) (bit : Nat) : Bool := map (bit / 32) &&& bitMask bit ≠ 0

def mapProp (map : PropMap) (bit : Nat) : PropMap :=
  Function.update map (bit / 32) (map (bit / 32) ||| bitMask bit)

/-- The masks of the parallel addition have 32 bits. -/
def countSetBits (x : BitVec 64) : Nat := rank x.getLsbD 0 32

def countMapped (map : PropMap) : Nat :=
  ((List.range waifMapsz).map fun j => countSetBits (map j)).sum

def countPropvals (length : Nat) (map : PropMap) : Nat :=
  length - nMappableProps + countMapped map

def allocated (map : PropMap) (idx : Nat) : Bool := nMappableProps ≤ idx || propMapped map idx

structure Waif (C : Type) where
  classId : Int
  owner : Int
  propdefs : Option Nat
  propvals : Option (List (Value C))
  map : PropMap

/-! The bitmap. -/

section

variable {map : PropMap}

theorem bitMask_getLsbD (bit k : Nat) :
    (bitMask bit).getLsbD k = decide (k < 64 ∧ min k 31 = bit % 32) := by
  have bound : bit % 32 < 32 := Nat.mod_lt _ (by decide)
  rw [bitMask, BitVec.getLsbD_signExtend, BitVec.msb_eq_getLsbD_last]
  simp only [BitVec.getLsbD_shiftLeft, BitVec.getLsbD_one]
  grind

theorem bitMask_and (i j : Nat) : bitMask i &&& bitMask j = 0 ↔ i % 32 ≠ j % 32 := by
  have bound : i % 32 < 32 := Nat.mod_lt _ (by decide)
  constructor
  · intro zero same
    have bit := congrArg (fun word => word.getLsbD (i % 32)) zero
    simp only [BitVec.getLsbD_and, bitMask_getLsbD] at bit
    grind
  · intro other
    refine BitVec.eq_of_getLsbD_eq fun k _ => ?_
    simp only [BitVec.getLsbD_and, bitMask_getLsbD]
    grind

theorem or_and_eq_zero (x y z : BitVec 64) : (x ||| y) &&& z = 0 ↔ x &&& z = 0 ∧ y &&& z = 0 := by
  constructor
  · intro zero
    constructor <;> refine BitVec.eq_of_getLsbD_eq fun k _ => ?_ <;>
      have bit := congrArg (fun word => word.getLsbD k) zero <;>
      simp only [BitVec.getLsbD_and, BitVec.getLsbD_or] at bit ⊢ <;> grind
  · rintro ⟨left, right⟩
    rw [BitVec.and_comm, BitVec.and_or_distrib_left, BitVec.and_comm z x, BitVec.and_comm z y, left,
      right]
    rfl

theorem propMapped_iff (map : PropMap) (bit : Nat) :
    propMapped map bit = true ↔ map (bit / 32) &&& bitMask bit ≠ 0 := decide_eq_true_iff

theorem propMapped_mapProp (map : PropMap) (i j : Nat) :
    propMapped (mapProp map i) j = (propMapped map j || decide (i = j)) := by
  rw [Bool.eq_iff_iff, Bool.or_eq_true, propMapped_iff, propMapped_iff, decide_eq_true_eq, mapProp]
  by_cases word : j / 32 = i / 32
  · have other : i % 32 ≠ j % 32 ↔ ¬i = j := by omega
    rw [word, Function.update_self, not_iff_comm, not_or, not_not, or_and_eq_zero, bitMask_and,
      other]
  · rw [Function.update_of_ne word]
    have : ¬i = j := by
      rintro rfl
      exact word rfl
    simp [this]

/-- The bits above the 32 that are counted are copies of the last of these. -/
def Clean (map : PropMap) : Prop := ∀ j k, 31 ≤ k → (map j).getLsbD k = true → (map j).getLsbD 31 = true

theorem Clean.mapped (clean : Clean map) (bit : Nat) :
    propMapped map bit = (map (bit / 32)).getLsbD (bit % 32) := by
  have bound : bit % 32 < 32 := Nat.mod_lt _ (by decide)
  rw [Bool.eq_iff_iff, propMapped_iff]
  constructor
  · intro nonzero
    by_contra off
    refine nonzero (BitVec.eq_of_getLsbD_eq fun k _ => ?_)
    have high := clean (bit / 32) k
    simp only [BitVec.getLsbD_and, bitMask_getLsbD]
    grind
  · intro on zero
    have bit' := congrArg (fun word => word.getLsbD (bit % 32)) zero
    simp only [BitVec.getLsbD_and, bitMask_getLsbD, on] at bit'
    grind

theorem propMapped_zero (bit : Nat) : propMapped (fun _ => 0) bit = false := by simp [propMapped]

theorem clean_zero : Clean fun _ => 0 := fun j k _ on => by simp at on

theorem Clean.mapProp (clean : Clean map) (bit : Nat) : Clean (mapProp map bit) := by
  intro j k high on
  by_cases word : j = bit / 32
  · subst word
    have before := clean (bit / 32) k high
    simp only [Waifs.mapProp, Function.update_self, BitVec.getLsbD_or, bitMask_getLsbD] at on ⊢
    grind
  · rw [Waifs.mapProp, Function.update_of_ne word] at on ⊢
    exact clean j k high on

theorem countSetBits_eq (clean : Clean map) (j : Nat) :
    countSetBits (map j) = rank (propMapped map) (0 + j * 32) 32 := by
  rw [rank_shift]
  refine rank_congr fun k _ bound => ?_
  rw [clean.mapped]
  congr 2 <;> omega

theorem countMapped_eq (clean : Clean map) :
    countMapped map = rank (propMapped map) 0 nMappableProps := by
  have three : nMappableProps = 32 + (32 + 32) := rfl
  simp only [countMapped, waifMapsz, List.range_succ, List.range_zero, List.nil_append,
    List.map_append, List.map_cons, List.map_nil, List.sum_append, List.sum_cons, List.sum_nil,
    countSetBits_eq clean, three, rank_add, Nat.zero_mul, Nat.one_mul, Nat.zero_add, Nat.add_zero]
  rw [Nat.add_assoc]

theorem mapped_split {map : PropMap} {idx : Nat} (low : idx < nMappableProps) :
    rank (propMapped map) 0 nMappableProps = rank (propMapped map) 0 idx +
      ((if propMapped map idx then 1 else 0) +
        rank (propMapped map) (idx + 1) (nMappableProps - (idx + 1))) := by
  have parts : nMappableProps = idx + (1 + (nMappableProps - (idx + 1))) := by omega
  have one : rank (propMapped map) idx 1 = if propMapped map idx then 1 else 0 := by
    simp [rank]
  conv_lhs => rw [parts, rank_add, rank_add, Nat.zero_add, one]

theorem rank_mapProp (map : PropMap) (idx : Nat) :
    rank (propMapped (mapProp map idx)) 0 idx = rank (propMapped map) 0 idx ∧
      ∀ n, rank (propMapped (mapProp map idx)) (idx + 1) n = rank (propMapped map) (idx + 1) n := by
  refine ⟨rank_congr fun j _ high => ?_, fun n => rank_congr fun j above _ => ?_⟩ <;>
    have other : ¬idx = j := by omega
  · simp [propMapped_mapProp, other]
  · simp [propMapped_mapProp, other]

def MappedBelow (map : PropMap) (length : Nat) : Prop := ∀ i, i < nMappableProps → propMapped map i = true → i < length

theorem countPropvals_eq {length : Nat} (clean : Clean map) (below : MappedBelow map length) :
    countPropvals length map = rank (allocated map) 0 length := by
  rw [countPropvals, countMapped_eq clean]
  by_cases short : length ≤ nMappableProps
  · obtain ⟨more, split⟩ := Nat.exists_eq_add_of_le short
    have rest : rank (propMapped map) (0 + length) more = 0 := by
      refine rank_none fun j low high => ?_
      by_contra on
      have := below j (by omega) (by simpa using on)
      omega
    rw [split, rank_add, rest, Nat.sub_eq_zero_of_le (by omega), Nat.zero_add, Nat.add_zero]
    refine rank_congr fun j _ high => ?_
    have inside : ¬nMappableProps ≤ j := by omega
    simp [allocated, inside]
  · obtain ⟨more, rfl⟩ := Nat.exists_eq_add_of_le (Nat.le_of_not_le short)
    have mapped : rank (allocated map) 0 nMappableProps = rank (propMapped map) 0 nMappableProps := by
      refine rank_congr fun j _ high => ?_
      have inside : ¬nMappableProps ≤ j := by omega
      simp [allocated, inside]
    have rest : rank (allocated map) (0 + nMappableProps) more = more :=
      rank_all fun j low _ => by simp [allocated, show nMappableProps ≤ j by omega]
    rw [rank_add, mapped, rest]
    omega

end

end ToastStunt.Waifs
