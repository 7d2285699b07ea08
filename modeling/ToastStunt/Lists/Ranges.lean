import ToastStunt.Lists.Positions

/-!
Ranges of lists and strings: `sublist`, `substr`, `listrangeset` and `strrangeset`. They take the
bounds as `int`s. A function fails where the source would ask for no possible block, or would read
a position that its operand does not have.
-/

namespace ToastStunt.Lists

variable {α : Type}

def strRoom (size : Int) : Bool := 0 ≤ size && size + 1 < 2 ^ 31

def copyRange (room : Int → Bool) (items : List α) (lower upper : Int) : Option (List α) :=
  if lower > upper then some []
  else if room (upper - lower + 1) then copyFrom items lower (upper - lower + 1).toNat
  else none

def sublist (list : List α) (lower upper : Int) : Option (List α) :=
  copyRange listRoom list lower upper

def substr (str : CString) (lower upper : Int) : Option CString := copyRange strRoom str lower upper

def replaceRange (room : Int → Bool) (base : List α) (first last : Int) (value : List α) :
    Option (List α) :=
  let lenleft := if first > 1 then first - 1 else 0
  let lenright := if base.length > last then base.length - last else 0
  if room (lenleft + value.length + lenright) then
    (copyFrom base 1 lenleft.toNat).bind fun left =>
      (copyFrom base (last + 1) lenright.toNat).map fun right => left ++ (value ++ right)
  else none

def listrangeset (base : List α) (first last : Int) (value : List α) : Option (List α) :=
  replaceRange listRoom base first last value

def strrangeset (base : CString) (first last : Int) (value : CString) : Option CString :=
  replaceRange strRoom base first last value

/-! What they should give, with bounds of any size. -/

def range (items : List α) (first last : Int) : List α :=
  (items.drop (first - 1).toNat).take (last - first + 1).toNat

def replaced (base : List α) (first last : Int) (value : List α) : List α :=
  base.take (first - 1).toNat ++ (value ++ base.drop last.toNat)

/-- A block with this room holds every shorter sequence too, and its positions are `int`s. -/
structure Rooms (room : Int → Bool) : Prop where
  smaller : ∀ {size less : Int}, room size = true → 0 ≤ less → less ≤ size → room less = true
  int : ∀ {size : Int}, room size = true → size < 2 ^ 31 - 1

theorem listRoom_rooms : Rooms listRoom := by
  constructor
  · intro size less room nonnegative atMost
    rw [listRoom_iff] at room ⊢
    omega
  · intro size room
    have := listRoom_iff.mp room
    omega

theorem strRoom_iff {size : Int} : strRoom size = true ↔ 0 ≤ size ∧ size < 2 ^ 31 - 1 := by
  simp only [strRoom, Bool.and_eq_true, decide_eq_true_eq]
  omega

theorem strRoom_rooms : Rooms strRoom := by
  constructor
  · intro size less room nonnegative atMost
    rw [strRoom_iff] at room ⊢
    omega
  · intro size room
    exact (strRoom_iff.mp room).2

theorem copyFrom_length {items copied : List α} {i : Int} {count : Nat}
    (ran : copyFrom items i count = some copied) : copied.length = count := by
  induction count generalizing i copied with
  | zero =>
      cases ran
      rfl
  | succ count ih =>
      obtain ⟨x, _, ran⟩ := Option.bind_eq_some_iff.mp ran
      obtain ⟨rest, later, rfl⟩ := Option.map_eq_some_iff.mp ran
      rw [List.length_cons, ih later]

section

variable {room : Int → Bool} {items base value : List α} {first last : Int}

theorem copyRange_eq (rooms : Rooms room) (fits : room items.length = true) (lower : 1 ≤ first)
    (ordered : first ≤ last) (upper : last ≤ items.length) :
    copyRange room items first last = some (range items first last) := by
  have size : room (last - first + 1) = true := rooms.smaller fits (by omega) (by omega)
  have copied := copyFrom_eq items (first - 1).toNat (last - first + 1).toNat (by omega)
  have position : (((first - 1).toNat : Nat) : Int) + 1 = first := by omega
  rw [position] at copied
  rw [copyRange, if_neg (by omega), if_pos size, copied, range]

theorem copyRange_empty (room : Int → Bool) (items : List α) :
    copyRange room items first last = some [] ↔ last < first := by
  rw [copyRange]
  split
  · exact iff_of_true rfl ‹_›
  · refine iff_of_false (fun ran => ?_) (by omega)
    split at ran
    · have counted := copyFrom_length ran
      simp only [List.length_nil] at counted
      omega
    · cases ran

theorem replaceRange_eq (left : (first - 1).toNat ≤ base.length) (right : 0 ≤ last)
    (fits : room ((first - 1).toNat + value.length + (base.length - last).toNat) = true) :
    replaceRange room base first last value = some (replaced base first last value) := by
  have lenleft : (if first > 1 then first - 1 else 0) = ((first - 1).toNat : Int) := by
    split <;> omega
  have lenright : (if (base.length : Int) > last then (base.length : Int) - last else 0) =
      ((base.length - last).toNat : Int) := by
    split <;> omega
  have front := copyFrom_eq base 0 (first - 1).toNat (by omega)
  simp only [Int.natCast_zero, Int.zero_add, List.drop_zero] at front
  have back : copyFrom base (last + 1) (base.length - last).toNat = some (base.drop last.toNat) := by
    by_cases beyond : (base.length : Int) ≤ last
    · rw [show (base.length - last).toNat = 0 by omega, List.drop_of_length_le (by omega)]
      rfl
    · have copied := copyFrom_eq base last.toNat (base.length - last).toNat (by omega)
      rw [show ((last.toNat : Nat) : Int) = last by omega] at copied
      rw [copied, List.take_of_length_le (by simp; omega)]
  simp only [replaceRange, lenleft, lenright, fits, if_true, Int.toNat_natCast, front,
    Option.bind_some, back, Option.map_some]
  rfl

theorem replaceRange_some {result : List α}
    (ran : replaceRange room base first last value = some result) :
    room result.length = true ∧
      result.length = (first - 1).toNat + value.length + (base.length - last).toNat := by
  have lenleft : (if first > 1 then first - 1 else 0) = ((first - 1).toNat : Int) := by
    split <;> omega
  have lenright : (if (base.length : Int) > last then (base.length : Int) - last else 0) =
      ((base.length - last).toNat : Int) := by
    split <;> omega
  simp only [replaceRange, lenleft, lenright, Int.toNat_natCast] at ran
  split at ran
  · obtain ⟨left, front, ran⟩ := Option.bind_eq_some_iff.mp ran
    obtain ⟨right, back, rfl⟩ := Option.map_eq_some_iff.mp ran
    have length : (left ++ (value ++ right)).length =
        (first - 1).toNat + value.length + (base.length - last).toNat := by
      rw [List.length_append, List.length_append, copyFrom_length front, copyFrom_length back]
      omega
    refine ⟨?_, length⟩
    rw [length]
    push_cast
    assumption
  · cases ran

theorem replaced_length (last : Int) (value : List α) (left : (first - 1).toNat ≤ base.length) :
    (replaced base first last value).length =
      (first - 1).toNat + value.length + (base.length - last.toNat) := by
  rw [replaced, List.length_append, List.length_append, List.length_take, List.length_drop]
  omega

/-- The bounds of a range that is replaced, as far as it matters that they are `int`s: what they
say is left and right of the range has to be what is there. -/
structure ReplaceFits (room : Int → Bool) (base value : List α) (first last : Int) : Prop where
  left : -2 ^ 31 ≤ first ∨ toInt first ≤ 1
  right : last < 2 ^ 31 ∨ base.length ≤ toInt last
  fits : room ((replaced base first last value).length) = true

theorem replaceRange_toInt (rooms : Rooms room) (value : List α) (small : room base.length = true)
    (start : first ≤ base.length + 1) (nonnegative : 0 ≤ last) :
    replaceRange room base (toInt first) (toInt last) value =
        some (replaced base first last value) ↔
      ReplaceFits room base value first last := by
  have int := rooms.int small
  have counted := replaced_length last value (show (first - 1).toNat ≤ base.length by omega)
  have boundFirst := toInt_bounds first
  have sameFirst : -2 ^ 31 ≤ first → toInt first = first := fun low => toInt_eq low (by omega)
  have sameLast : last < 2 ^ 31 → toInt last = last := fun high => toInt_eq (by omega) high
  constructor
  · intro ran
    obtain ⟨fits, length⟩ := replaceRange_some ran
    rw [counted] at length
    refine ⟨?_, ?_, ?_⟩
    · by_cases low : -2 ^ 31 ≤ first
      · exact .inl low
      · by_cases high : last < 2 ^ 31
        · rw [sameLast high] at length
          omega
        · omega
    · by_cases high : last < 2 ^ 31
      · exact .inl high
      · by_cases low : -2 ^ 31 ≤ first
        · rw [sameFirst low] at length
          omega
        · omega
    · exact fits
  · rintro ⟨left, right, fits⟩
    have sameLeft : (toInt first - 1).toNat = (first - 1).toNat := by
      by_cases low : -2 ^ 31 ≤ first
      · rw [sameFirst low]
      · omega
    have sameRight : 0 ≤ toInt last ∧ base.drop (toInt last).toNat = base.drop last.toNat ∧
        (base.length - toInt last).toNat = base.length - last.toNat := by
      by_cases high : last < 2 ^ 31
      · rw [sameLast high]
        exact ⟨nonnegative, rfl, by omega⟩
      · have beyond := right.resolve_left high
        refine ⟨by omega, ?_, by omega⟩
        rw [List.drop_of_length_le (by omega), List.drop_of_length_le (by omega)]
    have same : replaced base (toInt first) (toInt last) value = replaced base first last value := by
      rw [replaced, replaced, sameLeft, sameRight.2.1]
    rw [← same]
    refine replaceRange_eq (by omega) sameRight.1 ?_
    rw [counted] at fits
    rw [sameLeft, sameRight.2.2]
    push_cast at fits ⊢
    exact fits

end

end ToastStunt.Lists
