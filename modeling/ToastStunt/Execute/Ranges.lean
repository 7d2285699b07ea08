import ToastStunt.Lists.Ranges
import ToastStunt.Maps.Finite

/-!
The opcodes for `b[f..t]` and `b[f..t] = v`, and what they do to lists and strings.
-/

namespace ToastStunt.Execute

open ToastStunt.Lists Maps

variable {α ν : Type}

inductive Operand (ν : Type)
  | key (key : Key)
  | list (items : List ν)
  | map (map : RBTree Key ν)

def Operand.typeCode : Operand ν → Int
  | .key k => k.typeCode
  | .list _ => 4 + complexFlag
  | .map _ => 10 + complexFlag

def Operand.isCollection : Operand ν → Bool
  | .key (.anon _) => true
  | .key _ => false
  | .list _ => true
  | .map _ => true

/-- What the opcode pushes or raises; a mismatch names the type it got and those it expected. -/
inductive Pushed (ν : Type)
  | value (value : Operand ν)
  | range
  | mismatch (got : Int) (expected : List Int)
  | quota

def intType : Int := 0

def keyTypes : List Int := [2 + complexFlag, 0, 1, 3, 9, 12 + complexFlag, 13 + complexFlag, 14]

def sequenceTypes : List Int := [4 + complexFlag, 10 + complexFlag, 2 + complexFlag]

structure Quotas (ν : Type) where
  weight : ν → Nat
  waifBytes : Nat → Nat
  list : Num
  map : Num
  string : Num

def keyBytes (waifBytes : Nat → Nat) : Key → Nat
  | .str str => 16 + str.length + 1
  | .float _ => 16 + 8
  | .waif waif => 16 + waifBytes waif
  | _ => 16

def mapBytes (quotas : Quotas ν) (map : RBTree Key ν) : Int :=
  toInt (32 + (map.bindings.map fun entry =>
    24 + keyBytes quotas.waifBytes entry.1 + quotas.weight entry.2).sum)

def unlessQuota (small : Bool) (value : Operand ν) : Pushed ν :=
  if small then .value value else .quota

def pushList (quotas : Quotas ν) (items : List ν) : Pushed ν :=
  unlessQuota (valueBytes quotas.weight items ≤ quotas.list.val) (.list items)

def pushMap (quotas : Quotas ν) (map : RBTree Key ν) : Pushed ν :=
  unlessQuota (mapBytes quotas map ≤ quotas.map.val) (.map map)

def pushString (quotas : Quotas ν) (str : CString) : Pushed ν :=
  unlessQuota (str.length ≤ quotas.string.val) (.key (.str str))

def mapseek (map : RBTree Key ν) (key : Key) : Option (Option (Trav Key ν)) :=
  rbseek (compare false) key map.root []

def outOfRange (length first last : Int) : Prop :=
  first ≤ last ∧ (first ≤ 0 ∨ first > length ∨ last ≤ 0 ∨ last > length)

instance (length first last : Int) : Decidable (outOfRange length first last) :=
  inferInstanceAs (Decidable (first ≤ last ∧ (first ≤ 0 ∨ first > length ∨ last ≤ 0 ∨ last > length)))

def mapRangeRef (map : RBTree Key ν) (first last : Key) : Option (Pushed ν) :=
  let rel := compare false first last
  (mapseek map first).bind fun iterfrom =>
    (mapseek map last).bind fun iterto =>
      match iterfrom, iterto with
      | some iterfrom, some iterto =>
          if rel > 0 then some (.value (.map rbnew))
          else (maprange (compare false) map iterfrom iterto).map fun map => .value (.map map)
      | _, _ => if rel ≤ 0 then some .range else some (.value (.map rbnew))

def rangeRef (base first last : Operand ν) : Option (Pushed ν) :=
  match base, first, last with
  | .map map, .key first, .key last => mapRangeRef map first last
  | .map _, first, last =>
      some (.mismatch (if last.isCollection then last.typeCode else first.typeCode) keyTypes)
  | .list items, .key (.int first), .key (.int last) =>
      if outOfRange items.length first.val last.val then some .range
      else (sublist items (toInt first.val) (toInt last.val)).map fun items => .value (.list items)
  | .key (.str str), .key (.int first), .key (.int last) =>
      if outOfRange str.length first.val last.val then some .range
      else
        (substr str (toInt first.val) (toInt last.val)).map fun str => .value (.key (.str str))
  | .list _, first, last | .key (.str _), first, last =>
      some (.mismatch (if last.typeCode ≠ intType then last.typeCode else first.typeCode) [intType])
  | base, _, _ => some (.mismatch base.typeCode sequenceTypes)

def mapRangeSet (quotas : Quotas ν) (map : RBTree Key ν) (first last : Key)
    (value : RBTree Key ν) : Option (Pushed ν) :=
  (mapseek map first).bind fun iterfrom =>
    (mapseek map last).bind fun iterto =>
      match iterfrom, iterto with
      | some iterfrom, some iterto =>
          (maprangeset (compare false) map iterfrom iterto value).map (pushMap quotas)
      | _, _ => some .range

def rangeSet (quotas : Quotas ν) (base first last value : Operand ν) : Option (Pushed ν) :=
  match base, value, first, last with
  | .map map, .map value, .key first, .key last => mapRangeSet quotas map first last value
  | .map _, .map _, first, last =>
      some (.mismatch (if last.isCollection then last.typeCode else first.typeCode) keyTypes)
  | .list base, .list value, .key (.int first), .key (.int last) =>
      if first.val > base.length + 1 ∨ last.val < 0 then some .range
      else
        (listrangeset base (toInt first.val) (toInt last.val) value).map (pushList quotas)
  | .key (.str base), .key (.str value), .key (.int first), .key (.int last) =>
      if first.val > base.length + 1 ∨ last.val < 0 then some .range
      else
        (strrangeset base (toInt first.val) (toInt last.val) value).map (pushString quotas)
  | .list _, .list _, first, last | .key (.str _), .key (.str _), first, last =>
      some (.mismatch (if last.typeCode ≠ intType then last.typeCode else first.typeCode) [intType])
  | base, value, _, _ =>
      if base.typeCode ≠ value.typeCode then some (.mismatch value.typeCode [base.typeCode])
      else some (.mismatch base.typeCode sequenceTypes)

/-! Lists and strings. -/

/-- The two kinds of sequences: how one is put on the stack, within its limit, and how large it
may be. -/
structure Sequences (α ν : Type) where
  operand : List α → Operand ν
  push : Quotas ν → List α → Pushed ν
  room : Int → Bool

def lists (ν : Type) : Sequences ν ν := ⟨.list, pushList, listRoom⟩

def strings (ν : Type) : Sequences UInt8 ν := ⟨fun str => .key (.str str), pushString, strRoom⟩

/-- `b[f..t]` and `b[f..t] = v`, where `b` and `v` are both lists or both strings. -/
structure RangesExact (sequences : Sequences α ν) (base value : List α) (first last : Num) :
    Prop where
  ref : rangeRef (sequences.operand base) (.key (.int first)) (.key (.int last)) =
    some (if last.val < first.val then .value (sequences.operand [])
      else if 1 ≤ first.val ∧ last.val ≤ base.length then
        .value (sequences.operand (range base first.val last.val))
      else .range)
  set : ∀ quotas, rangeSet quotas (sequences.operand base) (.key (.int first)) (.key (.int last))
      (sequences.operand value) =
    some (if base.length + 1 < first.val ∨ last.val < 0 then .range
      else sequences.push quotas (replaced base first.val last.val value))

/-- The bounds as `int`s: reversed ones stay so, and for an assignment what is left and right of
the range stays and the result finds room. -/
structure RangesFit (room : Int → Bool) (base value : List α) (first last : Num) : Prop where
  ref : first.val ≤ last.val ∨ toInt last.val < toInt first.val
  set : base.length + 1 < first.val ∨ last.val < 0 ∨
    ReplaceFits room base value first.val last.val

section

variable {room : Int → Bool} {base : List α}

theorem copyRange_exact_iff (first last : Num) (rooms : Rooms room) (small : room base.length = true)
    {operand : List α → Operand ν} (apart : ∀ {a b}, operand a = operand b → a = b) :
    (if outOfRange base.length first.val last.val then some .range
      else (copyRange room base (toInt first.val) (toInt last.val)).map
        fun items => Pushed.value (operand items)) =
      some (if last.val < first.val then .value (operand [])
        else if 1 ≤ first.val ∧ last.val ≤ base.length then
          .value (operand (range base first.val last.val))
        else .range) ↔
    first.val ≤ last.val ∨ toInt last.val < toInt first.val := by
  by_cases reversed : last.val < first.val
  · have inside : ¬outOfRange base.length first.val last.val := fun out => by
      have := out.1
      omega
    rw [if_neg inside, if_pos reversed, or_iff_right (by omega), ← copyRange_empty room base]
    constructor
    · intro ran
      obtain ⟨items, copied, same⟩ := Option.map_eq_some_iff.mp ran
      rw [copied, apart (Pushed.value.inj same)]
    · intro copied
      rw [copied]
      rfl
  · rw [if_neg reversed]
    refine iff_of_true ?_ (.inl (by omega))
    by_cases inside : 1 ≤ first.val ∧ last.val ≤ base.length
    · have int := rooms.int small
      have within : ¬outOfRange base.length first.val last.val := by
        rw [outOfRange]
        omega
      rw [if_neg within, if_pos inside, toInt_eq (by omega) (by omega),
        toInt_eq (by omega) (by omega),
        copyRange_eq rooms small inside.1 (by omega) inside.2]
      rfl
    · have out : outOfRange base.length first.val last.val := by
        rw [outOfRange]
        omega
      rw [if_pos out, if_neg inside]

theorem replaceRange_exact_iff (first last : Num) (value : List α) (rooms : Rooms room)
    (small : room base.length = true) {push : Quotas ν → List α → Pushed ν}
    (apart : ∀ {a b : List α}, room a.length = true →
      (∀ quotas, push quotas a = push quotas b) → a = b) :
    (∀ quotas, (if first.val > base.length + 1 ∨ last.val < 0 then some .range
      else (replaceRange room base (toInt first.val) (toInt last.val) value).map (push quotas)) =
      some (if base.length + 1 < first.val ∨ last.val < 0 then .range
        else push quotas (replaced base first.val last.val value))) ↔
    (base.length + 1 < first.val ∨ last.val < 0 ∨
      ReplaceFits room base value first.val last.val) := by
  by_cases out : base.length + 1 < first.val ∨ last.val < 0
  · exact iff_of_true (fun quotas => by rw [if_pos out, if_pos out]) (by tauto)
  · have fits := replaceRange_toInt rooms value small
      (show first.val ≤ base.length + 1 by omega) (show 0 ≤ last.val by omega)
    rw [← or_assoc, or_iff_right out, ← fits]
    constructor
    · intro ran
      cases replacing : replaceRange room base (toInt first.val) (toInt last.val) value with
      | none =>
          have failed := ran ⟨fun _ => 0, fun _ => 0, ⟨0, by decide, by decide⟩,
            ⟨0, by decide, by decide⟩, ⟨0, by decide, by decide⟩⟩
          rw [if_neg out, replacing] at failed
          cases failed
      | some result =>
          obtain ⟨room', _⟩ := replaceRange_some replacing
          refine congrArg some (apart room' fun quotas => ?_)
          have same := ran quotas
          rw [if_neg out, if_neg out, replacing] at same
          exact Option.some.inj same
    · intro replacing quotas
      rw [if_neg out, if_neg out, replacing]
      rfl

end

theorem unlessQuota_inj {small small' : Bool} {a b : Operand ν} (passes : small = true)
    (same : unlessQuota small a = unlessQuota small' b) : a = b := by
  rw [unlessQuota, unlessQuota, if_pos passes] at same
  split at same
  · exact Pushed.value.inj same
  · cases same

def noQuotas (ν : Type) (limit : Num) : Quotas ν := ⟨fun _ => 0, fun _ => 0, limit, limit, limit⟩

def longest : Num := ⟨2 ^ 31, by decide, by decide⟩

theorem pushList_inj {a b : List ν} (same : ∀ quotas, pushList quotas a = pushList quotas b) :
    a = b := by
  obtain ⟨limit, within⟩ := exists_limit fun _ : ν => 0
  exact Operand.list.inj (unlessQuota_inj (decide_eq_true (within a)) (same (noQuotas ν limit)))

theorem pushString_inj {a b : CString} (room : strRoom a.length = true)
    (same : ∀ quotas : Quotas ν, pushString quotas a = pushString quotas b) : a = b := by
  have short := (strRoom_iff.mp room).2
  have passes : ((a.length : Int) ≤ longest.val) := by
    change (a.length : Int) ≤ 2 ^ 31
    omega
  have equal := unlessQuota_inj (decide_eq_true passes) (same (noQuotas ν longest))
  exact Key.str.inj (Operand.key.inj equal)

theorem string_inj {a b : CString} (same : (.key (.str a) : Operand ν) = .key (.str b)) : a = b :=
  Key.str.inj (Operand.key.inj same)

theorem lists_exact_iff (first last : Num) {base : List ν} (value : List ν)
    (small : listRoom base.length = true) :
    RangesExact (lists ν) base value first last ↔ RangesFit listRoom base value first last := by
  have ref := copyRange_exact_iff first last listRoom_rooms small (@Operand.list.inj ν)
  have set := replaceRange_exact_iff first last value listRoom_rooms small
    fun {_ _ : List ν} _ => pushList_inj
  constructor
  · intro exact'
    exact ⟨ref.mp exact'.ref, set.mp exact'.set⟩
  · intro fit
    exact ⟨ref.mpr fit.ref, set.mpr fit.set⟩

theorem strings_exact_iff (first last : Num) {base : CString} (value : CString)
    (small : strRoom base.length = true) :
    RangesExact (strings ν) base value first last ↔ RangesFit strRoom base value first last := by
  have ref := copyRange_exact_iff first last strRoom_rooms small (@string_inj ν)
  have set := replaceRange_exact_iff first last value strRoom_rooms small (@pushString_inj ν)
  constructor
  · intro exact'
    exact ⟨ref.mp exact'.ref, set.mp exact'.set⟩
  · intro fit
    exact ⟨ref.mpr fit.ref, set.mpr fit.set⟩

theorem ranges_exact_iff (first last : Num) :
    (∀ base value : List ν, listRoom base.length = true →
      (RangesExact (lists ν) base value first last ↔
        RangesFit listRoom base value first last)) ∧
    (∀ base value : CString, strRoom base.length = true →
      (RangesExact (strings ν) base value first last ↔
        RangesFit strRoom base value first last)) :=
  ⟨fun _ value small => lists_exact_iff first last value small,
    fun _ value small => strings_exact_iff first last value small⟩

def threeNumbers : List Nat := [1, 2, 3]

def beyondInt : Num := ⟨2 ^ 32 + 1, by decide, by decide⟩

def three : Num := ⟨3, by decide, by decide⟩

theorem ranges_exact_abc :
    (RangesExact (lists Nat) threeNumbers [] three three ↔
      RangesFit listRoom threeNumbers [] three three) ∧
    (RangesExact (strings Nat) [97, 98, 99] [] three three ↔
      RangesFit strRoom [97, 98, 99] ([] : CString) three three) :=
  ⟨(ranges_exact_iff three three).1 threeNumbers [] (by decide),
    (ranges_exact_iff (ν := Nat) three three).2 [97, 98, 99] [] (by decide)⟩

/-- The range from 2^32 + 1 to 3 is the whole list and not empty. -/
theorem rangeRef_beyond_int : ¬∀ (first last : Num) (base value : List Nat),
    listRoom base.length = true → RangesExact (lists Nat) base value first last := by
  intro all
  have small : listRoom threeNumbers.length = true := by decide
  have fits := (lists_exact_iff beyondInt three [] small).mp (all _ _ _ _ small)
  exact absurd fits.ref (by decide)

end ToastStunt.Execute
