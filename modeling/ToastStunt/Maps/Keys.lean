import Mathlib.Algebra.Order.Ring.Int
import ToastStunt.Library.OrderedTable
import ToastStunt.Strings

/-!
The keys that `mapinsert` accepts, and the comparisons of utils.cc on them.
-/

namespace ToastStunt

structure Num where
  val : Int
  low : -2 ^ 63 ≤ val
  high : val < 2 ^ 63
  deriving DecidableEq

namespace Maps

open OrderedTable

inductive Error
  | none | type | div | perm | propnf | verbnf | varnf | invind | recmove | maxrec | range
  | args | nacc | invarg | quota | float | file | exec | intrpt
  deriving DecidableEq, Repr

def Error.num (err : Error) : Nat := err.ctorIdx

theorem Error.num_inj {a b : Error} (same : a.num = b.num) : a = b := by
  cases a <;> cases b <;> first | rfl | cases same

abbrev Double := BitVec 64

/-- Sign and magnitude: the order of the doubles that are numbers, with one zero. -/
def Double.rank (fnum : Double) : Int :=
  if fnum.msb then -(fnum.setWidth 63).toNat else (fnum.setWidth 63).toNat

def Double.isNaN (fnum : Double) : Bool := 0x7ff0000000000000 < (fnum.setWidth 63).toNat

inductive Key
  | int (num : Num)
  | obj (obj : Num)
  | str (str : CString)
  | err (err : Error)
  | float (fnum : Double)
  | bool (truth : Bool)
  | anon (anon : Nat)
  | waif (waif : Nat)
  deriving DecidableEq

def complexFlag : Int := 0x80

def Key.typeCode : Key → Int
  | int _ => 0
  | obj _ => 1
  | str _ => 2 + complexFlag
  | err _ => 3
  | float _ => 9
  | anon _ => 12 + complexFlag
  | waif _ => 13 + complexFlag
  | bool _ => 14

/-- Only the sign of the result is documented. -/
def strcmp : CString → CString → Int
  | [], [] => 0
  | [], _ :: _ => -1
  | _ :: _, [] => 1
  | a :: left, b :: right => if a = b then strcmp left right else if a < b then -1 else 1

/-- The difference of two 64-bit numbers, as the `int` that is returned. -/
def intDifference (lhs rhs : Num) : Int := (lhs.val - rhs.val).bmod (2 ^ 32)

def compareFloat (lhs rhs : Double) : Int :=
  if lhs.isNaN || rhs.isNaN then 1
  else if lhs.rank = rhs.rank then 0
  else if lhs.rank < rhs.rank then -1 else 1

def compare (caseMatters : Bool) (lhs rhs : Key) : Int :=
  match lhs, rhs with
  | .int a, .int b => intDifference a b
  | .obj a, .obj b => intDifference a b
  | .err a, .err b => a.num - b.num
  | .str a, .str b => if caseMatters then strcmp a b else strcasecmp a b
  | .float a, .float b => compareFloat a b
  | .waif a, .waif b => if a = b then 0 else 1
  | .anon a, .anon b => if a = b then 0 else 1
  | .bool a, .bool b => if a = b then 0 else 1
  | lhs, rhs => lhs.typeCode - rhs.typeCode

def equality (caseMatters : Bool) (lhs rhs : Key) : Bool :=
  match lhs, rhs with
  | .int a, .int b => a = b
  | .obj a, .obj b => a = b
  | .err a, .err b => a = b
  | .str a, .str b => if caseMatters then strcmp a b = 0 else strcasecmp a b = 0
  | .float a, .float b => !(a.isNaN || b.isNaN) && a.rank = b.rank
  | .anon a, .anon b => a = b
  | .waif a, .waif b => a = b
  | .bool a, .bool b => a = b
  | .bool a, .int b => b.val = if a then 1 else 0
  | .int a, .bool b => a.val = if b then 1 else 0
  | _, _ => false

def SameKey (a b : Key) : Prop := a.typeCode = b.typeCode ∧ equality false a b = true

instance (a b : Key) : Decidable (SameKey a b) :=
  inferInstanceAs (Decidable (a.typeCode = b.typeCode ∧ equality false a b = true))

def Key.isNumber : Key → Prop
  | float fnum => fnum.isNaN = false
  | _ => True

/-- `compare` tells the order of the two keys: no difference of numbers overflows an `int`,
and two booleans, anonymous objects or waifs are one. -/
def Comparable (a b : Key) : Prop :=
  match a, b with
  | .int a, .int b => -2 ^ 31 < a.val - b.val ∧ a.val - b.val < 2 ^ 31
  | .obj a, .obj b => -2 ^ 31 < a.val - b.val ∧ a.val - b.val < 2 ^ 31
  | .bool a, .bool b => a = b
  | .anon a, .anon b => a = b
  | .waif a, .waif b => a = b
  | _, _ => True

theorem compare_of_ne {a b : Key} (ne : a.typeCode ≠ b.typeCode) :
    compare false a b = a.typeCode - b.typeCode := by
  cases a <;> cases b <;> first | exact absurd rfl ne | rfl

theorem intDifference_eq {a b : Num} (near : -2 ^ 31 < a.val - b.val ∧ a.val - b.val < 2 ^ 31) :
    intDifference a b = a.val - b.val :=
  Int.bmod_eq_of_le (by omega) (by omega)

theorem compareFloat_eq {a b : Double} (numberA : a.isNaN = false) (numberB : b.isNaN = false) :
    (compareFloat a b < 0 ↔ a.rank < b.rank) ∧ (compareFloat a b = 0 ↔ a.rank = b.rank) := by
  simp only [compareFloat, numberA, numberB, Bool.or_self, Bool.false_eq_true, if_false]
  split <;> try split
  all_goals omega

theorem Comparable.symm {a b : Key} (comparable : Comparable a b) : Comparable b a := by
  cases a <;> cases b <;> simp_all [Comparable] <;> omega

theorem compare_flip {a b : Key} (numberA : a.isNumber) (numberB : b.isNumber)
    (comparable : Comparable a b) : compare false a b < 0 ↔ 0 < compare false b a := by
  by_cases same : a.typeCode = b.typeCode
  · cases a <;> cases b <;> simp only [Key.typeCode, complexFlag] at same <;> try omega
    case int.int a b =>
      simp only [compare, intDifference_eq comparable,
        intDifference_eq (Comparable.symm (a := .int a) (b := .int b) comparable)]
      omega
    case obj.obj a b =>
      simp only [compare, intDifference_eq comparable,
        intDifference_eq (Comparable.symm (a := .obj a) (b := .obj b) comparable)]
      omega
    case str.str a b => simpa [compare] using strcasecmp_flip a b
    case err.err a b =>
      simp only [compare]
      omega
    case float.float a b =>
      have forth := compareFloat_eq numberA numberB
      have back := compareFloat_eq numberB numberA
      simp only [compare]
      omega
    all_goals
      obtain rfl := comparable
      simp [compare]
  · rw [compare_of_ne same, compare_of_ne (Ne.symm same)]
    omega

theorem compare_trans {a b c : Key} (numberA : a.isNumber) (numberB : b.isNumber)
    (numberC : c.isNumber) (first : Comparable a b) (second : Comparable b c)
    (third : Comparable a c) (atMost : compare false a b ≤ 0) (atMost' : compare false b c ≤ 0) :
    compare false a c ≤ 0 := by
  by_cases same : a.typeCode = b.typeCode
  · by_cases same' : b.typeCode = c.typeCode
    · cases a <;> cases b <;> simp only [Key.typeCode, complexFlag] at same <;> try omega
      all_goals cases c <;> simp only [Key.typeCode, complexFlag] at same' <;> try omega
      case int.int.int a b c =>
        simp only [compare, intDifference_eq first, intDifference_eq second,
          intDifference_eq third] at atMost atMost' ⊢
        omega
      case obj.obj.obj a b c =>
        simp only [compare, intDifference_eq first, intDifference_eq second,
          intDifference_eq third] at atMost atMost' ⊢
        omega
      case str.str.str a b c => exact strcasecmp_trans a b c atMost atMost'
      case err.err.err a b c =>
        simp only [compare] at atMost atMost' ⊢
        omega
      case float.float.float a b c =>
        have ab := compareFloat_eq numberA numberB
        have bc := compareFloat_eq numberB numberC
        have ac := compareFloat_eq numberA numberC
        simp only [compare] at atMost atMost' ⊢
        omega
      all_goals
        obtain rfl := third
        simp [compare]
    · have other : a.typeCode ≠ c.typeCode := same ▸ same'
      rw [compare_of_ne same'] at atMost'
      rw [compare_of_ne other, same]
      exact atMost'
  · rw [compare_of_ne same] at atMost
    by_cases same' : b.typeCode = c.typeCode
    · have other : a.typeCode ≠ c.typeCode := same' ▸ same
      rw [compare_of_ne other, ← same']
      exact atMost
    · rw [compare_of_ne same'] at atMost'
      have other : a.typeCode ≠ c.typeCode := by omega
      rw [compare_of_ne other]
      omega

theorem compare_zero {a b : Key} (numberA : a.isNumber) (numberB : b.isNumber)
    (comparable : Comparable a b) : compare false a b = 0 ↔ SameKey a b := by
  by_cases same : a.typeCode = b.typeCode
  · cases a <;> cases b <;> simp only [Key.typeCode, complexFlag] at same <;> try omega
    case int.int a b =>
      have valueEq : a = b ↔ a.val = b.val := by
        cases a
        cases b
        simp
      simp only [SameKey, equality, compare, intDifference_eq comparable, Key.typeCode, true_and,
        decide_eq_true_eq, valueEq]
      omega
    case obj.obj a b =>
      have valueEq : a = b ↔ a.val = b.val := by
        cases a
        cases b
        simp
      simp only [SameKey, equality, compare, intDifference_eq comparable, Key.typeCode, true_and,
        decide_eq_true_eq, valueEq]
      omega
    case str.str a b => simp [SameKey, equality, compare, Key.typeCode]
    case err.err a b =>
      have zero : (a.num : Int) - b.num = 0 ↔ a = b :=
        ⟨fun zero => Error.num_inj (by omega), fun same => by simp [same]⟩
      simpa [SameKey, equality, compare, Key.typeCode] using zero
    case float.float a b =>
      have forth := compareFloat_eq numberA numberB
      simp_all [SameKey, equality, compare, Key.typeCode, Key.isNumber]
    all_goals
      obtain rfl := comparable
      simp [compare, SameKey, equality]
  · rw [compare_of_ne same]
    refine ⟨fun zero => absurd (by omega) same, fun sameKey => absurd sameKey.1 same⟩

/-- The keys of a map and the key of one more operation on it, where `compare` can tell them. -/
def Told (keys : List Key) (key : Key) : Prop :=
  key.isNumber ∧ ∀ other ∈ keys, Comparable other key

theorem totalPreorder_of_comparable {Used : Key → Prop}
    (numbers : ∀ key, Used key → key.isNumber)
    (comparable : ∀ a b, Used a → Used b → Comparable a b) :
    TotalPreorder (compare false) Used where
  flip a b usedA usedB :=
    compare_flip (numbers a usedA) (numbers b usedB) (comparable a b usedA usedB)
  trans a b c usedA usedB usedC :=
    compare_trans (numbers a usedA) (numbers b usedB) (numbers c usedC)
      (comparable a b usedA usedB) (comparable b c usedB usedC) (comparable a c usedA usedC)

theorem Comparable.refl (a : Key) : Comparable a a := by
  cases a <;> simp [Comparable]

end Maps

end ToastStunt
