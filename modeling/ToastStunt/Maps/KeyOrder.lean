import ToastStunt.Maps.Keys

/-!
The order of all keys: by type, and within a type by value.
-/

namespace ToastStunt.Maps

open OrderedTable

def Key.number : Key → Int
  | int num => num.val
  | obj num => num.val
  | str _ => 0
  | err error => error.num
  | float fnum => fnum.rank
  | bool truth => truth.toNat
  | anon identity => identity
  | waif identity => identity

def Key.text : Key → CString
  | str text => text
  | _ => []

/-- Anonymous objects and waifs are in the order of their identities. -/
def Key.order (a b : Key) : Int :=
  if a.typeCode ≠ b.typeCode then a.typeCode - b.typeCode
  else if a.number ≠ b.number then a.number - b.number
  else strcasecmp a.text b.text

theorem order_flip (a b : Key) : a.order b < 0 ↔ 0 < b.order a := by
  have texts := strcasecmp_flip a.text b.text
  unfold Key.order
  split_ifs <;> omega

theorem order_trans {a b c : Key} (first : a.order b ≤ 0) (second : b.order c ≤ 0) :
    a.order c ≤ 0 := by
  have texts := strcasecmp_trans a.text b.text c.text
  unfold Key.order at *
  split_ifs at * <;> omega

theorem order_total (Used : Key → Prop) : TotalPreorder Key.order Used :=
  ⟨fun a b _ _ => order_flip a b, fun _ _ _ _ _ _ => order_trans⟩

theorem order_self (a : Key) : a.order a = 0 :=
  (order_total fun _ => True).refl trivial

theorem order_of_ne {a b : Key} (ne : a.typeCode ≠ b.typeCode) :
    a.order b = a.typeCode - b.typeCode := if_pos ne

theorem order_num (a b : Num) :
    (Key.int a).order (.int b) = a.val - b.val ∧ (Key.obj a).order (.obj b) = a.val - b.val := by
  have texts : strcasecmp [] [] = 0 := rfl
  refine ⟨?_, ?_⟩ <;> simp only [Key.order, Key.typeCode, Key.number, Key.text] <;> split_ifs <;>
    omega

theorem Comparable.agrees {a b : Key} (numberA : a.isNumber) (numberB : b.isNumber)
    (comparable : Comparable a b) :
    (compare false a b < 0 ↔ a.order b < 0) ∧ (compare false a b = 0 ↔ a.order b = 0) := by
  by_cases same : a.typeCode = b.typeCode
  · cases a <;> cases b <;> simp only [Key.typeCode, complexFlag] at same <;> try omega
    case int.int a b => simp [compare, intDifference_eq comparable, (order_num a b).1]
    case obj.obj a b => simp [compare, intDifference_eq comparable, (order_num a b).2]
    case str.str a b => simp [compare, Key.order, Key.number, Key.text, Key.typeCode]
    case err.err a b =>
      have texts : strcasecmp [] [] = 0 := rfl
      simp only [compare, Key.order, Key.number, Key.text, Key.typeCode]
      split_ifs <;> omega
    case float.float a b =>
      have ranks := compareFloat_eq numberA numberB
      have texts : strcasecmp [] [] = 0 := rfl
      simp only [compare, Key.order, Key.number, Key.text, Key.typeCode]
      split_ifs <;> omega
    all_goals
      obtain rfl := comparable
      rw [order_self]
      simp [compare]
  · rw [compare_of_ne same, order_of_ne same]
    exact ⟨.rfl, .rfl⟩

theorem sameOrder_of_comparable {Used : Key → Prop} (numbers : ∀ key, Used key → key.isNumber)
    (comparable : ∀ a b, Used a → Used b → Comparable a b) :
    SameOrder (compare false) Key.order Used where
  lt a b usedA usedB :=
    ((comparable a b usedA usedB).agrees (numbers a usedA) (numbers b usedB)).1
  eq a b usedA usedB :=
    ((comparable a b usedA usedB).agrees (numbers a usedA) (numbers b usedB)).2

end ToastStunt.Maps
