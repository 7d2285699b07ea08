import ToastStunt.Execute.MapRanges

/-!
`equality` of utils.cc on all values, with `listequal` of list.cc and `mapequal` of map.cc.
-/

namespace ToastStunt.Values

open Maps OrderedTable RedBlack ColorTree Execute

/-- Lists and maps are at addresses. A map is given by its bindings in the order in which it is
iterated. -/
inductive Value
  | clear
  | none
  | leaf (key : Key)
  | list (address : Nat) (items : List Value)
  | map (address : Nat) (entries : List (Key × Value))

mutual

def equality (caseMatters : Bool) : Value → Value → Bool
  | .clear, .clear => true
  | .none, .none => true
  | .leaf lhs, .leaf rhs => Maps.equality caseMatters lhs rhs
  | .list address lhs, .list address' rhs =>
      address = address' || (lhs.length = rhs.length && listequal caseMatters lhs rhs)
  | .map address lhs, .map address' rhs => address = address' || mapequal caseMatters lhs rhs
  | _, _ => false

def listequal (caseMatters : Bool) : List Value → List Value → Bool
  | [], [] => true
  | first :: lhs, second :: rhs => equality caseMatters first second && listequal caseMatters lhs rhs
  | _, _ => false

/-- The loop stops at the first binding that differs, and where one of the maps ends. -/
def mapequal (caseMatters : Bool) : List (Key × Value) → List (Key × Value) → Bool
  | [], [] => true
  | (key, value) :: lhs, (key', value') :: rhs =>
      Maps.equality caseMatters key key' && equality caseMatters value value' &&
        mapequal caseMatters lhs rhs
  | _, _ => false

end

/-! The walk of `mapequal` over two trees, with what `rbtfirst` and `rbtnext` visit. -/

section

variable {κ ν : Type} (equal : κ × ν → κ × ν → Bool)

def mapequalLoop : Nat → Option (Trav κ ν) → Option (Trav κ ν) → Option Bool
  | 0, _, _ => none
  | fuel + 1, lhs, rhs =>
      lhs.bind fun travLhs => rhs.bind fun travRhs =>
        match travLhs.it, travRhs.it with
        | node _ _ nodeLhs _, node _ _ nodeRhs _ =>
            if equal nodeLhs.binding nodeRhs.binding then
              mapequalLoop fuel (rbtnext travLhs) (rbtnext travRhs)
            else some false
        | nil, nil => some true
        | _, _ => some false

def walk (lhs rhs : RBTree κ ν) : Option Bool :=
  mapequalLoop equal (lhs.root.count + 1) (rbtfirst lhs) (rbtfirst rhs)

end

/-! The keys. -/

theorem strcmp_eq_zero (lhs rhs : CString) : strcmp lhs rhs = 0 ↔ lhs = rhs := by
  induction lhs generalizing rhs with
  | nil => cases rhs <;> simp [strcmp]
  | cons a lhs ih =>
      cases rhs with
      | nil => simp [strcmp]
      | cons b rhs =>
          by_cases same : a = b
          · simp [strcmp, same, ih]
          · simp only [strcmp, same, if_false, List.cons.injEq, false_and, iff_false]
            split <;> omega

theorem key_refl (caseMatters : Bool) {key : Key} (number : key.isNumber) :
    Maps.equality caseMatters key key = true := by
  cases key <;> cases caseMatters <;>
    simp_all [Maps.equality, Key.isNumber, strcasecmp_eq_zero, strcmp_eq_zero]

theorem key_comm (caseMatters : Bool) (lhs rhs : Key) :
    Maps.equality caseMatters lhs rhs = Maps.equality caseMatters rhs lhs := by
  rw [Bool.eq_iff_iff]
  cases lhs <;> cases rhs <;> simp only [Maps.equality, Bool.false_eq_true, decide_eq_true_eq]
  case str.str =>
    split
    · simp only [strcmp_eq_zero, decide_eq_true_eq]
      exact eq_comm
    · simp only [strcasecmp_eq_zero, decide_eq_true_eq]
      exact eq_comm
  case float.float a b =>
    rw [Bool.or_comm, decide_eq_decide.mpr (eq_comm : a.rank = b.rank ↔ b.rank = a.rank)]
  all_goals exact eq_comm

theorem key_trans (caseMatters : Bool) {a b c : Key} (first : Maps.equality caseMatters a b = true)
    (second : Maps.equality caseMatters b c = true) : Maps.equality caseMatters a c = true := by
  cases a <;> cases b <;> simp only [Maps.equality, Bool.false_eq_true] at first <;>
    cases c <;> simp only [Maps.equality, Bool.false_eq_true] at second ⊢
  case str.str.str =>
    cases caseMatters <;> simp_all [strcasecmp_eq_zero, strcmp_eq_zero]
  case bool.int.bool a b c => cases a <;> cases c <;> simp_all
  case int.bool.int a b c =>
    cases a
    cases c
    simp_all
  all_goals simp_all

theorem key_zero {caseMatters : Bool} {a b : Key} (same : a.typeCode = b.typeCode)
    (equal : Maps.equality caseMatters a b = true) : Maps.compare false a b = 0 := by
  cases a <;> cases b <;> simp only [Key.typeCode, complexFlag] at same <;> try omega
  case str.str => cases caseMatters <;> simp_all [Maps.equality, Maps.compare, strcasecmp_eq_zero,
    strcmp_eq_zero]
  case float.float a b =>
    simp only [Maps.equality, Bool.and_eq_true, Bool.not_eq_true', Bool.or_eq_false_iff,
      decide_eq_true_eq] at equal
    simp [Maps.compare, compareFloat, equal]
  all_goals simp_all [Maps.equality, Maps.compare, intDifference]

theorem strcasecmp_folded (lhs rhs : CString) :
    strcasecmp lhs rhs = strcmp (caseFold lhs) (caseFold rhs) := by
  induction lhs generalizing rhs with
  | nil => cases rhs <;> simp [strcasecmp, strcmp, caseFold]
  | cons a lhs ih =>
      cases rhs with
      | nil => simp [strcasecmp, strcmp, caseFold]
      | cons b rhs =>
          have rest := ih rhs
          simp only [caseFold, List.map_cons] at rest ⊢
          simp only [strcasecmp, strcmp, rest]

theorem compare_congr {a b : Key} (numberA : a.isNumber) (numberB : b.isNumber)
    (zero : Maps.compare false a b = 0) (c : Key) :
    Maps.compare false a c = Maps.compare false b c ∧
      Maps.compare false c a = Maps.compare false c b := by
  by_cases same : a.typeCode = b.typeCode
  · cases a <;> cases b <;> simp only [Key.typeCode, complexFlag] at same <;> try omega
    all_goals cases c <;> try exact ⟨rfl, rfl⟩
    case int.int.int a b c =>
      simp only [Maps.compare, intDifference, Int.bmod] at zero ⊢
      omega
    case obj.obj.obj a b c =>
      simp only [Maps.compare, intDifference, Int.bmod] at zero ⊢
      omega
    case str.str.str a b c =>
      simp only [Maps.compare, Bool.false_eq_true, if_false, strcasecmp_eq_zero] at zero
      simp only [Maps.compare, Bool.false_eq_true, if_false, strcasecmp_folded, zero, and_self]
    case err.err.err a b c =>
      simp only [Maps.compare] at zero ⊢
      omega
    case float.float.float a b c =>
      have equal := (compareFloat_eq numberA numberB).2.mp zero
      simp only [Key.isNumber] at numberA numberB
      simp only [Maps.compare, compareFloat, numberA, numberB, equal, and_self]
    all_goals
      simp only [Maps.compare, ite_eq_left_iff, one_ne_zero, imp_false, not_not] at zero
      rw [zero]
      exact ⟨rfl, rfl⟩
  · rw [compare_of_ne same] at zero
    omega

/-! Values of a heap: what is at an address is the same wherever the address is held. No double
is a NaN, and `Made` says how a map came about. -/

section

variable (heap : Nat → Value) (made : List (Key × Value) → Prop)

mutual

def Legal : Value → Prop
  | .leaf key => key.isNumber
  | .list address items => heap address = .list address items ∧ LegalItems items
  | .map address entries =>
      heap address = .map address entries ∧ made entries ∧ LegalEntries entries
  | _ => True

def LegalItems : List Value → Prop
  | [] => True
  | value :: rest => Legal value ∧ LegalItems rest

def LegalEntries : List (Key × Value) → Prop
  | [] => True
  | (key, value) :: rest => key.isNumber ∧ Legal value ∧ LegalEntries rest

end

end

section

variable {heap : Nat → Value} {made : List (Key × Value) → Prop} {caseMatters : Bool}

theorem equality_refl {value : Value} (legal : Legal heap made value) :
    equality caseMatters value value = true := by
  cases value with
  | leaf key => exact key_refl caseMatters legal
  | _ => simp [equality]

theorem listequal_refl {items : List Value} (legal : LegalItems heap made items) :
    listequal caseMatters items items = true := by
  induction items with
  | nil => rfl
  | cons value rest ih =>
      rw [listequal, equality_refl legal.1, ih legal.2]
      rfl

theorem mapequal_refl {entries : List (Key × Value)} (legal : LegalEntries heap made entries) :
    mapequal caseMatters entries entries = true := by
  induction entries with
  | nil => rfl
  | cons entry rest ih =>
      obtain ⟨key, value⟩ := entry
      rw [mapequal, key_refl caseMatters legal.1, equality_refl legal.2.1, ih legal.2.2]
      rfl

mutual

theorem equality_comm : ∀ lhs rhs : Value,
    equality caseMatters lhs rhs = equality caseMatters rhs lhs
  | .leaf lhs, .leaf rhs => key_comm caseMatters lhs rhs
  | .list address lhs, .list address' rhs => by
      simp only [equality, listequal_comm lhs rhs, eq_comm (a := address),
        eq_comm (a := lhs.length)]
  | .map address lhs, .map address' rhs => by
      simp only [equality, mapequal_comm lhs rhs, eq_comm (a := address)]
  | .clear, rhs => by cases rhs <;> rfl
  | .none, rhs => by cases rhs <;> rfl
  | .leaf _, .clear | .leaf _, .none | .leaf _, .list _ _ | .leaf _, .map _ _ => rfl
  | .list _ _, .clear | .list _ _, .none | .list _ _, .leaf _ | .list _ _, .map _ _ => rfl
  | .map _ _, .clear | .map _ _, .none | .map _ _, .leaf _ | .map _ _, .list _ _ => rfl

theorem listequal_comm : ∀ lhs rhs : List Value,
    listequal caseMatters lhs rhs = listequal caseMatters rhs lhs
  | [], [] => rfl
  | [], _ :: _ => rfl
  | _ :: _, [] => rfl
  | first :: lhs, second :: rhs => by
      rw [listequal, listequal, equality_comm first second, listequal_comm lhs rhs]

theorem mapequal_comm : ∀ lhs rhs : List (Key × Value),
    mapequal caseMatters lhs rhs = mapequal caseMatters rhs lhs
  | [], [] => rfl
  | [], _ :: _ => rfl
  | _ :: _, [] => rfl
  | (key, value) :: lhs, (key', value') :: rhs => by
      rw [mapequal, mapequal, key_comm caseMatters key key', equality_comm value value',
        mapequal_comm lhs rhs]

end

theorem listequal_forall₂ {lhs rhs : List Value} :
    listequal caseMatters lhs rhs = true ↔
      List.Forall₂ (fun first second => equality caseMatters first second = true) lhs rhs := by
  induction lhs generalizing rhs with
  | nil => cases rhs <;> simp [listequal]
  | cons first lhs ih =>
      cases rhs with
      | nil => simp [listequal]
      | cons second rhs => simp [listequal, ih]

theorem mapequal_forall₂ {lhs rhs : List (Key × Value)} :
    mapequal caseMatters lhs rhs = true ↔
      List.Forall₂ (fun first second => Maps.equality caseMatters first.1 second.1 = true ∧
        equality caseMatters first.2 second.2 = true) lhs rhs := by
  induction lhs generalizing rhs with
  | nil => cases rhs <;> simp [mapequal]
  | cons first lhs ih =>
      cases rhs with
      | nil => simp [mapequal]
      | cons second rhs => simp [mapequal, ih]

theorem equality_list {address address' : Nat} {lhs rhs : List Value}
    (legal : Legal heap made (.list address lhs)) (legal' : Legal heap made (.list address' rhs)) :
    equality caseMatters (.list address lhs) (.list address' rhs) = true ↔
      listequal caseMatters lhs rhs = true := by
  simp only [equality, Bool.or_eq_true, decide_eq_true_eq, Bool.and_eq_true]
  constructor
  · rintro (rfl | ⟨_, equal⟩)
    · have same := legal.1.symm.trans legal'.1
      simp only [Value.list.injEq, true_and] at same
      rw [← same]
      exact listequal_refl legal.2
    · exact equal
  · intro equal
    exact .inr ⟨(listequal_forall₂.mp equal).length_eq, equal⟩

theorem equality_map {address address' : Nat} {lhs rhs : List (Key × Value)}
    (legal : Legal heap made (.map address lhs)) (legal' : Legal heap made (.map address' rhs)) :
    equality caseMatters (.map address lhs) (.map address' rhs) = true ↔
      mapequal caseMatters lhs rhs = true := by
  simp only [equality, Bool.or_eq_true, decide_eq_true_eq]
  constructor
  · rintro (rfl | equal)
    · have same := legal.1.symm.trans legal'.1
      simp only [Value.map.injEq, true_and] at same
      rw [← same]
      exact mapequal_refl legal.2.2
    · exact equal
  · intro equal
    exact .inr equal

mutual

theorem equality_trans : ∀ a b c : Value, Legal heap made a → Legal heap made b →
    Legal heap made c → equality caseMatters a b = true → equality caseMatters b c = true →
    equality caseMatters a c = true
  | .leaf a, b, c, _, _, _, first, second => by
      cases b <;> simp only [equality, Bool.false_eq_true] at first
      cases c <;> simp only [equality, Bool.false_eq_true] at second ⊢
      exact key_trans caseMatters first second
  | .clear, b, c, _, _, _, first, second => by
      cases b <;> simp only [equality, Bool.false_eq_true] at first
      exact second
  | .none, b, c, _, _, _, first, second => by
      cases b <;> simp only [equality, Bool.false_eq_true] at first
      exact second
  | .list address items, b, c, legal, legal', legal'', first, second => by
      cases b
      case list address' items' =>
        cases c
        case list address'' items'' =>
          rw [equality_list legal legal'] at first
          rw [equality_list legal' legal''] at second
          rw [equality_list legal legal'']
          exact listequal_trans items items' items'' legal.2 legal'.2 legal''.2 first second
        all_goals simp [equality] at second
      all_goals simp [equality] at first
  | .map address entries, b, c, legal, legal', legal'', first, second => by
      cases b
      case map address' entries' =>
        cases c
        case map address'' entries'' =>
          rw [equality_map legal legal'] at first
          rw [equality_map legal' legal''] at second
          rw [equality_map legal legal'']
          exact mapequal_trans entries entries' entries'' legal.2.2 legal'.2.2 legal''.2.2 first
            second
        all_goals simp [equality] at second
      all_goals simp [equality] at first

theorem listequal_trans : ∀ a b c : List Value, LegalItems heap made a → LegalItems heap made b →
    LegalItems heap made c → listequal caseMatters a b = true → listequal caseMatters b c = true →
    listequal caseMatters a c = true
  | [], [], c, _, _, _, _, second => second
  | [], _ :: _, _, _, _, _, first, _ => by simp [listequal] at first
  | _ :: _, [], _, _, _, _, first, _ => by simp [listequal] at first
  | _ :: _, _ :: _, [], _, _, _, _, second => by simp [listequal] at second
  | x :: a, y :: b, z :: c, legal, legal', legal'', first, second => by
      simp only [listequal, Bool.and_eq_true] at first second ⊢
      exact ⟨equality_trans x y z legal.1 legal'.1 legal''.1 first.1 second.1,
        listequal_trans a b c legal.2 legal'.2 legal''.2 first.2 second.2⟩

theorem mapequal_trans : ∀ a b c : List (Key × Value), LegalEntries heap made a →
    LegalEntries heap made b → LegalEntries heap made c → mapequal caseMatters a b = true →
    mapequal caseMatters b c = true → mapequal caseMatters a c = true
  | [], [], c, _, _, _, _, second => second
  | [], _ :: _, _, _, _, _, first, _ => by simp [mapequal] at first
  | _ :: _, [], _, _, _, _, first, _ => by simp [mapequal] at first
  | _ :: _, _ :: _, [], _, _, _, _, second => by simp [mapequal] at second
  | (key, x) :: a, (key', y) :: b, (key'', z) :: c, legal, legal', legal'', first, second => by
      simp only [mapequal, Bool.and_eq_true] at first second ⊢
      exact ⟨⟨key_trans caseMatters first.1.1 second.1.1,
        equality_trans x y z legal.2.1 legal'.2.1 legal''.2.1 first.1.2 second.1.2⟩,
        mapequal_trans a b c legal.2.2 legal'.2.2 legal''.2.2 first.2 second.2⟩

end

end

end ToastStunt.Values
