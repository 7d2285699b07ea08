import ToastStunt.Values.Equality

/-!
When two maps are equal exactly if their bindings are.
-/

namespace ToastStunt.Values

open Maps OrderedTable RedBlack ColorTree Execute

/-! The walk over two trees compares their bindings in order. -/

section

variable {κ ν : Type} {equal : κ × ν → κ × ν → Bool}

theorem mapequalLoop_spec {lhs rhs : ColorTree (Maps.Node κ ν)}
    (apart : (lhs.inorder.map Maps.Node.addr).Nodup) (low : lhs.height ≤ heightLimit)
    (apart' : (rhs.inorder.map Maps.Node.addr).Nodup) (low' : rhs.height ≤ heightLimit) (fuel : Nat)
    {travLhs travRhs : Trav κ ν} {items others : List (Maps.Node κ ν)}
    (reached : Reached lhs true travLhs items) (reached' : Reached rhs true travRhs others)
    (enough : items.length < fuel) :
    ∃ answer, mapequalLoop equal fuel (some travLhs) (some travRhs) = some answer ∧
      (answer = true ↔ List.Forall₂ (fun first second => equal first second = true)
        (items.map Maps.Node.binding) (others.map Maps.Node.binding)) := by
  induction items generalizing fuel travLhs travRhs others with
  | nil =>
      cases fuel with
      | zero => omega
      | succ fuel =>
          cases reached with
          | done off =>
              cases reached' with
              | done off' => exact ⟨true, by simp [mapequalLoop, off, off'], by simp⟩
              | «at» whole => exact ⟨false, by simp [mapequalLoop, off], by simp⟩
  | cons item items ih =>
      cases fuel with
      | zero => omega
      | succ fuel =>
          obtain ⟨red, left, right, here⟩ := reached.here
          cases others with
          | nil =>
              cases reached' with
              | done off' => exact ⟨false, by simp [mapequalLoop, here, off'], by simp⟩
          | cons other others =>
              obtain ⟨red', left', right', here'⟩ := reached'.here
              obtain ⟨next, moved, onward⟩ := rbmove_reaches apart low reached
              obtain ⟨next', moved', onward'⟩ := rbmove_reaches apart' low' reached'
              by_cases same : equal item.binding other.binding = true
              · obtain ⟨answer, ran, spec⟩ := ih fuel onward onward' (by simpa using enough)
                refine ⟨answer, ?_, ?_⟩
                · simp only [mapequalLoop, Option.bind_some, here, here', same, if_true, rbtnext,
                    moved, moved', ran]
                · simp [spec, same]
              · refine ⟨false, ?_, ?_⟩
                · simp only [mapequalLoop, Option.bind_some, here, here', same]
                  rfl
                · simp [same]

theorem walk_spec {lhs rhs : RBTree κ ν} (apart : (lhs.root.inorder.map Maps.Node.addr).Nodup)
    (low : lhs.root.height ≤ heightLimit) (apart' : (rhs.root.inorder.map Maps.Node.addr).Nodup)
    (low' : rhs.root.height ≤ heightLimit) :
    ∃ answer, walk equal lhs rhs = some answer ∧ (answer = true ↔
      List.Forall₂ (fun first second => equal first second = true) lhs.bindings rhs.bindings) := by
  obtain ⟨travLhs, first, reached⟩ := rbstart_reaches lhs true low
  obtain ⟨travRhs, first', reached'⟩ := rbstart_reaches rhs true low'
  rw [walk, rbtfirst, rbtfirst]
  simp only [Bool.not_true] at first first'
  rw [first, first']
  apply mapequalLoop_spec apart low apart' low' _ reached reached'
  simp [ordered, inorder_length]

end

def MadeOf (Used : Key → Prop) (entries : List (Key × Value)) : Prop :=
  ∃ map : RBTree Key Value, Made Used map ∧ map.size < 2 ^ 31 ∧ map.bindings = entries

def Covers (caseMatters : Bool) (lhs rhs : List (Key × Value)) : Prop :=
  ∀ first ∈ lhs, ∃ second ∈ rhs, Maps.equality caseMatters first.1 second.1 = true ∧
    equality caseMatters first.2 second.2 = true

def entryEqual (caseMatters : Bool) (first second : Key × Value) : Bool :=
  Maps.equality caseMatters first.1 second.1 && equality caseMatters first.2 second.2

/-- Equality of the values of any heap whose maps are made with these keys. -/
structure Congruence (Used : Key → Prop) : Prop where
  refl : ∀ heap caseMatters value, Legal heap (MadeOf Used) value →
    equality caseMatters value value = true
  symm : ∀ heap caseMatters a b, Legal heap (MadeOf Used) a → Legal heap (MadeOf Used) b →
    equality caseMatters a b = true → equality caseMatters b a = true
  trans : ∀ heap caseMatters a b c, Legal heap (MadeOf Used) a → Legal heap (MadeOf Used) b →
    Legal heap (MadeOf Used) c → equality caseMatters a b = true →
    equality caseMatters b c = true → equality caseMatters a c = true
  lists : ∀ heap caseMatters address address' lhs rhs,
    Legal heap (MadeOf Used) (.list address lhs) → Legal heap (MadeOf Used) (.list address' rhs) →
    (equality caseMatters (.list address lhs) (.list address' rhs) = true ↔
      lhs.length = rhs.length ∧ ∀ (i : Nat) first second, lhs[i]? = some first → rhs[i]? = some second →
        equality caseMatters first second = true)
  maps : ∀ heap caseMatters address address' lhs rhs,
    Legal heap (MadeOf Used) (.map address lhs) → Legal heap (MadeOf Used) (.map address' rhs) →
    (equality caseMatters (.map address lhs) (.map address' rhs) = true ↔
      Covers caseMatters lhs rhs ∧ Covers caseMatters rhs lhs)
  walked : ∀ caseMatters (lhs rhs : RBTree Key Value), Made Used lhs → Made Used rhs →
    lhs.size < 2 ^ 31 → rhs.size < 2 ^ 31 →
    walk (entryEqual caseMatters) lhs rhs = some (mapequal caseMatters lhs.bindings rhs.bindings)

def Untyped (Used : Key → Prop) : Prop :=
  ∀ caseMatters a b, Used a → Used b → Maps.equality caseMatters a b = true →
    a.typeCode = b.typeCode

section

variable {Used : Key → Prop} {heap : Nat → Value} {caseMatters : Bool}

theorem covers_of_forall₂ {lhs rhs : List (Key × Value)}
    (equal : List.Forall₂ (fun first second => Maps.equality caseMatters first.1 second.1 = true ∧
      equality caseMatters first.2 second.2 = true) lhs rhs) :
    Covers caseMatters lhs rhs ∧ Covers caseMatters rhs lhs := by
  induction equal with
  | nil =>
      constructor
      · intro entry member
        exact absurd member List.not_mem_nil
      · intro entry member
        exact absurd member List.not_mem_nil
  | cons pair _ ih =>
      constructor
      · intro entry member
        rcases List.mem_cons.mp member with rfl | later
        · exact ⟨_, List.mem_cons_self, pair⟩
        · obtain ⟨other, inside, same⟩ := ih.1 entry later
          exact ⟨other, List.mem_cons_of_mem _ inside, same⟩
      · intro entry member
        rcases List.mem_cons.mp member with rfl | later
        · refine ⟨_, List.mem_cons_self, ?_⟩
          rw [key_comm, equality_comm]
          exact pair
        · obtain ⟨other, inside, same⟩ := ih.2 entry later
          exact ⟨other, List.mem_cons_of_mem _ inside, same⟩

theorem congruence_of_order (order : TotalPreorder (compare false) Used) (typed : Untyped Used) :
    Congruence Used := by
  refine ⟨?_, ?_, ?_, ?_, ?_, ?_⟩
  · intro heap caseMatters value legal
    exact equality_refl legal
  · intro heap caseMatters a b _ _ equal
    rwa [equality_comm]
  · intro heap caseMatters a b c legal legal' legal'' first second
    exact equality_trans a b c legal legal' legal'' first second
  · intro heap caseMatters address address' lhs rhs legal legal'
    rw [equality_list legal legal', listequal_forall₂, List.forall₂_iff_get]
    constructor
    · rintro ⟨length, equal⟩
      refine ⟨length, fun i first second there there' => ?_⟩
      obtain ⟨inside, rfl⟩ := List.getElem?_eq_some_iff.mp there
      obtain ⟨inside', rfl⟩ := List.getElem?_eq_some_iff.mp there'
      exact equal i inside inside'
    · rintro ⟨length, equal⟩
      refine ⟨length, fun i inside inside' => ?_⟩
      exact equal i _ _ (List.getElem?_eq_getElem inside) (List.getElem?_eq_getElem inside')
  · intro heap caseMatters address address' lhs rhs legal legal'
    rw [equality_map legal legal', mapequal_forall₂]
    obtain ⟨map, made, _, rfl⟩ := legal.2.1
    obtain ⟨map', made', _, rfl⟩ := legal'.2.1
    have kept := made.kept order
    have kept' := made'.kept order
    constructor
    · intro equal
      exact covers_of_forall₂ equal
    · rintro ⟨covers, covers'⟩
      have symm : ∀ other ∈ map'.bindings, ∃ entry ∈ map.bindings,
          Used entry.1 ∧ Used other.1 ∧ Maps.equality caseMatters entry.1 other.1 = true ∧
            equality caseMatters entry.2 other.2 = true := by
        intro other member
        obtain ⟨entry, inside, same⟩ := covers' other member
        refine ⟨entry, inside, kept.all entry inside, kept'.all other member, ?_⟩
        rw [key_comm, equality_comm]
        exact same
      have forth : ∀ entry ∈ map.bindings, ∃ other ∈ map'.bindings,
          Used entry.1 ∧ Used other.1 ∧ Maps.equality caseMatters entry.1 other.1 = true ∧
            equality caseMatters entry.2 other.2 = true := by
        intro entry member
        obtain ⟨other, inside, same⟩ := covers entry member
        exact ⟨other, inside, kept.all entry member, kept'.all other inside, same⟩
      have agree := forall₂_of_covers order (fun first second pair =>
        key_zero (typed caseMatters _ _ pair.1 pair.2.1 pair.2.2.1) pair.2.2.1)
        kept.well.sorted kept'.well.sorted kept.all kept'.all forth symm
      exact agree.imp fun _ _ pair => pair.2.2
  · intro caseMatters lhs rhs made made' small small'
    have kept := made.kept order
    have kept' := made'.kept order
    obtain ⟨answer, ran, spec⟩ := @walk_spec _ _ (entryEqual caseMatters) lhs rhs kept.well.apart
      (Nat.le_of_lt (kept.well.low small)) kept'.well.apart (Nat.le_of_lt (kept'.well.low small'))
    rw [ran, Option.some.injEq, Bool.eq_iff_iff, spec, mapequal_forall₂]
    simp only [entryEqual, Bool.and_eq_true]

/-! Keys that `compare` puts in no order are in the order in which they are inserted. -/

theorem key_self {key : Key} (number : key.isNumber) : compare false key key = 0 :=
  key_zero rfl (key_refl false number)

theorem second_right {a b : Key} (number : b.isNumber) (less : compare false a b < 0) :
    mapinsert false (single a Value.none) b .none =
      some ⟨node false nil ⟨0, a, .none⟩ (node true nil ⟨1, b, .none⟩ nil), 2⟩ := by
  have ne : compare false a b ≠ 0 := by omega
  simp [mapinsert, own, single, rberase, eraseLoop, pushRed, ne, less, plug, Frame.fill, rbinsert,
    insertLoop, repairRed, growOrFlip, blacken, moveDown, newNode, topRed, freshAddr, count,
    inorder, key_self number]

theorem second_left {a b : Key} (number : b.isNumber) (more : 0 < compare false a b) :
    mapinsert false (single a Value.none) b .none =
      some ⟨node false (node true nil ⟨1, b, .none⟩ nil) ⟨0, a, .none⟩ nil, 2⟩ := by
  have ne : compare false a b ≠ 0 := by omega
  have notLess : ¬compare false a b < 0 := by omega
  simp [mapinsert, own, single, rberase, eraseLoop, pushRed, ne, notLess, plug, Frame.fill,
    rbinsert, insertLoop, repairRed, growOrFlip, blacken, moveDown, newNode, topRed, freshAddr,
    count, inorder, key_self number]

theorem third_last {a b c : Key} (number : c.isNumber) (more : 0 < compare false a c)
    (less : compare false b c < 0) :
    mapinsert false ⟨node false nil ⟨0, a, Value.none⟩ (node true nil ⟨1, b, .none⟩ nil), 2⟩ c
        .none =
      some ⟨node false (node true nil ⟨0, a, .none⟩ nil) ⟨1, b, .none⟩
        (node true nil ⟨2, c, .none⟩ nil), 3⟩ := by
  have ne : compare false a c ≠ 0 := by omega
  have notLess : ¬compare false a c < 0 := by omega
  have ne' : compare false b c ≠ 0 := by omega
  simp [mapinsert, own, rberase, eraseLoop, pushRed, ne, notLess, plug, Frame.fill, rbinsert,
    insertLoop, repairRed, growOrFlip, blacken, moveDown, newNode, topRed, freshAddr, count,
    inorder, ne', less, rbsingle, follow, key_self number]

theorem third_first {a b c : Key} (number : c.isNumber) (more : 0 < compare false a c)
    (less : compare false b c < 0) :
    mapinsert false ⟨node false (node true nil ⟨1, a, Value.none⟩ nil) ⟨0, b, .none⟩ nil, 2⟩ c
        .none =
      some ⟨node false (node true nil ⟨2, c, .none⟩ nil) ⟨1, a, .none⟩
        (node true nil ⟨0, b, .none⟩ nil), 3⟩ := by
  have ne : compare false a c ≠ 0 := by omega
  have notLess : ¬compare false a c < 0 := by omega
  have ne' : compare false b c ≠ 0 := by omega
  simp [mapinsert, own, rberase, eraseLoop, pushRed, ne, notLess, plug, Frame.fill, rbinsert,
    insertLoop, repairRed, growOrFlip, blacken, moveDown, newNode, topRed, freshAddr, count,
    inorder, ne', less, rbsingle, follow, key_self number]

theorem two_small : 2 < 2 ^ 31 := by decide

theorem three_small : 3 < 2 ^ 31 := by decide

def keysOnly (keys : List Key) : List (Key × Value) := keys.map fun key => (key, .none)

theorem legalEntries_keysOnly {made : List (Key × Value) → Prop} {keys : List Key}
    (numbers : ∀ key ∈ keys, key.isNumber) : LegalEntries heap made (keysOnly keys) := by
  induction keys with
  | nil => trivial
  | cons key rest ih =>
      refine ⟨numbers key List.mem_cons_self, trivial, ih ?_⟩
      intro other member
      exact numbers other (List.mem_cons_of_mem _ member)

theorem covers_keysOnly {keys keys' : List Key}
    (found : ∀ key ∈ keys, ∃ other ∈ keys', Maps.equality false key other = true) :
    Covers false (keysOnly keys) (keysOnly keys') := by
  intro first member
  obtain ⟨key, inside, rfl⟩ := List.mem_map.mp member
  obtain ⟨other, there, equal⟩ := found key inside
  exact ⟨_, List.mem_map_of_mem there, equal, rfl⟩

section

variable (congruent : Congruence Used) (numbers : ∀ key, Used key → key.isNumber)

include congruent numbers

/-- Where equality is a congruence, maps of the same keys have them in one order. -/
theorem Congruence.agree (keys keys' : List Key) {map map' : RBTree Key Value}
    (made : Made Used map) (made' : Made Used map') (small : map.size < 2 ^ 31)
    (small' : map'.size < 2 ^ 31) (there : map.bindings = keysOnly keys)
    (there' : map'.bindings = keysOnly keys') (used : ∀ key ∈ keys, Used key)
    (used' : ∀ key ∈ keys', Used key)
    (found : ∀ key ∈ keys, ∃ other ∈ keys', Maps.equality false key other = true)
    (found' : ∀ key ∈ keys', ∃ other ∈ keys, Maps.equality false key other = true) :
    List.Forall₂ (fun first second => Maps.equality false first second = true) keys keys' := by
  have all : ∀ key ∈ keys, key.isNumber := fun key member => numbers key (used key member)
  have all' : ∀ key ∈ keys', key.isNumber := fun key member => numbers key (used' key member)
  let heap : Nat → Value := fun address =>
    if address = 0 then .map 0 (keysOnly keys) else .map 1 (keysOnly keys')
  have legal : Legal heap (MadeOf Used) (.map 0 (keysOnly keys)) :=
    ⟨rfl, ⟨map, made, small, there⟩, legalEntries_keysOnly all⟩
  have legal' : Legal heap (MadeOf Used) (.map 1 (keysOnly keys')) :=
    ⟨rfl, ⟨map', made', small', there'⟩, legalEntries_keysOnly all'⟩
  have equal := (congruent.maps heap false 0 1 _ _ legal legal').mpr
    ⟨covers_keysOnly found, covers_keysOnly found'⟩
  have pairs := mapequal_forall₂.mp ((equality_map legal legal').mp equal)
  rw [keysOnly, keysOnly, List.forall₂_map_left_iff, List.forall₂_map_right_iff] at pairs
  exact pairs.imp fun _ _ pair => pair.1

theorem Congruence.same_of_unordered {a b : Key} (usedA : Used a) (usedB : Used b)
    (unordered : (compare false a b < 0 ∧ compare false b a < 0) ∨
      (0 < compare false a b ∧ 0 < compare false b a)) :
    Maps.equality false a b = true := by
  have numberA := numbers a usedA
  have numberB := numbers b usedB
  have selfA := key_refl false numberA
  have selfB := key_refl false numberB
  have first {x : Key} (used : Used x) := made_single Value.none used
  have small (x : Key) := single_small x Value.none
  have used : ∀ key ∈ [a, b], Used key := by simp [usedA, usedB]
  have used' : ∀ key ∈ [b, a], Used key := by simp [usedA, usedB]
  have found : ∀ key ∈ [a, b], ∃ other ∈ [b, a], Maps.equality false key other = true := by
    simp [selfA, selfB]
  have found' : ∀ key ∈ [b, a], ∃ other ∈ [a, b], Maps.equality false key other = true := by
    simp [selfA, selfB]
  rcases unordered with ⟨less, less'⟩ | ⟨more, more'⟩
  · have made := Made.insert (first usedA) (small a) usedB (second_right numberB less)
    have made' := Made.insert (first usedB) (small b) usedA (second_right numberA less')
    have agree := congruent.agree numbers [a, b] [b, a] made made' two_small two_small rfl rfl used
      used' found found'
    exact (List.forall₂_cons.mp agree).1
  · have made := Made.insert (first usedB) (small b) usedA (second_left numberA more')
    have made' := Made.insert (first usedA) (small a) usedB (second_left numberB more)
    have agree := congruent.agree numbers [a, b] [b, a] made made' two_small two_small rfl rfl used
      used' found found'
    exact (List.forall₂_cons.mp agree).1

theorem Congruence.same_of_circle {a b c : Key} (usedA : Used a) (usedB : Used b) (usedC : Used c)
    (ab : compare false a b < 0) (ba : 0 < compare false b a) (bc : compare false b c < 0)
    (ac : 0 < compare false a c) : Maps.equality false a c = true := by
  have numberA := numbers a usedA
  have numberB := numbers b usedB
  have numberC := numbers c usedC
  have selfA := key_refl false numberA
  have selfB := key_refl false numberB
  have selfC := key_refl false numberC
  have first {x : Key} (used : Used x) := made_single Value.none used
  have small (x : Key) := single_small x Value.none
  have pair := Made.insert (first usedA) (small a) usedB (second_right numberB ab)
  have pair' := Made.insert (first usedB) (small b) usedA (second_left numberA ba)
  have made := Made.insert pair two_small usedC (third_last numberC ac bc)
  have made' := Made.insert pair' two_small usedC (third_first numberC ac bc)
  have agree := congruent.agree numbers [a, b, c] [c, a, b] made made' three_small three_small
    rfl rfl (by simp [usedA, usedB, usedC]) (by simp [usedA, usedB, usedC])
    (by simp [selfA, selfB, selfC]) (by simp [selfA, selfB, selfC])
  exact (List.forall₂_cons.mp agree).1

theorem Congruence.untyped : Untyped Used := by
  intro caseMatters a b usedA usedB equal
  by_contra ne
  have equal' : Maps.equality false a b = true := by
    cases a <;> cases b <;> simp_all [Maps.equality, Key.typeCode]
  have selfB := key_refl false (numbers b usedB)
  have numberB := numbers b usedB
  have apart := compare_of_ne ne
  have back : Maps.equality false b a = true := by rwa [key_comm]
  have first := made_single Value.none usedA
  have small := single_small a Value.none
  have single' := made_single Value.none usedB
  have smallSingle := single_small b Value.none
  rcases Int.lt_trichotomy (compare false a b) 0 with less | zero | more
  · have made := Made.insert first small usedB (second_right numberB less)
    have agree := congruent.agree numbers [a, b] [b] made single' two_small
      smallSingle rfl rfl (by simp [usedA, usedB]) (by simp [usedB]) (by simp [equal', selfB])
      (by simp [selfB])
    simpa using agree.length_eq
  · omega
  · have made := Made.insert first small usedB (second_left numberB more)
    have agree := congruent.agree numbers [b, a] [b] made single' two_small
      smallSingle rfl rfl (by simp [usedA, usedB]) (by simp [usedB]) (by simp [equal', selfB])
      (by simp [selfB])
    simpa using agree.length_eq

end

theorem Congruence.order (congruent : Congruence Used) (numbers : ∀ key, Used key → key.isNumber) :
    TotalPreorder (Maps.compare false) Used := by
  have typed := congruent.untyped numbers
  have zero {a b : Key} (usedA : Used a) (usedB : Used b)
      (equal : Maps.equality false a b = true) : Maps.compare false a b = 0 :=
    key_zero (typed false a b usedA usedB equal) equal
  have back {a b : Key} (usedA : Used a) (usedB : Used b)
      (none : Maps.compare false a b = 0) : Maps.compare false b a = 0 := by
    rw [(compare_congr (numbers a usedA) (numbers b usedB) none b).2]
    exact key_self (numbers b usedB)
  have flip : ∀ a b, Used a → Used b →
      (Maps.compare false a b < 0 ↔ 0 < Maps.compare false b a) := by
    intro a b usedA usedB
    have none := @back a b usedA usedB
    have noneBack := @back b a usedB usedA
    by_cases unordered : (Maps.compare false a b < 0 ∧ Maps.compare false b a < 0) ∨
        (0 < Maps.compare false a b ∧ 0 < Maps.compare false b a)
    · have equal := zero usedA usedB (congruent.same_of_unordered numbers usedA usedB unordered)
      omega
    · omega
  constructor
  · exact flip
  · intro a b c usedA usedB usedC atMost atMost'
    have left := fun none => (compare_congr (numbers a usedA) (numbers b usedB) none c).1
    have right := fun none => (compare_congr (numbers b usedB) (numbers c usedC) none a).2
    by_contra more
    have ab : Maps.compare false a b < 0 := by omega
    have bc : Maps.compare false b c < 0 := by omega
    have ba := (flip a b usedA usedB).mp ab
    have equal := congruent.same_of_circle numbers usedA usedB usedC ab ba bc (by omega)
    have around := zero usedA usedC equal
    omega

/-- `compare` orders the numbers in use, there is one boolean, one anonymous object and one waif at
most, and no number is equal to a boolean. -/
structure ToldApart (Used : Key → Prop) : Prop where
  ints : TotalPreorder intDifference fun num => Used (.int num)
  objs : TotalPreorder intDifference fun num => Used (.obj num)
  bools : ∀ a b, Used (.bool a) → Used (.bool b) → a = b
  anons : ∀ a b, Used (.anon a) → Used (.anon b) → a = b
  waifs : ∀ a b, Used (.waif a) → Used (.waif b) → a = b
  mixed : ∀ truth num, Used (.bool truth) → Used (.int num) → num.val ≠ if truth then 1 else 0

theorem ToldApart.order (told : ToldApart Used) (numbers : ∀ key, Used key → key.isNumber) :
    TotalPreorder (Maps.compare false) Used := by
  constructor
  · intro a b usedA usedB
    cases a <;> cases b <;> try exact compare_flip (numbers _ usedA) (numbers _ usedB) trivial
    case int.int a b => exact told.ints.flip a b usedA usedB
    case obj.obj a b => exact told.objs.flip a b usedA usedB
    case bool.bool a b =>
      rw [told.bools a b usedA usedB]
      simp [Maps.compare]
    case anon.anon a b =>
      rw [told.anons a b usedA usedB]
      simp [Maps.compare]
    case waif.waif a b =>
      rw [told.waifs a b usedA usedB]
      simp [Maps.compare]
  · intro a b c usedA usedB usedC atMost atMost'
    by_cases same : a.typeCode = b.typeCode
    · by_cases same' : b.typeCode = c.typeCode
      · cases a <;> cases b <;> simp only [Key.typeCode, complexFlag] at same <;> try omega
        all_goals cases c <;> simp only [Key.typeCode, complexFlag] at same' <;> try omega
        case int.int.int a b c => exact told.ints.trans a b c usedA usedB usedC atMost atMost'
        case obj.obj.obj a b c => exact told.objs.trans a b c usedA usedB usedC atMost atMost'
        case bool.bool.bool a b c => simp [Maps.compare, told.bools a c usedA usedC]
        case anon.anon.anon a b c => simp [Maps.compare, told.anons a c usedA usedC]
        case waif.waif.waif a b c => simp [Maps.compare, told.waifs a c usedA usedC]
        all_goals
          exact compare_trans (numbers _ usedA) (numbers _ usedB) (numbers _ usedC) trivial trivial
            trivial atMost atMost'
      · have third := compare_of_ne (show a.typeCode ≠ c.typeCode by omega)
        rw [compare_of_ne same'] at atMost'
        omega
    · rw [compare_of_ne same] at atMost
      by_cases same' : b.typeCode = c.typeCode
      · have third := compare_of_ne (show a.typeCode ≠ c.typeCode by omega)
        omega
      · rw [compare_of_ne same'] at atMost'
        have third := compare_of_ne (show a.typeCode ≠ c.typeCode by omega)
        omega

theorem ToldApart.untyped (told : ToldApart Used) : Untyped Used := by
  intro caseMatters a b usedA usedB equal
  cases a <;> cases b <;> simp only [Maps.equality, Bool.false_eq_true, decide_eq_true_eq] at equal
  case int.bool num truth => exact absurd equal (told.mixed truth num usedB usedA)
  case bool.int truth num => exact absurd equal (told.mixed truth num usedA usedB)
  all_goals rfl

theorem toldApart_of_order (order : TotalPreorder (Maps.compare false) Used)
    (typed : Untyped Used) : ToldApart Used where
  ints := ⟨fun a b => order.flip (.int a) (.int b),
    fun a b c => order.trans (.int a) (.int b) (.int c)⟩
  objs := ⟨fun a b => order.flip (.obj a) (.obj b),
    fun a b c => order.trans (.obj a) (.obj b) (.obj c)⟩
  bools a b usedA usedB := by
    have flip := order.flip (.bool a) (.bool b) usedA usedB
    by_contra ne
    simp [Maps.compare, ne, Ne.symm ne] at flip
  anons a b usedA usedB := by
    have flip := order.flip (.anon a) (.anon b) usedA usedB
    by_contra ne
    simp [Maps.compare, ne, Ne.symm ne] at flip
  waifs a b usedA usedB := by
    have flip := order.flip (.waif a) (.waif b) usedA usedB
    by_contra ne
    simp [Maps.compare, ne, Ne.symm ne] at flip
  mixed truth num usedB usedN equal := by
    have same := typed false (.bool truth) (.int num) usedB usedN (by simpa [Maps.equality])
    simp [Key.typeCode] at same

/-- Equality is a congruence exactly where the keys of the maps are told apart. -/
theorem congruence_iff (numbers : ∀ key, Used key → key.isNumber) :
    Congruence Used ↔ ToldApart Used := by
  constructor
  · intro congruent
    exact toldApart_of_order (congruent.order numbers) (congruent.untyped numbers)
  · intro told
    exact congruence_of_order (told.order numbers) told.untyped

theorem congruence_iff_strings : Congruence fun key => ∃ str, key = .str str := by
  have told : ToldApart fun key => ∃ str, key = .str str := by
    constructor <;> first | constructor <;> simp | simp
  exact (congruence_iff (by rintro _ ⟨str, rfl⟩; trivial)).mpr told

/-- Two booleans each come after the other. -/
theorem mapequal_of_other_order : ∃ lhs rhs,
    mapinsert false (single (.bool false) Value.none) (.bool true) .none = some lhs ∧
      mapinsert false (single (.bool true) Value.none) (.bool false) .none = some rhs ∧
      Covers false lhs.bindings rhs.bindings ∧ Covers false rhs.bindings lhs.bindings ∧
      walk (entryEqual false) lhs rhs = some false ∧
      mapequal false lhs.bindings rhs.bindings = false := by
  refine ⟨_, _, second_left trivial (by decide), second_left trivial (by decide), ?_, ?_, ?_, ?_⟩
  · exact @covers_keysOnly [.bool true, .bool false] [.bool false, .bool true] (by decide)
  · exact @covers_keysOnly [.bool false, .bool true] [.bool true, .bool false] (by decide)
  · rfl
  · rfl

end

end ToastStunt.Values
