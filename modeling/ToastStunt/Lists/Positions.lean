import ToastStunt.Library.Counting
import ToastStunt.Numbers.Modulus

/-!
Lists of list.cc by reference: elements set and inserted at a position. Lists are shared by
reference counting, and a list with one reference is changed in place. A function fails where the
source would go past the end of a block of memory.
-/

namespace ToastStunt.Lists

open Counting Numbers

variable {α : Type}

def toInt (n : Int) : Int := n.bmod (2 ^ 32)

def listRoom (size : Int) : Bool := 0 ≤ size && (size + 1) * 16 < 2 ^ 32

def element (items : List α) (i : Int) : Option α :=
  if 0 < i then items[i.toNat - 1]? else none

def copyFrom (items : List α) (i : Int) : Nat → Option (List α)
  | 0 => some []
  | count + 1 =>
      (element items i).bind fun x => (copyFrom items (i + 1) count).map fun rest => x :: rest

def emptylist : Nat := 0

def freeVar (s : Store (List α)) (list : Nat) : Store (List α) :=
  if list = emptylist then s else s.release list

/-- The body of `doinsert`, where `list` is the block `b` and the new list has `size` elements. -/
def insertSized (s : Store (List α)) (list : Nat) (value : α) (pos : Int) (b : Block (List α))
    (size : Int) : Option (Store (List α) × Nat) :=
  if listRoom size then
    if list ≠ emptylist ∧ b.count = 1 ∧ pos = size then
      some (s.replace list (b.content ++ [value]), list)
    else
      (copyFrom b.content 1 (pos - 1).toNat).bind fun front =>
        (copyFrom b.content pos (b.content.length - pos + 1).toNat).map fun back =>
          let (s, new) := s.alloc (front ++ value :: back)
          (freeVar s list, new)
  else none

def doinsert (s : Store (List α)) (list : Nat) (value : α) (pos : Int) :
    Option (Store (List α) × Nat) :=
  (s.block list).bind fun b => insertSized s list value pos b (toInt (b.content.length + 1))

def listset (s : Store (List α)) (list : Nat) (value : α) (pos : Int) :
    Option (Store (List α) × Nat) := do
  let b ← s.block list
  let (s, new) ←
    if 1 < b.count then
      if listRoom b.content.length then
        let (s, new) := s.alloc b.content
        some (freeVar s list, new)
      else none
    else some (s, list)
  if 0 < pos ∧ pos ≤ b.content.length then
    some (s.replace new (b.content.set (pos.toNat - 1) value), new)
  else none

/-! The built-in functions. -/

inductive Answer where
  | list (list : Nat)
  | range
  | space
  deriving DecidableEq

section

-- `value_bytes` of an element, and the limit that is set for a list.
variable (weight : α → Nat) (limit : Num)

def valueBytes (items : List α) : Int := toInt (32 + (items.map weight).sum)

def checked (s : Store (List α)) (r : Nat) : Option (Store (List α) × Answer) :=
  (s.content r).map fun items =>
    if valueBytes weight items ≤ limit.val then (s, .list r) else (freeVar s r, .space)

/-- `kept` says that somebody else holds the list of arguments too, which then is not freed. -/
structure Arguments (α : Type) where
  list : Nat
  value : α
  kept : Bool

def Arguments.taken (args : Arguments α) (s : Store (List α)) : Store (List α) :=
  let s := s.share args.list
  if args.kept then s else freeVar s args.list

def Arguments.remaining (args : Arguments α) (others : List Nat) : List Nat :=
  if args.kept then args.list :: others else others

def clampPosition (length pos : Int) : Int :=
  if pos ≤ 0 then 1 else if pos > length + 1 then length + 1 else pos

def insertOrAppend (s : Store (List α)) (args : Arguments α) (pos : Option Num) (append1 : Int) :
    Option (Store (List α) × Answer) := do
  let lst ← s.content args.list
  let pos :=
    match pos with
    | none => if append1 ≠ 0 then (lst.length : Int) + 1 else 1
    | some p => clampPosition lst.length (toInt (wrap (p.val + append1)).val)
  let (s, r) ← doinsert (args.taken s) args.list args.value pos
  checked weight limit s r

def bfListappend (s : Store (List α)) (args : Arguments α) (pos : Option Num) :
    Option (Store (List α) × Answer) := insertOrAppend weight limit s args pos 1

def bfListinsert (s : Store (List α)) (args : Arguments α) (pos : Option Num) :
    Option (Store (List α) × Answer) := insertOrAppend weight limit s args pos 0

/-- On E_RANGE the reference to the list that was taken is never given back. -/
def bfListset (s : Store (List α)) (args : Arguments α) (p : Num) :
    Option (Store (List α) × Answer) := do
  let pos := toInt p.val
  let lst ← s.content args.list
  if pos ≤ 0 ∨ pos > lst.length then some (args.taken s, .range)
  else
    let (s, r) ← listset (args.taken s) args.list args.value pos
    checked weight limit s r

/-! What they should do. -/

/-- The call returns the list of these items, or refuses it as too large. All others see what they
saw before, and whoever takes the list holds it. -/
def Returns (others : List Nat) (s : Store (List α)) (ran : Option (Store (List α) × Answer))
    (items : List α) : Prop :=
  ∃ s' answer, ran = some (s', answer) ∧ Agree others s s' ∧
    if valueBytes weight items ≤ limit.val then
      ∃ r, answer = .list r ∧ s'.content r = some items ∧ Covered s' (r :: others)
    else answer = .space ∧ Covered s' others

def RefusesRange (others : List Nat) (s : Store (List α))
    (ran : Option (Store (List α) × Answer)) : Prop :=
  ∃ s', ran = some (s', .range) ∧ Agree others s s' ∧ Covered s' others

def Inside (length p : Int) : Prop := 1 ≤ p ∧ p ≤ length

instance (length p : Int) : Decidable (Inside length p) :=
  inferInstanceAs (Decidable (1 ≤ p ∧ p ≤ length))

def inserted (items : List α) (x : α) (q : Nat) : List α := items.take q ++ x :: items.drop q

end

structure PositionsExact (weight : α → Nat) (s : Store (List α)) (items : List α)
    (args : Arguments α) (others : List Nat) (p : Num) : Prop where
  listset : ∀ limit : Num,
    if Inside items.length p.val then
      Returns weight limit (args.remaining others) s (bfListset weight limit s args p)
        (items.set (p.val.toNat - 1) args.value)
    else RefusesRange (args.remaining others) s (bfListset weight limit s args p)
  listinsert : ∀ limit : Num,
    Returns weight limit (args.remaining others) s (bfListinsert weight limit s args (some p))
      (inserted items args.value ((max 1 (min p.val (items.length + 1))).toNat - 1))
  listappend : ∀ limit : Num,
    Returns weight limit (args.remaining others) s (bfListappend weight limit s args (some p))
      (inserted items args.value (max 0 (min p.val items.length)).toNat)

/-! Copying. -/

theorem element_eq (items : List α) (k : Nat) : element items (k + 1) = items[k]? := by
  rw [element, if_pos (by omega)]
  congr 1

theorem copyFrom_eq (items : List α) (k count : Nat) (inside : k + count ≤ items.length) :
    copyFrom items (k + 1) count = some ((items.drop k).take count) := by
  induction count generalizing k with
  | zero => rfl
  | succ count ih =>
      have bound : k < items.length := by omega
      have later := ih (k + 1) (by omega)
      rw [copyFrom, element_eq, List.getElem?_eq_getElem bound, Option.bind_some]
      push_cast at later
      rw [later, List.drop_eq_getElem_cons bound, List.take_succ_cons]
      rfl

theorem toInt_eq {n : Int} (low : -2 ^ 31 ≤ n) (high : n < 2 ^ 31) : toInt n = n :=
  Int.bmod_eq_of_le (by omega) (by omega)

theorem toInt_bounds (n : Int) : -2 ^ 31 ≤ toInt n ∧ toInt n < 2 ^ 31 := by
  have low := @Int.le_bmod n (2 ^ 32) (by decide)
  have high := @Int.bmod_lt n (2 ^ 32) (by decide)
  simp only [toInt]
  omega

theorem toInt_wrap (n : Int) : toInt (wrap n).val = toInt n := by
  simp only [toInt, wrap, Int.bmod_def]
  omega

theorem listRoom_iff {size : Int} : listRoom size = true ↔ 0 ≤ size ∧ size < 268435455 := by
  simp only [listRoom, Bool.and_eq_true, decide_eq_true_eq]
  omega

section

variable {s : Store (List α)} {list : Nat} {others : List Nat} {items : List α}

theorem block_of_content (contents : s.content list = some items) :
    ∃ b, s.block list = some b ∧ b.content = items :=
  Option.map_eq_some_iff.mp contents

theorem freeVar_covered (covered : Covered s (list :: others)) :
    Covered (freeVar s list) others ∧ Agree others s (freeVar s list) := by
  rw [freeVar]
  split
  · exact ⟨covered.sublist (List.sublist_cons_self ..), Agree.refl _ _⟩
  · exact covered.release

theorem exchanged (covered : Covered s (list :: others)) (content : List α) :
    Covered (freeVar (s.alloc content).1 list) ((s.alloc content).2 :: others) ∧
      Agree others s (freeVar (s.alloc content).1 list) ∧
      (freeVar (s.alloc content).1 list).block (s.alloc content).2 = some ⟨1, content⟩ := by
  obtain ⟨both, same, _⟩ := covered.alloc content
  obtain ⟨left, same'⟩ := freeVar_covered (both.perm (.swap ..))
  refine ⟨left, (same.of_subset (List.subset_cons_self ..)).trans
    (same'.of_subset (List.subset_cons_self ..)), ?_⟩
  obtain ⟨b, there, _⟩ := covered list List.mem_cons_self
  have other : s.length ≠ list := Nat.ne_of_gt (block_bound there)
  rw [freeVar]
  split
  · exact block_alloc_self s content
  · exact (block_release_other other).trans (block_alloc_self s content)

theorem doinsert_inserts (covered : Covered s (list :: others))
    (contents : s.content list = some items) (value : α) {q : Nat} (inside : q ≤ items.length)
    (room : listRoom (items.length + 1) = true) :
    ∃ s' r, doinsert s list value (q + 1) = some (s', r) ∧ Covered s' (r :: others) ∧
      Agree others s s' ∧ s'.content r = some (inserted items value q) := by
  obtain ⟨b, there, rfl⟩ := block_of_content contents
  have small := listRoom_iff.mp room
  have size : toInt (b.content.length + 1) = b.content.length + 1 :=
    toInt_eq (by omega) (by omega)
  rw [doinsert, there, Option.bind_some, size, insertSized, if_pos room]
  by_cases inPlace : list ≠ emptylist ∧ b.count = 1 ∧ (q : Int) + 1 = b.content.length + 1
  · have last : q = b.content.length := by omega
    obtain ⟨covered', same, new⟩ := covered.replace there inPlace.2.1 (b.content ++ [value])
    refine ⟨_, list, if_pos inPlace, covered', same, ?_⟩
    rw [new, inserted, last, List.take_length, List.drop_length]
  · have front := copyFrom_eq b.content 0 q (by omega)
    have back := copyFrom_eq b.content q (b.content.length - q) (by omega)
    have counts : ((q : Int) + 1 - 1).toNat = q ∧
        ((b.content.length : Int) - (q + 1) + 1).toNat = b.content.length - q := by omega
    have whole : (b.content.drop q).take (b.content.length - q) = b.content.drop q :=
      List.take_of_length_le (by simp)
    obtain ⟨covered', same, new⟩ := exchanged covered (inserted b.content value q)
    refine ⟨_, _, ?_, covered', same, content_of_block new⟩
    rw [whole] at back
    simp only [Int.natCast_zero, Int.zero_add, List.drop_zero] at front
    rw [if_neg inPlace, counts.1, counts.2, front, Option.bind_some, back, Option.map_some]
    rfl

theorem doinsert_none (contents : s.content list = some items) (value : α) (pos : Int)
    (room : listRoom items.length = true) (full : listRoom (items.length + 1) = false) :
    doinsert s list value pos = none := by
  obtain ⟨b, there, rfl⟩ := block_of_content contents
  have small := listRoom_iff.mp room
  have size : toInt (b.content.length + 1) = b.content.length + 1 :=
    toInt_eq (by omega) (by omega)
  rw [doinsert, there, Option.bind_some, size, insertSized, full]
  rfl

theorem listset_sets (covered : Covered s (list :: others))
    (contents : s.content list = some items) (value : α) {pos : Int}
    (inside : Inside items.length pos) (room : listRoom items.length = true) :
    ∃ s' r, listset s list value pos = some (s', r) ∧ Covered s' (r :: others) ∧
      Agree others s s' ∧ s'.content r = some (items.set (pos.toNat - 1) value) := by
  obtain ⟨b, there, rfl⟩ := block_of_content contents
  have place : 0 < pos ∧ pos ≤ b.content.length := ⟨by have := inside.1; omega, inside.2⟩
  simp only [listset, there, Option.bind_eq_bind, Option.bind_some, room, if_true]
  by_cases shared : 1 < b.count
  · obtain ⟨covered', same, new⟩ := exchanged covered b.content
    obtain ⟨covered'', same', set⟩ :=
      covered'.replace new rfl (b.content.set (pos.toNat - 1) value)
    refine ⟨_, _, ?_, covered'', same.trans same', set⟩
    simp only [if_pos shared, if_pos place]
  · have sole : b.count = 1 := by
      obtain ⟨b', there', enough⟩ := covered list List.mem_cons_self
      obtain rfl : b = b' := Option.some.inj (there.symm.trans there')
      rw [List.count_cons_self] at enough
      omega
    obtain ⟨covered', same, set⟩ := covered.replace there sole (b.content.set (pos.toNat - 1) value)
    refine ⟨_, _, ?_, covered', same, set⟩
    simp only [if_neg shared, if_pos place]

theorem Arguments.taken_covered (args : Arguments α) (covered : Covered s (args.list :: others)) :
    Covered (args.taken s) (args.list :: args.remaining others) ∧
      Agree (args.list :: args.remaining others) s (args.taken s) := by
  obtain ⟨shared, same⟩ := covered.share List.mem_cons_self
  cases kept : args.kept with
  | true =>
      simp only [Arguments.taken, Arguments.remaining, kept, if_true]
      exact ⟨shared, same.of_subset (by simp)⟩
  | false =>
      simp only [Arguments.taken, Arguments.remaining, kept, if_false, Bool.false_eq_true]
      obtain ⟨freed, same'⟩ := freeVar_covered shared
      exact ⟨freed, same.trans same'⟩

theorem checked_returns (weight : α → Nat) (limit : Num) {s' : Store (List α)} {r : Nat}
    (covered : Covered s' (r :: others)) (same : Agree others s s')
    (contents : s'.content r = some items) :
    Returns weight limit others s (checked weight limit s' r) items := by
  by_cases within : valueBytes weight items ≤ limit.val
  · refine ⟨s', .list r, by simp only [checked, contents, Option.map_some, if_pos within], same, ?_⟩
    rw [if_pos within]
    exact ⟨r, rfl, contents, covered⟩
  · obtain ⟨freed, same'⟩ := freeVar_covered covered
    refine ⟨freeVar s' r, .space, by simp only [checked, contents, Option.map_some, if_neg within],
      same.trans same', ?_⟩
    rw [if_neg within]
    exact ⟨rfl, freed⟩

theorem exists_limit (weight : α → Nat) :
    ∃ limit : Num, ∀ items, valueBytes weight items ≤ limit.val := by
  refine ⟨wrap (2 ^ 31), fun items => ?_⟩
  have high := (toInt_bounds (32 + (items.map weight).sum)).2
  have most : (wrap (2 ^ 31)).val = 2 ^ 31 := by decide
  rw [valueBytes, most]
  exact Int.le_of_lt high

theorem Returns.unique {weight : α → Nat} {limit : Num}
    (within : ∀ items, valueBytes weight items ≤ limit.val)
    {ran : Option (Store (List α) × Answer)} {items' : List α}
    (first : Returns weight limit others s ran items)
    (second : Returns weight limit others s ran items') : items = items' := by
  obtain ⟨s₁, answer₁, ran₁, _, right₁⟩ := first
  obtain ⟨s₂, answer₂, ran₂, _, right₂⟩ := second
  obtain ⟨rfl, rfl⟩ := Prod.mk.inj (Option.some.inj (ran₁.symm.trans ran₂))
  rw [if_pos (within items)] at right₁
  rw [if_pos (within items')] at right₂
  obtain ⟨r₁, is₁, contents₁, _⟩ := right₁
  obtain ⟨r₂, is₂, contents₂, _⟩ := right₂
  obtain rfl : r₁ = r₂ := Answer.list.inj (is₁.symm.trans is₂)
  exact Option.some.inj (contents₁.symm.trans contents₂)

end

/-! Positions. -/

def index (length : Nat) (pos : Int) : Nat := (clampPosition length pos).toNat - 1

theorem index_le (length : Nat) (pos : Int) :
    index length pos ≤ length ∧ clampPosition length pos = index length pos + 1 := by
  rw [index, clampPosition]
  split
  · simp
  · split <;> omega

theorem index_insert (length : Nat) (p : Int) :
    index length p = (max 1 (min p (length + 1))).toNat - 1 := by
  rw [index, clampPosition]
  split
  · omega
  · split <;> omega

theorem index_append (length : Nat) (p : Int) :
    index length (p + 1) = (max 0 (min p length)).toNat := by
  rw [index, clampPosition]
  split
  · omega
  · split <;> omega

/-- All elements between the two places are the one to be inserted. -/
def SamePlace (items : List α) (x : α) (i j : Nat) : Prop :=
  ∀ y ∈ (items.take (max i j)).drop (min i j), y = x

theorem rotated_iff (x : α) (items : List α) :
    x :: items = items ++ [x] ↔ ∀ y ∈ items, y = x := by
  induction items with
  | nil => simp
  | cons y items ih =>
      constructor
      · intro same
        obtain ⟨rfl, rest⟩ := List.cons.inj same
        simpa using ih.mp rest
      · intro all
        obtain rfl : y = x := all y List.mem_cons_self
        exact congrArg (y :: ·) (ih.mpr fun z member => all z (List.mem_cons_of_mem y member))

theorem inserted_eq_of_le {items : List α} {x : α} {i j : Nat} (below : i ≤ j)
    (inside : j ≤ items.length) :
    inserted items x i = inserted items x j ↔ SamePlace items x i j := by
  have split : items.take j = items.take i ++ (items.take j).drop i := by
    have whole := (List.take_append_drop i (items.take j)).symm
    rwa [List.take_take, Nat.min_eq_left below] at whole
  have rest : items.drop i = (items.take j).drop i ++ items.drop j := by
    conv_lhs => rw [← List.take_append_drop j items]
    rw [List.drop_append_of_le_length (by simp; omega)]
  rw [inserted, inserted, split, rest, SamePlace, Nat.max_eq_right below, Nat.min_eq_left below,
    ← rotated_iff, List.append_assoc, List.append_cancel_left_eq, ← List.cons_append,
    List.append_cons _ x, List.append_cancel_right_eq]

theorem inserted_eq_iff {items : List α} {x : α} {i j : Nat} (insideI : i ≤ items.length)
    (insideJ : j ≤ items.length) :
    inserted items x i = inserted items x j ↔ SamePlace items x i j := by
  rcases Nat.le_total i j with below | above
  · exact inserted_eq_of_le below insideJ
  · rw [eq_comm, inserted_eq_of_le above insideI, SamePlace, SamePlace, Nat.max_comm, Nat.min_comm]

section

variable {s : Store (List α)} {others : List Nat} {items : List α} {args : Arguments α}

theorem insertOrAppend_returns (weight : α → Nat) (limit : Num)
    (covered : Covered s (args.list :: others)) (contents : s.content args.list = some items)
    (room : listRoom (items.length + 1) = true) (p : Num) (append1 : Int) :
    Returns weight limit (args.remaining others) s
      (insertOrAppend weight limit s args (some p) append1)
      (inserted items args.value (index items.length (toInt (p.val + append1)))) := by
  obtain ⟨taken, same⟩ := args.taken_covered covered
  have inTaken : (args.taken s).content args.list = some items :=
    (same _ List.mem_cons_self).trans contents
  obtain ⟨bound, position⟩ := index_le items.length (toInt (p.val + append1))
  obtain ⟨s', r, ran, covered', same', new⟩ := doinsert_inserts taken inTaken args.value bound room
  have whole := checked_returns weight limit covered'
    ((same.of_subset (List.subset_cons_self ..)).trans same') new
  simpa only [insertOrAppend, contents, Option.bind_eq_bind, Option.bind_some, toInt_wrap,
    position, ran] using whole

theorem insertOrAppend_none (weight : α → Nat) (limit : Num)
    (covered : Covered s (args.list :: others)) (contents : s.content args.list = some items)
    (room : listRoom items.length = true) (full : listRoom (items.length + 1) = false) (p : Num)
    (append1 : Int) : insertOrAppend weight limit s args (some p) append1 = none := by
  obtain ⟨_, same⟩ := args.taken_covered covered
  have inTaken := (same _ List.mem_cons_self).trans contents
  simp only [insertOrAppend, contents, Option.bind_eq_bind, Option.bind_some,
    doinsert_none inTaken _ _ room full, Option.bind_none]

theorem inserts_iff (weight : α → Nat) (covered : Covered s (args.list :: others))
    (contents : s.content args.list = some items) (room : listRoom items.length = true) (p : Num)
    (append1 : Int) :
    (∀ limit, Returns weight limit (args.remaining others) s
      (insertOrAppend weight limit s args (some p) append1)
      (inserted items args.value (index items.length (p.val + append1)))) ↔
    listRoom (items.length + 1) = true ∧ SamePlace items args.value
      (index items.length (toInt (p.val + append1))) (index items.length (p.val + append1)) := by
  cases more : listRoom (items.length + 1) with
  | false =>
      refine iff_of_false (fun all => ?_) (by simp)
      obtain ⟨_, _, ran, _⟩ := all p
      rw [insertOrAppend_none weight p covered contents room more] at ran
      cases ran
  | true =>
      rw [← inserted_eq_iff (index_le _ _).1 (index_le _ _).1]
      constructor
      · intro all
        obtain ⟨limit, within⟩ := exists_limit weight
        exact ⟨rfl, (insertOrAppend_returns weight limit covered contents more p append1).unique
          within (all limit)⟩
      · rintro ⟨_, same⟩ limit
        rw [← same]
        exact insertOrAppend_returns weight limit covered contents more p append1

theorem listset_iff (weight : α → Nat) (covered : Covered s (args.list :: others))
    (contents : s.content args.list = some items) (room : listRoom items.length = true) (p : Num) :
    (∀ limit : Num,
      if Inside items.length p.val then
        Returns weight limit (args.remaining others) s (bfListset weight limit s args p)
          (items.set (p.val.toNat - 1) args.value)
      else RefusesRange (args.remaining others) s (bfListset weight limit s args p)) ↔
    (Inside items.length p.val ∨ ¬Inside items.length (toInt p.val)) := by
  obtain ⟨taken, same⟩ := args.taken_covered covered
  have inTaken : (args.taken s).content args.list = some items :=
    (same _ List.mem_cons_self).trans contents
  have same' := same.of_subset (List.subset_cons_self ..)
  have refused {limit : Num} (outside : ¬Inside items.length (toInt p.val)) :
      bfListset weight limit s args p = some (args.taken s, .range) := by
    have tested : toInt p.val ≤ 0 ∨ toInt p.val > items.length := by
      rw [Inside] at outside
      omega
    simp only [bfListset, contents, Option.bind_eq_bind, Option.bind_some, if_pos tested]
  have returned (limit : Num) (inside : Inside items.length (toInt p.val)) :
      Returns weight limit (args.remaining others) s (bfListset weight limit s args p)
        (items.set ((toInt p.val).toNat - 1) args.value) := by
    have tested : ¬(toInt p.val ≤ 0 ∨ toInt p.val > items.length) := by
      have := inside.1
      have := inside.2
      omega
    obtain ⟨s', r, ran, covered', kept, new⟩ := listset_sets taken inTaken args.value inside room
    have whole := checked_returns weight limit covered' (same'.trans kept) new
    simpa only [bfListset, contents, Option.bind_eq_bind, Option.bind_some, if_neg tested, ran]
      using whole
  have small := (listRoom_iff.mp room).2
  by_cases inside : Inside items.length p.val
  · have exact' : toInt p.val = p.val := by
      have := inside.1
      have := inside.2
      exact toInt_eq (by omega) (by omega)
    refine iff_of_true (fun limit => ?_) (.inl inside)
    rw [if_pos inside]
    simpa only [exact'] using returned limit (exact'.symm ▸ inside)
  · constructor
    · intro all
      refine .inr fun within => ?_
      have refuses := all p
      rw [if_neg inside] at refuses
      obtain ⟨_, ran, _⟩ := refuses
      obtain ⟨_, answer, ran', _, right⟩ := returned p within
      obtain ⟨rfl, rfl⟩ := Prod.mk.inj (Option.some.inj (ran.symm.trans ran'))
      split at right
      · obtain ⟨_, is, _⟩ := right
        cases is
      · cases right.1
    · intro outside limit
      rw [if_neg inside]
      exact ⟨_, refused (outside.resolve_left inside), same', taken.sublist (List.sublist_cons_self ..)⟩

/-- The positions that the `int` keeps, as far as it matters: for `listset` it may not become one
of the list; for the others what lies between it and the right one has to be the value itself. -/
structure PositionsFit (items : List α) (x : α) (p : Num) : Prop where
  room : listRoom (items.length + 1) = true
  listset : Inside items.length p.val ∨ ¬Inside items.length (toInt p.val)
  listinsert : SamePlace items x (index items.length (toInt p.val)) (index items.length p.val)
  listappend : SamePlace items x (index items.length (toInt (p.val + 1)))
    (index items.length (p.val + 1))

theorem positions_exact_iff (weight : α → Nat) (p : Num)
    (covered : Covered s (args.list :: others)) (contents : s.content args.list = some items)
    (room : listRoom items.length = true) :
    PositionsExact weight s items args others p ↔ PositionsFit items args.value p := by
  have sets := listset_iff weight covered contents room p
  have inserts := inserts_iff weight covered contents room p 0
  have appends := inserts_iff weight covered contents room p 1
  rw [Int.add_zero] at inserts
  constructor
  · intro exact'
    have inserted := exact'.listinsert
    have appended := exact'.listappend
    rw [← index_insert] at inserted
    rw [← index_append] at appended
    obtain ⟨more, before⟩ := inserts.mp inserted
    obtain ⟨_, after⟩ := appends.mp appended
    exact ⟨more, sets.mp exact'.listset, before, after⟩
  · intro fit
    refine ⟨sets.mpr fit.listset, ?_, ?_⟩
    · rw [← index_insert]
      exact inserts.mpr ⟨fit.room, fit.listinsert⟩
    · rw [← index_append]
      exact appends.mpr ⟨fit.room, fit.listappend⟩

end

/-- Position 2^32 + 1 of a list of one element is taken for position 1. -/
theorem listset_beyond_int : ¬∀ (s : Store (List Nat)) (items : List Nat) (args : Arguments Nat)
    (others : List Nat) (p : Num), Covered s (args.list :: others) →
    s.content args.list = some items → listRoom items.length = true →
    PositionsExact (fun _ => 16) s items args others p := by
  intro all
  have covered : Covered [some ⟨1, []⟩, some ⟨1, [5]⟩] [1] := by
    intro a member
    obtain rfl := List.mem_singleton.mp member
    exact ⟨_, rfl, by decide⟩
  have fits := (listset_iff (fun _ => 16) covered rfl (by decide) (wrap (2 ^ 32 + 1))).mp
    (all _ [5] ⟨1, 7, false⟩ [] (wrap (2 ^ 32 + 1)) covered rfl (by decide)).listset
  exact absurd fits (by decide)

theorem positions_exact_second :
    PositionsExact (fun _ => 16) [some ⟨1, []⟩, some ⟨2, [5, 6]⟩] [5, 6] ⟨1, 7, false⟩ [1]
        (wrap 2) ↔
      PositionsFit [5, 6] 7 (wrap 2) :=
  positions_exact_iff (fun _ => 16) (wrap 2)
    (by
      intro a member
      obtain rfl : a = 1 := by simpa using member
      exact ⟨_, rfl, by decide⟩)
    rfl (by decide)

end ToastStunt.Lists
