import ToastStunt.Dbio.Hierarchies
import ToastStunt.Library.Reaching

/-!
Which object graphs `ng_validate_hierarchies` handles, and what it accepts.
-/

namespace ToastStunt.Dbio

open FirstVisit

/-! Phase 1 on one list. -/

section

variable {valid : Int → Bool}

theorem checkItems_short {turns i : Nat} {items : List Item} (some : 0 < turns)
    (short : items.length < i + turns) : checkItems valid turns i items = .error .outOfBounds := by
  induction turns generalizing i items with
  | zero => omega
  | succ turns ih =>
      rw [checkItems]
      cases found : items[i]? with
      | none => rfl
      | some item =>
          obtain ⟨bound, _⟩ := List.getElem?_eq_some_iff.mp found
          refine ih (by omega) ?_
          split
          · have := List.length_erase_le (a := item) (l := items)
            omega
          · omega

/-- An invalid item that is not the last makes a later turn read past the end. -/
theorem checkItems_fails {turns i j : Nat} {items : List Item} {item : Item}
    (count : i + turns = items.length) (from' : i ≤ j) (notLast : j + 1 < items.length)
    (found : items[j]? = some item) (invalid : invalidItem valid item = true) :
    checkItems valid turns i items = .error .outOfBounds := by
  induction turns generalizing i with
  | zero => omega
  | succ turns ih =>
      rw [checkItems]
      have bound : i < items.length := by omega
      rw [List.getElem?_eq_getElem bound]
      cases here : invalidItem valid items[i] with
      | true =>
          have shorter := List.length_erase_of_mem (List.getElem_mem bound)
          simp only [here, if_true]
          exact checkItems_short (by omega) (by omega)
      | false =>
          simp only [here, Bool.false_eq_true, if_false]
          refine ih (by omega) ?_
          rcases Nat.eq_or_lt_of_le from' with rfl | later
          · rw [List.getElem?_eq_getElem bound] at found
            rw [Option.some.inj found, invalid] at here
            cases here
          · exact later

theorem checkItems_valid {turns i : Nat} {items : List Item} (count : i + turns ≤ items.length)
    (sound : ∀ item ∈ items, invalidItem valid item = false) :
    checkItems valid turns i items = .ok items := by
  induction turns generalizing i with
  | zero => rfl
  | succ turns ih =>
      have bound : i < items.length := by omega
      rw [checkItems, List.getElem?_eq_getElem bound]
      simp only [sound _ (List.getElem_mem bound), Bool.false_eq_true, if_false]
      exact ih (by omega)

theorem checkItems_last {turns i : Nat} {front : List Item} {last : Item}
    (count : i + turns = front.length) (sound : ∀ item ∈ front, invalidItem valid item = false)
    (invalid : invalidItem valid last = true) :
    checkItems valid (turns + 1) i (front ++ [last]) = .ok front := by
  induction turns generalizing i with
  | zero =>
      have absent : last ∉ front := fun member => by
        rw [sound last member] at invalid
        cases invalid
      obtain rfl : i = front.length := by omega
      rw [checkItems, List.getElem?_concat_length]
      simp only [invalid, if_true, checkItems]
      rw [List.erase_append_right _ absent]
      simp
  | succ turns ih =>
      have bound : i < front.length := by omega
      rw [checkItems, List.getElem?_append_left bound, List.getElem?_eq_getElem bound]
      simp only [sound _ (List.getElem_mem bound), Bool.false_eq_true, if_false]
      exact ih (by omega)

def LastOnly (valid : Int → Bool) : Field → Prop
  | .item _ => True
  | .list items => ∀ item ∈ items.dropLast, invalidItem valid item = false

def numbers (field : Field) : List Int := (enlistField field).map Item.vObj

def knownItems (valid : Int → Bool) (field : Field) : List Item :=
  (enlistField field).filter fun item => valid item.vObj

def AllKnown (valid : Int → Bool) (field : Field) : Prop :=
  ∀ oid ∈ numbers field, oid = NOTHING ∨ valid oid = true

theorem known_of_not_invalid {item : Item} (sound : invalidItem valid item = false) :
    item.vObj = NOTHING ∨ valid item.vObj = true := by
  simp only [invalidItem, Bool.and_eq_false_iff, decide_eq_false_iff_not, not_not,
    Bool.not_eq_false'] at sound
  exact sound

theorem checkField_ok {field : Field} (lastOnly : LastOnly valid field) :
    ∃ field', checkField valid field = .ok field' ∧ AllKnown valid field' ∧
      (isObj field = true → isObj field' = true) ∧
      (isListOfObjs field = true → isListOfObjs field' = true) := by
  cases field with
  | item value =>
      refine ⟨_, rfl, ?_, ?_, (by rintro ⟨⟩)⟩
      · intro oid member
        obtain rfl := List.mem_singleton.mp member
        cases invalid : invalidItem valid value with
        | true => exact .inl rfl
        | false =>
            simp only [Bool.false_eq_true, if_false]
            exact known_of_not_invalid invalid
      · intro typed
        simp only [isObj]
        split
        · rfl
        · exact typed
  | list items =>
      have known : ∀ {kept : List Item}, (∀ item ∈ kept, invalidItem valid item = false) →
          AllKnown valid (.list kept) := by
        intro kept sound oid member
        obtain ⟨item, inside, rfl⟩ := List.mem_map.mp member
        exact known_of_not_invalid (sound item inside)
      rcases List.eq_nil_or_concat items with rfl | ⟨front, last, rfl⟩
      · exact ⟨.list [], rfl, known (by rintro _ ⟨⟩), (by rintro ⟨⟩), fun _ => rfl⟩
      · rw [List.concat_eq_append] at lastOnly ⊢
        simp only [LastOnly, List.dropLast_concat] at lastOnly
        simp only [checkField, List.length_append, List.length_singleton]
        cases invalid : invalidItem valid last with
        | true =>
            rw [checkItems_last (Nat.zero_add _) lastOnly invalid]
            refine ⟨_, rfl, known lastOnly, (by rintro ⟨⟩), fun typed => ?_⟩
            simp only [isListOfObjs, List.all_append, Bool.and_eq_true] at typed ⊢
            exact typed.1
        | false =>
            have sound : ∀ item ∈ front ++ [last], invalidItem valid item = false := by
              intro item member
              rcases List.mem_append.mp member with old | new
              · exact lastOnly item old
              · exact List.mem_singleton.mp new ▸ invalid
            rw [checkItems_valid (by simp) sound]
            exact ⟨_, rfl, known sound, (by rintro ⟨⟩), id⟩

theorem checkField_fails {field : Field} (notLastOnly : ¬LastOnly valid field) :
    checkField valid field = .error .outOfBounds := by
  cases field with
  | item value => exact absurd trivial notLastOnly
  | list items =>
      simp only [LastOnly, not_forall, Bool.not_eq_false] at notLastOnly
      obtain ⟨item, member, invalid⟩ := notLastOnly
      obtain ⟨j, bound, found⟩ := List.getElem_of_mem member
      rw [List.length_dropLast] at bound
      have at' : items[j]? = some item := by
        rw [List.getElem_dropLast] at found
        rw [List.getElem?_eq_getElem (by omega), found]
      rw [checkField, checkItems_fails (Nat.zero_add _) (Nat.zero_le j) (by omega) at' invalid]
      rfl

theorem checkItems_known {turns i : Nat} {items kept : List Item}
    (ran : checkItems valid turns i items = .ok kept) :
    kept.filter (fun item => valid item.vObj) = items.filter fun item => valid item.vObj := by
  induction turns generalizing i items with
  | zero =>
      cases ran
      rfl
  | succ turns ih =>
      rw [checkItems] at ran
      split at ran
      · cases ran
      · rename_i item _
        rw [ih ran]
        split
        · rename_i invalid
          simp only [invalidItem, Bool.and_eq_true, Bool.not_eq_true'] at invalid
          rw [← List.erase_filter, List.erase_of_not_mem]
          intro member
          rw [List.mem_filter, invalid.2] at member
          cases member.2
        · rfl

theorem checkField_known (nothing : valid NOTHING = false) {field field' : Field}
    (ran : checkField valid field = .ok field') : knownItems valid field' = knownItems valid field := by
  cases field with
  | item value =>
      cases ran
      cases invalid : invalidItem valid value with
      | false => rfl
      | true =>
          simp only [invalidItem, Bool.and_eq_true, Bool.not_eq_true'] at invalid
          have gone (item : Item) (unknown : valid item.vObj = false) :
              knownItems valid (.item item) = [] := by
            simp [knownItems, enlistField, unknown]
          exact (gone (.obj NOTHING) nothing).trans (gone value invalid.2).symm
  | list items =>
      rw [checkField] at ran
      cases checked : checkItems valid items.length 0 items with
      | error err =>
          rw [checked] at ran
          cases ran
      | ok kept =>
          rw [checked] at ran
          cases ran
          exact checkItems_known checked

/-! Phase 1 on all objects. -/

def hierarchyFields : List (FileObject → Field) :=
  [FileObject.location, FileObject.contents, FileObject.parents, FileObject.children]

structure FieldsKnown (valid : Int → Bool) (o : FileObject) : Prop where
  location : AllKnown valid o.location
  contents : AllKnown valid o.contents
  parents : AllKnown valid o.parents
  children : AllKnown valid o.children

def checkedObjects (permanent : List (Option FileObject)) : List FileObject :=
  (permanent.filterMap id).takeWhile wellTyped

def Repairable (valid : Int → Bool) (permanent : List (Option FileObject)) : Prop :=
  ∀ o ∈ checkedObjects permanent, LastOnly valid o.parents ∧ LastOnly valid o.children ∧
    LastOnly valid o.contents

def SameKnown (valid : Int → Bool) (o o' : FileObject) : Prop :=
  ∀ field ∈ hierarchyFields, knownItems valid (field o') = knownItems valid (field o)

structure Repaired (valid : Int → Bool) (o o' : FileObject) : Prop where
  typed : wellTyped o' = true
  known : FieldsKnown valid o'
  same : SameKnown valid o o'

theorem checkFields_known (nothing : valid NOTHING = false) {o o' : FileObject}
    (ran : checkFields valid o = .ok o') : SameKnown valid o o' := by
  unfold checkFields at ran
  cases parents : checkField valid o.parents with
  | error err => rw [parents] at ran; cases ran
  | ok _ =>
    cases children : checkField valid o.children with
    | error err => rw [parents, children] at ran; cases ran
    | ok _ =>
      cases location : checkField valid o.location with
      | error err => rw [parents, children, location] at ran; cases ran
      | ok _ =>
        cases contents : checkField valid o.contents with
        | error err => rw [parents, children, location, contents] at ran; cases ran
        | ok _ =>
          rw [parents, children, location, contents] at ran
          cases ran
          intro field member
          simp only [hierarchyFields, List.mem_cons, List.not_mem_nil, or_false] at member
          rcases member with rfl | rfl | rfl | rfl
          · exact checkField_known nothing location
          · exact checkField_known nothing contents
          · exact checkField_known nothing parents
          · exact checkField_known nothing children

theorem checkFields_ok {o : FileObject} (typed : wellTyped o = true)
    (lastOnly : LastOnly valid o.parents ∧ LastOnly valid o.children ∧ LastOnly valid o.contents) :
    ∃ o', checkFields valid o = .ok o' ∧ wellTyped o' = true ∧ FieldsKnown valid o' := by
  simp only [wellTyped, isObjOrListOfObjs, Bool.and_eq_true, Bool.or_eq_true] at typed
  obtain ⟨⟨⟨parentsTyped, childrenTyped⟩, locationTyped⟩, contentsTyped⟩ := typed
  have single : LastOnly valid o.location := by
    cases found : o.location with
    | item value => trivial
    | list items =>
        rw [found] at locationTyped
        cases locationTyped
  obtain ⟨parents, ranParents, knownParents, isObj₁, isList₁⟩ := checkField_ok lastOnly.1
  obtain ⟨children, ranChildren, knownChildren, _, isList₂⟩ := checkField_ok lastOnly.2.1
  obtain ⟨location, ranLocation, knownLocation, isObj₃, _⟩ := checkField_ok single
  obtain ⟨contents, ranContents, knownContents, _, isList₄⟩ := checkField_ok lastOnly.2.2
  refine ⟨⟨location, contents, parents, children⟩, ?_, ?_,
    ⟨knownLocation, knownContents, knownParents, knownChildren⟩⟩
  · rw [checkFields, ranParents, ranChildren, ranLocation, ranContents]
    rfl
  · simp only [wellTyped, isObjOrListOfObjs, isList₂ childrenTyped, isObj₃ locationTyped,
      isList₄ contentsTyped, Bool.and_true, Bool.or_eq_true]
    exact parentsTyped.imp isObj₁ isList₁

theorem checkFields_fails {o : FileObject} (typed : wellTyped o = true)
    (notLastOnly : ¬(LastOnly valid o.parents ∧ LastOnly valid o.children ∧
      LastOnly valid o.contents)) : checkFields valid o = .error .outOfBounds := by
  simp only [wellTyped, Bool.and_eq_true] at typed
  have single : LastOnly valid o.location := by
    cases found : o.location with
    | item value => trivial
    | list items =>
        rw [found] at typed
        cases typed.1.2
  obtain ⟨location, ranLocation, _⟩ := checkField_ok single
  by_cases parents : LastOnly valid o.parents
  · obtain ⟨_, ranParents, _⟩ := checkField_ok parents
    by_cases children : LastOnly valid o.children
    · obtain ⟨_, ranChildren, _⟩ := checkField_ok children
      have contents : ¬LastOnly valid o.contents := fun contents =>
        notLastOnly ⟨parents, children, contents⟩
      rw [checkFields, ranParents, ranChildren, ranLocation, checkField_fails contents]
      rfl
    · rw [checkFields, ranParents, checkField_fails children]
      rfl
  · rw [checkFields, checkField_fails parents]
    rfl

theorem checkObjects_broken (permanent : List (Option FileObject)) :
    checkObjects valid true permanent = .ok (true, permanent) := by
  induction permanent with
  | nil => rfl
  | cons entry rest ih =>
      cases entry with
      | none =>
          rw [checkObjects, ih]
          rfl
      | some o =>
          simp only [checkObjects, Bool.true_or, if_true, ih]
          rfl

theorem checkedObjects_some {o : FileObject} (typed : wellTyped o = true)
    (rest : List (Option FileObject)) :
    checkedObjects (some o :: rest) = o :: checkedObjects rest := by
  simp [checkedObjects, typed]

/-- Phase 1 repairs the objects, unless it finds a field of a wrong type. -/
theorem checkObjects_ok (nothing : valid NOTHING = false) {permanent : List (Option FileObject)}
    (repairable : Repairable valid permanent) :
    ∃ broken permanent', checkObjects valid false permanent = .ok (broken, permanent') ∧
      (broken = false ↔ ∀ o, some o ∈ permanent → wellTyped o = true) ∧
      (broken = false → List.Forall₂ (Option.Rel (Repaired valid)) permanent permanent') := by
  induction permanent with
  | nil => exact ⟨false, [], rfl, by simp, fun _ => .nil⟩
  | cons entry rest ih =>
      cases entry with
      | none =>
          obtain ⟨broken, rest', ran, typed, sound⟩ := ih repairable
          refine ⟨broken, none :: rest', ?_, by simpa using typed, fun fine => .cons .none (sound fine)⟩
          rw [checkObjects, ran]
          rfl
      | some o =>
          by_cases typed : wellTyped o = true
          · rw [Repairable, checkedObjects_some typed] at repairable
            obtain ⟨broken, rest', ran, allTyped, sound⟩ :=
              ih fun other member => repairable other (List.mem_cons_of_mem _ member)
            obtain ⟨o', ranHere, typed', known⟩ := checkFields_ok typed (repairable o (by simp))
            refine ⟨broken, some o' :: rest', ?_, by simpa [typed] using allTyped, fun fine =>
              .cons (.some ⟨typed', known, checkFields_known nothing ranHere⟩) (sound fine)⟩
            simp only [checkObjects, typed, Bool.not_true, Bool.or_self, Bool.false_eq_true,
              if_false, ranHere, ran]
            rfl
          · refine ⟨true, some o :: rest, ?_, ?_, nofun⟩
            · simp only [checkObjects, typed, Bool.not_false, Bool.or_true, if_true,
                checkObjects_broken]
              rfl
            · exact iff_of_false nofun fun all => typed (all o (by simp))

theorem checkObjects_fails {permanent : List (Option FileObject)}
    (notRepairable : ¬Repairable valid permanent) :
    checkObjects valid false permanent = .error .outOfBounds := by
  induction permanent with
  | nil => exact absurd (by simp [Repairable, checkedObjects]) notRepairable
  | cons entry rest ih =>
      cases entry with
      | none =>
          rw [checkObjects, ih notRepairable]
          rfl
      | some o =>
          by_cases typed : wellTyped o = true
          · simp only [checkObjects, typed, Bool.not_true, Bool.or_self, Bool.false_eq_true,
              if_false]
            by_cases here : LastOnly valid o.parents ∧ LastOnly valid o.children ∧
                LastOnly valid o.contents
            · obtain ⟨o', ranHere, _⟩ := checkFields_ok typed here
              have later : ¬Repairable valid rest := by
                intro repairable
                refine notRepairable ?_
                rw [Repairable, checkedObjects_some typed]
                intro other member
                rcases List.mem_cons.mp member with rfl | old
                · exact here
                · exact repairable other old
              rw [ranHere, ih later]
              rfl
            · rw [checkFields_fails typed here]
              rfl
          · refine absurd ?_ notRepairable
            intro other member
            simp [checkedObjects, typed] at member

end

/-! Validity does not change in phase 1. -/

theorem valid_eq (db : FileDb) (oid : Int) : db.valid oid =
    (decide (0 ≤ oid) &&
      (((db.permanent ++ db.anonymous).map Option.isSome)[oid.toNat]?).getD false) := by
  rw [FileDb.valid, FileDb.find]
  by_cases negative : oid < 0
  · simp [negative]
  · rw [if_neg negative, List.getElem?_map]
    have nonneg : 0 ≤ oid := not_lt.mp negative
    cases found : (db.permanent ++ db.anonymous)[oid.toNat]? with
    | none => simp
    | some entry => cases entry <;> simp [nonneg]

theorem nothing_invalid (db : FileDb) : db.valid NOTHING = false := by
  rw [valid_eq]
  rfl

theorem join_rel {α : Type} {R : α → α → Prop} {xs ys : List (Option α)}
    (rel : List.Forall₂ (Option.Rel R) xs ys) (n : Nat) :
    Option.Rel R xs[n]?.join ys[n]?.join := by
  induction rel generalizing n with
  | nil => exact .none
  | cons head _ ih =>
      cases n with
      | zero => exact head
      | succ n => exact ih n

theorem SameKnown.refl (valid : Int → Bool) (o : FileObject) : SameKnown valid o o :=
  fun _ _ => rfl

section

variable {db : FileDb} {permanent : List (Option FileObject)}
  (repaired : List.Forall₂ (Option.Rel (Repaired db.valid)) db.permanent permanent)

include repaired

theorem find_rel (oid : Int) :
    Option.Rel (SameKnown db.valid) (db.find oid) (FileDb.find { db with permanent } oid) := by
  have unchanged : List.Forall₂ (Option.Rel (SameKnown db.valid)) db.anonymous db.anonymous := by
    rw [List.forall₂_same]
    rintro (_ | o) _
    · exact .none
    · exact .some (.refl _ o)
  have whole : List.Forall₂ (Option.Rel (SameKnown db.valid)) (db.permanent ++ db.anonymous)
      (permanent ++ db.anonymous) := by
    refine List.rel_append (repaired.imp ?_) unchanged
    rintro _ _ (related | _)
    · exact .some related.same
    · exact .none
  unfold FileDb.find
  split
  · exact .none
  · exact join_rel whole _

theorem valid_repaired : FileDb.valid { db with permanent } = db.valid := by
  funext oid
  have rel := find_rel repaired oid
  rw [FileDb.valid, FileDb.valid]
  revert rel
  generalize db.find oid = before
  generalize FileDb.find { db with permanent } oid = after
  rintro (_ | _)
  · rfl
  · rfl

end

section

variable {db : FileDb}

theorem find_permanent {oid : Int} {o : FileObject} (inside : oid ∈ permanentOids db)
    (found : db.find oid = some o) : some o ∈ db.permanent := by
  obtain ⟨n, bound, rfl⟩ := List.mem_map.mp inside
  rw [List.mem_range] at bound
  simp only [FileDb.find, Int.ofNat_eq_natCast, Int.toNat_natCast] at found
  rw [if_neg (by omega), List.getElem?_append_left bound, List.getElem?_eq_getElem bound] at found
  exact (show db.permanent[n] = some o from found) ▸ List.getElem_mem bound

/-! Phase 2. -/

def validOids (db : FileDb) : Finset Int :=
  (Finset.range (db.permanent.length + db.anonymous.length)).image Int.ofNat

theorem valid_bounded {oid : Int} (isValid : db.valid oid = true) : oid ∈ validOids db := by
  rw [valid_eq, Bool.and_eq_true, decide_eq_true_eq] at isValid
  obtain ⟨nonneg, present⟩ := isValid
  have bound : oid.toNat < db.permanent.length + db.anonymous.length := by
    by_contra outside
    rw [List.getElem?_eq_none (by simpa using outside)] at present
    cases present
  exact Finset.mem_image.mpr
    ⟨oid.toNat, Finset.mem_range.mpr bound, by simpa using Int.toNat_of_nonneg nonneg⟩

theorem follow_bounded (field : FileObject → Field) (oid : Int) :
    ∀ other ∈ follow db field oid, other ∈ validOids db := by
  intro other member
  unfold follow at member
  split at member
  · cases member
  · exact valid_bounded (List.mem_filter.mp member).2

def Above (db : FileDb) (field : FileObject → Field) : Int → Int → Prop :=
  Relation.TransGen fun oid other => other ∈ follow db field oid

theorem mem_above {field : FileObject → Field} {oid other : Int} :
    other ∈ above db field oid ↔ Above db field oid other := by
  have enough : (validOids db).card < db.permanent.length + db.anonymous.length + 1 :=
    Nat.lt_succ_of_le (Finset.card_image_le.trans (by simp))
  rw [above, visit_reaches (fun item _ => follow_bounded field item) enough
    (follow_bounded field oid)]
  constructor
  · rintro ⟨first, edge, path⟩
    exact Relation.TransGen.head' edge path
  · intro path
    obtain ⟨first, edge, path⟩ := Relation.TransGen.head'_iff.mp path
    exact ⟨first, edge, path⟩

theorem hasCycle_false {oid : Int} : hasCycle db oid = false ↔
    ¬Above db FileObject.parents oid oid ∧ ¬Above db FileObject.location oid oid := by
  simp only [hasCycle, mem_above, Bool.and_eq_false_iff, Bool.or_eq_false_iff,
    decide_eq_false_iff_not]
  refine ⟨?_, .inr⟩
  rintro (invalid | none)
  · have noEdge : ∀ field other, other ∉ follow db field oid := by
      intro field other member
      rw [FileDb.valid, Option.isSome_eq_false_iff, Option.isNone_iff_eq_none] at invalid
      simp [follow, invalid] at member
    constructor
    all_goals
      intro path
      obtain ⟨first, edge, _⟩ := Relation.TransGen.head'_iff.mp path
      exact noEdge _ first edge
  · exact none

/-! Phase 3. -/

theorem checkLinks_ok {oid : Int} {down : FileObject → Field} {items : List Item}
    (known : ∀ item ∈ items, item.vObj = NOTHING ∨ db.valid item.vObj = true) :
    ∃ answer, checkLinks db oid down items = .ok answer ∧ (answer = true ↔
      ∀ item ∈ items, item.vObj ≠ NOTHING →
        ∃ other, db.find item.vObj = some other ∧ .obj oid ∈ enlistField (down other)) := by
  induction items with
  | nil => exact ⟨true, rfl, by simp⟩
  | cons item rest ih =>
      obtain ⟨answer, ran, linked⟩ := ih fun other member => known other (by simp [member])
      rw [checkLinks, List.forall_mem_cons]
      by_cases isNothing : item.vObj = NOTHING
      · rw [if_pos isNothing]
        exact ⟨answer, ran, linked.trans
          ⟨fun all => ⟨fun named => absurd isNothing named, all⟩, And.right⟩⟩
      · have isValid := (known item (by simp)).resolve_left isNothing
        obtain ⟨other, found⟩ := Option.isSome_iff_exists.mp isValid
        simp only [if_neg isNothing, found]
        by_cases knows : .obj oid ∈ enlistField (down other)
        · rw [if_pos knows]
          exact ⟨answer, ran, linked.trans
            ⟨fun all => ⟨fun _ => ⟨other, rfl, knows⟩, all⟩, And.right⟩⟩
        · rw [if_neg knows]
          refine ⟨false, rfl, iff_of_false Bool.false_ne_true ?_⟩
          rintro ⟨here, _⟩
          obtain ⟨other', same, knows'⟩ := here isNothing
          cases same
          exact knows knows'

def Answers (db : FileDb) (oid : Int) (o : FileObject) (up down : FileObject → Field) : Prop :=
  ∀ number ∈ numbers (up o), number ≠ NOTHING →
    ∃ other, db.find number = some other ∧ .obj oid ∈ enlistField (down other)

structure AllAnswer (db : FileDb) (oid : Int) (o : FileObject) : Prop where
  contents : Answers db oid o FileObject.location FileObject.contents
  location : Answers db oid o FileObject.contents FileObject.location
  children : Answers db oid o FileObject.parents FileObject.children
  parents : Answers db oid o FileObject.children FileObject.parents

theorem checkLinks_answers (oid : Int) {o : FileObject} {up : FileObject → Field}
    (down : FileObject → Field) (known : AllKnown db.valid (up o)) :
    ∃ answer, checkLinks db oid down (enlistField (up o)) = .ok answer ∧
      (answer = true ↔ Answers db oid o up down) := by
  obtain ⟨answer, ran, linked⟩ :=
    checkLinks_ok fun item member => known item.vObj (List.mem_map_of_mem member)
  refine ⟨answer, ran, linked.trans ?_⟩
  rw [Answers, numbers, List.forall_mem_map]

theorem checkObject_ok {oid : Int}
    (known : ∀ o, db.find oid = some o → FieldsKnown db.valid o) :
    ∃ answer, checkObject db oid = .ok answer ∧
      (answer = true ↔ ∀ o, db.find oid = some o → AllAnswer db oid o) := by
  rw [checkObject]
  cases found : db.find oid with
  | none => exact ⟨true, rfl, iff_of_true rfl nofun⟩
  | some o =>
      have fields := known o found
      obtain ⟨located, ran₁, linked₁⟩ := checkLinks_answers oid FileObject.contents fields.location
      obtain ⟨contained, ran₂, linked₂⟩ := checkLinks_answers oid FileObject.location fields.contents
      obtain ⟨descended, ran₃, linked₃⟩ := checkLinks_answers oid FileObject.children fields.parents
      obtain ⟨inherited, ran₄, linked₄⟩ := checkLinks_answers oid FileObject.parents fields.children
      refine ⟨located && contained && descended && inherited, ?_, ?_⟩
      · simp only [ran₁, ran₂, ran₃, ran₄]
        rfl
      · simp only [Bool.and_eq_true, linked₁, linked₂, linked₃, linked₄]
        constructor
        · rintro ⟨⟨⟨yes₁, yes₂⟩, yes₃⟩, yes₄⟩ _ same
          cases same
          exact ⟨yes₁, yes₂, yes₃, yes₄⟩
        · intro all
          obtain ⟨yes₁, yes₂, yes₃, yes₄⟩ := all o rfl
          exact ⟨⟨⟨yes₁, yes₂⟩, yes₃⟩, yes₄⟩

theorem checkConsistent_ok {oids : List Int}
    (known : ∀ oid ∈ oids, ∀ o, db.find oid = some o → FieldsKnown db.valid o) :
    ∃ answer, checkConsistent db oids = .ok answer ∧ (answer = true ↔
      ∀ oid ∈ oids, ∀ o, db.find oid = some o → AllAnswer db oid o) := by
  induction oids with
  | nil => exact ⟨true, rfl, by simp⟩
  | cons oid rest ih =>
      obtain ⟨others, ranOthers, all⟩ := ih fun other member => known other (by simp [member])
      obtain ⟨here, ranHere, one⟩ := checkObject_ok (known oid (by simp))
      refine ⟨here && others, ?_, ?_⟩
      · rw [checkConsistent, ranHere, ranOthers]
        rfl
      · rw [Bool.and_eq_true, one, all, List.forall_mem_cons]

end

def Mirrors (db : FileDb) (up down : FileObject → Field) : Prop :=
  ∀ oid ∈ permanentOids db, ∀ o, db.find oid = some o → Answers db oid o up down

/-- What a database has to satisfy once it is loaded. The relations are between the objects
that have numbers; anonymous objects are not part of them. -/
structure HierarchiesOk (db : FileDb) : Prop where
  typed : ∀ o, some o ∈ db.permanent → wellTyped o = true
  known : ∀ o, some o ∈ db.permanent → FieldsKnown db.valid o
  children : Mirrors db FileObject.parents FileObject.children
  parents : Mirrors db FileObject.children FileObject.parents
  contents : Mirrors db FileObject.location FileObject.contents
  location : Mirrors db FileObject.contents FileObject.location
  noParentCycle : ∀ oid ∈ permanentOids db, ¬Above db FileObject.parents oid oid
  noLocationCycle : ∀ oid ∈ permanentOids db, ¬Above db FileObject.location oid oid

end ToastStunt.Dbio
