import ToastStunt.Dbio.Validation

/-!
The databases that the validation accepts, once the anonymous objects have lost the numbers
that they have while the file is read.
-/

namespace ToastStunt.Dbio

def dbprivAfterLoad (db : FileDb) : FileDb := { db with anonymous := [] }

/-- The validation ends without reading past a list or through a null pointer, and what it
accepts is in order when it is loaded. -/
def ValidatesSoundly (db : FileDb) : Prop :=
  ∃ success db', ngValidateHierarchies db = .ok (success, db') ∧
    (success = true → HierarchiesOk (dbprivAfterLoad db'))

def Answered (db : FileDb) (oid : Int) (o : FileObject) (up down : FileObject → Field) : Prop :=
  ∀ item ∈ knownItems db.valid (up o),
    ∃ other, db.find item.vObj = some other ∧ .obj oid ∈ enlistField (down other)

structure AllAnswered (db : FileDb) (oid : Int) (o : FileObject) : Prop where
  contents : Answered db oid o FileObject.location FileObject.contents
  location : Answered db oid o FileObject.contents FileObject.location
  children : Answered db oid o FileObject.parents FileObject.children
  parents : Answered db oid o FileObject.children FileObject.parents

structure InOrder (db : FileDb) : Prop where
  typed : ∀ o, some o ∈ db.permanent → wellTyped o = true
  answered : ∀ oid ∈ permanentOids db, ∀ o, db.find oid = some o → AllAnswered db oid o
  noParentCycle : ∀ oid ∈ permanentOids db, ¬Above db FileObject.parents oid oid
  noLocationCycle : ∀ oid ∈ permanentOids db, ¬Above db FileObject.location oid oid

def NamesAnonymous (db : FileDb) : Prop :=
  ∃ o, some o ∈ db.permanent ∧ ∃ field ∈ hierarchyFields, ∃ item ∈ knownItems db.valid (field o),
    (db.permanent.length : Int) ≤ item.vObj

section

variable {db : FileDb} {permanent : List (Option FileObject)}

theorem mem_right {R : FileObject → FileObject → Prop} {xs ys : List (Option FileObject)}
    (rel : List.Forall₂ (Option.Rel R) xs ys) {o' : FileObject} (member : some o' ∈ ys) :
    ∃ o, some o ∈ xs ∧ R o o' := by
  induction rel with
  | nil => cases member
  | cons head _ ih =>
      rcases List.mem_cons.mp member with rfl | later
      · cases head with
        | some related => exact ⟨_, List.mem_cons_self, related⟩
      · obtain ⟨o, inside, related⟩ := ih later
        exact ⟨o, List.mem_cons_of_mem _ inside, related⟩

theorem mem_left {R : FileObject → FileObject → Prop} {xs ys : List (Option FileObject)}
    (rel : List.Forall₂ (Option.Rel R) xs ys) {o : FileObject} (member : some o ∈ xs) :
    ∃ o', some o' ∈ ys ∧ R o o' := by
  induction rel with
  | nil => cases member
  | cons head _ ih =>
      rcases List.mem_cons.mp member with rfl | later
      · cases head with
        | some related => exact ⟨_, List.mem_cons_self, related⟩
      · obtain ⟨o', inside, related⟩ := ih later
        exact ⟨o', List.mem_cons_of_mem _ inside, related⟩

theorem known_valid {valid : Int → Bool} {field : Field} {item : Item}
    (member : item ∈ knownItems valid field) : valid item.vObj = true :=
  (List.mem_filter.mp member).2

theorem valid_not_nothing {oid : Int} (isValid : db.valid oid = true) : oid ≠ NOTHING := by
  rintro rfl
  rw [nothing_invalid] at isValid
  cases isValid

theorem answers_iff {oid : Int} {o : FileObject} {up down : FileObject → Field}
    (known : AllKnown db.valid (up o)) : Answers db oid o up down ↔ Answered db oid o up down := by
  rw [Answers, numbers, List.forall_mem_map]
  constructor
  · intro answers item member
    exact answers item (List.mem_filter.mp member).1 (valid_not_nothing (known_valid member))
  · intro answered item member named
    have isValid := (known item.vObj (List.mem_map_of_mem member)).resolve_left named
    exact answered item (List.mem_filter.mpr ⟨member, isValid⟩)

theorem allAnswer_iff {oid : Int} {o : FileObject} (known : FieldsKnown db.valid o) :
    AllAnswer db oid o ↔ AllAnswered db oid o := by
  constructor
  · rintro ⟨contents, location, children, parents⟩
    exact ⟨(answers_iff known.location).mp contents, (answers_iff known.contents).mp location,
      (answers_iff known.parents).mp children, (answers_iff known.children).mp parents⟩
  · rintro ⟨contents, location, children, parents⟩
    exact ⟨(answers_iff known.location).mpr contents, (answers_iff known.contents).mpr location,
      (answers_iff known.parents).mpr children, (answers_iff known.children).mpr parents⟩

/-! Phase 1 changes nothing in the relations between what there is. -/

section

variable (repaired : List.Forall₂ (Option.Rel (Repaired db.valid)) db.permanent permanent)

include repaired

theorem permanentOids_repaired :
    permanentOids { db with permanent } = permanentOids db := by
  rw [permanentOids, permanentOids, repaired.length_eq]

theorem follow_repaired {field : FileObject → Field} (listed : field ∈ hierarchyFields) (oid : Int) :
    follow { db with permanent } field oid = follow db field oid := by
  have kept (o : FileObject) : ((enlistField (field o)).map Item.vObj).filter db.valid =
      (knownItems db.valid (field o)).map Item.vObj := by
    rw [List.filter_map]
    rfl
  rw [follow, follow, valid_repaired repaired]
  have rel := find_rel repaired oid
  revert rel
  generalize db.find oid = before
  generalize FileDb.find { db with permanent } oid = after
  rintro (same | _)
  · simp only
    rw [kept, kept, same field listed]
  · rfl

theorem above_repaired {field : FileObject → Field} (listed : field ∈ hierarchyFields) :
    Above { db with permanent } field = Above db field := by
  have same : (fun oid other => other ∈ follow { db with permanent } field oid) =
      fun oid other => other ∈ follow db field oid := by
    funext oid other
    rw [follow_repaired repaired listed]
  rw [Above, Above, same]

theorem answered_repaired {oid : Int} (isValid : db.valid oid = true) {o o' : FileObject}
    (same : SameKnown db.valid o o') {up down : FileObject → Field} (upListed : up ∈ hierarchyFields)
    (downListed : down ∈ hierarchyFields) :
    Answered { db with permanent } oid o' up down ↔ Answered db oid o up down := by
  have mem_iff (field : Field) : Item.obj oid ∈ knownItems db.valid field ↔
      Item.obj oid ∈ enlistField field := by
    rw [knownItems, List.mem_filter]
    exact and_iff_left isValid
  rw [Answered, Answered, valid_repaired repaired, same up upListed]
  refine forall₂_congr fun item _ => ?_
  have rel := find_rel repaired item.vObj
  revert rel
  generalize db.find item.vObj = before
  generalize FileDb.find { db with permanent } item.vObj = after
  rintro (sameOther | _)
  · simp only [Option.some.injEq, exists_eq_left']
    rw [← mem_iff, sameOther down downListed, mem_iff]
  · rfl

theorem allAnswered_repaired {oid : Int} (isValid : db.valid oid = true) {o o' : FileObject}
    (same : SameKnown db.valid o o') :
    AllAnswered { db with permanent } oid o' ↔ AllAnswered db oid o := by
  have here {up down : FileObject → Field} (upListed : up ∈ hierarchyFields)
      (downListed : down ∈ hierarchyFields) :=
    answered_repaired repaired isValid same upListed downListed
  constructor
  · rintro ⟨contents, location, children, parents⟩
    exact ⟨(here (by simp [hierarchyFields]) (by simp [hierarchyFields])).mp contents,
      (here (by simp [hierarchyFields]) (by simp [hierarchyFields])).mp location,
      (here (by simp [hierarchyFields]) (by simp [hierarchyFields])).mp children,
      (here (by simp [hierarchyFields]) (by simp [hierarchyFields])).mp parents⟩
  · rintro ⟨contents, location, children, parents⟩
    exact ⟨(here (by simp [hierarchyFields]) (by simp [hierarchyFields])).mpr contents,
      (here (by simp [hierarchyFields]) (by simp [hierarchyFields])).mpr location,
      (here (by simp [hierarchyFields]) (by simp [hierarchyFields])).mpr children,
      (here (by simp [hierarchyFields]) (by simp [hierarchyFields])).mpr parents⟩

end

theorem ngValidateHierarchies_answers (repairable : Repairable db.valid db.permanent) :
    ∃ success permanent, ngValidateHierarchies db = .ok (success, { db with permanent }) ∧
      (success = true ↔ InOrder db) ∧
      (success = true → HierarchiesOk { db with permanent } ∧
        List.Forall₂ (Option.Rel (Repaired db.valid)) db.permanent permanent) := by
  obtain ⟨broken, permanent, ran, typed, sound⟩ := checkObjects_ok (nothing_invalid db) repairable
  rw [ngValidateHierarchies, ran]
  cases broken with
  | true =>
      refine ⟨false, permanent, rfl, iff_of_false Bool.false_ne_true fun inOrder => ?_, fun yes => by cases yes⟩
      cases typed.mpr inOrder.typed
  | false =>
      have repaired := sound rfl
      have oids := permanentOids_repaired repaired
      have fields (o : FileObject) (member : some o ∈ permanent) :
          wellTyped o = true ∧ FieldsKnown (FileDb.valid { db with permanent }) o := by
        obtain ⟨_, _, related⟩ := mem_right repaired member
        rw [valid_repaired repaired]
        exact ⟨related.typed, related.known⟩
      have known : ∀ oid ∈ permanentOids { db with permanent }, ∀ o,
          FileDb.find { db with permanent } oid = some o →
          FieldsKnown (FileDb.valid { db with permanent }) o :=
        fun oid inside o found => (fields o (find_permanent inside found)).2
      have acyclic (oid : Int) : hasCycle { db with permanent } oid = false ↔
          ¬Above db FileObject.parents oid oid ∧ ¬Above db FileObject.location oid oid := by
        rw [hasCycle_false, above_repaired repaired (by simp [hierarchyFields]),
          above_repaired repaired (by simp [hierarchyFields])]
      cases cycles : (permanentOids { db with permanent }).any (hasCycle { db with permanent }) with
      | true =>
          refine ⟨false, permanent, ?_, iff_of_false Bool.false_ne_true fun inOrder => ?_,
            fun yes => by cases yes⟩
          · change (if (permanentOids { db with permanent }).any (hasCycle _) then _ else _) = _
            rw [cycles]
            rfl
          · obtain ⟨oid, inside, cycle⟩ := List.any_eq_true.mp cycles
            rw [oids] at inside
            have none := (acyclic oid).mpr
              ⟨inOrder.noParentCycle oid inside, inOrder.noLocationCycle oid inside⟩
            rw [none] at cycle
            cases cycle
      | false =>
          obtain ⟨consistent, ranConsistent, all⟩ := checkConsistent_ok known
          have noCycle (oid : Int) (inside : oid ∈ permanentOids db) :
              hasCycle { db with permanent } oid = false := by
            have none := List.any_eq_false.mp cycles oid (oids ▸ inside)
            simpa using none
          have answered : (∀ oid ∈ permanentOids { db with permanent }, ∀ o,
              FileDb.find { db with permanent } oid = some o →
                AllAnswer { db with permanent } oid o) ↔
              ∀ oid ∈ permanentOids db, ∀ o, db.find oid = some o → AllAnswered db oid o := by
            rw [oids]
            refine forall₂_congr fun oid inside => ?_
            have rel := find_rel repaired oid
            cases before : db.find oid with
            | none =>
                rw [before] at rel
                cases after : FileDb.find { db with permanent } oid with
                | none => exact iff_of_true (fun o found => by cases found) fun o found => by cases found
                | some o' =>
                    rw [after] at rel
                    cases rel
            | some o =>
                rw [before] at rel
                cases after : FileDb.find { db with permanent } oid with
                | none =>
                    rw [after] at rel
                    cases rel
                | some o' =>
                    rw [after] at rel
                    cases rel with
                    | some same =>
                        have isValid : db.valid oid = true := by rw [FileDb.valid, before]; rfl
                        have fieldsKnown := known oid (oids.symm ▸ inside) o' after
                        simp only [Option.some.injEq, forall_eq']
                        rw [allAnswer_iff fieldsKnown, allAnswered_repaired repaired isValid same]
          refine ⟨consistent, permanent, ?_, ?_, fun yes => ⟨?_, repaired⟩⟩
          · change (if (permanentOids { db with permanent }).any (hasCycle _) then _ else _) = _
            rw [cycles]
            simp only [Bool.false_eq_true, if_false]
            change (checkConsistent { db with permanent } _ >>= fun consistent =>
              Except.ok (consistent, { db with permanent })) = _
            rw [ranConsistent]
            rfl
          · rw [all, answered]
            exact ⟨fun links => ⟨typed.mp rfl, links,
                fun oid inside => ((acyclic oid).mp (noCycle oid inside)).1,
                fun oid inside => ((acyclic oid).mp (noCycle oid inside)).2⟩,
              InOrder.answered⟩
          · have links := all.mp yes
            exact ⟨fun o member => (fields o member).1, fun o member => (fields o member).2,
              fun oid inside o found => (links oid inside o found).children,
              fun oid inside o found => (links oid inside o found).parents,
              fun oid inside o found => (links oid inside o found).contents,
              fun oid inside o found => (links oid inside o found).location,
              fun oid inside => (hasCycle_false.mp (noCycle oid (oids ▸ inside))).1,
              fun oid inside => (hasCycle_false.mp (noCycle oid (oids ▸ inside))).2⟩

theorem ngValidateHierarchies_readsPast (notRepairable : ¬Repairable db.valid db.permanent) :
    ngValidateHierarchies db = .error .outOfBounds := by
  rw [ngValidateHierarchies, checkObjects_fails notRepairable]
  rfl

/-! The anonymous objects lose their numbers. -/

theorem find_afterLoad {oid : Int} (within : oid < db.permanent.length) :
    (dbprivAfterLoad db).find oid = db.find oid := by
  rw [FileDb.find, FileDb.find, dbprivAfterLoad]
  split
  · rfl
  · rw [List.getElem?_append_left (by simp; omega), List.getElem?_append_left (by omega)]

theorem find_beyond {oid : Int} (beyond : db.permanent.length ≤ oid) :
    (dbprivAfterLoad db).find oid = none := by
  rw [FileDb.find, dbprivAfterLoad, List.append_nil]
  split
  · rfl
  · rw [List.getElem?_eq_none (by simp; omega)]
    rfl

theorem within_of_valid {oid : Int} (isValid : (dbprivAfterLoad db).valid oid = true) :
    oid < db.permanent.length ∧ db.valid oid = true := by
  by_cases within : oid < db.permanent.length
  · rw [FileDb.valid, find_afterLoad within] at isValid
    exact ⟨within, isValid⟩
  · rw [FileDb.valid, find_beyond (by omega)] at isValid
    cases isValid

theorem within_of_permanent {oid : Int} (inside : oid ∈ permanentOids db) :
    oid < db.permanent.length := by
  obtain ⟨n, bound, rfl⟩ := List.mem_map.mp inside
  rw [List.mem_range] at bound
  exact Int.ofNat_lt.mpr bound

theorem above_afterLoad {field : FileObject → Field} {oid other : Int}
    (path : Above (dbprivAfterLoad db) field oid other) : Above db field oid other := by
  refine Relation.TransGen.mono (fun first second edge => ?_) _ _ path
  by_cases within : first < db.permanent.length
  · rw [follow, find_afterLoad within] at edge
    rw [follow]
    cases found : db.find first with
    | none =>
        rw [found] at edge
        cases edge
    | some o =>
        rw [found] at edge
        obtain ⟨named, isValid⟩ := List.mem_filter.mp edge
        exact List.mem_filter.mpr ⟨named, (within_of_valid isValid).2⟩
  · rw [follow, find_beyond (by omega)] at edge
    cases edge

def OnlyNumbered (db : FileDb) : Prop :=
  ∀ o, some o ∈ db.permanent → ∀ field ∈ hierarchyFields, ∀ number ∈ numbers (field o),
    number < db.permanent.length

theorem allKnown_afterLoad {field : Field} (known : AllKnown db.valid field)
    (numbered : ∀ number ∈ numbers field, number < db.permanent.length) :
    AllKnown (dbprivAfterLoad db).valid field := by
  intro number member
  refine (known number member).imp_right fun isValid => ?_
  rw [FileDb.valid, find_afterLoad (numbered number member)]
  exact isValid

theorem answers_afterLoad {oid : Int} {o : FileObject} {up down : FileObject → Field}
    (answers : Answers db oid o up down)
    (numbered : ∀ number ∈ numbers (up o), number < db.permanent.length) :
    Answers (dbprivAfterLoad db) oid o up down := by
  intro number member named
  obtain ⟨other, found, knows⟩ := answers number member named
  exact ⟨other, (find_afterLoad (numbered number member)).trans found, knows⟩

theorem mirrors_afterLoad {up down : FileObject → Field} (listed : up ∈ hierarchyFields)
    (mirrors : Mirrors db up down) (only : OnlyNumbered db) :
    Mirrors (dbprivAfterLoad db) up down := by
  intro oid inside o found
  have within : oid < db.permanent.length := within_of_permanent inside
  rw [find_afterLoad within] at found
  exact answers_afterLoad (mirrors oid inside o found)
    (only o (find_permanent inside found) up listed)

theorem hierarchiesOk_afterLoad (ok : HierarchiesOk db) (only : OnlyNumbered db) :
    HierarchiesOk (dbprivAfterLoad db) := by
  have listed {field : FileObject → Field} (member : field ∈ hierarchyFields) (o : FileObject)
      (inside : some o ∈ db.permanent) := only o inside field member
  refine ⟨ok.typed, fun o inside => ?_, mirrors_afterLoad (by simp [hierarchyFields]) ok.children only,
    mirrors_afterLoad (by simp [hierarchyFields]) ok.parents only,
    mirrors_afterLoad (by simp [hierarchyFields]) ok.contents only,
    mirrors_afterLoad (by simp [hierarchyFields]) ok.location only,
    fun oid inside path => ok.noParentCycle oid inside (above_afterLoad path),
    fun oid inside path => ok.noLocationCycle oid inside (above_afterLoad path)⟩
  obtain ⟨location, contents, parents, children⟩ := ok.known o inside
  exact ⟨allKnown_afterLoad location (listed (by simp [hierarchyFields]) o inside),
    allKnown_afterLoad contents (listed (by simp [hierarchyFields]) o inside),
    allKnown_afterLoad parents (listed (by simp [hierarchyFields]) o inside),
    allKnown_afterLoad children (listed (by simp [hierarchyFields]) o inside)⟩

theorem onlyNumbered_of_ok (ok : HierarchiesOk (dbprivAfterLoad db)) : OnlyNumbered db := by
  intro o inside field listed number member
  have known : AllKnown (dbprivAfterLoad db).valid (field o) := by
    obtain ⟨location, contents, parents, children⟩ := ok.known o inside
    simp only [hierarchyFields, List.mem_cons, List.not_mem_nil, or_false] at listed
    rcases listed with rfl | rfl | rfl | rfl
    · exact location
    · exact contents
    · exact parents
    · exact children
  rcases known number member with rfl | isValid
  · exact Int.lt_of_lt_of_le (by decide) (Int.natCast_nonneg _)
  · exact (within_of_valid isValid).1

theorem onlyNumbered_repaired
    (repaired : List.Forall₂ (Option.Rel (Repaired db.valid)) db.permanent permanent) :
    OnlyNumbered { db with permanent } ↔ ¬NamesAnonymous db := by
  have length : permanent.length = db.permanent.length := repaired.length_eq.symm
  constructor
  · rintro only ⟨o, inside, field, listed, item, member, beyond⟩
    obtain ⟨o', inside', related⟩ := mem_left repaired inside
    rw [← related.same field listed] at member
    have within := only o' inside' field listed item.vObj
      (List.mem_map_of_mem (List.mem_filter.mp member).1)
    simp only [length] at within
    omega
  · intro none o' inside' field listed number member
    obtain ⟨o, inside, related⟩ := mem_right repaired inside'
    obtain ⟨item, here, rfl⟩ := List.mem_map.mp member
    by_contra beyond
    simp only [length] at beyond
    have known : AllKnown db.valid (field o') := by
      obtain ⟨location, contents, parents, children⟩ := related.known
      simp only [hierarchyFields, List.mem_cons, List.not_mem_nil, or_false] at listed
      rcases listed with rfl | rfl | rfl | rfl
      · exact location
      · exact contents
      · exact parents
      · exact children
    rcases known item.vObj member with nothing | isValid
    · rw [nothing] at beyond
      exact beyond (Int.lt_of_lt_of_le (by decide) (Int.natCast_nonneg _))
    · refine none ⟨o, inside, field, listed, item, ?_, by omega⟩
      rw [← related.same field listed]
      exact List.mem_filter.mpr ⟨here, isValid⟩

/-- The validation does what it is for exactly when no list that it repairs has an invalid
number before its last item, and no numbered object of a file in order names an anonymous one. -/
theorem validatesSoundly_iff (db : FileDb) : ValidatesSoundly db ↔
    Repairable db.valid db.permanent ∧ (InOrder db → ¬NamesAnonymous db) := by
  by_cases repairable : Repairable db.valid db.permanent
  · obtain ⟨success, permanent, ran, accepts, sound⟩ := ngValidateHierarchies_answers repairable
    rw [ValidatesSoundly, ran, ← accepts]
    constructor
    · rintro ⟨_, _, same, ok⟩
      cases same
      refine ⟨repairable, fun yes => ?_⟩
      exact (onlyNumbered_repaired (sound yes).2).mp (onlyNumbered_of_ok (ok yes))
    · rintro ⟨_, numbered⟩
      refine ⟨success, _, rfl, fun yes => ?_⟩
      obtain ⟨ok, repaired⟩ := sound yes
      exact hierarchiesOk_afterLoad ok ((onlyNumbered_repaired repaired).mpr (numbered yes))
  · refine iff_of_false ?_ fun both => repairable both.1
    rintro ⟨_, _, ran, _⟩
    rw [ngValidateHierarchies_readsPast repairable] at ran
    cases ran

end

def twoBadChildren : FileDb :=
  ⟨[some ⟨.item (.obj (-1)), .list [], .item (.obj (-1)), .list [.obj 5, .obj 6]⟩], []⟩

theorem twoBadChildren_readsPast : ¬ValidatesSoundly twoBadChildren ∧
    ngValidateHierarchies twoBadChildren = .error .outOfBounds := by
  have failed : ngValidateHierarchies twoBadChildren = .error .outOfBounds := by decide +kernel
  refine ⟨?_, failed⟩
  rintro ⟨_, _, ran, _⟩
  rw [failed] at ran
  cases ran

end ToastStunt.Dbio
