import ToastStunt.Db.CachedCalls
import ToastStunt.Db.Naming
import ToastStunt.Db.Runs

/-!
The bound of the object table. Whatever becomes of the inheritance graph, a used
number is below `num_objects` in every state that the server reaches.
-/

namespace ToastStunt

open FirstVisit Runs

variable {V : Type}

def Tabled (s : Db V) : Prop := ∀ oid, s.valid oid = true → oid < s.numObjects

structure NoneTaken (s s' : Db V) : Prop where
  numObjects : s'.numObjects = s.numObjects
  valid : ∀ oid, s'.valid oid = true → s.valid oid = true

namespace NoneTaken

variable {s s' s'' : Db V}

theorem refl (s : Db V) : NoneTaken s s := ⟨rfl, fun _ => id⟩

theorem trans (first : NoneTaken s s') (second : NoneTaken s' s'') : NoneTaken s s'' :=
  ⟨second.numObjects.trans first.numObjects, fun oid valid => first.valid oid (second.valid oid valid)⟩

theorem tabled (same : NoneTaken s s') (tabled : Tabled s) : Tabled s' := by
  intro oid valid
  rw [same.numObjects]
  exact tabled oid (same.valid oid valid)

theorem of_objects (numObjects : s'.numObjects = s.numObjects)
    (present : ∀ v, (s'.object v).isSome = true → (s.object v).isSome = true) : NoneTaken s s' :=
  ⟨numObjects, fun oid => present (.obj oid)⟩

theorem of_modify {v : ObjVar} {f : Object V → Object V} (changed : s.modify v f = .ok s') :
    NoneTaken s s' := by
  obtain ⟨o, found, rfl⟩ := Db.modify_ok changed
  refine of_objects rfl fun w present => ?_
  rw [Db.setObject_object] at present
  split at present
  · rename_i same
    rw [same, found]
    rfl
  · exact present

theorem of_sameUpTo {α : Type} {look : Object V → α} (same : SameUpTo look s s') :
    NoneTaken s s' := by
  refine of_objects same.numObjects fun v present => ?_
  have view := congrArg Option.isSome (same.view v)
  rw [Option.isSome_map, Option.isSome_map] at view
  rwa [← view]

theorem of_foldlM {ι : Type} {step : Db V → ι → Except Crash (Db V)} {items : List ι}
    (each : ∀ item s s', step s item = .ok s' → NoneTaken s s')
    (ran : items.foldlM step s = .ok s') : NoneTaken s s' :=
  Failing.foldlM_invariant (NoneTaken s)
    (fun item _ before after same step => same.trans (each item before after step)) (refl s) ran

end NoneTaken

section Steps

variable {s s' : Db V}

theorem relink_noneTaken {v : ObjVar} {old new : ObjOrList} (ran : relink s v old new = .ok s') :
    NoneTaken s s' := by
  cases v with
  | obj oid =>
      obtain ⟨s1, removed, added⟩ := Failing.bind_ok ran
      exact (NoneTaken.of_foldlM (fun _ _ _ => NoneTaken.of_modify) removed).trans
        (NoneTaken.of_foldlM (fun _ _ _ => NoneTaken.of_modify) added)
  | anon address =>
      cases ran
      have same := Db.unindexed_fields (relinkAnon_unindexed s address old new)
      exact NoneTaken.of_objects same.2.1 fun v present => by rwa [same.1] at present

theorem dbChangeParents_noneTaken {v : ObjVar} {new : ObjOrList} {kids : List Nat} {changed : Bool}
    (ran : dbChangeParents s v new kids = .ok (changed, s')) : NoneTaken s s' := by
  rcases dbChangeParents_ok ran with ⟨-, rfl⟩ | ⟨-, s2, change⟩
  · exact NoneTaken.refl _
  · obtain ⟨o, s1, -, relinked, assigned⟩ := change.relinked
    exact ((relink_noneTaken relinked).trans (NoneTaken.of_modify assigned)).trans
      (NoneTaken.of_sameUpTo (fix_unslotted change.fixed))

theorem dbDestroyObject_eq {oid : Int} (ran : dbDestroyObject s oid = .ok s') :
    ∃ users, s' = { s.setObject (.obj oid) none with allUsers := users } := by
  unfold dbDestroyObject at ran
  split at ran
  · cases ran
  · split at ran
    · cases ran
    · cases ran
      exact ⟨_, rfl⟩

theorem dbDestroyAnonymousObject_eq {address : Nat}
    (ran : dbDestroyAnonymousObject s address = .ok s') :
    ∃ index, s' = { s.setObject (.anon address) none with anonymousObjects := index } := by
  obtain ⟨o, -, ran⟩ := Failing.bind_ok ran
  cases ran
  obtain ⟨objects, numObjects, nextAnon, users⟩ :=
    Db.unindexed_fields (removeAnons_unindexed s o.parents.named address)
  refine ⟨_, Db.ext ?_ numObjects nextAnon rfl users⟩
  simp only [Db.setObject, objects]

theorem setNone_noneTaken (s : Db V) (v : ObjVar) : NoneTaken s (s.setObject v none) := by
  refine NoneTaken.of_objects rfl fun w present => ?_
  rw [Db.setObject_object] at present
  split at present
  · cases present
  · exact present

theorem dbDestroyObject_noneTaken {oid : Int} (ran : dbDestroyObject s oid = .ok s') :
    NoneTaken s s' := by
  obtain ⟨users, rfl⟩ := dbDestroyObject_eq ran
  exact ⟨rfl, (setNone_noneTaken s _).valid⟩

theorem dbDestroyAnonymousObject_noneTaken {address : Nat}
    (ran : dbDestroyAnonymousObject s address = .ok s') : NoneTaken s s' := by
  obtain ⟨index, rfl⟩ := dbDestroyAnonymousObject_eq ran
  exact ⟨rfl, (setNone_noneTaken s (.anon address)).valid⟩

theorem setLastUsed_tabled (tabled : Tabled s) (oid : Int) : Tabled (dbSetLastUsedObjid s oid) := by
  obtain ⟨n, same, -, -, used⟩ := setLastUsed_spec s oid
  rw [same]
  exact fun p valid => used p valid (tabled p valid)

theorem dbCreateObject_tabled (tabled : Tabled s) (newObjid : Int) (anonymous : Bool) :
    Tabled (dbCreateObject s newObjid anonymous).2.2 := by
  unfold dbCreateObject
  by_cases appended : newObjid ≤ 0 ∨ s.numObjects ≤ newObjid
  · simp only [appended, if_true]
    cases anonymous with
    | true =>
        intro oid valid
        have bound := tabled oid (by simpa [Db.valid] using valid)
        exact Int.lt_add_one_of_le (Int.le_of_lt bound)
    | false =>
        intro oid valid
        by_cases fresh : oid = s.numObjects
        · rw [fresh]
          exact Int.lt_add_one_of_le (Int.le_refl _)
        · have bound := tabled oid (by simpa [Db.valid, fresh] using valid)
          exact Int.lt_add_one_of_le (Int.le_of_lt bound)
  · simp only [appended, if_false]
    cases anonymous with
    | true => exact fun oid valid => tabled oid (by simpa [Db.valid] using valid)
    | false =>
        intro oid valid
        by_cases fresh : oid = newObjid
        · rw [fresh]
          exact Int.not_le.mp fun above => appended (Or.inr above)
        · exact tabled oid (by simpa [Db.valid, fresh] using valid)

theorem dbChangeLocation_noneTaken {oid place : Int} {position : Nat}
    (ran : dbChangeLocation s oid place position = .ok s') : NoneTaken s s' :=
  NoneTaken.of_sameUpTo (dbChangeLocation_unplaced ran)

theorem reparentChildren_noneTaken {oid : Int} {fuel : Nat} {done : Bool}
    (ran : reparentChildren oid fuel s = .ok (done, s')) : NoneTaken s s' := by
  induction fuel generalizing s with
  | zero => cases ran
  | succ fuel ih =>
      obtain ⟨next, -, ran⟩ := Failing.bind_ok ran
      cases next with
      | none =>
          cases ran
          exact NoneTaken.refl _
      | some child =>
          obtain ⟨c, -, ran⟩ := Failing.bind_ok ran
          obtain ⟨o, -, ran⟩ := Failing.bind_ok ran
          obtain ⟨⟨changed, s1⟩, reparented, ran⟩ := Failing.bind_ok ran
          have first := dbChangeParents_noneTaken reparented
          cases changed with
          | false =>
              cases ran
              exact first
          | true => exact first.trans (ih ran)

theorem recycleObject_noneTaken {oid : Int} {outcome : Outcome}
    (ran : recycleObject s oid = .ok (outcome, s')) : NoneTaken s s' := by
  obtain ⟨o, -, ran⟩ := Failing.bind_ok ran
  obtain ⟨s1, moved, ran⟩ := Failing.bind_ok ran
  obtain ⟨s2, left, ran⟩ := Failing.bind_ok ran
  have emptied := NoneTaken.of_sameUpTo (emptied_unplaced moved left)
  obtain ⟨⟨done, s3⟩, looped, ran⟩ := Failing.bind_ok ran
  have reparented := emptied.trans (reparentChildren_noneTaken looped)
  cases done with
  | false =>
      cases ran
      exact reparented
  | true =>
      obtain ⟨⟨changed, s4⟩, orphaned, ran⟩ := Failing.bind_ok ran
      obtain ⟨s5, destroyed, ran⟩ := Failing.bind_ok ran
      cases ran
      have unowned : NoneTaken s4 (dbFixupOwners s4 oid) := by
        refine NoneTaken.of_objects rfl fun v present => ?_
        have same := fixupOwners_searched s4 oid
        rwa [same.present] at present
      exact ((reparented.trans (dbChangeParents_noneTaken orphaned)).trans unowned).trans
        (dbDestroyObject_noneTaken destroyed)

theorem replacing_noneTaken {v : ObjVar} {list : Object V → List Int}
    {put : List Int → Object V → Object V} {old new : Int}
    (ran : (do
      let o ← s.dereference v
      let items ← replaceFirst old new (list o)
      s.modify v (put items)) = .ok s') : NoneTaken s s' := by
  obtain ⟨o, -, ran⟩ := Failing.bind_ok ran
  obtain ⟨items, -, ran⟩ := Failing.bind_ok ran
  exact NoneTaken.of_modify ran

theorem fixParents_noneTaken {old new child : Int} (ran : fixParents old new s child = .ok s') :
    NoneTaken s s' := by
  obtain ⟨o, -, ran⟩ := Failing.bind_ok ran
  split at ran
  · obtain ⟨parents, -, ran⟩ := Failing.bind_ok ran
    exact NoneTaken.of_modify ran
  · exact NoneTaken.of_modify ran

theorem fixPlace_noneTaken {old new location : Int} (ran : fixPlace old new s location = .ok s') :
    NoneTaken s s' := by
  unfold fixPlace at ran
  split at ran
  · cases ran
    exact NoneTaken.refl _
  · exact replacing_noneTaken ran

theorem fixRelatives_noneTaken {old new : Int} {o : Object V}
    (ran : fixRelatives s old new o = .ok s') : NoneTaken s s' := by
  obtain ⟨s1, ran1, ran⟩ := Failing.bind_ok ran
  obtain ⟨o1, -, ran⟩ := Failing.bind_ok ran
  obtain ⟨s2, ran2, ran⟩ := Failing.bind_ok ran
  obtain ⟨s3, ran3, ran⟩ := Failing.bind_ok ran
  obtain ⟨o2, -, ran⟩ := Failing.bind_ok ran
  obtain ⟨s4, ran4, ran5⟩ := Failing.bind_ok ran
  have first : NoneTaken s s1 := NoneTaken.of_foldlM (fun _ _ _ => replacing_noneTaken) ran1
  have second : NoneTaken s1 s2 := NoneTaken.of_foldlM (fun _ _ _ => fixParents_noneTaken) ran2
  have fourth : NoneTaken s3 s4 := NoneTaken.of_foldlM (fun _ _ _ => NoneTaken.of_modify) ran4
  have fifth : NoneTaken s4 s' := NoneTaken.of_foldlM (fun _ _ _ => NoneTaken.of_modify) ran5
  exact (((first.trans second).trans (fixPlace_noneTaken ran3)).trans fourth).trans fifth

theorem leastFree_bound {old : Int} {free : Nat} (found : leastFree s old = some free) :
    (free : Int) < old := by
  have member := List.mem_of_find?_eq_some found
  rw [List.mem_range] at member
  omega

theorem changeIdentity_tabled (tabled : Tabled s) {old new : Int} (lower : new < old)
    (valid : s.valid old = true) (o : Object V) : Tabled (changeIdentity s old new o) := by
  have bound := tabled old valid
  intro oid used
  by_cases isNew : oid = new
  · rw [isNew]
    exact Int.lt_trans lower bound
  · have here : s.valid oid = true := by
      rw [Db.valid, changeIdentity, Db.setObject_object] at used
      split at used
      · cases used
      · rwa [Db.setObject_object, if_neg (by simpa using isNew)] at used
    exact tabled oid here

theorem dbRenumberObject_tabled (tabled : Tabled s) {old new : Int}
    (ran : dbRenumberObject s old = .ok (new, s')) : Tabled s' := by
  unfold dbRenumberObject at ran
  split at ran
  · cases ran
    exact tabled
  · rename_i free found
    obtain ⟨o, there, ran⟩ := Failing.bind_ok ran
    obtain ⟨s1, related, ran⟩ := Failing.bind_ok ran
    obtain ⟨s2, owned, ran⟩ := Failing.bind_ok ran
    cases ran
    have valid : s.valid old = true := Db.valid_iff.mpr ⟨o, Db.dereference_ok.mp there⟩
    have renamed := changeIdentity_tabled tabled (leastFree_bound found) valid o
    have moved : NoneTaken s1 (moveAnonIndex s1 old free) := by
      unfold moveAnonIndex
      split
      · exact NoneTaken.refl _
      · exact ⟨rfl, fun _ => id⟩
    have users : NoneTaken (moveAnonIndex s1 old free)
        (fixUsers (moveAnonIndex s1 old free) old free) := by
      unfold fixUsers
      split
      · split
        · exact ⟨rfl, fun _ => id⟩
        · exact NoneTaken.refl _
      · exact NoneTaken.refl _
    have numbered (t : Db V) : NoneTaken t (fixNumberedOwners t old free) := by
      refine ⟨rfl, fun oid used => ?_⟩
      simpa [Db.valid, fixNumberedOwners] using used
    have anons := NoneTaken.of_foldlM (fun _ _ _ => NoneTaken.of_modify) owned
    have all := (((fixRelatives_noneTaken related).trans moved).trans users).trans (numbered _)
    exact (all.trans anons).tabled renamed

end Steps

section Calls

variable {s s' : Db V}

def createChecks (s : Db V) (progr : Int) (parents : ObjOrList) (owner : Int)
    (anonymous : Bool) : Except Crash (Option MooError) := do
  if (anonymous && owner = NOTHING) || (!s.valid owner && owner ≠ NOTHING)
      || unusableParents s parents then
    return some .E_INVARG
  if (progr ≠ owner && !isWizard s progr)
      || !(← parentsAllowed s progr (if anonymous then .anonymous else .fertile) parents) then
    return some .E_PERM
  return none

def freshVar (s : Db V) (anonymous : Bool) : ObjVar :=
  if anonymous then .anon s.nextAnon else .obj s.numObjects

def freshOrphan (s : Db V) (owner : Int) (anonymous : Bool) : Except Crash (Db V) :=
  dbSetObjectOwner (dbCreateObject s (-1) anonymous).2.2 (freshVar s anonymous)
    (if s.valid owner then owner else s.numObjects)

def Settled (s s2 s' : Db V) (anonymous changed : Bool) (outcome : Outcome) : Prop :=
  match changed, anonymous with
  | false, false => outcome = .error .E_INVARG ∧ ∃ s3,
      dbDestroyObject s2 s.numObjects = .ok s3 ∧ s' = dbSetLastUsedObjid s3 (dbLastUsedObjid s)
  | false, true => outcome = .error .E_INVARG ∧ ∃ s3,
      dbDestroyAnonymousObject s2 s.nextAnon = .ok s3 ∧
        s' = dbSetLastUsedObjid s3 (dbLastUsedObjid s)
  | true, false => outcome = .object (.obj s.numObjects) ∧ s' = s2
  | true, true => outcome = .object (.anon s.nextAnon) ∧
      dbMakeAnonymous s2 s.nextAnon (dbLastUsedObjid s) = .ok s'

theorem bfCreate_cases {progr owner : Int} {parents : ObjOrList} {anonymous : Bool}
    {outcome : Outcome} (ran : bfCreate s progr parents owner anonymous = .ok (outcome, s')) :
    (∃ e, createChecks s progr parents owner anonymous = .ok (some e) ∧ outcome = .error e ∧
        s' = s) ∨
      (createChecks s progr parents owner anonymous = .ok none ∧
        ∃ s1 s2 changed, freshOrphan s owner anonymous = .ok s1 ∧
          dbChangeParents s1 (freshVar s anonymous) parents [] = .ok (changed, s2) ∧
          Settled s s2 s' anonymous changed outcome) := by
  unfold bfCreate at ran
  unfold createChecks
  split at ran
  · rename_i unusable
    cases ran
    rw [if_pos unusable]
    exact Or.inl ⟨_, rfl, rfl, rfl⟩
  · rename_i usable
    rw [if_neg usable]
    obtain ⟨allowed, permission, ran⟩ := Failing.bind_ok ran
    rw [Failing.bind_of_ok permission]
    split at ran
    · rename_i forbidden
      cases ran
      rw [if_pos forbidden]
      exact Or.inl ⟨_, rfl, rfl, rfl⟩
    · rename_i permitted
      rw [if_neg permitted]
      refine Or.inr ⟨rfl, ?_⟩
      have appended : (-1 : Int) ≤ 0 ∨ s.numObjects ≤ -1 := Or.inl (by omega)
      cases anonymous with
      | false =>
          have made : (dbCreateObject s (-1) false).1 = .obj s.numObjects := by
            simp [dbCreateObject]
          have number : (dbCreateObject s (-1) false).2.1 = s.numObjects := by
            simp [dbCreateObject]
          generalize madeHere : dbCreateObject s (-1) false = triple at ran made number
          obtain ⟨v, oid, s0⟩ := triple
          simp only at ran made number
          subst made number
          obtain ⟨s1, owned, ran⟩ := Failing.bind_ok ran
          obtain ⟨⟨changed, s2⟩, reparented, ran⟩ := Failing.bind_ok ran
          refine ⟨s1, s2, changed, by rw [freshOrphan, madeHere]; exact owned, reparented, ?_⟩
          cases changed with
          | false =>
              obtain ⟨s3, destroyed, ran⟩ := Failing.bind_ok ran
              cases ran
              exact ⟨rfl, s3, destroyed, rfl⟩
          | true =>
              cases ran
              exact ⟨rfl, rfl⟩
      | true =>
          have made : (dbCreateObject s (-1) true).1 = .anon s.nextAnon := by
            simp [dbCreateObject]
          have number : (dbCreateObject s (-1) true).2.1 = s.numObjects := by
            simp [dbCreateObject]
          generalize madeHere : dbCreateObject s (-1) true = triple at ran made number
          obtain ⟨v, oid, s0⟩ := triple
          simp only at ran made number
          subst made number
          obtain ⟨s1, owned, ran⟩ := Failing.bind_ok ran
          obtain ⟨⟨changed, s2⟩, reparented, ran⟩ := Failing.bind_ok ran
          refine ⟨s1, s2, changed, by rw [freshOrphan, madeHere]; exact owned, reparented, ?_⟩
          cases changed with
          | false =>
              obtain ⟨s3, destroyed, ran⟩ := Failing.bind_ok ran
              cases ran
              exact ⟨rfl, s3, destroyed, rfl⟩
          | true =>
              obtain ⟨s3, anonymized, ran⟩ := Failing.bind_ok ran
              cases ran
              exact ⟨rfl, anonymized⟩

theorem bfCreate_tabled (tabled : Tabled s) {progr owner : Int} {parents : ObjOrList}
    {anonymous : Bool} {outcome : Outcome}
    (ran : bfCreate s progr parents owner anonymous = .ok (outcome, s')) : Tabled s' := by
  rcases bfCreate_cases ran with ⟨e, -, -, rfl⟩ | ⟨-, s1, s2, changed, born, reparented, settled⟩
  · exact tabled
  · have made := (NoneTaken.of_modify born).tabled (dbCreateObject_tabled tabled (-1) anonymous)
    have moved := (dbChangeParents_noneTaken reparented).tabled made
    cases changed with
    | false =>
        cases anonymous with
        | false =>
            obtain ⟨-, s3, destroyed, rfl⟩ := settled
            exact setLastUsed_tabled ((dbDestroyObject_noneTaken destroyed).tabled moved) _
        | true =>
            obtain ⟨-, s3, destroyed, rfl⟩ := settled
            exact setLastUsed_tabled ((dbDestroyAnonymousObject_noneTaken destroyed).tabled moved) _
    | true =>
        cases anonymous with
        | false => exact settled.2 ▸ moved
        | true => exact (NoneTaken.of_modify settled.2).tabled (setLastUsed_tabled moved _)

theorem bfRecreate_tabled (tabled : Tabled s) {progr old parent owner : Int} {outcome : Outcome}
    (ran : bfRecreate s progr old parent owner = .ok (outcome, s')) : Tabled s' := by
  unfold bfRecreate at ran
  split at ran
  · cases ran
    exact tabled
  · generalize (if s.valid owner = true then owner else progr) = newOwner at ran
    obtain ⟨allowed, -, ran⟩ := Failing.bind_ok ran
    split at ran
    · cases ran
      exact tabled
    · have extended := dbCreateObject_tabled tabled old false
      generalize dbCreateObject s old false = triple at ran extended
      obtain ⟨v, oid, s0⟩ := triple
      simp only at ran extended
      obtain ⟨s1, owned, ran⟩ := Failing.bind_ok ran
      obtain ⟨⟨changed, s2⟩, reparented, ran⟩ := Failing.bind_ok ran
      have moved := (dbChangeParents_noneTaken reparented).tabled
        ((NoneTaken.of_modify owned).tabled extended)
      cases changed with
      | false =>
          obtain ⟨s3, destroyed, ran⟩ := Failing.bind_ok ran
          cases ran
          exact (dbDestroyObject_noneTaken destroyed).tabled moved
      | true =>
          cases ran
          exact moved

theorem bfChparentChparents_noneTaken {progr : Int} {obj : ObjVar} {what : ObjOrList}
    {outcome : Outcome} (ran : bfChparentChparents s progr obj what = .ok (outcome, s')) :
    NoneTaken s s' := by
  unfold bfChparentChparents at ran
  split at ran
  · cases ran
    exact NoneTaken.refl _
  · obtain ⟨controlled, -, ran⟩ := Failing.bind_ok ran
    obtain ⟨allowed, -, ran⟩ := Failing.bind_ok ran
    split at ran
    · cases ran
      exact NoneTaken.refl _
    · split at ran
      · cases ran
        exact NoneTaken.refl _
      · obtain ⟨⟨changed, s1⟩, reparented, ran⟩ := Failing.bind_ok ran
        have same := dbChangeParents_noneTaken reparented
        cases changed <;> cases ran <;> exact same

theorem bfRecycle_noneTaken {progr : Int} {obj : ObjVar} {outcome : Outcome}
    (ran : bfRecycle s progr obj = .ok (outcome, s')) : NoneTaken s s' := by
  unfold bfRecycle at ran
  split at ran
  · cases ran
    exact NoneTaken.refl _
  · obtain ⟨controlled, -, ran⟩ := Failing.bind_ok ran
    split at ran
    · cases ran
      exact NoneTaken.refl _
    · split at ran
      · exact recycleObject_noneTaken ran
      · obtain ⟨s1, destroyed, ran⟩ := Failing.bind_ok ran
        cases ran
        exact dbDestroyAnonymousObject_noneTaken destroyed

theorem Redefined.noneTaken {oid : Int} {f : List Propdef → List Propdef}
    (redefined : Redefined s s' oid f) : NoneTaken s s' :=
  NoneTaken.of_sameUpTo redefined.sameGraph

theorem bfAddProp_noneTaken {progr oid owner : Int} {pname : CString} {value : V} {flags : Nat}
    {outcome : Outcome} (ran : bfAddProp s progr oid pname value owner flags = .ok (outcome, s')) :
    NoneTaken s s' := by
  unfold bfAddProp at ran
  split at ran
  · cases ran
    exact NoneTaken.refl _
  · obtain ⟨allowed, -, ran⟩ := Failing.bind_ok ran
    split at ran
    · cases ran
      exact NoneTaken.refl _
    · obtain ⟨⟨added, s1⟩, defined, ran⟩ := Failing.bind_ok ran
      have same : NoneTaken s s1 := by
        rcases dbAddPropdef_ok defined with ⟨-, rfl⟩ | ⟨-, -, -, redefined⟩
        · exact NoneTaken.refl _
        · exact redefined.noneTaken
      cases added <;> cases ran <;> exact same

theorem bfDeleteProp_noneTaken {progr oid : Int} {pname : CString} {outcome : Outcome}
    (ran : bfDeleteProp s progr oid pname = .ok (outcome, s')) : NoneTaken s s' := by
  unfold bfDeleteProp at ran
  split at ran
  · cases ran
    exact NoneTaken.refl _
  · obtain ⟨allowed, -, ran⟩ := Failing.bind_ok ran
    split at ran
    · cases ran
      exact NoneTaken.refl _
    · obtain ⟨⟨deleted, s1⟩, undefined, ran⟩ := Failing.bind_ok ran
      have same : NoneTaken s s1 := by
        rcases dbDeletePropdef_ok undefined with ⟨-, rfl⟩ | ⟨-, i, redefined⟩
        · exact NoneTaken.refl _
        · exact redefined.noneTaken
      cases deleted <;> cases ran <;> exact same

theorem renameProp_noneTaken {oid : Int} {old new : CString} {outcome : Outcome}
    (ran : renameProp s oid old new = .ok (outcome, s')) : NoneTaken s s' := by
  unfold renameProp at ran
  split at ran
  · cases ran
    exact NoneTaken.refl _
  · obtain ⟨⟨renamed, s1⟩, redefined, ran⟩ := Failing.bind_ok ran
    have same : NoneTaken s s1 := by
      rcases dbRenamePropdef_ok redefined with ⟨-, rfl⟩ | ⟨-, o, i, -, -, -, changed⟩
      · exact NoneTaken.refl _
      · exact NoneTaken.of_modify changed
    cases renamed <;> cases ran <;> exact same

theorem bfRenumber_tabled (tabled : Tabled s) {progr oid : Int} {outcome : Outcome}
    (ran : bfRenumber s progr oid = .ok (outcome, s')) : Tabled s' := by
  unfold bfRenumber at ran
  split at ran
  · cases ran
    exact tabled
  · split at ran
    · cases ran
      exact tabled
    · obtain ⟨⟨new, s1⟩, renumbered, ran⟩ := Failing.bind_ok ran
      cases ran
      exact dbRenumberObject_tabled tabled renumbered

theorem bfResetMaxObject_tabled (tabled : Tabled s) {progr : Int} {outcome : Outcome}
    (ran : bfResetMaxObject s progr = .ok (outcome, s')) : Tabled s' := by
  unfold bfResetMaxObject at ran
  split at ran
  · cases ran
    exact tabled
  · obtain ⟨s1, reset, ran⟩ := Failing.bind_ok ran
    cases ran
    obtain ⟨n, rfl, -, kept⟩ := resetLastUsed_ok reset
    exact fun p valid => kept p valid (tabled p valid)

theorem call_tabled (tabled : Tabled s) {call : Call V} {outcome : Outcome}
    (ran : call.run s = .ok (outcome, s')) : Tabled s' := by
  cases call with
  | create progr parents owner anonymous => exact bfCreate_tabled tabled ran
  | recreate progr old parent owner => exact bfRecreate_tabled tabled ran
  | chparents progr obj what => exact (bfChparentChparents_noneTaken ran).tabled tabled
  | recycle progr obj => exact (bfRecycle_noneTaken ran).tabled tabled
  | addProperty progr oid pname value owner flags => exact (bfAddProp_noneTaken ran).tabled tabled
  | deleteProperty progr oid pname => exact (bfDeleteProp_noneTaken ran).tabled tabled
  | renameProperty oid old new => exact (renameProp_noneTaken ran).tabled tabled
  | renumber progr oid => exact bfRenumber_tabled tabled ran

theorem Unrelated.noneTaken (change : Unrelated s s') : NoneTaken s s' := by
  refine NoneTaken.of_objects change.numObjects fun v present => ?_
  have view := congrArg Option.isSome (change.view v)
  rw [Option.isSome_map, Option.isSome_map] at view
  rwa [← view]

end Calls

section Runs

/-- A step of the server, or a call of `reset_max_object`. -/
def TableStep (s s' : Db V) : Prop :=
  ServerStep (fun _ _ => True) s s' ∨
    ∃ progr outcome, bfResetMaxObject s progr = .ok (outcome, s')

/-- The object tables of the server, those included whose last numbers have been recycled. -/
def TableReachable : Db V → Prop := Reachable Db.empty TableStep

theorem tableStep_tabled {s s' : Db V} (tabled : Tabled s) (step : TableStep s s') : Tabled s' := by
  rcases step with (⟨call, outcome, -, ran⟩ | change) | ⟨progr, outcome, ran⟩
  · exact call_tabled tabled ran
  · exact change.noneTaken.tabled tabled
  · exact bfResetMaxObject_tabled tabled ran

theorem reachable_tabled {s : Db V} (reachable : TableReachable s) : Tabled s := by
  refine reachable.invariant Tabled ?_ fun before after tabled step => tableStep_tabled tabled step
  intro oid used
  simp [Db.valid, Db.empty] at used

end Runs

end ToastStunt
