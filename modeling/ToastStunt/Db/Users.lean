import ToastStunt.Db.Containment

/-!
Who is a player: the flag of an object and the list of all users, through everything that
happens to the object table. Anonymous objects are nowhere.
-/

namespace ToastStunt

variable {V : Type}

section Flags

def dbSetObjectFlag (s : Db V) (oid : Int) (f : ObjectFlag) : Except Crash (Db V) := do
  let s ← s.modify (.obj oid) fun o => { o with flags := insert f o.flags }
  return if f = .user then { s with allUsers := setadd s.allUsers oid } else s

def dbClearObjectFlag (s : Db V) (oid : Int) (f : ObjectFlag) : Except Crash (Db V) := do
  let s ← s.modify (.obj oid) fun o => { o with flags := o.flags.erase f }
  return if f = .user then { s with allUsers := setremove s.allUsers oid } else s

/-- The connection of a former player is closed, which leaves the database alone. -/
def bfSetPlayerFlag (s : Db V) (progr oid : Int) (flag : Bool) : Except Crash (Outcome × Db V) := do
  if !s.valid oid then
    return (.error .E_INVARG, s)
  if !isWizard s progr then
    return (.error .E_PERM, s)
  if flag then
    return (.done, ← dbSetObjectFlag s oid .user)
  else
    return (.done, ← dbClearObjectFlag s oid .user)

end Flags

def Object.spotted (o : Object V) : (Int × List Int) × Prop := (o.spot, .user ∈ o.flags)

/-- The users are the objects with the flag, each listed once; anonymous objects are nowhere. -/
structure Enrolled (s : Db V) : Prop where
  users : ∀ oid, oid ∈ s.allUsers ↔ isUser s oid = true
  nodup : s.allUsers.Nodup
  nowhere : ∀ a o, s.object (.anon a) = some o → o.location = NOTHING ∧ o.contents = []

structure Peaceful (s s' : Db V) : Prop where
  allUsers : s'.allUsers = s.allUsers
  player : ∀ oid, isUser s' oid = isUser s oid
  nowhere : ∀ a o', s'.object (.anon a) = some o' →
    (∃ o, s.object (.anon a) = some o ∧ o'.spot = o.spot) ∨ o'.location = NOTHING ∧ o'.contents = []

def Object.standing (o : Object V) : Int × Finset ObjectFlag × List Verbdef × Int × List Int :=
  (o.owner, o.flags, o.verbdefs, o.location, o.contents)

structure Standing (s s' : Db V) : Prop where
  view : ∀ v, (s'.object v).map Object.standing = (s.object v).map Object.standing
  allUsers : s'.allUsers = s.allUsers

theorem isUser_iff {s : Db V} {oid : Int} :
    isUser s oid = true ↔ ∃ o, s.object (.obj oid) = some o ∧ .user ∈ o.flags := by
  unfold isUser
  cases s.object (.obj oid) <;> simp

theorem isUser_congr {s s' : Db V} {oid : Int}
    (same : (s'.object (.obj oid)).map Object.flags = (s.object (.obj oid)).map Object.flags) :
    isUser s' oid = isUser s oid := by
  unfold isUser
  cases found : s.object (.obj oid) <;> cases found' : s'.object (.obj oid) <;> simp_all

namespace Standing

variable {s s' s'' : Db V}

theorem refl (s : Db V) : Standing s s := ⟨fun _ => rfl, rfl⟩

theorem trans (first : Standing s s') (second : Standing s' s'') : Standing s s'' :=
  ⟨fun v => (second.view v).trans (first.view v), second.allUsers.trans first.allUsers⟩

theorem of_modify {v : ObjVar} {f : Object V → Object V}
    (unseen : ∀ o, (f o).standing = o.standing) (changed : s.modify v f = .ok s') :
    Standing s s' := by
  obtain ⟨o, found, rfl⟩ := Db.modify_ok changed
  refine ⟨fun w => ?_, rfl⟩
  by_cases same : w = v
  · subst same
    simp [found, unseen]
  · simp [same]

theorem of_foldlM {ι : Type} {step : Db V → ι → Except Crash (Db V)} {items : List ι}
    (each : ∀ item s s', step s item = .ok s' → Standing s s')
    (ran : items.foldlM step s = .ok s') : Standing s s' :=
  Failing.foldlM_invariant (Standing s)
    (fun item _ before after same step => same.trans (each item before after step)) (refl s) ran

theorem object (same : Standing s s') {v : ObjVar} {o' : Object V} (found : s'.object v = some o') :
    ∃ o, s.object v = some o ∧ o'.standing = o.standing := by
  have here := same.view v
  rw [found, Option.map_some, eq_comm, Option.map_eq_some_iff] at here
  obtain ⟨o, foundO, equal⟩ := here
  exact ⟨o, foundO, equal.symm⟩

theorem peaceful (same : Standing s s') : Peaceful s s' where
  allUsers := same.allUsers
  player oid := by
    have here := congrArg (Option.map fun look => look.2.1) (same.view (.obj oid))
    rw [Option.map_map, Option.map_map] at here
    exact isUser_congr here
  nowhere a o' found := by
    obtain ⟨o, foundO, equal⟩ := same.object found
    simp only [Object.standing, Prod.mk.injEq] at equal
    exact Or.inl ⟨o, foundO, by rw [Object.spot, Object.spot, equal.2.2.2.1, equal.2.2.2.2]⟩

end Standing

namespace Peaceful

variable {s s' s'' : Db V}

theorem refl (s : Db V) : Peaceful s s := (Standing.refl s).peaceful

theorem trans (first : Peaceful s s') (second : Peaceful s' s'') : Peaceful s s'' where
  allUsers := second.allUsers.trans first.allUsers
  player oid := (second.player oid).trans (first.player oid)
  nowhere a o'' found := by
    rcases second.nowhere a o'' found with ⟨o', found', same'⟩ | alone
    · rcases first.nowhere a o' found' with ⟨o, foundO, same⟩ | alone
      · exact Or.inl ⟨o, foundO, same'.trans same⟩
      · simp only [Object.spot, Prod.mk.injEq] at same'
        exact Or.inr ⟨same'.1.trans alone.1, same'.2.trans alone.2⟩
    · exact Or.inr alone

theorem of_spotted (view : ∀ v, (s'.object v).map Object.spotted = (s.object v).map Object.spotted)
    (allUsers : s'.allUsers = s.allUsers) : Peaceful s s' where
  allUsers := allUsers
  player oid := by
    have here := view (.obj oid)
    unfold isUser
    cases found : s.object (.obj oid) <;> cases found' : s'.object (.obj oid) <;>
      simp_all [Object.spotted]
  nowhere a o' found := by
    have here := view (.anon a)
    rw [found, Option.map_some, eq_comm, Option.map_eq_some_iff] at here
    obtain ⟨o, foundO, equal⟩ := here
    simp only [Object.spotted, Prod.mk.injEq] at equal
    exact Or.inl ⟨o, foundO, equal.1.symm⟩

theorem of_modify {v : ObjVar} {f : Object V → Object V}
    (unseen : ∀ o, (f o).spotted = o.spotted) (changed : s.modify v f = .ok s') :
    Peaceful s s' := by
  obtain ⟨o, found, rfl⟩ := Db.modify_ok changed
  refine of_spotted (fun w => ?_) rfl
  by_cases same : w = v
  · subst same
    simp [found, unseen]
  · simp [same]

theorem of_modify_obj {oid : Int} {f : Object V → Object V}
    (unseen : ∀ o, (f o).flags = o.flags) (changed : s.modify (.obj oid) f = .ok s') :
    Peaceful s s' := by
  obtain ⟨o, found, rfl⟩ := Db.modify_ok changed
  refine ⟨rfl, fun p => ?_, fun a o' foundA => Or.inl ⟨o', by simpa using foundA, rfl⟩⟩
  by_cases same : p = oid
  · subst same
    simp [isUser, found, unseen]
  · simp [isUser, same]

theorem enrolled (same : Peaceful s s') (enrolled : Enrolled s) : Enrolled s' where
  users oid := by rw [same.allUsers, same.player, enrolled.users]
  nodup := same.allUsers ▸ enrolled.nodup
  nowhere a o' found := by
    rcases same.nowhere a o' found with ⟨o, foundO, equal⟩ | alone
    · simp only [Object.spot, Prod.mk.injEq] at equal
      rw [equal.1, equal.2]
      exact enrolled.nowhere a o foundO
    · exact alone

end Peaceful

section Staying

variable {s s' : Db V}

theorem unslotted_standing (same : SameUpTo Object.unslotted s s')
    (allUsers : s'.allUsers = s.allUsers) : Standing s s' where
  view := (same.coarser fun o o' equal => by
    have standing := congrArg Object.standing equal
    exact standing).view
  allUsers := allUsers

theorem reparented_standing {v : ObjVar} {new : ObjOrList} (change : Reparented s s' v new) :
    Standing s s' where
  view w := by
    cases found : s.object w with
    | none => rw [change.absent w found]
    | some o =>
        obtain ⟨children, object, -⟩ := change.object w o found
        rw [object]
        rfl
  allUsers := change.allUsers

theorem ChangedParents.standing {v : ObjVar} {new : ObjOrList} {kids : List Nat} {s2 : Db V}
    (change : ChangedParents s s' v new kids s2) (graph : WellFormed s) : Standing s s' :=
  (reparented_standing (change.reparented graph)).trans
    (unslotted_standing (fix_unslotted change.fixed) (fix_allUsers change.fixed))

theorem dbChangeParents_standing (graph : WellFormed s) {v : ObjVar} {new : ObjOrList}
    {kids : List Nat} {changed : Bool} (ran : dbChangeParents s v new kids = .ok (changed, s')) :
    Standing s s' := by
  rcases dbChangeParents_ok ran with ⟨-, rfl⟩ | ⟨-, s2, change⟩
  · exact Standing.refl _
  · exact change.standing graph

theorem insertProp2_standing {v : ObjVar} {pos : Int} {pval : Pval V}
    (ran : insertProp2 s v pos pval = .ok s') : Standing s s' := by
  obtain ⟨o, -, ran⟩ := Failing.bind_ok ran
  split at ran
  · cases ran
  · exact Standing.of_modify (by intros; rfl) ran

theorem removeProp2_standing {v : ObjVar} {pos : Int} (ran : removeProp2 s v pos = .ok s') :
    Standing s s' := by
  obtain ⟨o, -, ran⟩ := Failing.bind_ok ran
  split at ran
  · cases ran
  · exact Standing.of_modify (by intros; rfl) ran

theorem dbAddPropdef_standing {oid : Int} {pname : CString} {value : V} {owner : Int} {flags : Nat}
    {added : Bool} (ran : dbAddPropdef s (.obj oid) pname value owner flags = .ok (added, s')) :
    Standing s s' := by
  obtain ⟨o, -, ran⟩ := Failing.bind_ok ran
  split at ran
  · cases ran
    exact Standing.refl _
  · obtain ⟨below, -, ran⟩ := Failing.bind_ok ran
    split at ran
    · cases ran
      exact Standing.refl _
    · obtain ⟨s1, defined, ran⟩ := Failing.bind_ok ran
      obtain ⟨s2, inserted, ran⟩ := Failing.bind_ok ran
      cases ran
      obtain ⟨s3, first, rest⟩ := Failing.bind_ok inserted
      exact ((Standing.of_modify (by intros; rfl) defined).trans (insertProp2_standing first)).trans
        (Standing.of_foldlM (fun _ _ _ => insertProp2_standing) rest)

theorem dbDeletePropdef_standing {oid : Int} {pname : CString} {deleted : Bool}
    (ran : dbDeletePropdef s (.obj oid) pname = .ok (deleted, s')) : Standing s s' := by
  obtain ⟨o, -, ran⟩ := Failing.bind_ok ran
  split at ran
  · cases ran
    exact Standing.refl _
  · obtain ⟨s1, defined, ran⟩ := Failing.bind_ok ran
    obtain ⟨s2, removed, ran⟩ := Failing.bind_ok ran
    cases ran
    obtain ⟨s3, first, rest⟩ := Failing.bind_ok removed
    exact ((Standing.of_modify (by intros; rfl) defined).trans (removeProp2_standing first)).trans
      (Standing.of_foldlM (fun _ _ _ => removeProp2_standing) rest)

theorem answered_standing {step : Except Crash (Bool × Db V)} {refusal success outcome : Outcome}
    (standing : ∀ changed s1, step = .ok (changed, s1) → Standing s s1)
    (ran : (do
      match ← step with
      | (false, s) => return (refusal, s)
      | (true, s) => return (success, s)) = .ok (outcome, s')) : Standing s s' := by
  obtain ⟨⟨changed, s1⟩, stepped, ran⟩ := Failing.bind_ok ran
  have same := standing changed s1 stepped
  cases changed <;> cases ran <;> exact same

theorem bfAddProp_standing {progr oid owner : Int} {pname : CString} {value : V} {flags : Nat}
    {outcome : Outcome} (ran : bfAddProp s progr oid pname value owner flags = .ok (outcome, s')) :
    Standing s s' := by
  unfold bfAddProp at ran
  split at ran
  · cases ran
    exact Standing.refl _
  · obtain ⟨allowed, -, ran⟩ := Failing.bind_ok ran
    split at ran
    · cases ran
      exact Standing.refl _
    · exact answered_standing (fun _ _ => dbAddPropdef_standing) ran

theorem bfDeleteProp_standing {progr oid : Int} {pname : CString} {outcome : Outcome}
    (ran : bfDeleteProp s progr oid pname = .ok (outcome, s')) : Standing s s' := by
  unfold bfDeleteProp at ran
  split at ran
  · cases ran
    exact Standing.refl _
  · obtain ⟨allowed, -, ran⟩ := Failing.bind_ok ran
    split at ran
    · cases ran
      exact Standing.refl _
    · exact answered_standing (fun _ _ => dbDeletePropdef_standing) ran

theorem renameProp_standing {oid : Int} {old new : CString} {outcome : Outcome}
    (ran : renameProp s oid old new = .ok (outcome, s')) : Standing s s' := by
  unfold renameProp at ran
  split at ran
  · cases ran
    exact Standing.refl _
  · refine answered_standing (fun changed s1 redefined => ?_) ran
    rcases dbRenamePropdef_ok redefined with ⟨-, rfl⟩ | ⟨-, o, i, -, -, -, changed⟩
    · exact Standing.refl _
    · exact Standing.of_modify (by intros; rfl) changed

theorem bfChparentChparents_standing (graph : WellFormed s) {progr : Int} {v : ObjVar}
    {what : ObjOrList} {outcome : Outcome}
    (ran : bfChparentChparents s progr v what = .ok (outcome, s')) : Standing s s' := by
  unfold bfChparentChparents at ran
  split at ran
  · cases ran
    exact Standing.refl _
  · obtain ⟨controlled, -, ran⟩ := Failing.bind_ok ran
    obtain ⟨allowed, -, ran⟩ := Failing.bind_ok ran
    split at ran
    · cases ran
      exact Standing.refl _
    · split at ran
      · cases ran
        exact Standing.refl _
      · exact answered_standing (fun _ _ => dbChangeParents_standing graph) ran

end Staying

section Creating

variable {s s' : Db V}

theorem dbCreateObject_peaceful {newObjid : Int} {anonymous : Bool} (tabled : Tabled s)
    (unused : 0 < newObjid → newObjid < s.numObjects → s.valid newObjid = false) :
    Peaceful s (dbCreateObject s newObjid anonymous).2.2 := by
  have fresh : s.object (.obj s.numObjects) = none := tabled.unused
  have unlisted {oid : Int} (absent : s.object (.obj oid) = none) (p : Int) :
      isUser (s.setObject (.obj oid) (some (dbInitObject oid))) p = isUser s p := by
    by_cases same : p = oid
    · subst same
      simp [isUser, absent, dbInitObject]
    · simp [isUser, same]
  have anon (oid : Int) :
      Peaceful s (s.setObject (.anon s.nextAnon) (some (dbInitObject oid))) := by
    refine ⟨rfl, fun p => by simp [isUser], fun a o' found => ?_⟩
    by_cases same : a = s.nextAnon
    · subst same
      simp only [Db.setObject_object, if_true, Option.some.injEq] at found
      subst found
      exact Or.inr ⟨rfl, rfl⟩
    · exact Or.inl ⟨o', by simpa [same] using found, rfl⟩
  have numbered {oid : Int} (absent : s.object (.obj oid) = none) :
      Peaceful s (s.setObject (.obj oid) (some (dbInitObject oid))) :=
    ⟨rfl, unlisted absent, fun a o' found => Or.inl ⟨o', by simpa using found, rfl⟩⟩
  unfold dbCreateObject
  by_cases appended : newObjid ≤ 0 ∨ s.numObjects ≤ newObjid
  · simp only [appended, if_true]
    cases anonymous with
    | true =>
        have made := anon s.numObjects
        exact ⟨rfl, made.player, made.nowhere⟩
    | false =>
        have made := numbered fresh
        exact ⟨rfl, made.player, made.nowhere⟩
  · rw [not_or] at appended
    have absent : s.object (.obj newObjid) = none := by
      have invalid := unused (by omega) (by omega)
      rwa [Db.valid, Option.isSome_eq_false_iff, Option.isNone_iff_eq_none] at invalid
    simp only [appended, or_self, if_false]
    cases anonymous with
    | true =>
        have made := anon newObjid
        exact ⟨rfl, made.player, made.nowhere⟩
    | false => exact numbered absent

theorem dbDestroyObject_enrolled (enrolled : Enrolled s) {oid : Int}
    (ran : dbDestroyObject s oid = .ok s') : Enrolled s' := by
  unfold dbDestroyObject at ran
  split at ran
  · cases ran
  · split at ran
    · cases ran
    · cases ran
      refine ⟨fun p => ?_, ?_, fun a o found => enrolled.nowhere a o (by simpa using found)⟩
      · have left : isUser { s.setObject (.obj oid) none with
            allUsers := if isUser s oid = true then setremove s.allUsers oid else s.allUsers } p =
            (decide (p ≠ oid) && isUser s p) := by
          by_cases same : p = oid
          · simp [isUser, same]
          · simp [isUser, same]
        rw [left, Bool.and_eq_true, decide_eq_true_eq]
        show p ∈ (if isUser s oid = true then setremove s.allUsers oid else s.allUsers) ↔ _
        rw [← enrolled.users p]
        split
        · exact enrolled.nodup.mem_erase_iff
        · rename_i outsider
          refine ⟨fun member => ⟨?_, member⟩, And.right⟩
          rintro rfl
          exact outsider ((enrolled.users p).mp member)
      · show (if isUser s oid = true then setremove s.allUsers oid else s.allUsers).Nodup
        split
        · exact enrolled.nodup.erase oid
        · exact enrolled.nodup

theorem dbDestroyAnonymousObject_peaceful {address : Nat}
    (ran : dbDestroyAnonymousObject s address = .ok s') : Peaceful s s' := by
  obtain ⟨o, -, ran⟩ := Failing.bind_ok ran
  cases ran
  obtain ⟨object, -, -, users⟩ :=
    Db.unindexed_fields (removeAnons_unindexed s o.parents.named address)
  refine ⟨users, fun p => by simp [isUser, object], fun a o' found => Or.inl ⟨o', ?_, rfl⟩⟩
  rw [Db.setObject_object, object] at found
  split at found
  · cases found
  · exact found

theorem setLastUsed_peaceful (s : Db V) (oid : Int) : Peaceful s (dbSetLastUsedObjid s oid) := by
  obtain ⟨n, same, -⟩ := setLastUsed_spec s oid
  rw [same]
  exact ⟨rfl, fun _ => rfl, fun a o' found => Or.inl ⟨o', found, rfl⟩⟩

theorem dbMakeAnonymous_enrolled (enrolled : Enrolled s) {address : Nat} {last : Int}
    (ran : dbMakeAnonymous s address last = .ok s') : Enrolled s' := by
  have before := (setLastUsed_peaceful s last).enrolled enrolled
  obtain ⟨o, found, rfl⟩ := Db.modify_ok ran
  refine ⟨fun p => ?_, before.nodup, fun a o' found' => ?_⟩
  · refine (before.users p).trans ?_
    simp [isUser]
  · by_cases same : a = address
    · subst same
      simp only [Db.setObject_object, if_true, Option.some.injEq] at found'
      subst found'
      exact ⟨(before.nowhere a o found).1, rfl⟩
    · exact before.nowhere a o' (by simpa [same] using found')

theorem bfCreate_enrolled (graph : WellFormed s) (enrolled : Enrolled s) {progr owner : Int}
    {parents : ObjOrList} {anonymous : Bool} {outcome : Outcome}
    (ran : bfCreate s progr parents owner anonymous = .ok (outcome, s')) : Enrolled s' := by
  rcases bfCreate_cases ran with ⟨e, -, -, rfl⟩ | ⟨-, s1, s2, changed, born, reparented, settled⟩
  · exact enrolled
  · have tabled : Tabled s := fun p valid => (graph.valid_bounds valid).2
    have made : Peaceful s (dbCreateObject s (-1) anonymous).2.2 :=
      dbCreateObject_peaceful tabled fun positive => absurd positive (by decide)
    have owned : Peaceful s s1 := made.trans (Peaceful.of_modify (by intros; rfl) born)
    have formed : WellFormed s1 := by
      have var : (dbCreateObject s (-1) anonymous).1 = freshVar s anonymous := by
        cases anonymous <;> simp [dbCreateObject, freshVar]
      have given : dbSetObjectOwner (dbCreateObject s (-1) anonymous).2.2
          (dbCreateObject s (-1) anonymous).1 (if s.valid owner then owner else s.numObjects) =
          .ok s1 := var ▸ born
      exact (created graph (Or.inl (by omega)) rfl given).formed
    have given := dbChangeParents_standing formed reparented
    have later := (owned.trans given.peaceful).enrolled enrolled
    cases changed with
    | false =>
        cases anonymous with
        | false =>
            obtain ⟨-, s3, destroyed, rfl⟩ := settled
            exact (setLastUsed_peaceful s3 _).enrolled (dbDestroyObject_enrolled later destroyed)
        | true =>
            obtain ⟨-, s3, destroyed, rfl⟩ := settled
            exact ((dbDestroyAnonymousObject_peaceful destroyed).trans
              (setLastUsed_peaceful s3 _)).enrolled later
    | true =>
        cases anonymous with
        | false => exact settled.2 ▸ later
        | true => exact dbMakeAnonymous_enrolled later settled.2

theorem bfRecreate_enrolled (graph : WellFormed s) (enrolled : Enrolled s)
    {progr old parent owner : Int} {outcome : Outcome}
    (ran : bfRecreate s progr old parent owner = .ok (outcome, s')) : Enrolled s' := by
  unfold bfRecreate at ran
  split at ran
  · cases ran
    exact enrolled
  · rename_i usable
    simp only [Bool.or_eq_true, decide_eq_true_eq, not_or, Bool.not_eq_true] at usable
    generalize (if s.valid owner = true then owner else progr) = newOwner at ran
    obtain ⟨allowed, -, ran⟩ := Failing.bind_ok ran
    split at ran
    · cases ran
      exact enrolled
    · have tabled : Tabled s := fun p valid => (graph.valid_bounds valid).2
      have made : Peaceful s (dbCreateObject s old false).2.2 :=
        dbCreateObject_peaceful tabled fun _ _ => usable.2
      generalize madeHere : dbCreateObject s old false = triple at ran made
      obtain ⟨v, oid, s0⟩ := triple
      simp only at ran made
      obtain ⟨s1, owned, ran⟩ := Failing.bind_ok ran
      obtain ⟨⟨changed, s2⟩, reparented, ran⟩ := Failing.bind_ok ran
      have formed := (created graph (Or.inr usable.2) madeHere owned).formed
      have later := ((made.trans (Peaceful.of_modify (by intros; rfl) owned)).trans
        (dbChangeParents_standing formed reparented).peaceful).enrolled enrolled
      cases changed with
      | false =>
          obtain ⟨s3, destroyed, ran⟩ := Failing.bind_ok ran
          cases ran
          exact dbDestroyObject_enrolled later destroyed
      | true =>
          cases ran
          exact later

end Creating

end ToastStunt
