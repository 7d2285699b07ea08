import ToastStunt.Db.Moving
import ToastStunt.Library.Containment

/-!
Where objects are: locations and contents that mirror each other, in a table of bounded numbers.
Creating, re-parenting and destroying objects leaves everything in its place.
-/

namespace ToastStunt

open Containment

variable {V : Type}

section Places

def placeOf (oid : Int) : Option Int := if oid = NOTHING then none else some oid

def Object.spot (o : Object V) : Int × List Int := (o.location, o.contents)

def Object.housing (o : Object V) : (Int × List Int) × ObjOrList := (o.spot, o.parents)

def places (s : Db V) : Places Int where
  location oid := (s.object (.obj oid)).bind fun o => placeOf o.location
  contents oid := ((s.object (.obj oid)).map Object.contents).getD []

theorem placeOf_eq_some {oid place : Int} (found : placeOf oid = some place) :
    oid ≠ NOTHING ∧ place = oid := by
  unfold placeOf at found
  split at found
  · cases found
  · rename_i real
    exact ⟨real, (Option.some.inj found).symm⟩

theorem placeOf_real {oid : Int} (real : oid ≠ NOTHING) : placeOf oid = some oid := if_neg real

theorem places_congr {s s' : Db V}
    (same : ∀ oid, (s'.object (.obj oid)).map Object.spot = (s.object (.obj oid)).map Object.spot) :
    places s' = places s := by
  ext1
  · funext oid
    have here := congrArg (Option.bind · fun spot => placeOf spot.1) (same oid)
    rw [Option.bind_map, Option.bind_map] at here
    exact here
  · funext oid
    have here := congrArg (fun spot => (spot.map Prod.snd).getD []) (same oid)
    simp only [Option.map_map] at here
    exact here

theorem places_setObject (s : Db V) (oid : Int) (o : Object V) :
    places (s.setObject (.obj oid) (some o)) =
      ⟨Function.update (places s).location oid (placeOf o.location),
        Function.update (places s).contents oid o.contents⟩ := by
  ext1
  · funext other
    by_cases same : other = oid
    · subst same
      simp [places]
    · simp [places, same]
  · funext other
    by_cases same : other = oid
    · subst same
      simp [places]
    · simp [places, same]

theorem places_object {s : Db V} {oid : Int} {o : Object V} (found : s.object (.obj oid) = some o) :
    (places s).location oid = placeOf o.location ∧ (places s).contents oid = o.contents := by
  simp [places, found]

theorem valid_of_contents {s : Db V} {oid thing : Int} (member : thing ∈ (places s).contents oid) :
    s.valid oid = true := by
  rw [Db.valid]
  cases found : s.object (.obj oid) with
  | none =>
      simp [places, found] at member
  | some o => rfl

theorem unused_places {s : Db V} {oid : Int} (absent : s.object (.obj oid) = none) :
    (places s).location oid = none ∧ (places s).contents oid = [] := by
  simp [places, absent]

end Places

structure Indexed (s : Db V) : Prop where
  sound : ∀ p a, a ∈ s.anonymousObjects p →
    ∃ o, s.object (.anon a) = some o ∧ p ∈ o.parents.named
  nodup : ∀ p, (s.anonymousObjects p).Nodup
  allocated : ∀ a, s.nextAnon ≤ a → s.object (.anon a) = none

theorem Indexed.of_same {s s' : Db V} (indexed : Indexed s)
    (anons : ∀ a, (s'.object (.anon a)).map Object.parents = (s.object (.anon a)).map Object.parents)
    (nextAnon : s'.nextAnon = s.nextAnon) (index : s'.anonymousObjects = s.anonymousObjects) :
    Indexed s' where
  sound p a member := by
    rw [index] at member
    obtain ⟨o, found, named⟩ := indexed.sound p a member
    have here := anons a
    rw [found, Option.map_some, Option.map_eq_some_iff] at here
    obtain ⟨o', found', same⟩ := here
    exact ⟨o', found', same ▸ named⟩
  nodup := index ▸ indexed.nodup
  allocated a fresh := by
    have here := anons a
    rw [indexed.allocated a (nextAnon ▸ fresh), Option.map_none, Option.map_eq_none_iff] at here
    exact here

/-- The object table is bounded, locations and contents agree, and the way up ends. -/
structure Housed (s : Db V) : Prop where
  table : 0 ≤ s.numObjects
  numbered : ∀ oid, s.valid oid = true → 0 ≤ oid ∧ oid < s.numObjects
  placed : Placed (places s)
  indexed : Indexed s

namespace Housed

variable {s : Db V}

theorem nothing (housed : Housed s) : s.object (.obj NOTHING) = none := by
  cases found : s.object (.obj NOTHING) with
  | none => rfl
  | some o =>
      have bound := housed.numbered NOTHING (Db.valid_iff.mpr ⟨o, found⟩)
      exact absurd bound.1 (by decide)

theorem tabled (housed : Housed s) : Tabled s := fun oid valid => (housed.numbered oid valid).2

theorem location_valid (housed : Housed s) {thing place : Int}
    (here : (places s).location thing = some place) : s.valid place = true :=
  valid_of_contents (housed.placed.located here)

theorem thing_valid {thing place : Int} (here : (places s).location thing = some place) :
    s.valid thing = true := by
  rw [Db.valid]
  cases found : s.object (.obj thing) with
  | none =>
      simp [places, found] at here
  | some o => rfl

theorem real (housed : Housed s) {oid : Int} (valid : s.valid oid = true) : oid ≠ NOTHING := by
  rintro rfl
  rw [Db.valid, housed.nothing] at valid
  cases valid

end Housed

structure Unmoved (s s' : Db V) : Prop where
  taken : NoneTaken s s'
  places : places s' = places s
  indexed : Indexed s → Indexed s'

namespace Unmoved

variable {s s' s'' : Db V}

theorem refl (s : Db V) : Unmoved s s := ⟨NoneTaken.refl s, rfl, id⟩

theorem trans (first : Unmoved s s') (second : Unmoved s' s'') : Unmoved s s'' :=
  ⟨first.taken.trans second.taken, second.places.trans first.places,
    second.indexed ∘ first.indexed⟩

theorem housed (same : Unmoved s s') (housed : Housed s) : Housed s' where
  table := same.taken.numObjects ▸ housed.table
  numbered oid valid := same.taken.numObjects ▸ housed.numbered oid (same.taken.valid oid valid)
  placed := same.places ▸ housed.placed
  indexed := same.indexed housed.indexed

theorem of_sameUpTo (same : SameUpTo Object.housing s s') : Unmoved s s' where
  taken := NoneTaken.of_sameUpTo same
  places := places_congr fun oid =>
    (same.coarser fun _ _ equal => congrArg Prod.fst equal).view (.obj oid)
  indexed indexed := indexed.of_same
    (fun a => (same.coarser fun _ _ equal => congrArg Prod.snd equal).view (.anon a))
    same.nextAnon same.index

theorem of_modify {v : ObjVar} {f : Object V → Object V} (unseen : ∀ o, (f o).housing = o.housing)
    (changed : s.modify v f = .ok s') : Unmoved s s' :=
  of_sameUpTo (SameUpTo.of_modify (fun o _ => unseen o) changed)

theorem of_unslotted (same : SameUpTo Object.unslotted s s') : Unmoved s s' :=
  of_sameUpTo (same.coarser fun o o' equal => by
    have housing := congrArg Object.housing equal
    exact housing)

theorem of_foldlM {ι : Type} {step : Db V → ι → Except Crash (Db V)} {items : List ι}
    (each : ∀ item s s', step s item = .ok s' → Unmoved s s')
    (ran : items.foldlM step s = .ok s') : Unmoved s s' :=
  Failing.foldlM_invariant (Unmoved s)
    (fun item _ before after same step => same.trans (each item before after step)) (refl s) ran

end Unmoved

section Staying

variable {s s' : Db V}

theorem relinkChildren_unmoved {oid : Int} {old new : ObjOrList}
    (ran : relinkChildren s oid old new = .ok s') : Unmoved s s' := by
  obtain ⟨s1, removed, added⟩ := Failing.bind_ok ran
  have first : Unmoved s s1 :=
    Unmoved.of_foldlM (fun _ _ _ => Unmoved.of_modify (by intros; rfl)) removed
  exact first.trans (Unmoved.of_foldlM (fun _ _ _ => Unmoved.of_modify (by intros; rfl)) added)

theorem parents_unmoved {oid : Int} {new : ObjOrList}
    (changed : s.modify (.obj oid) (fun o => { o with parents := new }) = .ok s') :
    Unmoved s s' := by
  refine ⟨NoneTaken.of_modify changed, ?_, fun indexed => ?_⟩
  · have same : SameUpTo Object.spot s s' := SameUpTo.of_modify (by intros; rfl) changed
    exact places_congr fun p => same.view (.obj p)
  · obtain ⟨o, -, rfl⟩ := Db.modify_ok changed
    exact indexed.of_same (fun a => by simp) rfl rfl

theorem relinkAnon_unmoved {address : Nat} {o : Object V} {new : ObjOrList}
    (found : s.object (.anon address) = some o)
    (changed : (relinkAnon s address o.parents new).modify (.anon address)
      (fun o => { o with parents := new }) = .ok s') : Unmoved s s' := by
  obtain ⟨object, numObjects, nextAnon, -⟩ :=
    Db.unindexed_fields (relinkAnon_unindexed s address o.parents new)
  have relinked : NoneTaken s (relinkAnon s address o.parents new) :=
    NoneTaken.of_objects numObjects fun v present => by rwa [object] at present
  refine ⟨relinked.trans (NoneTaken.of_modify changed), ?_, fun indexed => ?_⟩
  · obtain ⟨o', -, rfl⟩ := Db.modify_ok changed
    exact places_congr fun p => by simp [object]
  · obtain ⟨removedNodup, removed⟩ := mem_removeAnons indexed.nodup o.parents.named address
    obtain ⟨addedNodup, added⟩ := mem_addAnons removedNodup new.named address
    obtain ⟨o', found', rfl⟩ := Db.modify_ok changed
    refine ⟨fun p a member => ?_, addedNodup, fun a fresh => ?_⟩
    · rcases (added p a).mp member with kept | ⟨rfl, named⟩
      · obtain ⟨before, other⟩ := (removed p a).mp kept
        obtain ⟨q, foundQ, named⟩ := indexed.sound p a before
        have apart : a ≠ address := by
          rintro rfl
          rw [found] at foundQ
          cases foundQ
          exact other ⟨rfl, named⟩
        exact ⟨q, by simp [apart, object, foundQ], named⟩
      · exact ⟨{ o' with parents := new }, by simp, named⟩
    · have unused := indexed.allocated a (by simpa [nextAnon] using fresh)
      have apart : a ≠ address := by
        rintro rfl
        rw [found] at unused
        cases unused
      simp [apart, object, unused]

theorem dbChangeParents_unmoved {v : ObjVar} {new : ObjOrList} {kids : List Nat} {changed : Bool}
    (ran : dbChangeParents s v new kids = .ok (changed, s')) : Unmoved s s' := by
  rcases dbChangeParents_ok ran with ⟨-, rfl⟩ | ⟨-, s2, change⟩
  · exact Unmoved.refl _
  · obtain ⟨o, s1, found, relinked, assigned⟩ := change.relinked
    have middle : Unmoved s s2 := by
      cases v with
      | obj oid => exact (relinkChildren_unmoved relinked).trans (parents_unmoved assigned)
      | anon address =>
          cases relinked
          exact relinkAnon_unmoved found assigned
    exact middle.trans (Unmoved.of_unslotted (fix_unslotted change.fixed))

theorem dbDestroyObject_unmoved {oid : Int} (ran : dbDestroyObject s oid = .ok s') :
    Unmoved s s' := by
  have taken := dbDestroyObject_noneTaken ran
  unfold dbDestroyObject at ran
  split at ran
  · cases ran
  · rename_i o found
    split at ran
    · cases ran
    · rename_i barren
      cases ran
      simp only [not_or, ne_eq, not_not] at barren
      refine ⟨taken, ?_, fun indexed => indexed.of_same (fun a => by simp) rfl rfl⟩
      ext1
      · funext other
        by_cases same : other = oid
        · subst same
          simp [places, found, barren.1, placeOf]
        · simp [places, same]
      · funext other
        by_cases same : other = oid
        · subst same
          simp [places, found, barren.2.1]
        · simp [places, same]

theorem dbDestroyAnonymousObject_unmoved {address : Nat}
    (ran : dbDestroyAnonymousObject s address = .ok s') : Unmoved s s' := by
  have taken := dbDestroyAnonymousObject_noneTaken ran
  obtain ⟨o, there, ran⟩ := Failing.bind_ok ran
  cases ran
  have found := Db.dereference_ok.mp there
  obtain ⟨object, -, nextAnon, -⟩ :=
    Db.unindexed_fields (removeAnons_unindexed s o.parents.named address)
  refine ⟨taken, places_congr fun oid => by simp [object], fun indexed => ?_⟩
  obtain ⟨removedNodup, removed⟩ := mem_removeAnons indexed.nodup o.parents.named address
  refine ⟨fun p a member => ?_, removedNodup, fun a fresh => ?_⟩
  · obtain ⟨before, other⟩ := (removed p a).mp member
    obtain ⟨q, foundQ, named⟩ := indexed.sound p a before
    have apart : a ≠ address := by
      rintro rfl
      rw [found] at foundQ
      cases foundQ
      exact other ⟨rfl, named⟩
    exact ⟨q, by simp [apart, object, foundQ], named⟩
  · have unused := indexed.allocated a (by simpa [nextAnon] using fresh)
    simp [object, unused]

theorem fixupOwners_unmoved (s : Db V) (oid : Int) : Unmoved s (dbFixupOwners s oid) := by
  refine ⟨⟨rfl, fun p valid => ?_⟩, places_congr fun p => ?_,
    fun indexed => indexed.of_same (fun a => ?_) rfl rfl⟩
  · simpa [Db.valid, dbFixupOwners] using valid
  · simp only [dbFixupOwners, Option.map_map]
    rfl
  · simp only [dbFixupOwners]
    split
    · rw [Option.map_map]
      rfl
    · rfl

theorem reparentChildren_unmoved {oid : Int} {fuel : Nat} {done : Bool}
    (ran : reparentChildren oid fuel s = .ok (done, s')) : Unmoved s s' := by
  induction fuel generalizing s with
  | zero => cases ran
  | succ fuel ih =>
      obtain ⟨next, -, ran⟩ := Failing.bind_ok ran
      cases next with
      | none =>
          cases ran
          exact Unmoved.refl _
      | some child =>
          obtain ⟨c, -, ran⟩ := Failing.bind_ok ran
          obtain ⟨o, -, ran⟩ := Failing.bind_ok ran
          obtain ⟨⟨changed, s1⟩, reparented, ran⟩ := Failing.bind_ok ran
          have first := dbChangeParents_unmoved reparented
          cases changed with
          | false =>
              cases ran
              exact first
          | true => exact first.trans (ih ran)

theorem recycleEmptied_unmoved {oid : Int} {package : Package MoveError ObjVar}
    (ran : recycleEmptied s oid = .ok (package, s')) : Unmoved s s' := by
  obtain ⟨⟨done, s1⟩, looped, ran⟩ := Failing.bind_ok ran
  have reparented := reparentChildren_unmoved looped
  cases done with
  | false =>
      cases ran
      exact reparented
  | true =>
      obtain ⟨⟨changed, s2⟩, orphaned, ran⟩ := Failing.bind_ok ran
      obtain ⟨s3, destroyed, ran⟩ := Failing.bind_ok ran
      cases ran
      exact ((reparented.trans (dbChangeParents_unmoved orphaned)).trans
        (fixupOwners_unmoved s2 oid)).trans (dbDestroyObject_unmoved destroyed)

theorem bfChparentChparents_unmoved {progr : Int} {obj : ObjVar} {what : ObjOrList}
    {outcome : Outcome} (ran : bfChparentChparents s progr obj what = .ok (outcome, s')) :
    Unmoved s s' := by
  unfold bfChparentChparents at ran
  split at ran
  · cases ran
    exact Unmoved.refl _
  · obtain ⟨controlled, -, ran⟩ := Failing.bind_ok ran
    obtain ⟨allowed, -, ran⟩ := Failing.bind_ok ran
    split at ran
    · cases ran
      exact Unmoved.refl _
    · split at ran
      · cases ran
        exact Unmoved.refl _
      · obtain ⟨⟨changed, s1⟩, reparented, ran⟩ := Failing.bind_ok ran
        have same := dbChangeParents_unmoved reparented
        cases changed <;> cases ran <;> exact same

theorem Redefined.unmoved {oid : Int} {f : List Propdef → List Propdef}
    (redefined : Redefined s s' oid f) : Unmoved s s' := by
  obtain ⟨s1, changed, same⟩ := redefined
  exact (Unmoved.of_modify (by intros; rfl) changed).trans (Unmoved.of_unslotted same)

theorem bfAddProp_unmoved {progr oid owner : Int} {pname : CString} {value : V} {flags : Nat}
    {outcome : Outcome} (ran : bfAddProp s progr oid pname value owner flags = .ok (outcome, s')) :
    Unmoved s s' := by
  unfold bfAddProp at ran
  split at ran
  · cases ran
    exact Unmoved.refl _
  · obtain ⟨allowed, -, ran⟩ := Failing.bind_ok ran
    split at ran
    · cases ran
      exact Unmoved.refl _
    · obtain ⟨⟨added, s1⟩, defined, ran⟩ := Failing.bind_ok ran
      have same : Unmoved s s1 := by
        rcases dbAddPropdef_ok defined with ⟨-, rfl⟩ | ⟨-, -, -, redefined⟩
        · exact Unmoved.refl _
        · exact redefined.unmoved
      cases added <;> cases ran <;> exact same

theorem bfDeleteProp_unmoved {progr oid : Int} {pname : CString} {outcome : Outcome}
    (ran : bfDeleteProp s progr oid pname = .ok (outcome, s')) : Unmoved s s' := by
  unfold bfDeleteProp at ran
  split at ran
  · cases ran
    exact Unmoved.refl _
  · obtain ⟨allowed, -, ran⟩ := Failing.bind_ok ran
    split at ran
    · cases ran
      exact Unmoved.refl _
    · obtain ⟨⟨deleted, s1⟩, undefined, ran⟩ := Failing.bind_ok ran
      have same : Unmoved s s1 := by
        rcases dbDeletePropdef_ok undefined with ⟨-, rfl⟩ | ⟨-, i, redefined⟩
        · exact Unmoved.refl _
        · exact redefined.unmoved
      cases deleted <;> cases ran <;> exact same

theorem renameProp_unmoved {oid : Int} {old new : CString} {outcome : Outcome}
    (ran : renameProp s oid old new = .ok (outcome, s')) : Unmoved s s' := by
  unfold renameProp at ran
  split at ran
  · cases ran
    exact Unmoved.refl _
  · obtain ⟨⟨renamed, s1⟩, redefined, ran⟩ := Failing.bind_ok ran
    have same : Unmoved s s1 := by
      rcases dbRenamePropdef_ok redefined with ⟨-, rfl⟩ | ⟨-, o, i, -, -, -, changed⟩
      · exact Unmoved.refl _
      · exact Unmoved.of_modify (by intros; rfl) changed
    cases renamed <;> cases ran <;> exact same

end Staying

section Creating

variable {s s' : Db V}

theorem Housed.resized (housed : Housed s) {n : Int} (table : 0 ≤ n)
    (used : ∀ oid, s.valid oid = true → oid < n) : Housed { s with numObjects := n } where
  table := table
  numbered oid valid := ⟨(housed.numbered oid valid).1, used oid valid⟩
  placed := housed.placed
  indexed := housed.indexed.of_same (fun _ => rfl) rfl rfl

theorem setLastUsed_housed (housed : Housed s) {oid : Int}
    (floor : (0 ≤ oid ∧ oid ≤ s.numObjects) ∨ ∃ p, s.valid p = true) :
    Housed (dbSetLastUsedObjid s oid) := by
  obtain ⟨n, same, -, above, used⟩ := setLastUsed_spec s oid
  rw [same]
  refine housed.resized ?_ fun p valid => used p valid (housed.tabled p valid)
  rcases floor with ⟨nonneg, bound⟩ | ⟨p, valid⟩
  · exact Int.le_trans nonneg (above bound)
  · have here := housed.numbered p valid
    have below := used p valid here.2
    omega

theorem bfResetMaxObject_housed (housed : Housed s) {progr : Int} {outcome : Outcome}
    (ran : bfResetMaxObject s progr = .ok (outcome, s')) : Housed s' := by
  unfold bfResetMaxObject at ran
  split at ran
  · cases ran
    exact housed
  · obtain ⟨s1, reset, ran⟩ := Failing.bind_ok ran
    cases ran
    obtain ⟨n, rfl, last, kept⟩ := resetLastUsed_ok reset
    have here := housed.numbered (n - 1) last
    exact housed.resized (by omega) fun p valid => kept p valid (housed.tabled p valid)

theorem housed_add (housed : Housed s) {oid n : Int} (nonneg : 0 ≤ oid) (below : oid < n)
    (longer : s.numObjects ≤ n) (unused : s.object (.obj oid) = none) :
    Housed { s.setObject (.obj oid) (some (dbInitObject oid)) with numObjects := n } where
  table := Int.le_trans housed.table longer
  numbered p valid := by
    by_cases same : p = oid
    · subst same
      exact ⟨nonneg, below⟩
    · have here := housed.numbered p (by simpa [Db.valid, same] using valid)
      exact ⟨here.1, Int.lt_of_lt_of_le here.2 longer⟩
  placed := by
    obtain ⟨nowhere, empty⟩ := unused_places unused
    have same : places (s.setObject (.obj oid) (some (dbInitObject oid))) = places s := by
      rw [places_setObject]
      ext1
      · exact Function.update_eq_self_iff.mpr nowhere.symm
      · exact Function.update_eq_self_iff.mpr empty.symm
    exact same ▸ housed.placed
  indexed := housed.indexed.of_same (fun a => by simp) rfl rfl

theorem housed_addAnon (housed : Housed s) (oid : Int) {n : Int} (longer : s.numObjects ≤ n) :
    Housed { s.setObject (.anon s.nextAnon) (some (dbInitObject oid)) with
      numObjects := n, nextAnon := s.nextAnon + 1 } where
  table := Int.le_trans housed.table longer
  numbered p valid := by
    have here := housed.numbered p (by simpa [Db.valid] using valid)
    exact ⟨here.1, Int.lt_of_lt_of_le here.2 longer⟩
  placed := housed.placed
  indexed := by
    refine ⟨fun p a member => ?_, housed.indexed.nodup, fun a fresh => ?_⟩
    · obtain ⟨o, found, named⟩ := housed.indexed.sound p a member
      have other : a ≠ s.nextAnon := by
        rintro rfl
        rw [housed.indexed.allocated _ (Nat.le_refl _)] at found
        cases found
      exact ⟨o, by simp [other, found], named⟩
    · have other : a ≠ s.nextAnon := Nat.ne_of_gt fresh
      have unused := housed.indexed.allocated a (Nat.le_of_lt fresh)
      simp [other, unused]

theorem dbCreateObject_housed (housed : Housed s) (newObjid : Int) (anonymous : Bool)
    (unused : 0 < newObjid → newObjid < s.numObjects → s.valid newObjid = false) :
    Housed (dbCreateObject s newObjid anonymous).2.2 := by
  have fresh : s.object (.obj s.numObjects) = none := housed.tabled.unused
  have table := housed.table
  unfold dbCreateObject
  by_cases appended : newObjid ≤ 0 ∨ s.numObjects ≤ newObjid
  · simp only [appended, if_true]
    cases anonymous with
    | true => exact housed_addAnon housed s.numObjects (n := s.numObjects + 1) (by omega)
    | false => exact housed_add housed (n := s.numObjects + 1) table (by omega) (by omega) fresh
  · rw [not_or] at appended
    have absent : s.object (.obj newObjid) = none := by
      have invalid := unused (by omega) (by omega)
      rwa [Db.valid, Option.isSome_eq_false_iff, Option.isNone_iff_eq_none] at invalid
    simp only [appended, or_self, if_false]
    cases anonymous with
    | true => exact housed_addAnon housed newObjid (Int.le_refl _)
    | false => exact housed_add housed (by omega) (by omega) (Int.le_refl _) absent

theorem Indexed.kidsOk (indexed : Indexed s) (oid : Int) :
    checkChildrenOfObject s (.obj oid) (gatheredKids s (.obj oid) []) = .ok true := by
  rw [checkChildrenOfObject, gatheredKids, if_pos List.isEmpty_nil]
  refine (Failing.bind_of_ok (Failing.anyM_ok (q := fun _ => false) fun kid member => ?_) _).trans ?_
  · obtain ⟨o, found, named⟩ := indexed.sound oid kid member
    rw [Failing.bind_of_ok (Db.dereference_ok.mpr found)]
    cases parents : o.parents with
    | obj parent =>
        rw [parents, ObjOrList.named] at named
        split at named
        · cases named
        · simp_all [pure, Except.pure]
    | list parents =>
        rw [parents, ObjOrList.named] at named
        simpa [pure, Except.pure] using named
  · simp [pure, Except.pure]

theorem born_housed (housed : Housed s) {s1 : Db V} {owner : Int} {anonymous : Bool}
    (born : freshOrphan s owner anonymous = .ok s1) :
    Housed s1 ∧ s1.numObjects = s.numObjects + 1 := by
  have made := dbCreateObject_housed housed (-1) anonymous fun positive => absurd positive (by decide)
  have owned : Unmoved _ s1 := Unmoved.of_modify (by intros; rfl) born
  obtain ⟨o, -, -, -, -, numObjects, -⟩ := freshOrphan_ok born
  exact ⟨owned.housed made, numObjects⟩

theorem refused_someone (housed : Housed s) {progr owner : Int} {parents : ObjOrList} {s1 s2 : Db V}
    (checked : createChecks s progr parents owner false = .ok none)
    (born : freshOrphan s owner false = .ok s1)
    (refused : dbChangeParents s1 (freshVar s false) parents [] = .ok (false, s2)) :
    0 < s.numObjects := by
  by_contra empty
  have usable : unusableParents s parents = false := by
    unfold createChecks at checked
    split at checked
    · cases checked
    · rename_i usable
      simp_all
  have orphan : parents.named = [] := by
    rw [List.eq_nil_iff_forall_not_mem]
    intro p named
    have here := housed.numbered p (usable_valid usable p named)
    omega
  obtain ⟨later, -⟩ := born_housed housed born
  exact orphan_not_refused orphan later.nothing (later.indexed.kidsOk _) refused

theorem bfCreate_housed (housed : Housed s) {progr owner : Int} {parents : ObjOrList}
    {anonymous : Bool} {outcome : Outcome}
    (ran : bfCreate s progr parents owner anonymous = .ok (outcome, s')) : Housed s' := by
  rcases bfCreate_cases ran with ⟨e, -, -, rfl⟩ |
    ⟨checked, s1, s2, changed, born, reparented, settled⟩
  · exact housed
  · obtain ⟨made, longer⟩ := born_housed housed born
    have moved := dbChangeParents_unmoved reparented
    have later := moved.housed made
    have length : s2.numObjects = s.numObjects + 1 := moved.taken.numObjects.trans longer
    have someone (flag : anonymous = true) : 0 < s.numObjects := by
      unfold createChecks at checked
      split at checked
      · cases checked
      · rename_i usable
        simp only [flag, Bool.true_and, Bool.or_eq_true, decide_eq_true_eq, not_or, Bool.and_eq_true,
          Bool.not_eq_true', ne_eq] at usable
        have valid : s.valid owner = true := by
          by_contra invalid
          exact usable.1.2 ⟨by simpa using invalid, usable.1.1⟩
        have here := housed.numbered owner valid
        omega
    have last (bound : 0 < s.numObjects) {s3 : Db V} (same : Unmoved s2 s3) :
        Housed (dbSetLastUsedObjid s3 (dbLastUsedObjid s)) := by
      have length' : s3.numObjects = s.numObjects + 1 := same.taken.numObjects.trans length
      exact setLastUsed_housed (same.housed later) (Or.inl (by rw [dbLastUsedObjid]; omega))
    cases changed with
    | false =>
        cases anonymous with
        | false =>
            obtain ⟨-, s3, destroyed, rfl⟩ := settled
            exact last (refused_someone housed checked born reparented)
              (dbDestroyObject_unmoved destroyed)
        | true =>
            obtain ⟨-, s3, destroyed, rfl⟩ := settled
            exact last (someone rfl) (dbDestroyAnonymousObject_unmoved destroyed)
    | true =>
        cases anonymous with
        | false => exact settled.2 ▸ later
        | true =>
            have made := last (someone rfl) (Unmoved.refl s2)
            obtain ⟨o, found, same⟩ := Db.modify_ok settled.2
            subst same
            exact ⟨made.table, fun p valid => made.numbered p (by simpa [Db.valid] using valid),
              made.placed, made.indexed.of_same (fun a => by
                by_cases this : a = s.nextAnon
                · subst this
                  simp [found]
                · simp [this]) rfl rfl⟩

theorem bfRecreate_housed (housed : Housed s) {progr old parent owner : Int} {outcome : Outcome}
    (ran : bfRecreate s progr old parent owner = .ok (outcome, s')) : Housed s' := by
  unfold bfRecreate at ran
  split at ran
  · cases ran
    exact housed
  · rename_i usable
    generalize (if s.valid owner = true then owner else progr) = newOwner at ran
    obtain ⟨allowed, -, ran⟩ := Failing.bind_ok ran
    split at ran
    · cases ran
      exact housed
    · have extended := dbCreateObject_housed housed old false (by simp_all)
      generalize dbCreateObject s old false = triple at ran extended
      obtain ⟨v, oid, s0⟩ := triple
      simp only at ran extended
      obtain ⟨s1, owned, ran⟩ := Failing.bind_ok ran
      obtain ⟨⟨changed, s2⟩, reparented, ran⟩ := Failing.bind_ok ran
      have first : Unmoved s0 s1 := Unmoved.of_modify (by intros; rfl) owned
      have moved := (dbChangeParents_unmoved reparented).housed (first.housed extended)
      cases changed with
      | false =>
          obtain ⟨s3, destroyed, ran⟩ := Failing.bind_ok ran
          cases ran
          exact (dbDestroyObject_unmoved destroyed).housed moved
      | true =>
          cases ran
          exact moved

end Creating

end ToastStunt
