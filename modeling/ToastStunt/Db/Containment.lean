import ToastStunt.Db.Relocating
import ToastStunt.Db.Renaming

/-!
Renumbering objects in their places, and the states that the server reaches: locations and
contents mirror each other and the way up from any object ends.
-/

namespace ToastStunt

open Containment Runs

variable {V : Type}

section Renumbering

variable {s s' : Db V} {old new : Int}

theorem replaceFirst_swap {list result : List Int} (nodup : list.Nodup) (noNew : new ∉ list)
    (other : old ≠ new) (ran : replaceFirst old new list = .ok result) :
    result = list.map (Equiv.swap old new) := by
  obtain ⟨member, rfl⟩ := replaceFirst_ok.mp ran
  rw [(swapFirst_eq_map other).mpr (List.nodup_iff_count_le_one.mp nodup old)]
  refine List.map_congr_left fun oid here => ?_
  have apart : oid ≠ new := by
    rintro rfl
    exact noNew here
  rw [renameId]
  split
  · rename_i same
    rw [same, Equiv.swap_apply_left]
  · rename_i same
    rw [Equiv.swap_apply_of_ne_of_ne same apart]

theorem changeIdentity_places (other : old ≠ new) {o : Object V}
    (found : s.object (.obj old) = some o) : places (changeIdentity s old new o) =
      ⟨fun oid => if oid = old then none
          else if oid = new then (places s).location old else (places s).location oid,
        fun oid => if oid = old then []
          else if oid = new then (places s).contents old else (places s).contents oid⟩ := by
  obtain ⟨location, contents⟩ := places_object found
  refine Places.ext (funext fun oid => ?_) (funext fun oid => ?_)
  all_goals
    simp only [location, contents]
    by_cases isOld : oid = old
    · simp [places, changeIdentity, isOld]
    · by_cases isNew : oid = new
      · simp [places, changeIdentity, isNew, Ne.symm other]
      · simp [places, changeIdentity, isOld, isNew]

theorem fixContents_places {place : Int} (ran : fixContents old new s place = .ok s') :
    ∃ contents, replaceFirst old new ((places s).contents place) = .ok contents ∧
      places s' = ⟨(places s).location, Function.update (places s).contents place contents⟩ := by
  obtain ⟨o, there, ran⟩ := Failing.bind_ok ran
  obtain ⟨contents, replaced, ran⟩ := Failing.bind_ok ran
  obtain ⟨o', found, rfl⟩ := Db.modify_ok ran
  rw [Db.dereference_ok, found] at there
  cases there
  obtain ⟨location, here⟩ := places_object found
  refine ⟨contents, here ▸ replaced, ?_⟩
  rw [places_setObject]
  congr 1
  exact Function.update_eq_self_iff.mpr location.symm

theorem fixLocations_places {things : List Int} (ran : things.foldlM (fixLocation new) s = .ok s') :
    places s' = ⟨fun oid => if oid ∈ things then placeOf new else (places s).location oid,
      (places s).contents⟩ := by
  induction things generalizing s with
  | nil =>
      cases ran
      simp
  | cons thing rest ih =>
      rw [List.foldlM_cons] at ran
      obtain ⟨s1, changed, ran⟩ := Failing.bind_ok ran
      obtain ⟨o, found, rfl⟩ := Db.modify_ok changed
      obtain ⟨-, contents⟩ := places_object found
      rw [ih ran, places_setObject]
      refine Places.ext (funext fun oid => ?_) (Function.update_eq_self_iff.mpr contents.symm)
      by_cases later : oid ∈ rest
      · simp [later]
      · by_cases same : oid = thing <;> simp [later, same]

theorem fixParents_unmoved {child : Int} (ran : fixParents old new s child = .ok s') :
    Unmoved s s' := by
  obtain ⟨o, -, ran⟩ := Failing.bind_ok ran
  split at ran
  · obtain ⟨parents, -, ran⟩ := Failing.bind_ok ran
    exact parents_unmoved ran
  · exact parents_unmoved ran

theorem fixChildren_unmoved {parent : Int} (ran : fixChildren old new s parent = .ok s') :
    Unmoved s s' := by
  obtain ⟨o, -, ran⟩ := Failing.bind_ok ran
  obtain ⟨children, -, ran⟩ := Failing.bind_ok ran
  exact Unmoved.of_modify (by intros; rfl) ran

theorem Indexed.modify {oid : Int} {f : Object V → Object V} (indexed : Indexed s)
    (changed : s.modify (.obj oid) f = .ok s') : Indexed s' := by
  obtain ⟨o, -, rfl⟩ := Db.modify_ok changed
  exact indexed.of_same (fun a => by simp) rfl rfl

theorem fixPlace_indexed {place : Int} (indexed : Indexed s)
    (ran : fixPlace old new s place = .ok s') : Indexed s' := by
  unfold fixPlace at ran
  split at ran
  · cases ran
    exact indexed
  · obtain ⟨o, -, ran⟩ := Failing.bind_ok ran
    obtain ⟨contents, -, ran⟩ := Failing.bind_ok ran
    exact indexed.modify ran

theorem fixAnonParents_names (other : old ≠ new) (real : new ≠ NOTHING) {kids : List Nat}
    (ran : kids.foldlM (fixAnonParents old new) s = .ok s') {a : Nat} {o : Object V}
    (found : s.object (.anon a) = some o) : ∃ o', s'.object (.anon a) = some o' ∧
      (∀ p ∈ o.parents.named, p ≠ old → p ∈ o'.parents.named) ∧
      (a ∈ kids → old ∈ o.parents.named → new ∈ o'.parents.named) := by
  induction kids generalizing s o with
  | nil =>
      cases ran
      exact ⟨o, found, fun _ named _ => named, fun none => absurd none List.not_mem_nil⟩
  | cons kid rest ih =>
      rw [List.foldlM_cons] at ran
      obtain ⟨s1, changed, ran⟩ := Failing.bind_ok ran
      rw [fixAnonParents_eq] at changed
      obtain ⟨q, foundQ, rfl⟩ := Db.modify_ok changed
      by_cases same : a = kid
      · subst same
        rw [found] at foundQ
        cases foundQ
        obtain ⟨o', found', kept, -⟩ := ih ran (o := swapAnonParents old new o) (by simp)
        have named {p : Int} (member : p ∈ o.parents.named) :
            (if p = old then new else p) ∈ (swapAnonParents old new o).parents.named := by
          unfold swapAnonParents
          cases parents : o.parents with
          | obj parent =>
              rw [parents, ObjOrList.named] at member
              split at member
              · cases member
              · cases List.mem_singleton.mp member
                by_cases isOld : p = old
                · simp [isOld, renameParents, renameId, ObjOrList.named, real]
                · simp_all [renameParents, renameId, ObjOrList.named]
          | list parents =>
              rw [parents, ObjOrList.named] at member
              exact List.mem_map.mpr ⟨p, member, rfl⟩
        refine ⟨o', found', fun p member apart => ?_, fun _ member => ?_⟩
        · have here := named member
          rw [if_neg apart] at here
          exact kept p here apart
        · have here := named member
          rw [if_pos rfl] at here
          exact kept new here (Ne.symm other)
      · obtain ⟨o', found', kept, fixed⟩ := ih ran (o := o) (by simpa [same] using found)
        refine ⟨o', found', kept, fun member => fixed ?_⟩
        exact (List.mem_cons.mp member).resolve_left same

theorem moveAnonIndex_indexed (indexed : Indexed s) (other : old ≠ new) (real : new ≠ NOTHING)
    (ran : (s.anonymousObjects old).foldlM (fixAnonParents old new) s = .ok s') :
    Indexed (moveAnonIndex s' old new) := by
  have kept : s'.anonymousObjects = s.anonymousObjects ∧ s'.nextAnon = s.nextAnon ∧
      ∀ v, (s'.object v).isSome = (s.object v).isSome := by
    refine Failing.foldlM_invariant (fun t : Db V => t.anonymousObjects = s.anonymousObjects ∧
      t.nextAnon = s.nextAnon ∧ ∀ v, (t.object v).isSome = (s.object v).isSome)
      (fun kid _ before after same step => ?_) ⟨rfl, rfl, fun _ => rfl⟩ ran
    obtain ⟨o, found, rfl⟩ := Db.modify_ok step
    refine ⟨same.1, same.2.1, fun v => ?_⟩
    rw [Db.setObject_object, ← same.2.2 v]
    split
    · rename_i equal
      rw [equal, found]
      rfl
    · rfl
  obtain ⟨index, nextAnon, present⟩ := kept
  have moved (p : Int) (a : Nat) (member : a ∈ (moveAnonIndex s' old new).anonymousObjects p) :
      (a ∈ s.anonymousObjects old ∧ p = new) ∨ (a ∈ s.anonymousObjects p ∧ p ≠ old) := by
    unfold moveAnonIndex at member
    rw [index] at member
    split at member
    · rename_i none
      refine Or.inr ⟨index ▸ member, ?_⟩
      rintro rfl
      rw [index, none] at member
      cases member
    · simp only at member
      split at member
      · cases member
      · rename_i notOld
        split at member
        · rename_i isNew
          exact Or.inl ⟨member, isNew⟩
        · exact Or.inr ⟨member, notOld⟩
  have tables := moveAnonIndex_tables s' old new
  refine ⟨fun p a member => ?_, fun p => ?_, fun a fresh => ?_⟩
  · rw [moveAnonIndex_object]
    rcases moved p a member with ⟨kid, rfl⟩ | ⟨listed, apart⟩
    · obtain ⟨o, found, named⟩ := indexed.sound old a kid
      obtain ⟨o', found', -, fixed⟩ := fixAnonParents_names other real ran found
      exact ⟨o', found', fixed kid named⟩
    · obtain ⟨o, found, named⟩ := indexed.sound p a listed
      obtain ⟨o', found', kept, -⟩ := fixAnonParents_names other real ran found
      exact ⟨o', found', kept p named apart⟩
  · unfold moveAnonIndex
    split
    · exact index ▸ indexed.nodup p
    · simp only [index]
      split
      · exact List.nodup_nil
      · split <;> exact indexed.nodup _
  · have unused := indexed.allocated a (by rw [tables.2.1, nextAnon] at fresh; exact fresh)
    have absent := present (.anon a)
    rw [unused, Option.isSome_none, Option.isSome_eq_false_iff, Option.isNone_iff_eq_none] at absent
    rwa [moveAnonIndex_object]

theorem fixPlace_places {location : Int} (placed : Placed (places s)) (other : old ≠ new)
    (nowhere : (places s).location new = none) (nothing : (places s).contents new = []) {t t' : Db V}
    (begun : (places t).contents = fun oid => if oid = old then []
      else if oid = new then (places s).contents old else (places s).contents oid)
    (located : (places s).location old = placeOf location)
    (ran : fixPlace old new t location = .ok t') :
    places t' = ⟨(places t).location, fun p =>
      if (places s).location old = some p then ((places s).contents p).map (Equiv.swap old new)
      else (places t).contents p⟩ := by
  unfold fixPlace at ran
  split at ran
  · rename_i outside
    cases ran
    rw [located, outside]
    rfl
  · rename_i somewhere
    rw [placeOf_real somewhere] at located
    obtain ⟨contents, replaced, put⟩ := fixContents_places ran
    have here := placed.located located
    have apartOld : location ≠ old := fun equal => placed.not_inside_itself old (equal ▸ here)
    have apartNew : location ≠ new := fun equal =>
      placed.not_at_unused nothing old (equal ▸ located)
    have listed : (places t).contents location = (places s).contents location := by
      rw [begun]
      simp [apartOld, apartNew]
    rw [listed] at replaced
    have swapped := replaceFirst_swap (placed.nodup _) (placed.unused_not_inside nowhere _) other
      replaced
    rw [put, located]
    congr 1
    funext p
    by_cases same : p = location
    · subst same
      rw [Function.update_self, if_pos rfl, swapped]
    · rw [Function.update_of_ne same, if_neg fun equal => same (Option.some.inj equal).symm]

theorem fixRelatives_places (placed : Placed (places s)) (other : old ≠ new) (real : new ≠ NOTHING)
    {o : Object V} (found : s.object (.obj old) = some o) (unused : s.object (.obj new) = none)
    (ran : fixRelatives (changeIdentity s old new o) old new o = .ok s') :
    places s' = (places s).rename (Equiv.swap old new) := by
  obtain ⟨s1, ran1, ran⟩ := Failing.bind_ok ran
  obtain ⟨o1, there, ran⟩ := Failing.bind_ok ran
  obtain ⟨s2, ran2, ran⟩ := Failing.bind_ok ran
  obtain ⟨s3, ran3, ran⟩ := Failing.bind_ok ran
  obtain ⟨o2, inside, ran⟩ := Failing.bind_ok ran
  obtain ⟨s4, ran4, ran5⟩ := Failing.bind_ok ran
  obtain ⟨noPlace, noThings⟩ := unused_places unused
  have start := changeIdentity_places (s := s) other found
  have first : Unmoved _ s1 := Unmoved.of_foldlM (fun _ _ _ => fixChildren_unmoved) ran1
  have second : Unmoved s1 s2 := Unmoved.of_foldlM (fun _ _ _ => fixParents_unmoved) ran2
  have before : places s2 = places (changeIdentity s old new o) :=
    second.places.trans first.places
  have located : (places s).location old = placeOf o1.location := by
    rw [← (places_object (Db.dereference_ok.mp there)).1, first.places, start]
    simp [Ne.symm other]
  have third := fixPlace_places placed other noPlace noThings (by rw [before, start]) located ran3
  have held : o2.contents = (places s).contents old := by
    have apart := placed.not_at_unused noThings old
    rw [← (places_object (Db.dereference_ok.mp inside)).2, third]
    simp only [if_neg apart, before, start]
    simp [Ne.symm other]
  have fourth := fixLocations_places ran4
  rw [held, placeOf_real real] at fourth
  have fifth : places s' = places s4 := by
    refine Failing.foldlM_invariant (fun t : Db V => places t = places s4)
      (fun kid _ before after same step => ?_) rfl ran5
    obtain ⟨q, -, rfl⟩ := Db.modify_ok step
    exact same
  rw [fifth, fourth, third, before, start]
  refine Places.ext (funext fun oid => ?_) (funext fun oid => ?_)
  · exact (placed.swap_location noPlace noThings oid).symm
  · exact (placed.swap_contents noPlace noThings oid).symm

theorem fixRelatives_indexed (indexed : Indexed s) (other : old ≠ new) (real : new ≠ NOTHING)
    {o : Object V} (ran : fixRelatives (changeIdentity s old new o) old new o = .ok s') :
    Indexed (moveAnonIndex s' old new) := by
  obtain ⟨s1, ran1, ran⟩ := Failing.bind_ok ran
  obtain ⟨o1, -, ran⟩ := Failing.bind_ok ran
  obtain ⟨s2, ran2, ran⟩ := Failing.bind_ok ran
  obtain ⟨s3, ran3, ran⟩ := Failing.bind_ok ran
  obtain ⟨o2, -, ran⟩ := Failing.bind_ok ran
  obtain ⟨s4, ran4, ran5⟩ := Failing.bind_ok ran
  have start : Indexed (changeIdentity s old new o) :=
    indexed.of_same (fun a => by simp [changeIdentity]) rfl rfl
  have first : Unmoved _ s1 := Unmoved.of_foldlM (fun _ _ _ => fixChildren_unmoved) ran1
  have second : Unmoved s1 s2 := Unmoved.of_foldlM (fun _ _ _ => fixParents_unmoved) ran2
  have third := fixPlace_indexed (second.indexed (first.indexed start)) ran3
  have fourth : Indexed s4 :=
    Failing.foldlM_invariant Indexed (fun thing _ before after same step => same.modify step) third ran4
  exact moveAnonIndex_indexed fourth other real ran5

theorem renumber_tail (s : Db V) (old new : Int) :
    (fixNumberedOwners (fixUsers (moveAnonIndex s old new) old new) old new).numObjects =
        s.numObjects ∧
      places (fixNumberedOwners (fixUsers (moveAnonIndex s old new) old new) old new) = places s ∧
      (fixNumberedOwners (fixUsers (moveAnonIndex s old new) old new) old new).valid = s.valid ∧
      (Indexed (moveAnonIndex s old new) →
        Indexed (fixNumberedOwners (fixUsers (moveAnonIndex s old new) old new) old new)) := by
  obtain ⟨object, numObjects, nextAnon, index⟩ := fixUsers_fields (moveAnonIndex s old new) old new
  have same := moveAnonIndex_object s old new
  refine ⟨numObjects.trans (moveAnonIndex_tables s old new).1, places_congr fun oid => ?_,
    funext fun oid => ?_, fun indexed => indexed.of_same (fun a => ?_) nextAnon index⟩
  · simp only [fixNumberedOwners, Option.map_map, object, same]
    rfl
  · simp [Db.valid, fixNumberedOwners, object, same]
  · simp only [fixNumberedOwners, object]

theorem bfRenumber_housed (housed : Housed s) {progr oid : Int} {outcome : Outcome}
    (ran : bfRenumber s progr oid = .ok (outcome, s')) : Housed s' := by
  unfold bfRenumber at ran
  split at ran
  · cases ran
    exact housed
  · split at ran
    · cases ran
      exact housed
    · obtain ⟨⟨final, t⟩, renumbered, ran⟩ := Failing.bind_ok ran
      cases ran
      have tabled := dbRenumberObject_tabled housed.tabled renumbered
      unfold dbRenumberObject at renumbered
      split at renumbered
      · cases renumbered
        exact housed
      · rename_i free least
        obtain ⟨-, lower, unused⟩ := leastFree_some least
        obtain ⟨o, there, renumbered⟩ := Failing.bind_ok renumbered
        obtain ⟨s1, related, renumbered⟩ := Failing.bind_ok renumbered
        obtain ⟨s2, owned, renumbered⟩ := Failing.bind_ok renumbered
        cases renumbered
        have found := Db.dereference_ok.mp there
        have other : oid ≠ (free : Int) := by omega
        have real : (free : Int) ≠ NOTHING := by rw [NOTHING]; omega
        have owners := Unmoved.of_foldlM (fun _ _ _ => Unmoved.of_modify (by intros; rfl)) owned
        have taken := fixRelatives_noneTaken related
        obtain ⟨length, where_, valid, index⟩ := renumber_tail s1 oid free
        have numObjects : s'.numObjects = s.numObjects :=
          owners.taken.numObjects.trans (length.trans taken.numObjects)
        refine ⟨numObjects ▸ housed.table, fun p used => ⟨?_, tabled p used⟩, ?_, ?_⟩
        · have here := taken.valid p (valid ▸ owners.taken.valid p used)
          by_cases isNew : p = free
          · omega
          · refine (housed.numbered p ?_).1
            rw [Db.valid, changeIdentity, Db.setObject_object] at here
            split at here
            · cases here
            · rwa [Db.setObject_object, if_neg (by simpa using isNew)] at here
        · rw [owners.places, where_,
            fixRelatives_places housed.placed other real found unused related]
          exact housed.placed.rename _
        · exact owners.indexed (index (fixRelatives_indexed housed.indexed other real related))

end Renumbering

section Runs

variable {s s' : Db V}

def Call.recycles : Call V → Bool
  | .recycle .. => true
  | _ => false

/-- A step of the server that may concern where objects are. A built-in that waits for a verb is
resumed at any later time, whatever data it has kept; the last step leaves all things where they
are and names no other parents. -/
inductive PlaceStep (s s' : Db V) : Prop
  | call (call : Call V) (outcome : Outcome) :
      call.recycles = false → call.run s = .ok (outcome, s') → PlaceStep s s'
  | move (stackFull : Bool) (progr what place : Int) (position : Option Int)
      (package : Package MoveError BfMoveData) :
      bfMove s stackFull progr what place position = .ok (package, s') → PlaceStep s s'
  | moveResumed (stackFull : Bool) (progr : Int) (data : BfMoveData) (next : Nat) (returned : Bool)
      (package : Package MoveError BfMoveData) :
      doMove stackFull data s progr next returned = .ok (package, s') → PlaceStep s s'
  | recycle (stackFull : Bool) (progr : Int) (obj : ObjVar) (package : Package MoveError ObjVar) :
      recycleCalled s stackFull progr obj = .ok (package, s') → PlaceStep s s'
  | recycleResumed (stackFull : Bool) (obj : ObjVar) (package : Package MoveError ObjVar) :
      recycleResumed s stackFull obj = .ok (package, s') → PlaceStep s s'
  | resetMaxObject (progr : Int) (outcome : Outcome) :
      bfResetMaxObject s progr = .ok (outcome, s') → PlaceStep s s'
  | elsewhere : SameUpTo Object.housing s s' → PlaceStep s s'

def PlaceReachable : Db V → Prop := Reachable Db.empty PlaceStep

theorem call_housed (housed : Housed s) {call : Call V} {outcome : Outcome}
    (other : call.recycles = false) (ran : call.run s = .ok (outcome, s')) : Housed s' := by
  cases call with
  | create progr parents owner anonymous => exact bfCreate_housed housed ran
  | recreate progr old parent owner => exact bfRecreate_housed housed ran
  | chparents progr obj what => exact (bfChparentChparents_unmoved ran).housed housed
  | recycle progr obj => cases other
  | addProperty progr oid pname value owner flags => exact (bfAddProp_unmoved ran).housed housed
  | deleteProperty progr oid pname => exact (bfDeleteProp_unmoved ran).housed housed
  | renameProperty oid old new => exact (renameProp_unmoved ran).housed housed
  | renumber progr oid => exact bfRenumber_housed housed ran

theorem placeStep_housed (housed : Housed s) (step : PlaceStep s s') : Housed s' := by
  cases step with
  | call call outcome other ran => exact call_housed housed other ran
  | move stackFull progr what place position package ran => exact doMove_housed housed ran
  | moveResumed stackFull progr data next returned package ran => exact doMove_housed housed ran
  | recycle stackFull progr obj package ran => exact recycleCalled_housed housed ran
  | recycleResumed stackFull obj package ran => exact recycleResumed_housed housed ran
  | resetMaxObject progr outcome ran => exact bfResetMaxObject_housed housed ran
  | elsewhere same => exact (Unmoved.of_sameUpTo same).housed housed

theorem empty_housed : Housed (Db.empty : Db V) where
  table := Int.le_refl _
  numbered := by simp [Db.valid, Db.empty]
  placed := by
    refine ⟨?_, ?_, ?_, fun thing => ⟨[], .top ?_⟩⟩ <;> simp [places, Db.empty]
  indexed := by
    refine ⟨?_, ?_, ?_⟩ <;> simp [Db.empty]

theorem placeReachable_housed (reachable : PlaceReachable s) : Housed s :=
  reachable.invariant Housed empty_housed fun _ _ housed step => placeStep_housed housed step

/-- An object is in the contents of another exactly once if that is its location, and else not at
all; the places above an object end, without the object itself, and so do the walks over them. -/
theorem locations_mirror_contents (reachable : PlaceReachable s) :
    (∀ x o, s.object (.obj x) = some o → ∀ y, o.contents.count y =
      if (s.object (.obj y)).map Object.location = some x then 1 else 0) ∧
    (∀ y o, s.object (.obj y) = some o → o.location = NOTHING ∨ s.valid o.location = true) ∧
    (∀ y, ∃ path, Climbs (fun oid => (s.object (.obj oid)).bind fun o => placeOf o.location) y path ∧
      y ∉ path) ∧
    (∀ what place, (place = NOTHING ∨ s.valid place = true) → ∀ fuel, locationTurns s ≤ fuel →
      ∃ found, violatesHierarchy s what fuel place = .ok found) ∧
    ∀ isa what base checkParent, ∃ locs, bfLocations s isa what base checkParent = .ok locs := by
  have housed := placeReachable_housed reachable
  refine ⟨fun x o found y => ?_, fun y o found => ?_, fun y => ?_, fun what place known fuel enough => ?_,
    fun isa what base checkParent => ?_⟩
  · have real : x ≠ NOTHING := housed.real (Db.valid_iff.mpr ⟨o, found⟩)
    have count := housed.placed.count y x
    rw [(places_object found).2] at count
    rw [count]
    refine if_congr ?_ rfl rfl
    show ((s.object (.obj y)).bind fun o => placeOf o.location) = some x ↔ _
    cases s.object (.obj y) with
    | none => simp
    | some oy =>
        rw [Option.bind_some, Option.map_some, placeOf]
        split
        · rename_i nowhere
          simp [nowhere, Ne.symm real]
        · rfl
  · by_cases nowhere : o.location = NOTHING
    · exact Or.inl nowhere
    · have here := (places_object found).1
      rw [placeOf_real nowhere] at here
      exact Or.inr (housed.location_valid here)
  · obtain ⟨path, climbs⟩ := housed.placed.grounded y
    exact ⟨path, climbs, climbs.not_mem⟩
  · obtain ⟨walked, walks, short⟩ := housed.walk_known known
    exact ⟨_, violatesHierarchy_walks housed what known walks (Nat.lt_of_lt_of_le short enough)⟩
  · unfold bfLocations locationsUntil
    cases valid : s.valid what with
    | false => exact ⟨none, rfl⟩
    | true =>
        obtain ⟨all, walks, -⟩ := housed.walk_known (Or.inr valid)
        obtain ⟨first, above, -, moves, known, -⟩ := housed.walk_up valid walks
        obtain ⟨walked, walks, short⟩ := housed.walk_known known
        have distinct : walked.Nodup := by
          cases spot : placeOf first with
          | none =>
              rw [spot] at walks
              rw [show walked = [] from walks]
              exact List.nodup_nil
          | some p =>
              rw [spot] at walks
              obtain ⟨further, rfl, climbs⟩ := walks
              exact climbs.nodup
        rw [Bool.not_true, if_neg Bool.false_ne_true, Failing.bind_of_ok moves,
          Failing.bind_of_ok (collectLocations_walks housed _ known walks short
            (by simpa using distinct))]
        exact ⟨_, rfl⟩

theorem runAll_placeReachable {calls : List (Call V)} (reachable : PlaceReachable s)
    (every : ∀ call ∈ calls, call.recycles = false) (ran : runAll calls s = .ok s') :
    PlaceReachable s' := by
  unfold runAll at ran
  refine Failing.foldlM_invariant PlaceReachable ?_ reachable ran
  intro call member before after reached step
  obtain ⟨⟨outcome, next⟩, called, rest⟩ := Failing.bind_ok step
  cases rest
  exact .step reached (.call call outcome (every call member) called)

def takeThing : Except Crash (Db Unit) := do
  let s ← runAll [.create NOTHING (.obj NOTHING) NOTHING false,
    .create NOTHING (.obj NOTHING) NOTHING false] Db.empty
  let s ← s.modify (.obj 0) fun o => { o with flags := {.wizard} }
  let (_, s) ← bfMove s false 0 1 0 none
  return s

theorem takeThing_placeReachable {s : Db Unit} (ran : takeThing = .ok s) : PlaceReachable s := by
  obtain ⟨s1, created, ran⟩ := Failing.bind_ok ran
  obtain ⟨s2, promoted, ran⟩ := Failing.bind_ok ran
  obtain ⟨⟨package, s3⟩, moved, ran⟩ := Failing.bind_ok ran
  cases ran
  have first : PlaceReachable s1 := runAll_placeReachable .start (by simp [Call.recycles]) created
  have second : PlaceReachable s2 :=
    .step first (.elsewhere (SameUpTo.of_modify (by intros; rfl) promoted))
  exact .step second (.move _ _ _ _ _ _ moved)

theorem thing_taken : ∃ s : Db Unit, PlaceReachable s ∧ ∃ o, s.object (.obj 0) = some o ∧
    o.contents = [1] ∧ o.contents.count 1 =
      if (s.object (.obj 1)).map Object.location = some 0 then 1 else 0 := by
  obtain ⟨s, ran, holds⟩ := Failing.of_okAnd (x := takeThing)
    (p := fun s => (s.object (.obj 0)).map Object.contents = some [1]) (by decide +kernel)
  have reachable := takeThing_placeReachable ran
  obtain ⟨o, found, contents⟩ := Option.map_eq_some_iff.mp (of_decide_eq_true holds)
  exact ⟨s, reachable, o, found, contents, (locations_mirror_contents reachable).1 0 o found 1⟩

end Runs

end ToastStunt
