import ToastStunt.Db.SlotRuns
import ToastStunt.Db.Users

/-!
Histories of the object table in which slots are laid out, things are in their places and the
users are listed, with recycling that may stop for a verb at each object it moves.
-/

namespace ToastStunt

open Containment Runs

variable {V : Type}

section Moving

variable {s s' s'' : Db V}

theorem dbChangeLocation_peaceful {oid place : Int} {position : Nat}
    (ran : dbChangeLocation s oid place position = .ok s') : Peaceful s s' := by
  have moved {t t' : Db V} {p : Int} {f : Object V → Object V} (unseen : ∀ o, (f o).flags = o.flags)
      (step : modifyValid t p f = .ok t') : Peaceful t t' := by
    unfold modifyValid at step
    split at step
    · exact Peaceful.of_modify_obj unseen step
    · cases step
      exact Peaceful.refl _
  obtain ⟨o, -, ran⟩ := Failing.bind_ok ran
  obtain ⟨s1, left, ran⟩ := Failing.bind_ok ran
  obtain ⟨s2, entered, ran⟩ := Failing.bind_ok ran
  exact ((moved (by intros; rfl) left).trans (moved (by intros; rfl) entered)).trans
    (Peaceful.of_modify_obj (by intros; rfl) ran)

/-- Objects have been moved to nothing, if at all. -/
structure Loosened (s s' : Db V) : Prop where
  unplaced : SameUpTo Object.unplaced s s'
  peaceful : Peaceful s s'
  housed : Housed s → Housed s'
  location : Housed s → ∀ oid, (places s').location oid = (places s).location oid ∨
    (places s').location oid = none

namespace Loosened

theorem refl (s : Db V) : Loosened s s :=
  ⟨SameUpTo.refl s, Peaceful.refl s, id, fun _ _ => Or.inl rfl⟩

theorem trans (first : Loosened s s') (second : Loosened s' s'') : Loosened s s'' where
  unplaced := first.unplaced.trans second.unplaced
  peaceful := first.peaceful.trans second.peaceful
  housed := second.housed ∘ first.housed
  location housed oid := by
    rcases second.location (first.housed housed) oid with same | nowhere
    · exact same ▸ first.location housed oid
    · exact Or.inr nowhere

theorem of_nothing {oid : Int} (ran : dbChangeLocation s oid NOTHING 0 = .ok s') :
    Loosened s s' where
  unplaced := dbChangeLocation_unplaced ran
  peaceful := dbChangeLocation_peaceful ran
  housed housed := nowhere_housed housed ran
  location housed p := by
    obtain ⟨i, moved⟩ := dbChangeLocation_places housed (Or.inl rfl) ran
    rw [moved]
    by_cases same : p = oid
    · subst same
      exact Or.inr (Function.update_self ..)
    · exact Or.inl (Function.update_of_ne same ..)

theorem moveToNothing {stackFull : Bool} {oid : Int} {called : Bool}
    (ran : moveToNothingCalling s stackFull oid = .ok (called, s')) : Loosened s s' := by
  obtain ⟨oldloc, -, ran⟩ := Failing.bind_ok ran
  obtain ⟨s1, changed, ran⟩ := Failing.bind_ok ran
  obtain ⟨answer, -, ran⟩ := Failing.bind_ok ran
  split at ran <;> cases ran <;> exact of_nothing changed

theorem moveContents {stackFull : Bool} {oid : Int} {fuel : Nat} {called : Bool}
    (ran : moveContentsCalling stackFull oid fuel s = .ok (called, s')) : Loosened s s' := by
  induction fuel generalizing s with
  | zero => cases ran
  | succ fuel ih =>
      obtain ⟨o, -, ran⟩ := Failing.bind_ok ran
      split at ran
      · cases ran
        exact refl _
      · obtain ⟨⟨stopped, s1⟩, moved, ran⟩ := Failing.bind_ok ran
        have first := moveToNothing moved
        cases stopped with
        | true =>
            cases ran
            exact first
        | false => exact first.trans (ih ran)

theorem leaveLocation {stackFull : Bool} {oid : Int} {called : Bool}
    (ran : leaveLocationCalling s stackFull oid = .ok (called, s')) : Loosened s s' := by
  obtain ⟨location, -, ran⟩ := Failing.bind_ok ran
  split at ran
  · exact moveToNothing ran
  · cases ran
    exact refl _

theorem valid (same : Loosened s s') : s'.valid = s.valid := by
  funext oid
  have view := congrArg Option.isSome (same.unplaced.view (.obj oid))
  simpa [Db.valid] using view

end Loosened

section Placing

variable {stackFull : Bool} {data : BfMoveData} {package : Package MoveError BfMoveData}

theorem moveChanged_changes (ran : moveChanged stackFull data s = .ok (package, s')) :
    ∃ position, dbChangeLocation s data.what data.place position = .ok s' := by
  obtain ⟨oldloc, -, ran⟩ := Failing.bind_ok ran
  obtain ⟨s1, changed, ran⟩ := Failing.bind_ok ran
  have same : s' = s1 := by
    split at ran
    · obtain ⟨answer, -, ran⟩ := Failing.bind_ok ran
      split at ran
      · cases ran
        rfl
      · cases ran
        rfl
      · exact moveEntered_same ran
    · exact moveEntered_same ran
  exact ⟨_, same ▸ changed⟩

theorem acceptsDecided_changes {progr : Int} {accepts : Bool}
    (ran : acceptsDecided stackFull data s progr accepts = .ok (package, s')) :
    s' = s ∨ ∃ position, dbChangeLocation s data.what data.place position = .ok s' := by
  unfold acceptsDecided at ran
  split at ran
  · cases ran
    exact Or.inl rfl
  · split at ran
    · cases ran
      exact Or.inl rfl
    · obtain ⟨oldloc, -, ran⟩ := Failing.bind_ok ran
      split at ran
      · cases ran
        exact Or.inl rfl
      · obtain ⟨violates, -, ran⟩ := Failing.bind_ok ran
        split at ran
        · cases ran
          exact Or.inl rfl
        · exact Or.inr (moveChanged_changes ran)

theorem moveChecked_changes {progr : Int}
    (ran : moveChecked stackFull data s progr = .ok (package, s')) :
    s' = s ∨ ∃ position, dbChangeLocation s data.what data.place position = .ok s' := by
  unfold moveChecked at ran
  split at ran
  · cases ran
    exact Or.inl rfl
  · obtain ⟨controlled, -, ran⟩ := Failing.bind_ok ran
    split at ran
    · cases ran
      exact Or.inl rfl
    · obtain ⟨oldloc, -, ran⟩ := Failing.bind_ok ran
      split at ran
      · exact acceptsDecided_changes ran
      · obtain ⟨controlled, -, ran⟩ := Failing.bind_ok ran
        split at ran
        · cases ran
          exact Or.inl rfl
        · obtain ⟨answer, -, ran⟩ := Failing.bind_ok ran
          split at ran
          · cases ran
            exact Or.inl rfl
          · exact acceptsDecided_changes ran
          · cases ran
            exact Or.inl rfl
          · cases ran
            exact Or.inl rfl

theorem doMove_changes {progr : Int} {next : Nat} {returned : Bool}
    (ran : doMove stackFull data s progr next returned = .ok (package, s')) :
    s' = s ∨ ∃ position, dbChangeLocation s data.what data.place position = .ok s' := by
  unfold doMove at ran
  split at ran
  · exact moveChecked_changes ran
  · exact acceptsDecided_changes ran
  · exact Or.inl (moveEntered_same ran)
  · cases ran
    exact Or.inl rfl
  · cases ran

end Placing

end Moving

structure Orderly (s : Db V) : Prop where
  laidOut : LaidOut s
  housed : Housed s
  enrolled : Enrolled s

namespace Orderly

variable {s s' : Db V}

theorem consistent (orderly : Orderly s) : Consistent s where
  graph := orderly.laidOut.graph
  located c o found real := by
    have here := (places_object found).1
    rw [placeOf_real real] at here
    have member := orderly.housed.placed.located here
    obtain ⟨l, foundL⟩ := Db.valid_iff.mp (valid_of_contents member)
    rw [(places_object foundL).2] at member
    exact ⟨l, foundL, member⟩
  contained p l found c member := by
    rw [← (places_object found).2] at member
    have here := orderly.housed.placed.contained member
    obtain ⟨o, foundO⟩ := Db.valid_iff.mp (Housed.thing_valid here)
    rw [(places_object foundO).1] at here
    exact ⟨o, foundO, (placeOf_eq_some here).2.symm⟩
  contentsNodup p l found := (places_object found).2 ▸ orderly.housed.placed.nodup p
  notInItself p l found same := by
    have real := orderly.housed.real (Db.valid_iff.mpr ⟨l, found⟩)
    have here := (places_object found).1
    rw [same, placeOf_real real] at here
    obtain ⟨path, climbs⟩ := orderly.housed.placed.grounded p
    cases climbs with
    | top root =>
        rw [here] at root
        cases root
    | up above rest =>
        rw [here] at above
        cases above
        exact (Climbs.up here rest).not_mem List.mem_cons_self
  nowhere := orderly.enrolled.nowhere
  users := orderly.enrolled.users
  usersNodup := orderly.enrolled.nodup

theorem of_unplaced (orderly : Orderly s) (same : SameUpTo Object.unplaced s s')
    (peaceful : Peaceful s s') (housed : Housed s') : Orderly s' := by
  obtain ⟨quiet, graph'⟩ := same.quiet orderly.laidOut.graph
  exact ⟨(quiet.kept orderly.laidOut graph').1, housed, peaceful.enrolled orderly.enrolled⟩

theorem loosened (orderly : Orderly s) (same : Loosened s s') : Orderly s' :=
  orderly.of_unplaced same.unplaced same.peaceful (same.housed orderly.housed)

theorem moved (orderly : Orderly s) {stackFull returned : Bool} {progr : Int} {data : BfMoveData}
    {next : Nat} {package : Package MoveError BfMoveData}
    (ran : doMove stackFull data s progr next returned = .ok (package, s')) : Orderly s' := by
  have housed := doMove_housed orderly.housed ran
  rcases doMove_changes ran with rfl | ⟨position, changed⟩
  · exact orderly
  · exact orderly.of_unplaced (dbChangeLocation_unplaced changed)
      (dbChangeLocation_peaceful changed) housed

end Orderly

section Renumbering

variable {s : Db V} {old new : Int}

theorem renamed_enrolled (enrolled : Enrolled s) (real : old ≠ NOTHING) (other : new ≠ old)
    (free : s.valid new = false) : Enrolled (renamed old new s) := by
  have absent : s.object (.obj new) = none := by
    rwa [Db.valid, Option.isSome_eq_false_iff, Option.isNone_iff_eq_none] at free
  have outsider : new ∉ s.allUsers := by
    rw [enrolled.users, isUser, absent]
    exact Bool.false_ne_true
  have named {p : Int} (member : p ∈ s.allUsers) : p ≠ new := by
    rintro rfl
    exact outsider member
  refine ⟨fun oid => ?_, ?_, fun a o' found => ?_⟩
  · have same : isUser (renamed old new s) oid =
        (decide (oid ≠ old) && isUser s (if oid = new then old else oid)) := by
      by_cases isOld : oid = old
      · simp [isUser, renamed, isOld]
      · simp only [isUser, renamed, if_neg isOld]
        cases s.object (.obj (if oid = new then old else oid)) <;>
          simp [isOld, renameObject]
    rw [same, Bool.and_eq_true, decide_eq_true_eq, ← enrolled.users]
    show oid ∈ s.allUsers.map (renameId old new) ↔ _
    rw [List.mem_map]
    constructor
    · rintro ⟨p, member, rfl⟩
      by_cases isOld : p = old
      · subst isOld
        simp [renameId, other, member]
      · simp [renameId, isOld, named member, member]
    · rintro ⟨apart, member⟩
      by_cases isNew : oid = new
      · exact ⟨old, by simpa [isNew] using member, by simp [renameId, isNew]⟩
      · exact ⟨oid, by simpa [isNew] using member, by simp [renameId, apart]⟩
  · refine enrolled.nodup.map_on fun p memberP q memberQ same => ?_
    unfold renameId at same
    split at same <;> split at same
    · simp_all
    · exact absurd same.symm (named memberQ)
    · exact absurd same (named memberP)
    · exact same
  · simp only [renamed] at found
    obtain ⟨o, foundO, rfl⟩ := Option.map_eq_some_iff.mp found
    obtain ⟨location, contents⟩ := enrolled.nowhere a o foundO
    simp [renameAnon, renameObject, location, contents, renameId, Ne.symm real]

theorem bfRenumber_renames {s' : Db V} (consistent : Consistent s) {progr oid : Int}
    {outcome : Outcome} (ran : bfRenumber s progr oid = .ok (outcome, s'))
    (renumberable : ∀ new, LeastFree s oid new → new ≠ oid → Renumberable s oid new) :
    s' = s ∨ ∃ new, s' = renamed oid new s ∧ oid ≠ NOTHING ∧ new ≠ oid ∧ s.valid new = false := by
  unfold bfRenumber at ran
  split at ran
  · cases ran
    exact Or.inl rfl
  · rename_i usable
    have valid : s.valid oid = true := by simpa using usable
    split at ran
    · cases ran
      exact Or.inl rfl
    · obtain ⟨new, least, renames⟩ := renumber_renames consistent valid renumberable
      rw [Failing.bind_of_ok renames] at ran
      cases ran
      by_cases same : new = oid
      · exact Or.inl (if_pos same)
      · refine Or.inr ⟨new, if_neg same, consistent.graph.not_nothing valid, same, ?_⟩
        exact (least.2.resolve_left same).2.2

end Renumbering

section Recycling

variable {s s' : Db V}

def Package.outcome {E D : Type} : Package E D → Outcome
  | .noVar => .done
  | _ => .error .E_INVARG

theorem recycleEmptied_recycled (graph : WellFormed s) {oid : Int}
    {package : Package MoveError ObjVar} (ran : recycleEmptied s oid = .ok (package, s')) :
    WellFormed s' ∧ Recycled s s' oid package.outcome := by
  have quiet : Quiet s s := Quiet.of_sameUpTo (SameUpTo.refl s) fun _ _ same => same
  obtain ⟨⟨done, s2⟩, turned, rest⟩ := Failing.bind_ok ran
  obtain ⟨turns, graph2, finished⟩ := reparentChildren_ok graph turned
  cases done with
  | false =>
      cases rest
      exact ⟨graph2, s, _, quiet, graph, turns, graph2, Or.inl ⟨nofun, rfl⟩⟩
  | true =>
      obtain ⟨⟨changed, s3⟩, change, rest⟩ := Failing.bind_ok rest
      obtain ⟨s4, destroyed, rest⟩ := Failing.bind_ok rest
      cases rest
      obtain ⟨detached, graph3, noAnons⟩ := orphaned graph2 (finished rfl) change
      have graph3' := (fixupOwners_graph s3 oid).wellFormed graph3
      obtain ⟨gone, graph4, -⟩ := dbDestroyObject_ok graph3' noAnons destroyed
      exact ⟨graph4, s, s2, quiet, graph, turns, graph2, Or.inr ⟨rfl, s3, detached, graph3, gone⟩⟩

theorem spliced_standing {oid : Int} (turns : Relation.ReflTransGen (Spliced oid) s s') :
    Standing s s' := by
  induction turns with
  | refl => exact Standing.refl s
  | tail _ turn ih =>
      obtain ⟨graph, child, c, o, s2, -, -, -, change⟩ := turn
      exact ih.trans (change.standing graph)

theorem fixupOwners_peaceful (s : Db V) (oid : Int) : Peaceful s (dbFixupOwners s oid) := by
  refine Peaceful.of_spotted (fun v => ?_) rfl
  unfold dbFixupOwners
  cases v with
  | obj p =>
      simp only [Option.map_map]
      rfl
  | anon a =>
      simp only
      split
      · rw [Option.map_map]
        rfl
      · rfl

theorem recycleEmptied_enrolled (graph : WellFormed s) (enrolled : Enrolled s) {oid : Int}
    {package : Package MoveError ObjVar} (ran : recycleEmptied s oid = .ok (package, s')) :
    Enrolled s' := by
  obtain ⟨⟨done, s2⟩, turned, rest⟩ := Failing.bind_ok ran
  obtain ⟨turns, graph2, -⟩ := reparentChildren_ok graph turned
  have enrolled2 := (spliced_standing turns).peaceful.enrolled enrolled
  cases done with
  | false =>
      cases rest
      exact enrolled2
  | true =>
      obtain ⟨⟨changed, s3⟩, change, rest⟩ := Failing.bind_ok rest
      obtain ⟨s4, destroyed, rest⟩ := Failing.bind_ok rest
      cases rest
      have detached := (dbChangeParents_standing graph2 change).peaceful
      exact dbDestroyObject_enrolled
        ((detached.trans (fixupOwners_peaceful s3 oid)).enrolled enrolled2) destroyed

theorem Orderly.recycleEmptied (orderly : Orderly s) {oid : Int} (recyclable : Recyclable s oid)
    {package : Package MoveError ObjVar} (ran : recycleEmptied s oid = .ok (package, s')) :
    Orderly s' := by
  obtain ⟨graph', recycled⟩ := recycleEmptied_recycled orderly.laidOut.graph ran
  exact ⟨(recycled.kept orderly.laidOut recyclable graph').1,
    (recycleEmptied_unmoved ran).housed orderly.housed,
    recycleEmptied_enrolled orderly.laidOut.graph orderly.enrolled ran⟩

theorem Loosened.recyclable (same : Loosened s s') (graph : WellFormed s) {oid : Int}
    (recyclable : Recyclable s oid) : Recyclable s' oid :=
  (same.unplaced.quiet graph).1.recyclable recyclable

/-- A call or a resumption of `recycle` moves things to nothing and stops for a verb, or goes on
to the children. -/
theorem recycleResumed_cases {stackFull : Bool} {oid : Int} {package : Package MoveError ObjVar}
    (ran : recycleResumed s stackFull (.obj oid) = .ok (package, s')) :
    (package = .error .E_INVARG ∧ s' = s) ∨ (package = .call 2 (.obj oid) ∧ Loosened s s') ∨
      ∃ s1, Loosened s s1 ∧ s.valid oid = true ∧ recycleEmptied s1 oid = .ok (package, s') := by
  unfold recycleResumed at ran
  split at ran
  · cases ran
    exact Or.inl ⟨rfl, rfl⟩
  · rename_i valid
    have valid : s.valid oid = true := by simpa [isValid] using valid
    obtain ⟨o, -, ran⟩ := Failing.bind_ok ran
    obtain ⟨⟨called, s1⟩, emptied, ran⟩ := Failing.bind_ok ran
    have first := Loosened.moveContents emptied
    cases called with
    | true =>
        cases ran
        exact Or.inr (Or.inl ⟨rfl, first⟩)
    | false =>
        obtain ⟨⟨called, s2⟩, left, ran⟩ := Failing.bind_ok ran
        have second := first.trans (Loosened.leaveLocation left)
        cases called with
        | true =>
            cases ran
            exact Or.inr (Or.inl ⟨rfl, second⟩)
        | false => exact Or.inr (Or.inr ⟨s2, second, valid, ran⟩)

theorem Orderly.destroyedAnon (orderly : Orderly s) {address : Nat}
    (ran : dbDestroyAnonymousObject s address = .ok s') : Orderly s' := by
  obtain ⟨gone, graph', -⟩ := dbDestroyAnonymousObject_ok orderly.laidOut.graph ran
  exact ⟨(gone.kept orderly.laidOut graph').1,
    (dbDestroyAnonymousObject_unmoved ran).housed orderly.housed,
    (dbDestroyAnonymousObject_peaceful ran).enrolled orderly.enrolled⟩

theorem Orderly.recycleResumed (orderly : Orderly s) {stackFull : Bool} {obj : ObjVar}
    {package : Package MoveError ObjVar} (recyclable : ∀ oid, obj = .obj oid → Recyclable s oid)
    (ran : recycleResumed s stackFull obj = .ok (package, s')) : Orderly s' := by
  cases obj with
  | obj oid =>
      rcases recycleResumed_cases ran with ⟨-, rfl⟩ | ⟨-, same⟩ | ⟨s1, same, -, ran⟩
      · exact orderly
      · exact orderly.loosened same
      · exact (orderly.loosened same).recycleEmptied
          (same.recyclable orderly.laidOut.graph (recyclable oid rfl)) ran
  | anon address =>
      unfold ToastStunt.recycleResumed at ran
      split at ran
      · cases ran
        exact orderly
      · obtain ⟨s1, destroyed, ran⟩ := Failing.bind_ok ran
        cases ran
        exact orderly.destroyedAnon destroyed

theorem recycleCalled_cases {stackFull : Bool} {progr : Int} {obj : ObjVar}
    {package : Package MoveError ObjVar}
    (ran : recycleCalled s stackFull progr obj = .ok (package, s')) :
    ((∃ e, package = .error e) ∧ s' = s) ∨ ∃ s1, flagRecycled s obj = .ok s1 ∧
      (package = .call 2 obj ∧ s' = s1 ∨ recycleResumed s1 stackFull obj = .ok (package, s')) := by
  unfold recycleCalled at ran
  split at ran
  · cases ran
    exact Or.inl ⟨⟨_, rfl⟩, rfl⟩
  · obtain ⟨controlled, -, ran⟩ := Failing.bind_ok ran
    split at ran
    · cases ran
      exact Or.inl ⟨⟨_, rfl⟩, rfl⟩
    · obtain ⟨s1, flagged, ran⟩ := Failing.bind_ok ran
      obtain ⟨answer, -, ran⟩ := Failing.bind_ok ran
      split at ran
      · cases ran
        exact Or.inr ⟨_, flagged, Or.inl ⟨rfl, rfl⟩⟩
      · exact Or.inr ⟨s1, flagged, Or.inr ran⟩

theorem Orderly.flagged (orderly : Orderly s) {obj : ObjVar} (ran : flagRecycled s obj = .ok s') :
    Orderly s' ∧ ∀ oid, obj = .obj oid → s' = s := by
  cases obj with
  | obj oid =>
      cases ran
      exact ⟨orderly, fun _ _ => rfl⟩
  | anon address =>
      have quiet : Unrelated s s' := by
        have same : SameUpTo Object.skeleton s s' := SameUpTo.of_modify (by intros; rfl) ran
        exact ⟨same.view, same.numObjects, same.nextAnon, fun p => same.index ▸ List.Perm.refl _⟩
      refine ⟨⟨quiet.laidOut orderly.laidOut,
        (Unmoved.of_modify (by intros; rfl) ran).housed orderly.housed,
        (Peaceful.of_modify (fun o => ?_) ran).enrolled orderly.enrolled⟩, nofun⟩
      simp [Object.spotted, Object.spot]

theorem Orderly.recycleCalled (orderly : Orderly s) {stackFull : Bool} {progr : Int} {obj : ObjVar}
    {package : Package MoveError ObjVar} (recyclable : ∀ oid, obj = .obj oid → Recyclable s oid)
    (ran : recycleCalled s stackFull progr obj = .ok (package, s')) : Orderly s' := by
  rcases recycleCalled_cases ran with ⟨-, rfl⟩ | ⟨s1, flagged, ⟨-, rfl⟩ | resumed⟩
  · exact orderly
  · exact (orderly.flagged flagged).1
  · obtain ⟨orderly1, same⟩ := orderly.flagged flagged
    refine orderly1.recycleResumed (fun oid isObj => ?_) resumed
    exact same oid isObj ▸ recyclable oid isObj

end Recycling

section Runs

variable {s s' : Db V}

def OrderAllowed (call : Call V) (s : Db V) : Prop :=
  match call with
  | .chparents _ obj what => Separable s obj what
  | .recycle .. => False
  | .renumber _ oid => ∀ new, LeastFree s oid new → new ≠ oid → Renumberable s oid new
  | _ => True

def Object.frame (o : Object V) :
    (Int × ObjOrList × List Int × List Propdef × Nat) × (Int × List Int) × Prop :=
  (o.skeleton, o.spotted)

/-- A step of the server: a call, the start or the resumption of a move or a recycling, or
whatever else happens between them. -/
inductive HistoryStep (s s' : Db V) : Prop
  | call (call : Call V) (outcome : Outcome) :
      OrderAllowed call s → call.run s = .ok (outcome, s') → HistoryStep s s'
  | move (stackFull : Bool) (progr what place : Int) (position : Option Int)
      (package : Package MoveError BfMoveData) :
      bfMove s stackFull progr what place position = .ok (package, s') → HistoryStep s s'
  | moveResumed (stackFull : Bool) (progr : Int) (data : BfMoveData) (next : Nat) (returned : Bool)
      (package : Package MoveError BfMoveData) :
      doMove stackFull data s progr next returned = .ok (package, s') → HistoryStep s s'
  | recycle (stackFull : Bool) (progr : Int) (obj : ObjVar) (package : Package MoveError ObjVar) :
      (∀ oid, obj = .obj oid → Recyclable s oid) →
      recycleCalled s stackFull progr obj = .ok (package, s') → HistoryStep s s'
  | recycleResumed (stackFull : Bool) (obj : ObjVar) (package : Package MoveError ObjVar) :
      (∀ oid, obj = .obj oid → Recyclable s oid) →
      recycleResumed s stackFull obj = .ok (package, s') → HistoryStep s s'
  | resetMaxObject (progr : Int) (outcome : Outcome) :
      bfResetMaxObject s progr = .ok (outcome, s') → HistoryStep s s'
  | setPlayerFlag (progr oid : Int) (flag : Bool) (outcome : Outcome) :
      bfSetPlayerFlag s progr oid flag = .ok (outcome, s') → HistoryStep s s'
  | elsewhere : SameUpTo Object.frame s s' → s'.allUsers = s.allUsers → HistoryStep s s'
  | rehashed (index : Int → List Nat) : (∀ p, (index p).Perm (s.anonymousObjects p)) →
      s' = { s with anonymousObjects := index } → HistoryStep s s'

def HistoryReachable : Db V → Prop := Reachable Db.empty HistoryStep

theorem call_orderly (orderly : Orderly s) {call : Call V} {outcome : Outcome}
    (allowed : OrderAllowed call s) (ran : call.run s = .ok (outcome, s')) : Orderly s' := by
  have graph := orderly.laidOut.graph
  have slots : SlotsAllowed call s := by
    cases call with
    | chparents progr obj what => exact allowed
    | recycle progr obj => cases allowed
    | renumber progr oid => exact ⟨orderly.consistent, allowed⟩
    | _ => trivial
  have housed : Housed s' := by
    refine call_housed orderly.housed ?_ ran
    cases call with
    | recycle progr obj => cases allowed
    | _ => rfl
  refine ⟨((call_keepsSlots orderly.laidOut slots).2 _ ran).1, housed, ?_⟩
  cases call with
  | create progr parents owner anonymous => exact bfCreate_enrolled graph orderly.enrolled ran
  | recreate progr old parent owner => exact bfRecreate_enrolled graph orderly.enrolled ran
  | chparents progr obj what =>
      exact (bfChparentChparents_standing graph ran).peaceful.enrolled orderly.enrolled
  | recycle progr obj => cases allowed
  | addProperty progr oid pname value owner flags =>
      exact (bfAddProp_standing ran).peaceful.enrolled orderly.enrolled
  | deleteProperty progr oid pname =>
      exact (bfDeleteProp_standing ran).peaceful.enrolled orderly.enrolled
  | renameProperty oid old new => exact (renameProp_standing ran).peaceful.enrolled orderly.enrolled
  | renumber progr oid =>
      rcases bfRenumber_renames orderly.consistent ran allowed with
        rfl | ⟨new, rfl, real, other, free⟩
      · exact orderly.enrolled
      · exact renamed_enrolled orderly.enrolled real other free

theorem bfResetMaxObject_orderly (orderly : Orderly s) {progr : Int} {outcome : Outcome}
    (ran : bfResetMaxObject s progr = .ok (outcome, s')) : Orderly s' := by
  have housed := bfResetMaxObject_housed orderly.housed ran
  unfold bfResetMaxObject at ran
  split at ran
  · cases ran
    exact orderly
  · obtain ⟨s1, reset, ran⟩ := Failing.bind_ok ran
    cases ran
    obtain ⟨n, rfl, last, kept⟩ := resetLastUsed_ok reset
    have graph := orderly.laidOut.graph
    have graph' : WellFormed { s with numObjects := n } :=
      wellFormed_resize graph housed.table fun p valid => kept p valid (graph.valid_bounds valid).2
    refine ⟨?_, housed, orderly.enrolled.users, orderly.enrolled.nodup, orderly.enrolled.nowhere⟩
    refine (kept_of_same (f := id) orderly.laidOut graph' fun v o found => ?_).1
    exact ⟨o, found, by rw [List.map_id], ancestors_congr graph graph' fun _ _ => rfl,
      fun _ _ => rfl⟩

theorem bfSetPlayerFlag_orderly (orderly : Orderly s) {progr oid : Int} {flag : Bool}
    {outcome : Outcome} (ran : bfSetPlayerFlag s progr oid flag = .ok (outcome, s')) :
    Orderly s' := by
  have flagged {f : Finset ObjectFlag → Finset ObjectFlag} {users : List Int} {s1 : Db V}
      (changed : s.modify (.obj oid) (fun o => { o with flags := f o.flags }) = .ok s1)
      (nodup : users.Nodup)
      (member : ∀ p, p ∈ users ↔
        isUser (s.setObject (.obj oid) ((s.object (.obj oid)).map fun o =>
          { o with flags := f o.flags })) p = true) :
      Orderly { s1 with allUsers := users } := by
    obtain ⟨o, found, rfl⟩ := Db.modify_ok changed
    have frame : SameUpTo Object.skeleton s (s.setObject (.obj oid) (some
        { o with flags := f o.flags })) := SameUpTo.of_modify (by intros; rfl) changed
    have unrelated : Unrelated s { s.setObject (.obj oid) (some { o with flags := f o.flags }) with
        allUsers := users } :=
      ⟨frame.view, rfl, rfl, fun p => List.Perm.refl _⟩
    have unmoved := (Unmoved.of_modify (by intros; rfl) changed).housed orderly.housed
    rw [found] at member
    refine ⟨unrelated.laidOut orderly.laidOut, ?_, member, nodup, fun a o' found' => ?_⟩
    · exact ⟨unmoved.table, unmoved.numbered, unmoved.placed,
        unmoved.indexed.of_same (fun _ => rfl) rfl rfl⟩
    · exact orderly.enrolled.nowhere a o' (by simpa using found')
  unfold bfSetPlayerFlag at ran
  split at ran
  · cases ran
    exact orderly
  · rename_i valid
    obtain ⟨o, found⟩ := Db.valid_iff.mp (show s.valid oid = true by simpa using valid)
    split at ran
    · cases ran
      exact orderly
    · split at ran
      · obtain ⟨s2, set, ran⟩ := Failing.bind_ok ran
        cases ran
        obtain ⟨s1, changed, set⟩ := Failing.bind_ok set
        cases set
        have same : s1.allUsers = s.allUsers := by
          obtain ⟨_, -, rfl⟩ := Db.modify_ok changed
          rfl
        rw [same]
        refine flagged changed (FirstVisit.addNew_nodup orderly.enrolled.nodup) fun p => ?_
        rw [setadd, FirstVisit.mem_addNew, orderly.enrolled.users, found]
        by_cases same : p = oid
        · simp [same, isUser]
        · simp [same, isUser]
      · obtain ⟨s2, cleared, ran⟩ := Failing.bind_ok ran
        cases ran
        obtain ⟨s1, changed, cleared⟩ := Failing.bind_ok cleared
        cases cleared
        have same : s1.allUsers = s.allUsers := by
          obtain ⟨_, -, rfl⟩ := Db.modify_ok changed
          rfl
        rw [same]
        refine flagged (f := fun flags => flags.erase .user) changed
          (orderly.enrolled.nodup.erase oid) fun p => ?_
        rw [setremove, orderly.enrolled.nodup.mem_erase_iff, orderly.enrolled.users, found]
        by_cases same : p = oid
        · simp [same, isUser]
        · simp [same, isUser]

theorem historyStep_orderly (orderly : Orderly s) (step : HistoryStep s s') : Orderly s' := by
  cases step with
  | call call outcome allowed ran => exact call_orderly orderly allowed ran
  | move stackFull progr what place position package ran => exact orderly.moved ran
  | moveResumed stackFull progr data next returned package ran => exact orderly.moved ran
  | recycle stackFull progr obj package recyclable ran => exact orderly.recycleCalled recyclable ran
  | recycleResumed stackFull obj package recyclable ran =>
      exact orderly.recycleResumed recyclable ran
  | resetMaxObject progr outcome ran => exact bfResetMaxObject_orderly orderly ran
  | setPlayerFlag progr oid flag outcome ran => exact bfSetPlayerFlag_orderly orderly ran
  | elsewhere same allUsers =>
      have skeleton := same.coarser fun o o' (equal : o'.frame = o.frame) => congrArg Prod.fst equal
      have spotted := same.coarser fun o o' (equal : o'.frame = o.frame) => congrArg Prod.snd equal
      have housing : SameUpTo Object.housing s s' := same.coarser fun o o' equal => by
        have parents := congrArg (fun frame => frame.1.2.1) equal
        have spot := congrArg (fun frame => frame.2.1) equal
        exact Prod.ext spot parents
      have unrelated : Unrelated s s' :=
        ⟨skeleton.view, same.numObjects, same.nextAnon, fun p => same.index ▸ List.Perm.refl _⟩
      exact ⟨unrelated.laidOut orderly.laidOut, (Unmoved.of_sameUpTo housing).housed orderly.housed,
        (Peaceful.of_spotted spotted.view allUsers).enrolled orderly.enrolled⟩
  | rehashed index perm same =>
      subst same
      have unrelated : Unrelated s { s with anonymousObjects := index } :=
        ⟨fun _ => rfl, rfl, rfl, perm⟩
      have indexed := orderly.housed.indexed
      refine ⟨unrelated.laidOut orderly.laidOut,
        ⟨orderly.housed.table, orderly.housed.numbered, orderly.housed.placed, ?_⟩,
        orderly.enrolled.users, orderly.enrolled.nodup, orderly.enrolled.nowhere⟩
      exact ⟨fun p a member => indexed.sound p a ((perm p).mem_iff.mp member),
        fun p => (perm p).nodup_iff.mpr (indexed.nodup p), indexed.allocated⟩

theorem empty_orderly : Orderly (Db.empty : Db V) where
  laidOut := empty_laidOut
  housed := empty_housed
  enrolled := ⟨by simp [Db.empty, isUser], List.nodup_nil, by simp [Db.empty]⟩

theorem historyReachable_orderly (reachable : HistoryReachable s) : Orderly s :=
  reachable.invariant Orderly empty_orderly fun _ _ orderly step => historyStep_orderly orderly step

end Runs

end ToastStunt
