import ToastStunt.Db.SlotSafety
import ToastStunt.Db.SlotEdits
import ToastStunt.Db.SlotRenaming

/-!
Runs in which every object keeps its slots. The assembly of a child's old ancestors
from those of its parents goes wrong where two branches below the changed object meet.
-/

namespace ToastStunt

open FirstVisit Failing Runs

variable {V : Type}

section Defining

variable {s s' : Db V} {oid : Int}

theorem dbAddPropdef_kept (out : LaidOut s) (oid : Int) (pname : CString) (value : V)
    (owner : Int) (flags : Nat) :
    Meets Crash.ofSlots (fun result => result.1 = false ∧ result.2 = s ∨
        result.1 = true ∧ LaidOut result.2 ∧
        KeptBy (fun v a slots => if a = .obj oid then
          slots ++ [addedSlot s oid ⟨.value value, owner, flags⟩ v] else slots) s result.2)
      (dbAddPropdef s (.obj oid) pname value owner flags) := by
  refine Meets.bind (dereference_safe s _) fun o found => ?_
  rw [Db.dereference_ok] at found
  split
  · exact Meets.ok (Or.inl ⟨rfl, rfl⟩)
  · refine Meets.bind (propertyDefinedAtOrBelow_safe _ _ _ _) fun below _ => ?_
    split
    · exact Meets.ok (Or.inl ⟨rfl, rfl⟩)
    · refine Meets.bind (modify_safe _ _ _) fun s1 defined => ?_
      obtain ⟨s2, inserted, result⟩ := insertPropRecursively_kept out found defined
        (f := (· ++ [dbprivNewPropdef pname])) (by simp) ⟨.value value, owner, flags⟩
      refine Meets.bind (Avoids.of_eq_ok inserted) fun s2' inserted' => ?_
      cases inserted.symm.trans inserted'
      exact Meets.ok (Or.inr ⟨rfl, result⟩)

theorem dbDeletePropdef_kept (out : LaidOut s) (oid : Int) (pname : CString) :
    Meets Crash.ofSlots (fun result => result.1 = false ∧ result.2 = s ∨
        result.1 = true ∧ LaidOut result.2 ∧ ∃ o i, s.object (.obj oid) = some o ∧
        o.propdefs.findIdx? (fun p => p.named pname (strHash pname)) = some i ∧
        KeptBy (fun _ a slots => if a = .obj oid then slots.eraseIdx i else slots) s result.2)
      (dbDeletePropdef s (.obj oid) pname) := by
  refine Meets.bind (dereference_safe s _) fun o found => ?_
  rw [Db.dereference_ok] at found
  split
  · exact Meets.ok (Or.inl ⟨rfl, rfl⟩)
  · rename_i i position
    have inside : i < o.propdefs.length := (List.findIdx?_eq_some_iff_findIdx_eq.mp position).1
    refine Meets.bind (modify_safe _ _ _) fun s1 defined => ?_
    obtain ⟨s2, removed, out', kept⟩ := removePropRecursively_kept out found defined inside
      (f := (·.eraseIdx i)) (by rw [List.length_eraseIdx, if_pos inside])
    refine Meets.bind (Avoids.of_eq_ok removed) fun s2' removed' => ?_
    cases removed.symm.trans removed'
    exact Meets.ok (Or.inr ⟨rfl, out', o, i, found, position, kept⟩)

theorem dbRenamePropdef_safe (oid : Int) (old new : CString) :
    SlotSafe (dbRenamePropdef s (.obj oid) old new) := by
  refine (dereference_safe s _).bind fun o _ => ?_
  split
  · exact Avoids.ok _
  · split
    · split
      · exact Avoids.ok _
      · refine (propertyDefinedAtOrBelow_safe _ _ _ _).bind fun below _ => ?_
        split
        · exact Avoids.ok _
        · exact (modify_safe _ _ _).bind fun _ _ => Avoids.ok _
    · exact (modify_safe _ _ _).bind fun _ _ => Avoids.ok _

theorem dbRenamePropdef_kept (out : LaidOut s) {old new : CString} {renamed : Bool}
    (ran : dbRenamePropdef s (.obj oid) old new = .ok (renamed, s')) : LaidOut s' ∧ Kept s s' := by
  rcases dbRenamePropdef_ok ran with ⟨-, rfl⟩ | ⟨-, o, i, found, -, -, defined⟩
  · exact ⟨out, KeptBy.refl s'⟩
  · have redefined : Redefined s s' oid (·.set i (dbprivNewPropdef new)) :=
      ⟨s', defined, SameUpTo.refl s'⟩
    have result := kept_of_same (f := id) out (redefined.sameGraph.wellFormed out.graph)
      fun v o' found' => by
        obtain ⟨old, foundOld, values, -⟩ := defined_object (f := (·.set i (dbprivNewPropdef new)))
          defined found'
        refine ⟨old, foundOld, by rw [values, List.map_id], ?_, fun a _ => ?_⟩
        · rw [redefined.sameGraph.dbAncestors]
        · rw [redefined.widths found, List.length_set, ← LaidOut.width found,
            Function.update_eq_self]
    exact ⟨result.1, result.2.of_map_id⟩

end Defining

section Calls

variable {s s' : Db V}

/-- The calls that keep the slots: below a re-parented object, and below the children of a
recycled one, branches must not meet in a way that matters, and an object that gets another
number must be renamed as it should. -/
def SlotsAllowed (call : Call V) (s : Db V) : Prop :=
  match call with
  | .chparents _ obj what => Separable s obj what
  | .recycle _ (.obj oid) => Recyclable s oid
  | .renumber _ oid => Consistent s ∧
      ∀ new, LeastFree s oid new → new ≠ oid → Renumberable s oid new
  | _ => True

/-- Every object has afterwards the slots that it had before for everything it still inherits,
and clear ones for what it newly inherits. A new property has its value in the definer; a deleted
one is gone; the owners that name a recycled or renumbered object are rewritten. -/
def Call.keepsSlots (call : Call V) (outcome : Outcome) (s s' : Db V) : Prop :=
  match call, outcome with
  | .addProperty _ oid _ value owner flags, .done =>
      KeptBy (fun v a slots => if a = .obj oid then
        slots ++ [addedSlot s oid ⟨.value value, owner, flags⟩ v] else slots) s s'
  | .deleteProperty _ oid pname, .done => ∃ o i, s.object (.obj oid) = some o ∧
      o.propdefs.findIdx? (fun p => p.named pname (strHash pname)) = some i ∧
      KeptBy (fun _ a slots => if a = .obj oid then slots.eraseIdx i else slots) s s'
  | .recycle _ (.obj oid), .done =>
      KeptBy (fun _ _ slots => slots.map (Pval.renounced oid)) s s'
  | .renumber _ old, .object (.obj new) =>
      if new = old then s' = s
      else ∀ v' a', Inherits s' v' a' → ∃ v a, v' = renameVar old new v ∧
        a' = renameVar old new a ∧ Inherits s v a ∧
        slotsFor s' v' a' = (slotsFor s v a).map (Pval.renamed old new)
  | _, _ => Kept s s'

theorem born_or_quiet (out : LaidOut s) (graph' : WellFormed s') {parents : ObjOrList}
    (made : Quiet s s' ∨ ∃ v, Born s s' v parents) : LaidOut s' ∧ Kept s s' := by
  rcases made with quiet | ⟨v, born⟩
  · exact quiet.kept out graph'
  · exact born.kept out

theorem recycled_keepsSlots (out : LaidOut s) {progr : Int} {v : ObjVar} {outcome : Outcome}
    (allowed : SlotsAllowed (Call.recycle progr v) s)
    (ran : bfRecycle s progr v = .ok (outcome, s')) :
    LaidOut s' ∧ (Call.recycle progr v).keepsSlots outcome s s' := by
  obtain ⟨graph', ⟨failed, rfl⟩ | ⟨oid, rfl, recycled⟩ | ⟨a, rfl, gone⟩⟩ :=
    bfRecycle_ok out.graph ran
  · have kept : Kept s' s' := KeptBy.refl s'
    cases v <;> cases outcome <;> first | exact ⟨out, kept⟩ | exact absurd rfl failed
  · obtain ⟨out', otherwise, done⟩ := recycled.kept out allowed graph'
    cases outcome with
    | done => exact ⟨out', done rfl⟩
    | object w => exact ⟨out', otherwise nofun⟩
    | error e => exact ⟨out', otherwise nofun⟩
  · obtain ⟨out', kept⟩ := gone.kept out graph'
    cases outcome <;> exact ⟨out', kept⟩

theorem renumbered_keepsSlots (out : LaidOut s) (progr oid : Int)
    (allowed : SlotsAllowed (Call.renumber progr oid : Call V) s) :
    Meets Crash.ofSlots (fun result => LaidOut result.2 ∧
      (Call.renumber progr oid : Call V).keepsSlots result.1 s result.2)
      (bfRenumber s progr oid) := by
  have refused (e : MooError) : LaidOut s ∧
      (Call.renumber progr oid : Call V).keepsSlots (.error e) s s := ⟨out, KeptBy.refl s⟩
  unfold bfRenumber
  split
  · exact Meets.ok (refused _)
  · rename_i valid
    have valid : s.valid oid = true := by simpa using valid
    split
    · exact Meets.ok (refused _)
    · obtain ⟨new, least, ran⟩ := renumber_renames allowed.1 valid allowed.2
      refine Meets.bind (Avoids.of_eq_ok ran) fun result ran' => ?_
      cases ran.symm.trans ran'
      refine Meets.ok ?_
      by_cases same : new = oid
      · simp only [if_pos same, Call.keepsSlots]
        exact ⟨out, trivial⟩
      · rcases least.2 with itself | ⟨nonneg, below, invalid⟩
        · exact absurd itself same
        · obtain ⟨o, found⟩ := Db.valid_iff.mp valid
          have moving : Moving s oid new o :=
            ⟨allowed.1, found, by simpa [Db.valid] using invalid, nonneg, below⟩
          simp only [if_neg same, Call.keepsSlots]
          exact moving.renamed_kept out

theorem call_keepsSlots (out : LaidOut s) {call : Call V} (allowed : SlotsAllowed call s) :
    Meets Crash.ofSlots
      (fun result => LaidOut result.2 ∧ call.keepsSlots result.1 s result.2) (call.run s) := by
  cases call with
  | create progr parents owner anonymous =>
      refine ⟨bfCreate_safe out progr owner parents anonymous, fun result ran => ?_⟩
      obtain ⟨graph', made⟩ := bfCreate_ok out.graph ran
      exact born_or_quiet out graph' made
  | recreate progr old parent owner =>
      refine ⟨bfRecreate_safe out progr old parent owner, fun result ran => ?_⟩
      obtain ⟨graph', made⟩ := bfRecreate_ok out.graph ran
      exact born_or_quiet out graph' made
  | chparents progr v what =>
      refine ⟨bfChparentChparents_safe out progr allowed, fun result ran => ?_⟩
      obtain ⟨-, same | ⟨⟨s2, change⟩, newValid, apart⟩⟩ := bfChparentChparents_ok out.graph ran
      · rw [same]
        exact ⟨out, KeptBy.refl _⟩
      · obtain ⟨o, -, found, -⟩ := change.relinked
        exact change.kept out (allowed.separatedBy found) newValid apart
  | recycle progr v =>
      refine ⟨bfRecycle_safe out progr ?_, fun result ran => recycled_keepsSlots out allowed ran⟩
      rintro oid rfl
      exact allowed
  | addProperty progr oid pname value owner flags =>
      have refused (e : MooError) : LaidOut s ∧
          (Call.addProperty progr oid pname value owner flags).keepsSlots (.error e) s s :=
        ⟨out, KeptBy.refl s⟩
      show Meets _ _ (bfAddProp s progr oid pname value owner flags)
      unfold bfAddProp
      split
      · exact Meets.ok (refused _)
      · refine Meets.bind (dbObjectAllows_safe _ _ _) fun allows _ => ?_
        split
        · exact Meets.ok (refused _)
        · obtain ⟨safe, result⟩ := dbAddPropdef_kept out oid pname value owner flags
          refine Meets.bind safe fun ⟨added, s'⟩ ran => ?_
          rcases result _ ran with ⟨rfl, rfl⟩ | ⟨rfl, out', kept⟩
          · exact Meets.ok (refused _)
          · exact Meets.ok ⟨out', kept⟩
  | deleteProperty progr oid pname =>
      have refused (e : MooError) : LaidOut s ∧
          (Call.deleteProperty progr oid pname : Call V).keepsSlots (.error e) s s :=
        ⟨out, KeptBy.refl s⟩
      show Meets _ _ (bfDeleteProp s progr oid pname)
      unfold bfDeleteProp
      split
      · exact Meets.ok (refused _)
      · refine Meets.bind (dbObjectAllows_safe _ _ _) fun allows _ => ?_
        split
        · exact Meets.ok (refused _)
        · obtain ⟨safe, result⟩ := dbDeletePropdef_kept out oid pname
          refine Meets.bind safe fun ⟨deleted, s'⟩ ran => ?_
          rcases result _ ran with ⟨rfl, rfl⟩ | ⟨rfl, out', kept⟩
          · exact Meets.ok (refused _)
          · exact Meets.ok ⟨out', kept⟩
  | renameProperty oid old new =>
      show Meets _ _ (renameProp s oid old new)
      unfold renameProp
      split
      · exact Meets.ok ⟨out, KeptBy.refl s⟩
      · refine Meets.bind (dbRenamePropdef_safe _ _ _) fun ⟨renamed, s'⟩ ran => ?_
        obtain ⟨out', kept⟩ := dbRenamePropdef_kept out ran
        cases renamed <;> exact Meets.ok ⟨out', kept⟩
  | renumber progr oid => exact renumbered_keepsSlots out progr oid allowed

theorem empty_laidOut : LaidOut (Db.empty : Db V) where
  graph := empty_wellFormed
  bare _ := rfl
  fit _ _ found := by cases found

theorem Unrelated.laidOut (change : Unrelated s s') (out : LaidOut s) : LaidOut s' := by
  have graph' := change.wellFormed out.graph
  have view {α : Type} (look : Int × ObjOrList × List Int × List Propdef × Nat → α) (w : ObjVar) :
      (s'.object w).map (fun o => look o.skeleton) = (s.object w).map fun o => look o.skeleton := by
    have same := congrArg (Option.map look) (change.view w)
    rw [Option.map_map, Option.map_map] at same
    exact same
  have widths (a : ObjVar) : propdefsLength s' a = propdefsLength s a :=
    propdefsLength_eq (view (fun look => look.2.2.2.1) a)
  have valid : s'.valid = s.valid := by
    funext oid
    simpa [Db.valid] using congrArg Option.isSome (change.view (.obj oid))
  have parents : parentsOf s' = parentsOf s := by
    funext w
    have same := view (fun look => look.2.1) w
    unfold parentsOf
    cases found : s.object w <;> cases found' : s'.object w <;> simp_all [Object.skeleton]
  refine ⟨graph', fun a => (widths _).trans (out.bare a), fun v o' found' => ?_⟩
  have same := view (fun look => look.2.2.2.2) v
  rw [found', Option.map_some, eq_comm, Option.map_eq_some_iff] at same
  obtain ⟨o, found, length⟩ := same
  have order : dbAncestors s' v true = dbAncestors s v true :=
    ancestors_congr out.graph graph' fun u _ => congrFun parents u
  rw [order, countSlots, funext widths, show o'.propval.length = o.propval.length from length.symm]
  exact out.fit v o found

theorem reachable_laidOut (reachable : ReachableBy SlotsAllowed s) : LaidOut s := by
  refine reachable.invariant LaidOut empty_laidOut ?_
  rintro before after out (⟨call, outcome, allowed, ran⟩ | unrelated)
  · exact ((call_keepsSlots out allowed).2 _ ran).1
  · exact unrelated.laidOut out

/-- In every state of such runs the slots fit, no call fails the assertion on their number or
reads past them, and every call keeps them. -/
theorem reachable_slots (reachable : ReachableBy SlotsAllowed s) : SlotsFit s ∧
    ∀ call, SlotsAllowed call s →
      call.run s ≠ .error .assertion ∧ call.run s ≠ .error .outOfBounds ∧
      ∀ outcome s', call.run s = .ok (outcome, s') → call.keepsSlots outcome s s' := by
  have out := reachable_laidOut reachable
  refine ⟨out.fit, fun call allowed => ?_⟩
  obtain ⟨safe, result⟩ := call_keepsSlots out allowed
  exact ⟨fun failed => safe _ failed trivial, fun failed => safe _ failed trivial,
    fun outcome s' ran => (result _ ran).2⟩

def diamondCalls : List (Call Unit) :=
  [.create (-1) (.obj (-1)) (-1) false, .create 0 (.obj (-1)) 0 false,
    .addProperty 0 1 [112] () 0 0, .create 0 (.obj 0) 0 false, .create 0 (.obj 2) 0 false,
    .create 0 (.obj 2) 0 false, .create 0 (.list [3, 4]) 0 false]

theorem chparent_fails_assertion : ∃ s : Db Unit, runAll diamondCalls Db.empty = .ok s ∧
    ReachableBy (fun _ _ => True) s ∧
    (Call.chparents 0 (.obj 2) (.obj 1)).run s = .error .assertion := by
  obtain ⟨s, ran, fails⟩ := Failing.of_okAnd (x := runAll diamondCalls Db.empty)
    (p := fun s => match (Call.chparents 0 (.obj 2) (.obj 1)).run s with
      | .error .assertion => true
      | _ => false)
    (by decide)
  refine ⟨s, ran, runAll_reachable .start (fun _ _ _ => trivial) ran, ?_⟩
  split at fails
  · assumption
  · cases fails

theorem inherited_slot_kept : ∃ s : Db Unit,
    (s.object (.obj 1)).map Object.propval = some [⟨.clear, 0, 0⟩] ∧ SlotsFit s ∧
    (Call.deleteProperty 0 0 [112]).run s ≠ .error .assertion := by
  let family : List (Call Unit) :=
    [.create (-1) (.obj (-1)) (-1) false, .create 0 (.obj 0) 0 false,
      .addProperty 0 0 [112] () 0 0]
  obtain ⟨s, ran, shape⟩ := Failing.of_okAnd (x := runAll family Db.empty)
    (p := fun s => (s.object (.obj 1)).map Object.propval = some [⟨.clear, 0, 0⟩]) (by decide)
  have allowed : ∀ call ∈ family, ∀ s, SlotsAllowed call s := by simp [family, SlotsAllowed]
  obtain ⟨fit, calls⟩ := reachable_slots (runAll_reachable .start allowed ran)
  exact ⟨s, by simpa using shape, fit, (calls (.deleteProperty 0 0 [112]) trivial).1⟩

end Calls

end ToastStunt
