import ToastStunt.Db.Places

/-!
Moving an object, with the verbs that a move or a recycle calls doing what they like in between.
The check on the hierarchy is made in the step that changes the location.
-/

namespace ToastStunt

open Containment

variable {V : Type}

section Relocating

variable {s s' : Db V}

theorem modifyValid_places {oid : Int} {f : List Int → List Int}
    (ran : modifyValid s oid (fun l => { l with contents := f l.contents }) = .ok s') :
    places s' = if s.valid oid = true then
        ⟨(places s).location,
          Function.update (places s).contents oid (f ((places s).contents oid))⟩
      else places s := by
  unfold modifyValid at ran
  split at ran
  · rename_i valid
    obtain ⟨o, found, rfl⟩ := Db.modify_ok ran
    obtain ⟨location, contents⟩ := places_object found
    rw [if_pos valid, places_setObject, contents]
    congr 1
    exact Function.update_eq_self_iff.mpr location.symm
  · rename_i invalid
    cases ran
    rw [if_neg invalid]

theorem dbChangeLocation_places (housed : Housed s) {oid place : Int} {position : Nat}
    (known : place = NOTHING ∨ s.valid place = true)
    (ran : dbChangeLocation s oid place position = .ok s') :
    ∃ i, places s' = (places s).relocate oid (placeOf place) i := by
  have taken := dbChangeLocation_noneTaken ran
  obtain ⟨o, there, ran⟩ := Failing.bind_ok ran
  obtain ⟨s1, left, ran⟩ := Failing.bind_ok ran
  obtain ⟨s2, entered, ran⟩ := Failing.bind_ok ran
  have found := Db.dereference_ok.mp there
  have here : (places s).location oid = placeOf o.location := (places_object found).1
  have out : places s1 =
      ⟨(places s).location, fun p => ((places s).contents p).erase oid⟩ := by
    have elsewhere {p : Int} (other : (places s).location oid ≠ some p) :
        ((places s).contents p).erase oid = (places s).contents p :=
      List.erase_of_not_mem fun member => other (housed.placed.contained member)
    rw [modifyValid_places (f := fun l => setremove l oid) left]
    split
    · rename_i valid
      rw [placeOf_real (housed.real valid)] at here
      congr 1
      funext p
      by_cases same : p = o.location
      · subst same
        rw [Function.update_self]
        rfl
      · rw [Function.update_of_ne same, elsewhere]
        rw [here]
        exact fun equal => same (Option.some.inj equal).symm
    · rename_i invalid
      refine Places.ext rfl (funext fun p => (elsewhere fun located => invalid ?_).symm)
      rw [here] at located
      obtain ⟨-, same⟩ := placeOf_eq_some located
      exact same ▸ housed.location_valid (here.trans located)
  have valid₁ : s1.valid place = true ↔ place ≠ NOTHING := by
    have same : SameUpTo Object.unplaced s s1 := by
      unfold modifyValid at left
      split at left
      · exact SameUpTo.of_modify (by intros; rfl) left
      · cases left
        exact SameUpTo.refl _
    have view := congrArg Option.isSome (same.view (.obj place))
    rw [Option.isSome_map, Option.isSome_map] at view
    rw [Db.valid, view]
    constructor
    · exact fun valid => housed.real valid
    · exact fun real => known.resolve_left real
  obtain ⟨i, put⟩ : ∃ i, places s2 = ⟨(places s).location, fun p =>
      if placeOf place = some p then
        (((places s).contents p).erase oid).insertIdx
          (min i (((places s).contents p).erase oid).length) oid
      else ((places s).contents p).erase oid⟩ := by
    have changed := modifyValid_places
      (f := fun l => l.insertIdx (min ((if position = 0 then l.length + 1 else position) - 1) l.length)
        oid) entered
    rw [changed, out]
    by_cases real : place = NOTHING
    · refine ⟨0, ?_⟩
      have invalid : ¬s1.valid place = true := fun valid => valid₁.mp valid real
      rw [if_neg invalid, real]
      rfl
    · rw [if_pos (valid₁.mpr real), placeOf_real real]
      refine ⟨if position = 0 then (((places s).contents place).erase oid).length else position - 1, ?_⟩
      congr 1
      funext p
      by_cases same : p = place
      · subst same
        rw [Function.update_self, if_pos rfl]
        split <;> simp
      · rw [Function.update_of_ne same, if_neg fun equal => same (Option.some.inj equal).symm]
  refine ⟨i, ?_⟩
  obtain ⟨o', found', rfl⟩ := Db.modify_ok ran
  obtain ⟨-, contents⟩ := places_object found'
  rw [places_setObject]
  simp only [← contents, put]
  congr 1
  exact Function.update_eq_self_iff.mpr rfl

theorem relocated_housed (housed : Housed s) {oid place : Int} {position : Nat} {walked : List Int}
    (known : place = NOTHING ∨ s.valid place = true)
    (walks : Walks (places s).location (placeOf place) walked) (apart : oid ∉ walked)
    (ran : dbChangeLocation s oid place position = .ok s') : Housed s' := by
  have taken := dbChangeLocation_noneTaken ran
  have same := dbChangeLocation_unplaced ran
  obtain ⟨i, moved⟩ := dbChangeLocation_places housed known ran
  refine ⟨taken.numObjects ▸ housed.table, fun p valid => ?_, ?_, ?_⟩
  · exact taken.numObjects ▸ housed.numbered p (taken.valid p valid)
  · exact moved ▸ housed.placed.relocate walks apart i
  · refine housed.indexed.of_same (fun a => ?_) same.nextAnon same.index
    have parents : SameUpTo Object.parents s s' :=
      same.coarser fun o o' equal => by
        have here := congrArg Object.parents equal
        exact here
    exact parents.view (.anon a)

theorem nowhere_housed (housed : Housed s) {oid : Int} {position : Nat}
    (ran : dbChangeLocation s oid NOTHING position = .ok s') : Housed s' :=
  relocated_housed housed (Or.inl rfl)
    (show Walks (places s).location (placeOf NOTHING) [] from rfl) List.not_mem_nil ran

end Relocating

section Walking

variable {s : Db V}

theorem dbObjectLocation_ok {oid place : Int} : dbObjectLocation s oid = .ok place ↔
    ∃ o, s.object (.obj oid) = some o ∧ o.location = place := by
  unfold dbObjectLocation Db.dereference
  cases s.object (.obj oid) with
  | none => simp [bind, Except.bind]
  | some o => simp [bind, Except.bind, pure, Except.pure]

theorem Housed.walk_up (housed : Housed s) {oid : Int} {walked : List Int}
    (valid : s.valid oid = true) (walks : Walks (places s).location (placeOf oid) walked) :
    ∃ place above, walked = oid :: above ∧ dbObjectLocation s oid = .ok place ∧
      (place = NOTHING ∨ s.valid place = true) ∧
      Walks (places s).location (placeOf place) above := by
  obtain ⟨o, found⟩ := Db.valid_iff.mp valid
  have here := (places_object found).1
  rw [placeOf_real (housed.real valid)] at walks
  obtain ⟨above, rfl, climbs⟩ := walks
  refine ⟨o.location, above, rfl, dbObjectLocation_ok.mpr ⟨o, found, rfl⟩, ?_, ?_⟩
  · by_cases none : o.location = NOTHING
    · exact Or.inl none
    · rw [placeOf_real none] at here
      exact Or.inr (housed.location_valid here)
  · rw [← here]
    cases climbs with
    | top root => exact root ▸ rfl
    | up further rest => exact further ▸ ⟨_, rfl, rest⟩

theorem Housed.walk_known (housed : Housed s) {place : Int}
    (known : place = NOTHING ∨ s.valid place = true) :
    ∃ walked, Walks (places s).location (placeOf place) walked ∧ walked.length < locationTurns s := by
  rcases known with rfl | valid
  · exact ⟨[], rfl, Nat.succ_pos _⟩
  · obtain ⟨above, climbs⟩ := housed.placed.grounded place
    have valids : ∀ oid ∈ place :: above, s.valid oid = true := by
      intro oid member
      rcases List.mem_cons.mp member with rfl | later
      · exact valid
      · obtain ⟨below, here⟩ := climbs.place_above later
        exact housed.location_valid here
    refine ⟨place :: above, placeOf_real (housed.real valid) ▸ ⟨above, rfl, climbs⟩, ?_⟩
    have inside : (place :: above).map Int.toNat ⊆ List.range s.numObjects.toNat := by
      intro n member
      obtain ⟨oid, here, rfl⟩ := List.mem_map.mp member
      have bounds := housed.numbered oid (valids oid here)
      exact List.mem_range.mpr (by omega)
    have distinct : ((place :: above).map Int.toNat).Nodup := by
      refine climbs.nodup.map_on fun p memberP q memberQ equal => ?_
      have boundsP := housed.numbered p (valids p memberP)
      have boundsQ := housed.numbered q (valids q memberQ)
      omega
    have bound := (List.subperm_of_subset distinct inside).length_le
    rw [List.length_map, List.length_range] at bound
    exact Nat.lt_succ_of_le bound

/-- The loop of `do_move` ends, and finds `what` if it is on the way. -/
theorem violatesHierarchy_walks (housed : Housed s) (what : Int) {place : Int} {walked : List Int}
    (known : place = NOTHING ∨ s.valid place = true)
    (walks : Walks (places s).location (placeOf place) walked) {fuel : Nat}
    (enough : walked.length < fuel) :
    violatesHierarchy s what fuel place = .ok (decide (what ∈ walked)) := by
  induction fuel generalizing place walked with
  | zero => exact absurd enough (Nat.not_lt_zero _)
  | succ fuel ih =>
      rw [violatesHierarchy]
      rcases known with rfl | valid
      · rw [if_pos rfl, show walked = [] from walks]
        rfl
      · obtain ⟨next, above, rfl, moves, known, further⟩ := housed.walk_up valid walks
        rw [if_neg (housed.real valid)]
        by_cases here : place = what
        · rw [if_pos here]
          simp [here]
        · rw [if_neg here, Failing.bind_of_ok moves, ih known further (Nat.lt_of_succ_lt_succ enough)]
          simp [Ne.symm here]

theorem collectLocations_walks (housed : Housed s) (stop : Int → Bool) {place : Int}
    {walked : List Int} (known : place = NOTHING ∨ s.valid place = true)
    (walks : Walks (places s).location (placeOf place) walked) {fuel : Nat}
    (enough : walked.length < fuel) {locs : List Int} (fresh : (locs ++ walked).Nodup) :
    collectLocations s (fun loc => .ok (stop loc)) fuel locs place =
      .ok (locs ++ walked.takeWhile (!stop ·)) := by
  induction fuel generalizing place walked locs with
  | zero => exact absurd enough (Nat.not_lt_zero _)
  | succ fuel ih =>
      rw [collectLocations]
      rcases known with rfl | valid
      · have invalid : s.valid NOTHING = false := by rw [Db.valid, housed.nothing]; rfl
        rw [invalid, show walked = [] from walks]
        simp
      · obtain ⟨next, above, rfl, moves, known, further⟩ := housed.walk_up valid walks
        rw [valid, Bool.not_true, if_neg Bool.false_ne_true]
        cases stopped : stop place with
        | true => simp [stopped, bind, Except.bind, pure, Except.pure]
        | false =>
            have unseen : place ∉ locs := fun member =>
              (List.nodup_append.mp fresh).2.2 place member place List.mem_cons_self rfl
            have added : setadd locs place = locs ++ [place] := if_neg unseen
            rw [Failing.bind_of_ok rfl, if_neg Bool.false_ne_true,
              Failing.bind_of_ok moves, added,
              ih known further (Nat.lt_of_succ_lt_succ enough) (by simpa using fresh)]
            simp [stopped]

end Walking

section Moves

variable {s s' : Db V} {stackFull : Bool} {data : BfMoveData} {package : Package MoveError BfMoveData}

theorem moveEntered_same {oldloc : Int}
    (ran : moveEntered stackFull data s oldloc = .ok (package, s')) : s' = s := by
  obtain ⟨entered, -, ran⟩ := Failing.bind_ok ran
  split at ran
  · obtain ⟨answer, -, ran⟩ := Failing.bind_ok ran
    split at ran <;> cases ran <;> rfl
  · cases ran
    rfl

theorem moveChanged_housed (housed : Housed s) {walked : List Int}
    (known : data.place = NOTHING ∨ s.valid data.place = true)
    (walks : Walks (places s).location (placeOf data.place) walked) (apart : data.what ∉ walked)
    (ran : moveChanged stackFull data s = .ok (package, s')) : Housed s' := by
  obtain ⟨oldloc, -, ran⟩ := Failing.bind_ok ran
  obtain ⟨s1, changed, ran⟩ := Failing.bind_ok ran
  have moved := relocated_housed housed known walks apart changed
  split at ran
  · obtain ⟨answer, -, ran⟩ := Failing.bind_ok ran
    split at ran
    · cases ran
      exact moved
    · cases ran
      exact moved
    · exact moveEntered_same ran ▸ moved
  · exact moveEntered_same ran ▸ moved

theorem acceptsDecided_housed (housed : Housed s) {progr : Int} {accepts : Bool}
    (ran : acceptsDecided stackFull data s progr accepts = .ok (package, s')) : Housed s' := by
  unfold acceptsDecided at ran
  split at ran
  · cases ran
    exact housed
  · split at ran
    · cases ran
      exact housed
    · rename_i usable
      obtain ⟨oldloc, -, ran⟩ := Failing.bind_ok ran
      split at ran
      · cases ran
        exact housed
      · obtain ⟨violates, checked, ran⟩ := Failing.bind_ok ran
        have known : data.place = NOTHING ∨ s.valid data.place = true := by
          by_contra neither
          simp_all
        obtain ⟨walked, walks, short⟩ := housed.walk_known known
        rw [violatesHierarchy_walks housed data.what known walks short] at checked
        cases checked
        split at ran
        · cases ran
          exact housed
        · rename_i apart
          exact moveChanged_housed housed known walks (by simpa using apart) ran

theorem moveChecked_housed (housed : Housed s) {progr : Int}
    (ran : moveChecked stackFull data s progr = .ok (package, s')) : Housed s' := by
  unfold moveChecked at ran
  split at ran
  · cases ran
    exact housed
  · obtain ⟨controlled, -, ran⟩ := Failing.bind_ok ran
    split at ran
    · cases ran
      exact housed
    · obtain ⟨oldloc, -, ran⟩ := Failing.bind_ok ran
      split at ran
      · exact acceptsDecided_housed housed ran
      · obtain ⟨controlled, -, ran⟩ := Failing.bind_ok ran
        split at ran
        · cases ran
          exact housed
        · obtain ⟨answer, -, ran⟩ := Failing.bind_ok ran
          split at ran
          · cases ran
            exact housed
          · exact acceptsDecided_housed housed ran
          · cases ran
            exact housed
          · cases ran
            exact housed

theorem doMove_housed (housed : Housed s) {progr : Int} {next : Nat} {returned : Bool}
    (ran : doMove stackFull data s progr next returned = .ok (package, s')) : Housed s' := by
  unfold doMove at ran
  split at ran
  · exact moveChecked_housed housed ran
  · exact acceptsDecided_housed housed ran
  · exact moveEntered_same ran ▸ housed
  · cases ran
    exact housed
  · cases ran

end Moves

section Recycles

variable {s s' : Db V} {stackFull : Bool}

theorem moveToNothingCalling_housed (housed : Housed s) {oid : Int} {called : Bool}
    (ran : moveToNothingCalling s stackFull oid = .ok (called, s')) : Housed s' := by
  obtain ⟨oldloc, -, ran⟩ := Failing.bind_ok ran
  obtain ⟨s1, changed, ran⟩ := Failing.bind_ok ran
  obtain ⟨answer, -, ran⟩ := Failing.bind_ok ran
  have moved := nowhere_housed housed changed
  split at ran <;> cases ran <;> exact moved

theorem moveContentsCalling_housed (housed : Housed s) {oid : Int} {fuel : Nat} {called : Bool}
    (ran : moveContentsCalling stackFull oid fuel s = .ok (called, s')) : Housed s' := by
  induction fuel generalizing s with
  | zero => cases ran
  | succ fuel ih =>
      obtain ⟨o, -, ran⟩ := Failing.bind_ok ran
      split at ran
      · cases ran
        exact housed
      · obtain ⟨⟨stopped, s1⟩, moved, ran⟩ := Failing.bind_ok ran
        have later := moveToNothingCalling_housed housed moved
        cases stopped with
        | true =>
            cases ran
            exact later
        | false => exact ih later ran

theorem leaveLocationCalling_housed (housed : Housed s) {oid : Int} {called : Bool}
    (ran : leaveLocationCalling s stackFull oid = .ok (called, s')) : Housed s' := by
  obtain ⟨location, -, ran⟩ := Failing.bind_ok ran
  split at ran
  · exact moveToNothingCalling_housed housed ran
  · cases ran
    exact housed

theorem recycleResumed_housed (housed : Housed s) {obj : ObjVar}
    {package : Package MoveError ObjVar}
    (ran : recycleResumed s stackFull obj = .ok (package, s')) : Housed s' := by
  unfold recycleResumed at ran
  split at ran
  · cases ran
    exact housed
  · cases obj with
    | anon address =>
        obtain ⟨s1, destroyed, ran⟩ := Failing.bind_ok ran
        cases ran
        exact (dbDestroyAnonymousObject_unmoved destroyed).housed housed
    | obj oid =>
        obtain ⟨o, -, ran⟩ := Failing.bind_ok ran
        obtain ⟨⟨called, s1⟩, emptied, ran⟩ := Failing.bind_ok ran
        have first := moveContentsCalling_housed housed emptied
        cases called with
        | true =>
            cases ran
            exact first
        | false =>
            obtain ⟨⟨called, s2⟩, left, ran⟩ := Failing.bind_ok ran
            have second := leaveLocationCalling_housed first left
            cases called with
            | true =>
                cases ran
                exact second
            | false => exact (recycleEmptied_unmoved ran).housed second

theorem recycleCalled_housed (housed : Housed s) {progr : Int} {obj : ObjVar}
    {package : Package MoveError ObjVar}
    (ran : recycleCalled s stackFull progr obj = .ok (package, s')) : Housed s' := by
  unfold recycleCalled at ran
  split at ran
  · cases ran
    exact housed
  · obtain ⟨controlled, -, ran⟩ := Failing.bind_ok ran
    split at ran
    · cases ran
      exact housed
    · obtain ⟨s1, flagged, ran⟩ := Failing.bind_ok ran
      have same : Unmoved s s1 := by
        cases obj with
        | obj oid =>
            cases flagged
            exact Unmoved.refl _
        | anon address => exact Unmoved.of_modify (by intros; rfl) flagged
      obtain ⟨answer, -, ran⟩ := Failing.bind_ok ran
      split at ran
      · cases ran
        exact same.housed housed
      · exact recycleResumed_housed (same.housed housed) ran

end Recycles

end ToastStunt
