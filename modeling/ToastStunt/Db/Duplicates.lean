import ToastStunt.Db.CachedCalls
import ToastStunt.Db.Inheritance
import ToastStunt.Db.Naming

/-!
Repeated parents: which of them `check_for_duplicates` finds, and that no object has any in the
runs whose lists of parents hold only such.
-/

namespace ToastStunt

open FirstVisit Runs

variable {V : Type}

section Lists

/-- The same object at two positions, counted from 1, for which `pair` holds. -/
def Repeats (pair : Nat → Nat → Prop) (oids : List Int) : Prop :=
  ∃ i j, 1 ≤ i ∧ i < j ∧ j ≤ oids.length ∧ pair i j ∧ oids[i - 1]? = oids[j - 1]?

theorem repeats_iff (oids : List Int) : Repeats (fun _ _ => True) oids ↔ ¬oids.Nodup := by
  rw [List.nodup_iff_getElem?_ne_getElem?]
  constructor
  · rintro ⟨i, j, first, before, last, -, same⟩ distinct
    exact distinct (i - 1) (j - 1) (by omega) (by omega) same
  · intro some
    simp only [not_forall, not_not] at some
    obtain ⟨i, j, before, last, same⟩ := some
    exact ⟨i + 1, j + 1, by omega, by omega, by omega, trivial, same⟩

/-- The loops compare only positions of which one is at least twice the other. -/
theorem checkForDuplicates_list (oids : List Int) :
    checkForDuplicates (.list oids) = true ↔ ¬Repeats (fun i j => i + i ≤ j) oids := by
  have entry (k : Nat) (bound : k < oids.length) : oids[k]? = some (oids.getD k 0) := by
    rw [List.getD_eq_getElem?_getD, List.getElem?_eq_getElem bound]
    rfl
  simp only [checkForDuplicates, List.all_eq_true, List.mem_range'_1, decide_eq_true_eq]
  constructor
  · rintro distinct ⟨i, j, first, before, last, far, same⟩
    refine distinct i (by omega) j (by omega) ?_
    rw [entry _ (by omega), entry _ (by omega)] at same
    exact Option.some.inj same
  · intro none i inside j far same
    refine none ⟨i, j, by omega, by omega, by omega, by omega, ?_⟩
    rw [entry _ (by omega), entry _ (by omega), same]

def RepeatsFound (parents : ObjOrList) : Prop :=
  Repeats (fun i j => j < i + i) (enlistVar parents) →
    Repeats (fun i j => i + i ≤ j) (enlistVar parents)

theorem checkForDuplicates_iff (parents : ObjOrList) :
    (checkForDuplicates parents = true ↔ (enlistVar parents).Nodup) ↔ RepeatsFound parents := by
  cases parents with
  | obj oid =>
      have alone : ¬Repeats (fun i j => j < i + i) [oid] := by
        rintro ⟨i, j, first, before, last, -⟩
        rw [List.length_singleton] at last
        omega
      simp [checkForDuplicates, enlistVar, RepeatsFound, alone]
  | list oids =>
      have nodup : oids.Nodup ↔ ¬Repeats (fun _ _ => True) oids := by rw [repeats_iff, not_not]
      rw [checkForDuplicates_list, RepeatsFound, enlistVar, nodup, not_iff_not]
      constructor
      · rintro same ⟨i, j, first, before, last, -, equal⟩
        exact same.mpr ⟨i, j, first, before, last, trivial, equal⟩
      · intro found
        constructor
        · rintro ⟨i, j, first, before, last, -, same⟩
          exact ⟨i, j, first, before, last, trivial, same⟩
        · rintro ⟨i, j, first, before, last, -, same⟩
          by_cases far : i + i ≤ j
          · exact ⟨i, j, first, before, last, far, same⟩
          · exact found ⟨i, j, first, before, last, by omega, same⟩

end Lists

section States

variable {s s' : Db V}

def ParentsOnce (s : Db V) : Prop := ∀ v o, s.object v = some o → (enlistVar o.parents).Nodup

theorem ParentsOnce.of_same (once : ParentsOnce s)
    (same : ∀ v, (s'.object v).map Object.parents = (s.object v).map Object.parents) :
    ParentsOnce s' := by
  intro v o' found'
  have parents := same v
  rw [found', Option.map_some, eq_comm, Option.map_eq_some_iff] at parents
  obtain ⟨o, found, parents⟩ := parents
  exact parents ▸ once v o found

theorem ParentsOnce.graph (once : ParentsOnce s) (graph : SameGraph s s') : ParentsOnce s' := by
  refine once.of_same fun v => ?_
  have same := congrArg (Option.map Node.parents) (graph.view v)
  rwa [Option.map_map, Option.map_map] at same

theorem ParentsOnce.quiet (once : ParentsOnce s) (quiet : Quiet s s') : ParentsOnce s' := by
  refine once.of_same fun v => ?_
  have same := congrArg (Option.map Prod.fst) (quiet.view v)
  rwa [Option.map_map, Option.map_map] at same

theorem ParentsOnce.blank (once : ParentsOnce s) {v : ObjVar} (blank : Blank s s' v) :
    ParentsOnce s' := by
  intro w o' found'
  by_cases new : w = v
  · obtain ⟨o, found, none⟩ := blank.present
    rw [new, found, Option.some.injEq] at found'
    subst found'
    rw [show o.parents = .obj NOTHING from congrArg Prod.fst none]
    exact List.nodup_singleton NOTHING
  · exact once w o' (blank.elsewhere w new ▸ found')

theorem ParentsOnce.gone (once : ParentsOnce s) {v : ObjVar} (gone : Gone s s' v) :
    ParentsOnce s' := by
  intro w o' found'
  by_cases old : w = v
  · rw [old, gone.absent] at found'
    cases found'
  · exact once w o' (gone.elsewhere w old ▸ found')

theorem ParentsOnce.changed (once : ParentsOnce s) (graph : WellFormed s) {v : ObjVar}
    {new : ObjOrList} {kids : List Nat} {s2 : Db V} (change : ChangedParents s s' v new kids s2)
    (nodup : (enlistVar new).Nodup) : ParentsOnce s' := by
  refine ParentsOnce.graph (s := s2) ?_ (fix_unslotted change.fixed).graph
  intro w o' found'
  cases found : s.object w with
  | none =>
      rw [(change.reparented graph).absent w found] at found'
      cases found'
  | some o =>
      obtain ⟨children, object, -⟩ := (change.reparented graph).object w o found
      rw [object] at found'
      cases found'
      by_cases self : w = v
      · rw [if_pos self]
        exact nodup
      · rw [if_neg self]
        exact once w o found

theorem ParentsOnce.born (once : ParentsOnce s) {v : ObjVar} {parents : ObjOrList}
    (born : Born s s' v parents) (found : RepeatsFound parents) : ParentsOnce s' := by
  obtain ⟨s1, s2, s3, blank, graph1, change, -, -, quiet, -⟩ := born
  have nodup := ((checkForDuplicates_iff parents).mpr found).mp change.noDuplicates
  exact ((once.blank blank).changed graph1 change nodup).quiet quiet

theorem splicedParents_nodup (s : Db V) (oid : Int) (cp : ObjOrList) {op : ObjOrList}
    (nodup : (enlistVar op).Nodup) : (enlistVar (splicedParents s oid cp op)).Nodup := by
  cases cp with
  | obj _ => exact nodup
  | list parents => exact addAll_nodup _ (addAll_nodup _ (addAll_nodup _ List.nodup_nil))

theorem ParentsOnce.spliced (once : ParentsOnce s) {oid : Int}
    (turns : Relation.ReflTransGen (Spliced oid) s s') : ParentsOnce s' := by
  induction turns with
  | refl => exact once
  | tail _ turn ih =>
      obtain ⟨child, c, o, middle, -, -, found, change⟩ := turn.spliced
      exact ih.changed turn.formed change (splicedParents_nodup _ _ _ (ih _ o found))

theorem ParentsOnce.recycled (once : ParentsOnce s) {oid : Int} {outcome : Outcome}
    (recycled : Recycled s s' oid outcome) : ParentsOnce s' := by
  obtain ⟨s1, s2, quiet, -, turns, graph2, rest⟩ := recycled.steps
  have once2 := (once.quiet quiet).spliced turns
  rcases rest with ⟨-, rfl⟩ | ⟨-, s3, orphaned, -, gone⟩
  · exact once2
  · have once3 : ParentsOnce s3 := by
      rcases orphaned with rfl | ⟨m, change⟩
      · exact once2
      · exact once2.changed graph2 change (List.nodup_singleton NOTHING)
    refine ParentsOnce.gone (once3.of_same fun v => ?_) gone
    cases v with
    | obj p =>
        simp only [dbFixupOwners, Option.map_map]
        rfl
    | anon a =>
        simp only [dbFixupOwners]
        split
        · rw [Option.map_map]
          rfl
        · rfl

theorem ParentsOnce.renumbered (once : ParentsOnce s) (graph : WellFormed s) {progr oid : Int}
    {outcome : Outcome} (ran : bfRenumber s progr oid = .ok (outcome, s')) :
    WellFormed s' ∧ ParentsOnce s' := by
  unfold bfRenumber at ran
  split at ran
  · cases ran
    exact ⟨graph, once⟩
  · rename_i valid
    have valid : s.valid oid = true := by simpa using valid
    split at ran
    · cases ran
      exact ⟨graph, once⟩
    · obtain ⟨⟨new, after⟩, renumbered, ran⟩ := Failing.bind_ok ran
      cases ran
      have namedOnce : NamedOnce s oid := fun c q found =>
        List.nodup_iff_count_le_one.mp (once _ q found) oid
      rcases renumber_bare graph valid (fun _ => namedOnce) renumbered with
        ⟨-, rfl⟩ | ⟨q, moving, renamedBare⟩
      · exact ⟨graph, once⟩
      · refine ⟨graph_of_bare (renamedBare ▸ moving.renamed_wellFormed), fun v o' found' => ?_⟩
        have bare' := bare_object found'
        rw [renamedBare] at bare'
        obtain ⟨w, b, found, -, same⟩ := moving.renamed_object.mp bare'
        obtain ⟨o, before, rfl⟩ := bare_back found
        have parents : o'.parents.named = o.parents.named.map (renameId oid new) := by
          rw [show o'.parents = o'.bare.parents from rfl, same, moving.renamed_named]
          rfl
        rw [enlistVar_nodup, parents]
        refine ((enlistVar_nodup _).mp (once w o before)).map_on fun p named q named' equal => ?_
        have other : p ≠ new := moving.named_not_new found named
        have other' : q ≠ new := moving.named_not_new found named'
        simp only [renameId] at equal
        split at equal <;> split at equal <;> simp_all

end States

/-! The calls on properties leave the graph alone. -/

section Properties

variable {s s' : Db V}

theorem answered_sameGraph {step : Except Crash (Bool × Db V)} {refusal success outcome : Outcome}
    (keeps : ∀ done after, step = .ok (done, after) → SameGraph s after)
    (ran : (step >>= fun result => match result with
      | (false, s) => (.ok (refusal, s) : Except Crash (Outcome × Db V))
      | (true, s) => .ok (success, s)) = .ok (outcome, s')) : SameGraph s s' := by
  obtain ⟨⟨done, after⟩, taken, rest⟩ := Failing.bind_ok ran
  cases done <;> cases rest <;> exact keeps _ _ taken

theorem bfAddProp_sameGraph {progr oid owner : Int} {pname : CString} {value : V} {flags : Nat}
    {outcome : Outcome} (ran : bfAddProp s progr oid pname value owner flags = .ok (outcome, s')) :
    SameGraph s s' := by
  unfold bfAddProp at ran
  split at ran
  · cases ran
    exact SameUpTo.refl s
  · obtain ⟨allows, -, ran⟩ := Failing.bind_ok ran
    split at ran
    · cases ran
      exact SameUpTo.refl s
    · refine answered_sameGraph (fun _ _ taken => ?_) ran
      rcases dbAddPropdef_ok taken with ⟨-, same⟩ | ⟨-, -, -, redefined⟩
      · rw [same]
        exact SameUpTo.refl s
      · exact redefined.sameGraph

theorem bfDeleteProp_sameGraph {progr oid : Int} {pname : CString} {outcome : Outcome}
    (ran : bfDeleteProp s progr oid pname = .ok (outcome, s')) : SameGraph s s' := by
  unfold bfDeleteProp at ran
  split at ran
  · cases ran
    exact SameUpTo.refl s
  · obtain ⟨allows, -, ran⟩ := Failing.bind_ok ran
    split at ran
    · cases ran
      exact SameUpTo.refl s
    · refine answered_sameGraph (fun _ _ taken => ?_) ran
      rcases dbDeletePropdef_ok taken with ⟨-, same⟩ | ⟨-, i, redefined⟩
      · rw [same]
        exact SameUpTo.refl s
      · exact redefined.sameGraph

theorem renameProp_sameGraph {oid : Int} {old new : CString} {outcome : Outcome}
    (ran : renameProp s oid old new = .ok (outcome, s')) : SameGraph s s' := by
  unfold renameProp at ran
  split at ran
  · cases ran
    exact SameUpTo.refl s
  · refine answered_sameGraph (fun _ _ taken => ?_) ran
    rcases dbRenamePropdef_ok taken with ⟨-, same⟩ | ⟨-, o, i, -, -, -, defined⟩
    · rw [same]
      exact SameUpTo.refl s
    · have redefined : Redefined s _ oid (·.set i (dbprivNewPropdef new)) :=
        ⟨_, defined, SameUpTo.refl _⟩
      exact redefined.sameGraph

end Properties

def Call.parents : Call V → ObjOrList
  | .create _ parents _ _ => parents
  | .recreate _ _ parent _ => .obj parent
  | .chparents _ _ what => what
  | _ => .obj NOTHING

theorem call_parentsOnce {s s' : Db V} (graph : WellFormed s) (once : ParentsOnce s) {call : Call V}
    (found : RepeatsFound call.parents) {outcome : Outcome} (ran : call.run s = .ok (outcome, s')) :
    WellFormed s' ∧ ParentsOnce s' := by
  have same (graph' : SameGraph s s') : WellFormed s' ∧ ParentsOnce s' :=
    ⟨graph'.wellFormed graph, once.graph graph'⟩
  cases call with
  | create progr parents owner anonymous =>
      obtain ⟨graph', quiet | ⟨v, born⟩⟩ := bfCreate_ok graph ran
      · exact ⟨graph', once.quiet quiet⟩
      · exact ⟨graph', once.born born found⟩
  | recreate progr old parent owner =>
      obtain ⟨graph', quiet | ⟨v, born⟩⟩ := bfRecreate_ok graph ran
      · exact ⟨graph', once.quiet quiet⟩
      · exact ⟨graph', once.born born found⟩
  | chparents progr v what =>
      obtain ⟨graph', rfl | ⟨⟨s2, change⟩, -⟩⟩ := bfChparentChparents_ok graph ran
      · exact ⟨graph, once⟩
      · have nodup := ((checkForDuplicates_iff what).mpr found).mp change.noDuplicates
        exact ⟨graph', once.changed graph change nodup⟩
  | recycle progr v =>
      obtain ⟨graph', ⟨-, rfl⟩ | ⟨oid, rfl, recycled⟩ | ⟨a, rfl, gone⟩⟩ := bfRecycle_ok graph ran
      · exact ⟨graph, once⟩
      · exact ⟨graph', once.recycled recycled⟩
      · exact ⟨graph', once.gone gone⟩
  | addProperty progr oid pname value owner flags => exact same (bfAddProp_sameGraph ran)
  | deleteProperty progr oid pname => exact same (bfDeleteProp_sameGraph ran)
  | renameProperty oid old new => exact same (renameProp_sameGraph ran)
  | renumber progr oid => exact once.renumbered graph ran

theorem empty_parentsOnce : ParentsOnce (Db.empty : Db V) := fun v o found => by cases found

theorem Unrelated.parentsOnce {s s' : Db V} (change : Unrelated s s') (once : ParentsOnce s) :
    ParentsOnce s' := by
  refine once.of_same fun v => ?_
  have same := congrArg (Option.map fun look => look.2.1) (change.view v)
  rwa [Option.map_map, Option.map_map] at same

/-- `check_for_duplicates` accepts just the lists without repeats exactly when it finds one if there
is any; and where every call names such parents no object has a parent twice. -/
theorem duplicate_parents_rejected :
    (∀ parents, (checkForDuplicates parents = true ↔ (enlistVar parents).Nodup) ↔
      RepeatsFound parents) ∧
    ∀ s : Db V, ReachableBy (fun call _ => RepeatsFound call.parents) s → ParentsOnce s := by
  refine ⟨checkForDuplicates_iff, fun s reachable => ?_⟩
  have both := reachable.invariant (fun s => WellFormed s ∧ ParentsOnce s)
    ⟨empty_wellFormed, empty_parentsOnce⟩ ?_
  · exact both.2
  · rintro before after ⟨graph, once⟩ (⟨call, outcome, found, ran⟩ | unrelated)
    · exact call_parentsOnce graph once found ran
    · exact ⟨unrelated.wellFormed graph, unrelated.parentsOnce once⟩

theorem family_parents_once : ∃ s : Db Unit, s.valid 1 = true ∧ ParentsOnce s := by
  obtain ⟨s, ran, valid⟩ := Failing.of_okAnd (x := runAll familyCalls Db.empty)
    (p := fun s => s.valid 1) (by decide)
  have exact : ∀ call ∈ familyCalls, (checkForDuplicates call.parents = true ↔
      (enlistVar call.parents).Nodup) := by decide
  have reachable : ReachableBy (fun call _ => RepeatsFound call.parents) s :=
    runAll_reachable .start
      (fun call member _ => (checkForDuplicates_iff _).mp (exact call member)) ran
  exact ⟨s, valid, duplicate_parents_rejected.2 s reachable⟩

/-- Three objects, the last of which gets the second as its second and third parent. -/
def repeatingCalls : List (Call Unit) :=
  [.create (-1) (.obj (-1)) (-1) false, .create 0 (.obj (-1)) 0 false, .create 0 (.obj (-1)) 0 false,
    .chparents 0 (.obj 2) (.list [0, 1, 1])]

theorem duplicate_parents_accepted : checkForDuplicates (.list [0, 1, 1]) = true ∧
    ¬(enlistVar (.list [0, 1, 1])).Nodup ∧
    ∃ s : Db Unit, ReachableBy (fun _ _ => True) s ∧ ¬ParentsOnce s := by
  obtain ⟨s, ran, shape⟩ := Failing.of_okAnd (x := runAll repeatingCalls Db.empty)
    (p := fun s => (s.object (.obj 2)).map Object.parents = some (.list [0, 1, 1])) (by decide)
  refine ⟨by decide, by decide, s, runAll_reachable .start (fun _ _ _ => trivial) ran, fun once => ?_⟩
  obtain ⟨o, found, parents⟩ := Option.map_eq_some_iff.mp (of_decide_eq_true shape)
  exact absurd (once _ o found) (parents ▸ by decide)

end ToastStunt
