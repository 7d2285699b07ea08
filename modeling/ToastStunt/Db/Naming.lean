import ToastStunt.Db.PropertyNames

/-!
Adding, renaming and deleting definitions, and runs in which names stay unambiguous.
The checks miss one kind of clash: an object below the changed one that has the same
name from another branch.
-/

namespace ToastStunt

open FirstVisit Runs

variable {V : Type}

section Defining

variable {s s' : Db V} {oid : Int}

def Redefined (s s' : Db V) (oid : Int) (f : List Propdef → List Propdef) : Prop :=
  ∃ s1, s.modify (.obj oid) (fun o => { o with propdefs := f o.propdefs }) = .ok s1 ∧
    SameUpTo Object.unslotted s1 s'

theorem insertProp2_unslotted {v : ObjVar} {pos : Int} {pval : Pval V}
    (ran : insertProp2 s v pos pval = .ok s') : SameUpTo Object.unslotted s s' := by
  obtain ⟨o, -, ran⟩ := Failing.bind_ok ran
  split at ran
  · cases ran
  · exact SameUpTo.of_modify (by intros; rfl) ran

theorem removeProp2_unslotted {v : ObjVar} {pos : Int} (ran : removeProp2 s v pos = .ok s') :
    SameUpTo Object.unslotted s s' := by
  obtain ⟨o, -, ran⟩ := Failing.bind_ok ran
  split at ran
  · cases ran
  · exact SameUpTo.of_modify (by intros; rfl) ran

theorem insertPropRecursively_unslotted {pos : Nat} {pval : Pval V}
    (ran : insertPropRecursively s oid pos pval = .ok s') : SameUpTo Object.unslotted s s' := by
  obtain ⟨s1, first, rest⟩ := Failing.bind_ok ran
  refine Failing.foldlM_invariant (SameUpTo Object.unslotted s) ?_
    (insertProp2_unslotted first) rest
  intro entry _ before after same step
  exact same.trans (insertProp2_unslotted step)

theorem removePropRecursively_unslotted {pos : Nat}
    (ran : removePropRecursively s oid pos = .ok s') : SameUpTo Object.unslotted s s' := by
  obtain ⟨s1, first, rest⟩ := Failing.bind_ok ran
  refine Failing.foldlM_invariant (SameUpTo Object.unslotted s) ?_
    (removeProp2_unslotted first) rest
  intro entry _ before after same step
  exact same.trans (removeProp2_unslotted step)

theorem dbAddPropdef_ok {pname : CString} {value : V} {owner : Int} {flags : Nat} {added : Bool}
    (ran : dbAddPropdef s (.obj oid) pname value owner flags = .ok (added, s')) :
    (added = false ∧ s' = s) ∨
      added = true ∧ (dbFindProperty s (.obj oid) pname).isSome = false ∧
        propertyDefinedAtOrBelow s pname (strHash pname) (traversalDepth s) (.obj oid)
          = .ok false ∧
        Redefined s s' oid (· ++ [dbprivNewPropdef pname]) := by
  obtain ⟨o, -, ran⟩ := Failing.bind_ok ran
  split at ran
  · cases ran
    exact Or.inl ⟨rfl, rfl⟩
  · rename_i absent
    obtain ⟨below, clear, ran⟩ := Failing.bind_ok ran
    cases below with
    | true =>
        cases ran
        exact Or.inl ⟨rfl, rfl⟩
    | false =>
        obtain ⟨s1, defined, ran⟩ := Failing.bind_ok ran
        obtain ⟨s2, inserted, rest⟩ := Failing.bind_ok ran
        cases rest
        exact Or.inr ⟨rfl, by simpa using absent, clear, s1, defined,
          insertPropRecursively_unslotted inserted⟩

theorem dbRenamePropdef_ok {old new : CString} {renamed : Bool}
    (ran : dbRenamePropdef s (.obj oid) old new = .ok (renamed, s')) :
    (renamed = false ∧ s' = s) ∨
      renamed = true ∧ ∃ o i, s.object (.obj oid) = some o ∧
        o.propdefs.findIdx? (fun p => p.named old (strHash old)) = some i ∧
        (caseFold old = caseFold new ∨ (dbFindProperty s (.obj oid) new).isSome = false ∧
          propertyDefinedAtOrBelow s new (strHash new) (traversalDepth s) (.obj oid)
            = .ok false) ∧
        s.modify (.obj oid) (fun o =>
          { o with propdefs := o.propdefs.set i (dbprivNewPropdef new) }) = .ok s' := by
  have assigned {i : Nat} {b : Bool} {final : Db V}
      (rest : (s.modify (.obj oid) (fun o =>
        { o with propdefs := o.propdefs.set i (dbprivNewPropdef new) }) >>= fun s =>
          (.ok (true, s) : Except Crash (Bool × Db V))) = .ok (b, final)) :
      b = true ∧ s.modify (.obj oid) (fun o =>
        { o with propdefs := o.propdefs.set i (dbprivNewPropdef new) }) = .ok final := by
    obtain ⟨s1, defined, rest⟩ := Failing.bind_ok rest
    cases rest
    exact ⟨rfl, defined⟩
  obtain ⟨o, found, ran⟩ := Failing.bind_ok ran
  rw [Db.dereference_ok] at found
  split at ran
  · cases ran
    exact Or.inl ⟨rfl, rfl⟩
  · rename_i i position
    split at ran
    · split at ran
      · cases ran
        exact Or.inl ⟨rfl, rfl⟩
      · rename_i absent
        obtain ⟨below, clear, ran⟩ := Failing.bind_ok ran
        cases below with
        | true =>
            cases ran
            exact Or.inl ⟨rfl, rfl⟩
        | false =>
            obtain ⟨rfl, defined⟩ := assigned ran
            exact Or.inr ⟨rfl, o, i, found, position,
              Or.inr ⟨by simpa using absent, clear⟩, defined⟩
    · rename_i same
      rw [ne_eq, Decidable.not_not, strcasecmp_eq_zero] at same
      obtain ⟨rfl, defined⟩ := assigned ran
      exact Or.inr ⟨rfl, o, i, found, position, Or.inl same, defined⟩

theorem dbDeletePropdef_ok {pname : CString} {deleted : Bool}
    (ran : dbDeletePropdef s (.obj oid) pname = .ok (deleted, s')) :
    (deleted = false ∧ s' = s) ∨ deleted = true ∧ ∃ i, Redefined s s' oid (·.eraseIdx i) := by
  obtain ⟨o, -, ran⟩ := Failing.bind_ok ran
  split at ran
  · cases ran
    exact Or.inl ⟨rfl, rfl⟩
  · obtain ⟨s1, defined, ran⟩ := Failing.bind_ok ran
    obtain ⟨s2, removed, rest⟩ := Failing.bind_ok ran
    cases rest
    exact Or.inr ⟨rfl, _, s1, defined, removePropRecursively_unslotted removed⟩

namespace Redefined

variable {f : List Propdef → List Propdef}

theorem sameGraph (redefined : Redefined s s' oid f) : SameGraph s s' := by
  obtain ⟨s1, defined, same⟩ := redefined
  exact (SameUpTo.of_modify (by intros; rfl) defined).trans same.graph

theorem elsewhere (redefined : Redefined s s' oid f) {w : ObjVar} (other : w ≠ .obj oid) :
    (s'.object w).map Object.propdefs = (s.object w).map Object.propdefs := by
  obtain ⟨s1, defined, same⟩ := redefined
  obtain ⟨o, -, rfl⟩ := Db.modify_ok defined
  have view := congrArg (Option.map Object.propdefs) (same.view w)
  rw [Option.map_map, Option.map_map, Db.setObject_object, if_neg other] at view
  exact view

theorem here (redefined : Redefined s s' oid f) {o' : Object V}
    (found' : s'.object (.obj oid) = some o') :
    ∃ o, s.object (.obj oid) = some o ∧ o'.propdefs = f o.propdefs := by
  obtain ⟨s1, defined, same⟩ := redefined
  obtain ⟨o, found, rfl⟩ := Db.modify_ok defined
  have view := congrArg (Option.map Object.propdefs) (same.view (.obj oid))
  rw [Option.map_map, Option.map_map, Db.setObject_object, if_pos rfl, found'] at view
  exact ⟨o, found, Option.some.inj view⟩

theorem elsewhere_object (redefined : Redefined s s' oid f) {w : ObjVar} (other : w ≠ .obj oid)
    {o' : Object V} (found' : s'.object w = some o') :
    ∃ o, s.object w = some o ∧ o.propdefs = o'.propdefs := by
  have same := redefined.elsewhere other
  rw [found', Option.map_some] at same
  exact Option.map_eq_some_iff.mp same.symm

theorem shrinks (redefined : Redefined s s' oid f) (fewer : ∀ defs, (f defs).Sublist defs) :
    Shrinks s s' := by
  constructor
  · intro w o' found'
    by_cases same : w = .obj oid
    · subst same
      obtain ⟨o, found, propdefs⟩ := redefined.here found'
      exact Or.inr ⟨o, found, propdefs ▸ fewer o.propdefs⟩
    · obtain ⟨o, found, propdefs⟩ := redefined.elsewhere_object same found'
      exact Or.inr ⟨o, found, propdefs ▸ List.Sublist.refl _⟩
  · intro w u edge
    rw [redefined.sameGraph.parentsOf] at edge
    exact Ancestor.of_edge edge

theorem distinct (redefined : Redefined s s' oid f) (distinct : DistinctNames s) (name : CString)
    (within : ∀ o, s.object (.obj oid) = some o →
      (f o.propdefs).Pairwise fun p q => caseFold p.name ≠ caseFold q.name)
    (members : ∀ o, s.object (.obj oid) = some o → ∀ p ∈ f o.propdefs,
      p ∈ o.propdefs ∨ p = dbprivNewPropdef name)
    (fresh : ∀ d a, Ancestor s d (.obj oid) → Ancestor s d a → a ≠ .obj oid →
      ¬Defines s a name) : DistinctNames s' := by
  have graph := redefined.sameGraph
  have ancestor (d a : ObjVar) : Ancestor s' d a ↔ Ancestor s d a := by
    rw [Ancestor, Ancestor, graph.parentsOf]
  have back {w : ObjVar} {other : CString} (defines : Defines s' w other) :
      Defines s w other ∨ w = .obj oid ∧ caseFold other = caseFold name := by
    obtain ⟨o', found', p, member, same⟩ := defines
    by_cases self : w = .obj oid
    · subst self
      obtain ⟨o, found, propdefs⟩ := redefined.here found'
      rcases members o found p (propdefs ▸ member) with old | rfl
      · exact Or.inl ⟨o, found, p, old, same⟩
      · exact Or.inr ⟨rfl, (same : caseFold name = caseFold other).symm⟩
    · obtain ⟨o, found, propdefs⟩ := redefined.elsewhere_object self found'
      exact Or.inl ⟨o, found, p, propdefs ▸ member, same⟩
  refine ⟨graph.wellFormed distinct.graph, ?_, ?_, ?_, ?_⟩
  · intro w o' found' p member
    by_cases self : w = .obj oid
    · subst self
      obtain ⟨o, found, propdefs⟩ := redefined.here found'
      rcases members o found p (propdefs ▸ member) with old | rfl
      · exact distinct.hashed _ o found p old
      · rfl
    · obtain ⟨o, found, propdefs⟩ := redefined.elsewhere_object self found'
      exact distinct.hashed w o found p (propdefs ▸ member)
  · intro a o' found'
    obtain ⟨o, found, propdefs⟩ := redefined.elsewhere_object (by simp) found'
    exact propdefs ▸ distinct.anonBare a o found
  · intro w o' found'
    by_cases self : w = .obj oid
    · subst self
      obtain ⟨o, found, propdefs⟩ := redefined.here found'
      exact propdefs ▸ within o found
    · obtain ⟨o, found, propdefs⟩ := redefined.elsewhere_object self found'
      exact propdefs ▸ distinct.within w o found
  · intro d a b pathA pathB other name' definesA definesB
    rw [ancestor] at pathA pathB
    rcases back definesA with oldA | ⟨rfl, sameA⟩ <;> rcases back definesB with oldB | ⟨rfl, sameB⟩
    · exact distinct.across d a b pathA pathB other name' oldA oldB
    · exact fresh d a pathB pathA other ((Defines.congr sameB).mp oldA)
    · exact fresh d b pathA pathB other.symm ((Defines.congr sameA).mp oldB)
    · exact other rfl

end Redefined

/-- The checks see the ancestors and the descendants of `oid`; what they do not see is the rest
of the ancestors of its descendants. -/
theorem checked_fresh (distinct : DistinctNames s) {name : CString}
    (absent : (dbFindProperty s (.obj oid) name).isSome = false)
    (clear : propertyDefinedAtOrBelow s name (strHash name) (traversalDepth s) (.obj oid)
      = .ok false) (noClash : ¬ClashesAt s oid name) {d a : ObjVar}
    (below : Ancestor s d (.obj oid)) (above : Ancestor s d a) : ¬Defines s a name := by
  intro defines
  by_cases down : Ancestor s a (.obj oid)
  · exact not_defined_below distinct clear down defines
  · by_cases up : Ancestor s (.obj oid) a
    · exact not_found_above distinct absent up defines
    · exact noClash ⟨d, a, below, above, down, up, defines⟩

theorem pairwise_set {α : Type} {R : α → α → Prop} (symmetric : ∀ a b, R a b → R b a)
    {items : List α} (pairwise : items.Pairwise R) {i : Nat} {new : α}
    (fits : ∀ j (_ : j < items.length), j ≠ i → R items[j] new) :
    (items.set i new).Pairwise R := by
  rw [List.pairwise_iff_getElem] at pairwise ⊢
  intro j k first second before
  simp only [List.length_set] at first second
  simp only [List.getElem_set]
  split <;> split
  · omega
  · exact symmetric _ _ (fits k second (by omega))
  · exact fits j first (by omega)
  · exact pairwise j k first second before

theorem dbAddPropdef_distinct (distinct : DistinctNames s) {pname : CString} {value : V}
    {owner : Int} {flags : Nat} {added : Bool} (noClash : ¬ClashesAt s oid pname)
    (ran : dbAddPropdef s (.obj oid) pname value owner flags = .ok (added, s')) :
    DistinctNames s' := by
  rcases dbAddPropdef_ok ran with ⟨-, rfl⟩ | ⟨-, absent, clear, redefined⟩
  · exact distinct
  · have fresh {d a : ObjVar} (below : Ancestor s d (.obj oid)) (above : Ancestor s d a) :=
      checked_fresh distinct absent clear noClash below above
    refine redefined.distinct distinct pname ?_ ?_ fun d a below above _ => fresh below above
    · intro o found
      rw [List.pairwise_append]
      refine ⟨distinct.within _ o found, List.pairwise_singleton _ _, ?_⟩
      intro p member q new same
      rw [List.mem_singleton] at new
      subst new
      have self := Ancestor.self s (.obj oid)
      exact fresh self self ⟨o, found, p, member, same⟩
    · intro o found p member
      simpa using member

theorem dbRenamePropdef_distinct (distinct : DistinctNames s) {old new : CString} {renamed : Bool}
    (noClash : ¬ClashesAt s oid new)
    (ran : dbRenamePropdef s (.obj oid) old new = .ok (renamed, s')) : DistinctNames s' := by
  rcases dbRenamePropdef_ok ran with ⟨-, rfl⟩ | ⟨-, o, i, found, position, checks, defined⟩
  · exact distinct
  · have redefined : Redefined s s' oid (·.set i (dbprivNewPropdef new)) :=
      ⟨s', defined, SameUpTo.refl s'⟩
    obtain ⟨bound, named, -⟩ := List.findIdx?_eq_some_iff_getElem.mp position
    have inside := List.getElem_mem bound
    have sameOld : caseFold o.propdefs[i].name = caseFold old :=
      (Propdef.named_iff (distinct.hashed _ o found _ inside)).mp named
    have self := Ancestor.self s (.obj oid)
    refine redefined.distinct distinct new ?_ ?_ ?_
    · intro o2 found2
      rw [found] at found2
      cases found2
      refine pairwise_set (fun p q => Ne.symm) (distinct.within _ o found) fun j inJ other => ?_
      rcases checks with same | ⟨absent, clear⟩
      · intro equal
        have within := List.pairwise_iff_getElem.mp (distinct.within _ o found)
        have here : caseFold o.propdefs[j].name = caseFold o.propdefs[i].name :=
          (equal : caseFold o.propdefs[j].name = caseFold new).trans (sameOld.trans same).symm
        rcases Nat.lt_or_gt_of_ne other with before | after
        · exact within j i inJ bound before here
        · exact within i j bound inJ after here.symm
      · intro equal
        exact checked_fresh distinct absent clear noClash self self
          ⟨o, found, _, List.getElem_mem inJ, equal⟩
    · intro o2 found2 p member
      rw [found] at found2
      cases found2
      exact List.mem_or_eq_of_mem_set member
    · intro d a below above other
      rcases checks with same | ⟨absent, clear⟩
      · exact distinct.across d (.obj oid) a below above other.symm new
          ⟨o, found, _, inside, sameOld.trans same⟩
      · exact checked_fresh distinct absent clear noClash below above

theorem dbDeletePropdef_distinct (distinct : DistinctNames s) {pname : CString} {deleted : Bool}
    (ran : dbDeletePropdef s (.obj oid) pname = .ok (deleted, s')) : DistinctNames s' := by
  rcases dbDeletePropdef_ok ran with ⟨-, rfl⟩ | ⟨-, i, redefined⟩
  · exact distinct
  · exact (redefined.shrinks fun defs => List.eraseIdx_sublist defs i).distinct distinct
      (redefined.sameGraph.wellFormed distinct.graph)

end Defining

section Naming

variable {s s' : Db V}

theorem Blank.no_parent {v : ObjVar} (blank : Blank s s' v) (graph : WellFormed s)
    (graph' : WellFormed s') {w u : ObjVar} (edge : u ∈ parentsOf s' w) : w ≠ v ∧ u ≠ v := by
  obtain ⟨p, rfl, -⟩ := WellFormed.parent_is_obj edge
  obtain ⟨n, found, named⟩ := graph'.mem_parents.mp edge
  obtain ⟨o', present, bare⟩ := blank.present
  have other : w ≠ v := by
    rintro rfl
    rw [WellFormed.node_of_object present, Option.some.injEq] at found
    simp only [Object.inheritance, Prod.mk.injEq] at bare
    rw [← found, Object.node, bare.1] at named
    simp [ObjOrList.named] at named
  refine ⟨other, ?_⟩
  rintro rfl
  rw [Db.node, blank.elsewhere w other] at found
  have valid := graph.parentsValid w n found p named
  rw [Db.valid, blank.absent] at valid
  cases valid

theorem Born.distinct {v : ObjVar} {parents : ObjOrList} (born : Born s s' v parents)
    (distinct : DistinctNames s) : DistinctNames s' := by
  obtain ⟨s1, s2, s3, blank, graph1, change, newValid, graph3, quiet, graph'⟩ := born
  have distinct1 := (blank.shrinks distinct.graph graph1).distinct distinct graph1
  have only {d : ObjVar} (path : Ancestor s1 d v) : d = v := by
    rcases Relation.ReflTransGen.cases_tail path with same | ⟨_, _, edge⟩
    · exact same.symm
    · exact absurd rfl (blank.no_parent distinct.graph graph1 edge).2
  have apart : ∀ p ∈ parents.named, ¬Ancestor s1 (.obj p) v := by
    intro p named path
    have same := only path
    subst same
    exact change.not_own_parent graph1 named
  have noClash : ¬Clashes s1 v parents := by
    rintro ⟨d, a, below, beside, notBelow, -⟩
    have same := only below
    subst same
    rcases Relation.ReflTransGen.cases_head beside with self | ⟨_, edge, _⟩
    · exact notBelow (self ▸ Ancestor.self s1 d)
    · simp at edge
  have distinct3 := change.distinct distinct1 newValid apart noClash
  exact quiet.shrinks.distinct distinct3 graph'

/-- The calls after which names are still unambiguous. -/
def NamesAllowed (call : Call V) (s : Db V) : Prop :=
  match call with
  | .chparents _ obj what => ¬Clashes s obj what
  | .addProperty _ oid pname _ _ _ => ¬ClashesAt s oid pname
  | .renameProperty oid _ new => ¬ClashesAt s oid new
  | .renumber .. => False
  | _ => True

theorem call_distinct (distinct : DistinctNames s) {call : Call V} (allowed : NamesAllowed call s)
    {outcome : Outcome} (ran : call.run s = .ok (outcome, s')) : DistinctNames s' := by
  have graph := distinct.graph
  have refusedOr {step : Except Crash (Bool × Db V)}
      {finish : Bool × Db V → Except Crash (Outcome × Db V)}
      (keeps : ∀ done after, step = .ok (done, after) → DistinctNames after)
      (rest : (step >>= finish) = .ok (outcome, s'))
      (ends : ∀ done after, ∃ told, finish (done, after) = .ok (told, after)) :
      DistinctNames s' := by
    obtain ⟨⟨done, after⟩, taken, rest⟩ := Failing.bind_ok rest
    obtain ⟨told, finished⟩ := ends done after
    cases finished.symm.trans rest
    exact keeps _ _ taken
  cases call with
  | create progr parents owner anonymous =>
      obtain ⟨graph', quiet | ⟨v, born⟩⟩ := bfCreate_ok graph ran
      · exact quiet.shrinks.distinct distinct graph'
      · exact born.distinct distinct
  | recreate progr old parent owner =>
      obtain ⟨graph', quiet | ⟨v, born⟩⟩ := bfRecreate_ok graph ran
      · exact quiet.shrinks.distinct distinct graph'
      · exact born.distinct distinct
  | chparents progr v what =>
      obtain ⟨-, rfl | ⟨⟨s2, change⟩, newValid, apart⟩⟩ := bfChparentChparents_ok graph ran
      · exact distinct
      · exact change.distinct distinct newValid apart allowed
  | recycle progr v =>
      obtain ⟨graph', ⟨-, rfl⟩ | ⟨oid, rfl, recycled⟩ | ⟨a, rfl, gone⟩⟩ := bfRecycle_ok graph ran
      · exact distinct
      · exact recycled.distinct distinct graph'
      · exact (gone.shrinks graph graph').distinct distinct graph'
  | addProperty progr oid pname value owner flags =>
      change bfAddProp s progr oid pname value owner flags = _ at ran
      unfold bfAddProp at ran
      split at ran
      · cases ran
        exact distinct
      · obtain ⟨allows, -, ran⟩ := Failing.bind_ok ran
        split at ran
        · cases ran
          exact distinct
        · exact refusedOr (fun _ _ taken => dbAddPropdef_distinct distinct allowed taken) ran
            (by rintro (_ | _) after <;> exact ⟨_, rfl⟩)
  | deleteProperty progr oid pname =>
      change bfDeleteProp s progr oid pname = _ at ran
      unfold bfDeleteProp at ran
      split at ran
      · cases ran
        exact distinct
      · obtain ⟨allows, -, ran⟩ := Failing.bind_ok ran
        split at ran
        · cases ran
          exact distinct
        · exact refusedOr (fun _ _ taken => dbDeletePropdef_distinct distinct taken) ran
            (by rintro (_ | _) after <;> exact ⟨_, rfl⟩)
  | renameProperty oid old new =>
      change renameProp s oid old new = _ at ran
      unfold renameProp at ran
      split at ran
      · cases ran
        exact distinct
      · exact refusedOr (fun _ _ taken => dbRenamePropdef_distinct distinct allowed taken) ran
          (by rintro (_ | _) after <;> exact ⟨_, rfl⟩)
  | renumber progr oid => exact allowed.elim

theorem empty_distinct : DistinctNames (Db.empty : Db V) where
  graph := empty_wellFormed
  hashed v o found := by cases found
  anonBare a o found := by cases found
  within v o found := by cases found
  across v a b _ _ _ name definesA := by
    obtain ⟨o, found, -⟩ := definesA
    cases found

theorem reachable_distinct {s : Db V} (reachable : ReachableBy NamesAllowed s) :
    DistinctNames s := by
  refine reachable.invariant DistinctNames empty_distinct ?_
  rintro before after distinct (⟨call, outcome, allowed, ran⟩ | unrelated)
  · exact call_distinct distinct allowed ran
  · exact unrelated.shrinks.distinct distinct (unrelated.wellFormed distinct.graph)

theorem reachable_unambiguous {s : Db V} (reachable : ReachableBy NamesAllowed s) :
    Unambiguous s ∧
    (∀ oid pname value owner flags s', dbAddPropdef s (.obj oid) pname value owner flags
      = .ok (false, s') → s' = s) ∧
    (∀ oid old new s', dbRenamePropdef s (.obj oid) old new = .ok (false, s') → s' = s) ∧
    (∀ oid pname s', dbDeletePropdef s (.obj oid) pname = .ok (false, s') → s' = s) ∧
    ∀ v new kids s', dbChangeParents s v new kids = .ok (false, s') → s' = s := by
  refine ⟨(reachable_distinct reachable).unambiguous, ?_, ?_, ?_, ?_⟩
  · intro oid pname value owner flags s' ran
    rcases dbAddPropdef_ok ran with ⟨-, same⟩ | ⟨done, -⟩
    · exact same
    · cases done
  · intro oid old new s' ran
    rcases dbRenamePropdef_ok ran with ⟨-, same⟩ | ⟨done, -⟩
    · exact same
    · cases done
  · intro oid pname s' ran
    rcases dbDeletePropdef_ok ran with ⟨-, same⟩ | ⟨done, -⟩
    · exact same
    · cases done
  · intro v new kids s' ran
    rcases dbChangeParents_ok ran with ⟨-, same⟩ | ⟨done, -⟩
    · exact same
    · cases done

def Call.defines : Call V → Bool
  | .recreate .. | .renumber .. => false
  | _ => true

def branchCalls : List (Call Unit) :=
  [.create (-1) (.obj (-1)) (-1) false, .create 0 (.obj (-1)) 0 false,
    .create 0 (.list [0, 1]) 0 false, .addProperty 0 0 [112] () 0 0, .addProperty 0 1 [112] () 0 0]

theorem add_property_ambiguous : ∃ s : Db Unit, runAll branchCalls Db.empty = .ok s ∧
    ReachableBy (fun call _ => call.defines = true) s ∧ ¬Unambiguous s := by
  obtain ⟨s, ran, shape⟩ := Failing.of_okAnd (x := runAll branchCalls Db.empty)
    (p := fun s => .obj 0 ∈ dbAncestors s (.obj 2) true && .obj 1 ∈ dbAncestors s (.obj 2) true &&
      (s.object (.obj 0)).map Object.propdefs = some [dbprivNewPropdef [112]] &&
      (s.object (.obj 1)).map Object.propdefs = some [dbprivNewPropdef [112]])
    (by decide)
  simp only [Bool.and_eq_true, decide_eq_true_eq, Option.map_eq_some_iff] at shape
  obtain ⟨⟨⟨above0, above1⟩, o0, found0, defs0⟩, o1, found1, defs1⟩ := shape
  have defines : ∀ call ∈ branchCalls, call.defines = true := by decide
  refine ⟨s, ran, runAll_reachable .start (fun call member _ => defines call member) ran, ?_⟩
  rintro ⟨apart, -⟩
  refine apart (.obj 2) (.obj 0) above0 (.obj 1) above1 (by decide) o0 o1 found0 found1
    (dbprivNewPropdef [112]) ?_ (dbprivNewPropdef [112]) ?_ (by decide)
  · simp [defs0]
  · simp [defs1]

theorem add_property_unambiguous : ∃ s : Db Unit,
    (s.object (.obj 0)).map Object.propdefs = some [dbprivNewPropdef [112]] ∧ Unambiguous s := by
  let family : List (Call Unit) :=
    [.create (-1) (.obj (-1)) (-1) false, .create 0 (.obj 0) 0 false]
  obtain ⟨s, ran, shape⟩ := Failing.of_okAnd (x := runAll family Db.empty)
    (p := fun s => s.every (fun o => o.propdefs = []) &&
      Failing.okAnd ((Call.addProperty 0 0 [112] () 0 0).run s) fun result =>
        (result.2.object (.obj 0)).map Object.propdefs = some [dbprivNewPropdef [112]])
    (by decide)
  simp only [Bool.and_eq_true] at shape
  obtain ⟨bare, shape⟩ := shape
  obtain ⟨⟨outcome, s'⟩, added, defs⟩ := Failing.of_okAnd shape
  have created : ∀ call ∈ family, ∀ s, NamesAllowed call s := by simp [family, NamesAllowed]
  have reachable := runAll_reachable .start created ran
  have graph := (reachable_distinct reachable).graph
  have allowed : NamesAllowed (Call.addProperty 0 0 [112] () 0 0) s := by
    rintro ⟨d, a, -, -, -, -, o, found, p, member, -⟩
    have none := graph.of_every bare found
    simp only [decide_eq_true_eq] at none
    rw [none] at member
    cases member
  have reached := reachable.step (Or.inl ⟨_, outcome, allowed, added⟩)
  exact ⟨s', by simpa using defs, (reachable_unambiguous reached).1⟩

end Naming

end ToastStunt
