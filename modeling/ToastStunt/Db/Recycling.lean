import ToastStunt.Db.ChildLoop
import ToastStunt.Db.Histories

/-!
What `recycle` leaves behind of a numbered object. Its children get its parents in exchange, its
contents go to nothing, and what it owned belongs to nobody, except for anonymous objects that
have no parents.
-/

namespace ToastStunt

open FirstVisit Runs

variable {V : Type}

section Purpose

/-- A resumed `recycle` runs to its end; the verbs that it calls on the way return and leave the
database alone. -/
inductive Resumes (obj : ObjVar) : Db V → Db V → Prop
  | done {s s'} (stackFull : Bool) : recycleResumed s stackFull obj = .ok (.noVar, s') →
      Resumes obj s s'
  | called {s s1 s'} (stackFull : Bool) : recycleResumed s stackFull obj = .ok (.call 2 obj, s1) →
      Resumes obj s1 s' → Resumes obj s s'

def Recycles (progr oid : Int) (s s' : Db V) : Prop :=
  ∃ stackFull s1, recycleCalled s stackFull progr (.obj oid) = .ok (.noVar, s1) ∧ s' = s1 ∨
    recycleCalled s stackFull progr (.obj oid) = .ok (.call 2 (.obj oid), s1) ∧
      Resumes (.obj oid) s1 s'

def Object.owners (o : Object V) : List Int :=
  o.owner :: o.verbdefs.map Verbdef.owner ++ o.propval.map Pval.owner

def replaceParent (oid : Int) (op cp : ObjOrList) : List Int :=
  cp.named.flatMap fun p => if p = oid then op.named else [p]

/-- What should be left of `oid`: nothing refers to it, its children are its parents' and its
contents nowhere, and whatever others inherit from others keeps its value. -/
structure LeftBehind (s s' : Db V) (oid : Int) : Prop where
  invalid : s'.valid oid = false
  unrelated : ∀ v o, s'.object v = some o →
    oid ∉ o.parents.named ∧ oid ∉ o.children ∧ o.location ≠ oid ∧ oid ∉ o.contents
  unowned : ∀ v o, s'.object v = some o → oid ∉ o.owners
  unlisted : oid ∉ s'.allUsers
  children : ∀ v c o, s.object v = some c → s.object (.obj oid) = some o → oid ∈ c.parents.named →
    ∃ c', s'.object v = some c' ∧
      c'.parents.named = addAll [] (replaceParent oid o.parents c.parents)
  contents : ∀ thing o, s.object (.obj thing) = some o → o.location = oid →
    ∃ o', s'.object (.obj thing) = some o' ∧ o'.location = NOTHING
  values : ∀ v a, v ≠ .obj oid → a ≠ .obj oid → Inherits s v a → Inherits s' v a ∧
    (slotsFor s' v a).map Pval.var = (slotsFor s v a).map Pval.var

/-- No anonymous object that is left without parents belongs to `oid`, nor has a verb that does. -/
def NoOrphansOwned (s : Db V) (oid : Int) : Prop :=
  ∀ a c o, s.object (.anon a) = some c → s.object (.obj oid) = some o →
    replaceParent oid o.parents c.parents = [] → oid ∉ c.owner :: c.verbdefs.map Verbdef.owner

end Purpose

section Turns

variable {s s' : Db V} {oid : Int}

theorem replaceParent_absent {op cp : ObjOrList} (absent : oid ∉ cp.named) :
    replaceParent oid op cp = cp.named := by
  refine (List.flatMap_congr fun p member => if_neg ?_).trans (List.flatMap_singleton' cp.named)
  rintro rfl
  exact absent member

theorem addAll_flatMap_replaced {op : List Int} (absent : oid ∉ op) {front back : List Int} :
    (front ++ op ++ back).flatMap (fun p => if p = oid then op else [p]) =
      (front ++ oid :: back).flatMap fun p => if p = oid then op else [p] := by
  have own : op.flatMap (fun p => if p = oid then op else [p]) = op := by
    refine (List.flatMap_congr fun p member => if_neg ?_).trans (List.flatMap_singleton' op)
    rintro rfl
    exact absent member
  simp only [List.flatMap_append, List.flatMap_cons, if_true, own, List.append_assoc]

theorem splicedParents_replaced (graph : WellFormed s) {cp : ObjOrList} {o : Object V}
    (member : oid ∈ cp.named) (found : s.object (.obj oid) = some o)
    (once : o.parents.named.Nodup) :
    addAll [] (replaceParent oid o.parents (splicedParents s oid cp o.parents)) =
      addAll [] (replaceParent oid o.parents cp) ∧
      (splicedParents s oid cp o.parents).named.Nodup := by
  have absent := not_own_parent graph found
  rcases splicedParents_named graph member found with
    ⟨before, after, split, -, spliced⟩ | ⟨only, spliced⟩
  · rw [replaceParent, replaceParent, spliced, split, addAll_flatMap,
      addAll_flatMap_replaced absent]
    exact ⟨rfl, addAll_nodup _ List.nodup_nil⟩
  · rw [spliced, replaceParent_absent absent, replaceParent, only]
    simp [once]

structure Passed (s m : Db V) (oid : Int) (o : Object V) : Prop where
  own : ∃ o', m.object (.obj oid) = some o' ∧ o'.parents = o.parents
  parents : ∀ v c, s.object v = some c → ∃ c', m.object v = some c' ∧
    addAll [] (replaceParent oid o.parents c'.parents) =
      addAll [] (replaceParent oid o.parents c.parents) ∧
    (c'.parents = c.parents ∨ c'.parents.named.Nodup)

theorem Passed.turn {m m' : Db V} {o : Object V} (passed : Passed s m oid o)
    (once : o.parents.named.Nodup) (turn : Spliced oid m m') : Passed s m' oid o := by
  obtain ⟨graph, child, c, o1, s2, next, foundChild, found, change⟩ := turn
  obtain ⟨o2, found2, equal⟩ := passed.own
  cases found.symm.trans found2
  have edge := dbNextChild_ok graph next
  have member := graph.named_of_edge foundChild edge
  have after (v : ObjVar) (w : Object V) (present : m.object v = some w) :
      ∃ w', m'.object v = some w' ∧
      w'.parents = if v = child then splicedParents m oid c.parents o1.parents else w.parents := by
    have same := change.parents graph v
    rw [present, Option.map_some, Option.map_eq_some_iff] at same
    obtain ⟨w', found', parents⟩ := same
    exact ⟨w', found', parents⟩
  constructor
  · obtain ⟨o', found', parents⟩ := after _ o1 found
    have other : ObjVar.obj oid ≠ child := by
      rintro rfl
      exact graph.no_cycle edge (Ancestor.self m _)
    exact ⟨o', found', parents.trans ((if_neg other).trans equal)⟩
  · intro v c0 found0
    obtain ⟨c1, found1, replaced, kept⟩ := passed.parents v c0 found0
    obtain ⟨c2, found2, parents⟩ := after v c1 found1
    refine ⟨c2, found2, ?_⟩
    by_cases same : v = child
    · subst same
      cases found1.symm.trans foundChild
      rw [if_pos rfl] at parents
      obtain ⟨spliced, nodup⟩ := splicedParents_replaced graph member found (equal ▸ once)
      rw [equal] at spliced parents nodup
      rw [parents]
      exact ⟨spliced.trans replaced, Or.inr nodup⟩
    · rw [if_neg same] at parents
      rw [parents]
      exact ⟨replaced, kept⟩

theorem passed_of_turns (turns : Relation.ReflTransGen (Spliced oid) s s') {o : Object V}
    (found : s.object (.obj oid) = some o) (once : o.parents.named.Nodup) :
    Passed s s' oid o := by
  induction turns with
  | refl => exact ⟨⟨o, found, rfl⟩, fun v c foundC => ⟨c, foundC, rfl, Or.inl rfl⟩⟩
  | tail _ turn ih => exact ih.turn once turn

theorem Spliced.ancestor (turn : Spliced oid s s') {v a : ObjVar} (other : a ≠ .obj oid)
    (path : Ancestor s v a) : Ancestor s' v a := by
  have graph' := turn.wellFormed
  obtain ⟨graph, child, c, o, s2, next, foundChild, found, change⟩ := turn
  have edge := dbNextChild_ok graph next
  have member := graph.named_of_edge foundChild edge
  have apart : ObjVar.obj oid ≠ child := by
    rintro rfl
    exact graph.no_cycle edge (Ancestor.self s _)
  have spliced {p : Int} (named : p ∈ (splicedParents s oid c.parents o.parents).named) :
      ObjVar.obj p ∈ parentsOf s' child := by
    have same := change.parents graph child
    rw [foundChild, Option.map_some, if_pos rfl, Option.map_eq_some_iff] at same
    obtain ⟨c', found', parents⟩ := same
    exact graph'.edge_of_named found' (parents ▸ named)
  have kept {p : Int} (named : p ∈ c.parents.named ∧ p ≠ oid ∨ p ∈ o.parents.named) :
      p ∈ (splicedParents s oid c.parents o.parents).named := by
    rcases splicedParents_named graph member found with
      ⟨before, after, split, -, spliced⟩ | ⟨only, spliced⟩
    · rw [spliced]
      rw [split] at named
      simp only [List.mem_append, List.mem_cons] at named
      simp only [mem_addAll, List.mem_append, List.not_mem_nil, false_or]
      grind
    · rw [spliced]
      rw [only] at named
      simpa using named
  induction path using Relation.ReflTransGen.head_induction_on with
  | refl => exact Ancestor.self s' a
  | @head u w edgeU _ ih =>
      by_cases isChild : u = child
      · subst isChild
        obtain ⟨q, rfl, -⟩ := WellFormed.parent_is_obj edgeU
        have named := graph.named_of_edge foundChild edgeU
        by_cases through : q = oid
        · subst through
          rcases Relation.ReflTransGen.cases_head ih with same | ⟨z, up, rest⟩
          · exact absurd same.symm other
          · rw [change.parentsOf graph apart] at up
            obtain ⟨p, rfl, -⟩ := WellFormed.parent_is_obj up
            have above := graph.named_of_edge found up
            exact Ancestor.above (spliced (kept (Or.inr above))) rest
        · exact Ancestor.above (spliced (kept (Or.inl ⟨named, through⟩))) ih
      · refine Ancestor.above ?_ ih
        rwa [change.parentsOf graph isChild]

theorem turns_ancestor (turns : Relation.ReflTransGen (Spliced oid) s s') {v a : ObjVar}
    (other : a ≠ .obj oid) (path : Ancestor s v a) : Ancestor s' v a := by
  induction turns with
  | refl => exact path
  | tail _ turn ih => exact turn.ancestor other ih

end Turns

section Ending

variable {s s' : Db V} {oid : Int}

structure Ended (s s' : Db V) (oid : Int) (s2 s3 : Db V) : Prop where
  turns : Relation.ReflTransGen (Spliced oid) s s2
  graph2 : WellFormed s2
  childless : ∀ w, .obj oid ∉ parentsOf s2 w
  standing : Standing s2 s3
  parents : ∀ v ≠ .obj oid, (s3.object v).map Object.parents = (s2.object v).map Object.parents
  laidOut : LaidOut s3
  gone : Gone (dbFixupOwners s3 oid) s' (.obj oid)

theorem recycleEmptied_ended (out : LaidOut s) (recyclable : Recyclable s oid)
    (ran : recycleEmptied s oid = .ok (.noVar, s')) : ∃ s2 s3, Ended s s' oid s2 s3 := by
  obtain ⟨⟨done, s2⟩, turned, rest⟩ := Failing.bind_ok ran
  obtain ⟨turns, graph2, finished⟩ := reparentChildren_ok out.graph turned
  cases done with
  | false => cases rest
  | true =>
      obtain ⟨⟨changed, s3⟩, change, rest⟩ := Failing.bind_ok rest
      obtain ⟨s4, destroyed, rest⟩ := Failing.bind_ok rest
      cases rest
      obtain ⟨detached, graph3, noAnons⟩ := orphaned graph2 (finished rfl) change
      have graph3' := (fixupOwners_graph s3 oid).wellFormed graph3
      obtain ⟨gone, -, -⟩ := dbDestroyObject_ok graph3' noAnons destroyed
      have alone := no_next_child graph2 (finished rfl)
      have out2 := (spliced_kept turns out recyclable).1
      have left : (∀ v ≠ .obj oid, (s3.object v).map Object.parents =
          (s2.object v).map Object.parents) ∧ LaidOut s3 := by
        rcases detached with rfl | ⟨m, changed⟩
        · exact ⟨fun _ _ => rfl, out2⟩
        · refine ⟨fun v other => ?_, ?_⟩
          · rw [changed.parents graph2]
            simp only [if_neg other]
          · have orphan : (ObjOrList.obj NOTHING).named = [] := by simp [ObjOrList.named]
            obtain ⟨o, -, found, -⟩ := changed.relinked
            refine (changed.kept out2 (separatedBy_of_childless found (fun d path => ?_) _)
              (by simp [orphan]) (by simp [orphan])).1
            rcases Relation.ReflTransGen.cases_tail path with same | ⟨_, _, edge⟩
            · exact same.symm
            · exact absurd edge (alone _)
      exact ⟨s2, s3, turns, graph2, alone, dbChangeParents_standing graph2 change, left.1, left.2,
        gone⟩

theorem fixupOwners_view {α : Type} (look : Object V → α) (s : Db V) (oid : Int)
    (unseen : ∀ o, look (doFixupOwners oid o) = look o) (v : ObjVar) :
    ((dbFixupOwners s oid).object v).map look = (s.object v).map look := by
  have same : look ∘ doFixupOwners oid = look := funext unseen
  unfold dbFixupOwners
  cases v with
  | obj p => simp only [Option.map_map, same]
  | anon a =>
      simp only
      split
      · rw [Option.map_map, same]
      · rfl

theorem not_mem_doFixupOwners (real : oid ≠ NOTHING) (o : Object V) :
    oid ∉ (doFixupOwners oid o).owners := by
  have renounced (owner : Int) : fixupOwner oid owner ≠ oid := by
    unfold fixupOwner
    split
    · exact Ne.symm real
    · assumption
  simp only [Object.owners, doFixupOwners, List.map_map, List.cons_append, List.mem_cons,
    List.mem_append, List.mem_map, not_or, not_exists, not_and]
  refine ⟨(renounced _).symm, fun v _ => renounced _, fun p _ => renounced _⟩

namespace Ended

variable {s2 s3 : Db V}

theorem elsewhere (ended : Ended s s' oid s2 s3) {v : ObjVar} (other : v ≠ .obj oid) :
    (s'.object v).map Object.parents = (s2.object v).map Object.parents := by
  rw [ended.gone.elsewhere v other,
    fixupOwners_view Object.parents s3 oid (fun _ => rfl) v, ended.parents v other]

theorem replaced (ended : Ended s s' oid s2 s3) {o : Object V}
    (found : s.object (.obj oid) = some o) (once : o.parents.named.Nodup) {v : ObjVar}
    {c : Object V} (foundC : s.object v = some c) (other : v ≠ .obj oid) :
    ∃ c', s'.object v = some c' ∧
      addAll [] c'.parents.named = addAll [] (replaceParent oid o.parents c.parents) ∧
      (c'.parents = c.parents ∨ c'.parents.named.Nodup) := by
  obtain ⟨c2, found2, replaced, kept⟩ := (passed_of_turns ended.turns found once).parents v c foundC
  have absent : oid ∉ c2.parents.named := fun named =>
    ended.childless v (ended.graph2.edge_of_named found2 named)
  rw [replaceParent_absent absent] at replaced
  have same := ended.elsewhere other
  rw [found2, Option.map_some, Option.map_eq_some_iff] at same
  obtain ⟨c', found', equal⟩ := same
  exact ⟨c', found', equal ▸ replaced, equal ▸ kept⟩

theorem ancestor (ended : Ended s s' oid s2 s3) (graph' : WellFormed s') {v a : ObjVar}
    (start : v ≠ .obj oid) (other : a ≠ .obj oid) (path : Ancestor s v a) : Ancestor s' v a := by
  have path2 := turns_ancestor ended.turns other path
  clear path
  induction path2 using Relation.ReflTransGen.head_induction_on with
  | refl => exact Ancestor.self s' a
  | @head u w edge _ ih =>
      have outside : w ≠ .obj oid := by
        rintro rfl
        exact ended.childless u edge
      obtain ⟨p, rfl, -⟩ := WellFormed.parent_is_obj edge
      obtain ⟨n, node, named⟩ := ended.graph2.mem_parents.mp edge
      obtain ⟨c, found, rfl⟩ := node_some.mp node
      have same := ended.elsewhere start
      rw [found, Option.map_some, Option.map_eq_some_iff] at same
      obtain ⟨c', found', equal⟩ := same
      exact Ancestor.above (graph'.edge_of_named found' (equal ▸ named)) (ih outside)

theorem fixedUp (ended : Ended s s' oid s2 s3) {v : ObjVar} {c' : Object V}
    (found' : s'.object v = some c') : (dbFixupOwners s3 oid).object v = some c' := by
  rw [← found', ended.gone.elsewhere]
  rintro rfl
  rw [ended.gone.absent] at found'
  cases found'

theorem owned_orphan (ended : Ended s s' oid s2 s3) (real : oid ≠ NOTHING) {v : ObjVar}
    {c' : Object V} (found' : s'.object v = some c') (owned : oid ∈ c'.owners) :
    ∃ a, v = .anon a ∧ c'.parents.named = [] := by
  have there := ended.fixedUp found'
  have unfixed (fixed : (s3.object v).map (doFixupOwners oid) = some c') : False := by
    obtain ⟨c3, -, rfl⟩ := Option.map_eq_some_iff.mp fixed
    exact not_mem_doFixupOwners real c3 owned
  cases v with
  | obj p => exact (unfixed there).elim
  | anon a =>
      refine ⟨a, rfl, List.eq_nil_iff_forall_not_mem.mpr fun p named => ?_⟩
      unfold dbFixupOwners at there
      simp only at there
      split at there
      · exact unfixed there
      · rename_i unindexed
        have edge := ended.laidOut.graph.edge_of_named there named
        have indexed := (ended.laidOut.graph.indexed p a).mpr
          (ended.laidOut.graph.mem_parents.mp edge)
        obtain ⟨q, same, valid⟩ := WellFormed.parent_is_obj edge
        cases same
        have bounds := ended.laidOut.graph.valid_bounds valid
        have number : ((p.toNat : Nat) : Int) = p := Int.toNat_of_nonneg bounds.1
        refine unindexed (List.any_eq_true.mpr ⟨p.toNat, List.mem_range.mpr (by omega), ?_⟩)
        simpa [number] using indexed

/-- An anonymous object without parents has no slots, and the fixing does not come to it. -/
theorem orphan_owners (ended : Ended s s' oid s2 s3) {a : Nat} {c' : Object V}
    (found' : s'.object (.anon a) = some c') (orphan : c'.parents.named = []) :
    ∃ c, s.object (.anon a) = some c ∧ c'.owners = c.owner :: c.verbdefs.map Verbdef.owner := by
  have there := ended.fixedUp found'
  have rootless {c3 : Object V} (found3 : s3.object (.anon a) = some c3) :
      c3.parents.named = [] := by
    have view := fixupOwners_view Object.parents s3 oid (fun _ => rfl) (.anon a)
    rw [there, found3, Option.map_some, Option.map_some, Option.some.injEq] at view
    exact view ▸ orphan
  unfold dbFixupOwners at there
  simp only at there
  split at there
  · rename_i indexed
    obtain ⟨c3, found3, -⟩ := Option.map_eq_some_iff.mp there
    obtain ⟨p, -, member⟩ := List.any_eq_true.mp indexed
    have edge := ended.laidOut.graph.mem_parents.mpr
      ((ended.laidOut.graph.indexed p a).mp (of_decide_eq_true member))
    have named := ended.laidOut.graph.named_of_edge found3 edge
    rw [rootless found3] at named
    cases named
  · have noParents : parentsOf s3 (.anon a) = [] := by
      rw [List.eq_nil_iff_forall_not_mem]
      intro u edge
      obtain ⟨p, rfl, -⟩ := WellFormed.parent_is_obj edge
      have named := ended.laidOut.graph.named_of_edge there edge
      rw [orphan] at named
      cases named
    have slotless := ended.laidOut.fit _ c' there
    rw [ended.laidOut.graph.ancestors_eq, noParents, List.flatMap_nil, addAll_nil, countSlots,
      Blocks.total_cons, ended.laidOut.bare, Blocks.total, List.map_nil, List.sum_nil, Nat.add_zero,
      List.length_eq_zero_iff] at slotless
    obtain ⟨c2, found2, same3⟩ := ended.standing.object there
    obtain ⟨c, found, same2⟩ := (spliced_standing ended.turns).object found2
    have equal := same3.trans same2
    simp only [Object.standing, Prod.mk.injEq] at equal
    refine ⟨c, found, ?_⟩
    rw [Object.owners, slotless, equal.1, equal.2.2.1, List.map_nil, List.append_nil]

end Ended

end Ending

section Recycle

variable {s s' : Db V} {oid progr : Int}

theorem recycleEmptied_not_called (s : Db V) {pc : Nat} {obj : ObjVar} :
    recycleEmptied s oid ≠ .ok (.call pc obj, s') := by
  intro ran
  obtain ⟨⟨done, s2⟩, -, rest⟩ := Failing.bind_ok ran
  cases done with
  | false => cases rest
  | true =>
      obtain ⟨⟨changed, s3⟩, -, rest⟩ := Failing.bind_ok rest
      obtain ⟨s4, -, rest⟩ := Failing.bind_ok rest
      cases rest

theorem resumes_loosened (resumes : Resumes (.obj oid) s s') :
    ∃ s1, Loosened s s1 ∧ s.valid oid = true ∧ recycleEmptied s1 oid = .ok (.noVar, s') := by
  induction resumes with
  | done stackFull ran =>
      rcases recycleResumed_cases ran with ⟨failed, -⟩ | ⟨called, -⟩ | ended
      · cases failed
      · cases called
      · exact ended
  | called stackFull ran _ ih =>
      rcases recycleResumed_cases ran with ⟨failed, -⟩ | ⟨-, same⟩ | ⟨s2, -, -, rest⟩
      · cases failed
      · obtain ⟨s2, later, valid, rest⟩ := ih
        exact ⟨s2, same.trans later, same.valid ▸ valid, rest⟩
      · exact absurd rest (recycleEmptied_not_called s2)

theorem recycles_loosened (recycles : Recycles progr oid s s') :
    ∃ s1, Loosened s s1 ∧ s.valid oid = true ∧ recycleEmptied s1 oid = .ok (.noVar, s') := by
  obtain ⟨stackFull, s1, ⟨ran, rfl⟩ | ⟨ran, resumes⟩⟩ := recycles
  · rcases recycleCalled_cases ran with ⟨⟨e, failed⟩, -⟩ | ⟨s2, flagged, ⟨called, -⟩ | resumed⟩
    · cases failed
    · cases called
    · cases flagged
      exact resumes_loosened (.done stackFull resumed)
  · rcases recycleCalled_cases ran with ⟨⟨e, failed⟩, -⟩ | ⟨s2, flagged, ⟨-, rfl⟩ | resumed⟩
    · cases failed
    · cases flagged
      exact resumes_loosened resumes
    · cases flagged
      exact resumes_loosened (.called stackFull resumed resumes)

theorem Loosened.object (same : Loosened s s') {v : ObjVar} {o : Object V}
    (found : s.object v = some o) : ∃ o', s'.object v = some o' ∧ o'.unplaced = o.unplaced := by
  have view := same.unplaced.view v
  rw [found, Option.map_some, Option.map_eq_some_iff] at view
  exact view

theorem Loosened.slots (same : Loosened s s') (orderly : Orderly s) (v a : ObjVar) :
    (Inherits s' v a ↔ Inherits s v a) ∧ (Inherits s v a → slotsFor s' v a = slotsFor s v a) := by
  obtain ⟨quiet, graph'⟩ := same.unplaced.quiet orderly.laidOut.graph
  obtain ⟨-, kept⟩ := quiet.kept orderly.laidOut graph'
  have inherits : Inherits s' v a ↔ Inherits s v a := by
    rw [Inherits, Inherits, graph'.mem_ancestors, orderly.laidOut.graph.mem_ancestors, Ancestor,
      Ancestor, quiet.parentsOf]
    have view := congrArg Option.isSome (same.unplaced.view v)
    rw [Option.isSome_map, Option.isSome_map] at view
    rw [view]
  exact ⟨inherits, fun before => (kept v a (inherits.mpr before)).1 before⟩

theorem addAll_eq_nil {items : List Int} : addAll [] items = [] ↔ items = [] := by
  simp only [List.eq_nil_iff_forall_not_mem, mem_addAll, List.not_mem_nil, false_or]

theorem Ended.unowned_iff {s2 s3 : Db V} (ended : Ended s s' oid s2 s3) (graph : WellFormed s)
    {o : Object V} (found : s.object (.obj oid) = some o)
    (once : o.parents.named.Nodup) :
    (∀ v c', s'.object v = some c' → oid ∉ c'.owners) ↔ NoOrphansOwned s oid := by
  have real := graph.not_nothing (Db.valid_iff.mpr ⟨o, found⟩)
  constructor
  · intro unowned a c o1 foundC found1 orphan owned
    cases found1.symm.trans found
    obtain ⟨c', found', replaced, -⟩ := ended.replaced found once foundC (by simp)
    rw [orphan, addAll_nil, addAll_eq_nil] at replaced
    obtain ⟨c0, foundC0, owners⟩ := ended.orphan_owners found' replaced
    cases foundC0.symm.trans foundC
    exact unowned _ c' found' (owners ▸ owned)
  · intro orphans v c' found' owned
    obtain ⟨a, rfl, orphan⟩ := ended.owned_orphan real found' owned
    obtain ⟨c, foundC, owners⟩ := ended.orphan_owners found' orphan
    obtain ⟨c1, found1, replaced, -⟩ := ended.replaced found once foundC (by simp)
    cases found1.symm.trans found'
    rw [orphan, addAll_nil, eq_comm, addAll_eq_nil] at replaced
    exact orphans a c o foundC found replaced (owners ▸ owned)

theorem Loosened.orphans (same : Loosened s s') (oid : Int) :
    NoOrphansOwned s' oid ↔ NoOrphansOwned s oid := by
  have view (v : ObjVar) := same.unplaced.view v
  have transfer {t t' : Db V} (alike : ∀ v o', t'.object v = some o' →
      ∃ o, t.object v = some o ∧ o'.unplaced = o.unplaced) (orphans : NoOrphansOwned t oid) :
      NoOrphansOwned t' oid := by
    intro a c' o' foundC' found' orphan
    obtain ⟨c, foundC, sameC⟩ := alike _ c' foundC'
    obtain ⟨o, found, sameO⟩ := alike _ o' found'
    simp only [Object.unplaced, Object.mk.injEq] at sameC sameO
    rw [sameC.2.2.2.2.2.1, sameO.2.2.2.2.2.1] at orphan
    rw [sameC.2.1, sameC.2.2.2.2.2.2.2.2.2]
    exact orphans a c o foundC found orphan
  refine ⟨transfer fun v o found => ?_, transfer fun v o' found' => ?_⟩
  · obtain ⟨o', found', equal⟩ := same.object found
    exact ⟨o', found', equal.symm⟩
  · have here := view v
    rw [found', Option.map_some, eq_comm, Option.map_eq_some_iff] at here
    obtain ⟨o, found, equal⟩ := here
    exact ⟨o, found, equal.symm⟩

theorem Orderly.unrelated (orderly : Orderly s) (real : oid ≠ NOTHING)
    (invalid : s.valid oid = false) {v : ObjVar} {o : Object V} (found : s.object v = some o) :
    oid ∉ o.parents.named ∧ oid ∉ o.children ∧ o.location ≠ oid ∧ oid ∉ o.contents := by
  have graph := orderly.laidOut.graph
  have node : s.node v = some o.node := node_some.mpr ⟨o, found, rfl⟩
  have unused (valid : s.valid oid = true) : False := by
    rw [invalid] at valid
    cases valid
  refine ⟨fun named => unused (graph.parentsValid v _ node oid named),
    fun member => unused (graph.childrenValid v _ node oid member), ?_, ?_⟩
  · rintro rfl
    cases v with
    | anon a => exact real (orderly.enrolled.nowhere a o found).1
    | obj p =>
        have here := (places_object found).1
        rw [placeOf_real real] at here
        exact unused (orderly.housed.location_valid here)
  · intro member
    cases v with
    | anon a =>
        rw [(orderly.enrolled.nowhere a o found).2] at member
        cases member
    | obj p =>
        rw [← (places_object found).2] at member
        exact unused (Housed.thing_valid (orderly.housed.placed.contained member))

/-- Recycling an object that some programmer controls, in any orderly history, leaves nothing
of it behind exactly if no anonymous object without parents belongs to it; the loop over its
children ends. -/
theorem recycle_leaves_nothing (reachable : HistoryReachable s) (recyclable : Recyclable s oid)
    (once : ∀ o, s.object (.obj oid) = some o → o.parents.named.Nodup) :
    (s.valid oid = true → ∀ s1, Loosened s s1 → ∀ fuel, reparentTurns s1 oid < fuel →
      ∃ done s2, reparentChildren oid fuel s1 = .ok (done, s2)) ∧
    ∀ progr s', Recycles progr oid s s' → (LeftBehind s s' oid ↔ NoOrphansOwned s oid) := by
  have orderly := historyReachable_orderly reachable
  have graph := orderly.laidOut.graph
  refine ⟨fun valid s1 same fuel enough => ?_, fun progr s' recycles => ?_⟩
  · exact reparentChildren_ends (orderly.loosened same).laidOut (same.recyclable graph recyclable)
      (same.valid ▸ valid) enough
  · obtain ⟨s1, same, valid, ran⟩ := recycles_loosened recycles
    obtain ⟨o, found⟩ := Db.valid_iff.mp valid
    obtain ⟨o1, found1, alike⟩ := same.object found
    simp only [Object.unplaced, Object.mk.injEq] at alike
    have parents1 : o1.parents = o.parents := alike.2.2.2.2.2.1
    have orderly1 := orderly.loosened same
    have recyclable1 := same.recyclable graph recyclable
    have orderly' := orderly1.recycleEmptied recyclable1 ran
    obtain ⟨s2, s3, ended⟩ := recycleEmptied_ended orderly1.laidOut recyclable1 ran
    have once1 : o1.parents.named.Nodup := parents1 ▸ once o found
    have real := graph.not_nothing valid
    have invalid : s'.valid oid = false := by
      rw [Db.valid, ended.gone.absent, Option.isSome_none]
    have unowned := ended.unowned_iff orderly1.laidOut.graph found1 once1
    rw [same.orphans] at unowned
    refine ⟨fun left => unowned.mp left.unowned, fun orphans => ?_⟩
    refine ⟨invalid, fun v o' found' => orderly'.unrelated real invalid found', unowned.mpr orphans,
      fun listed => ?_, fun v c o' foundC found' named => ?_, fun thing c foundC inside => ?_,
      fun v a start other inherits => ?_⟩
    · obtain ⟨o', found', -⟩ := isUser_iff.mp ((orderly'.enrolled.users oid).mp listed)
      rw [ended.gone.absent] at found'
      cases found'
    · cases found'.symm.trans found
      obtain ⟨c1, foundC1, alikeC⟩ := same.object foundC
      simp only [Object.unplaced, Object.mk.injEq] at alikeC
      have namedSame : c1.parents = c.parents := alikeC.2.2.2.2.2.1
      have apart : v ≠ .obj oid := by
        rintro rfl
        cases foundC.symm.trans found
        exact not_own_parent graph found named
      obtain ⟨c', foundC', replaced, kept⟩ := ended.replaced found1 once1 foundC1 apart
      rw [namedSame, parents1] at replaced
      refine ⟨c', foundC', ?_⟩
      rw [← replaced]
      rcases kept with unchanged | nodup
      · have absent := (orderly'.unrelated real invalid foundC').1
        rw [unchanged, namedSame] at absent
        exact absurd named absent
      · exact (addAll_of_nodup nodup).symm
    · have apart : ObjVar.obj thing ≠ .obj oid := by
        rintro same
        cases same
        exact orderly.consistent.notInItself _ c foundC inside
      obtain ⟨c1, foundC1, -⟩ := same.object foundC
      obtain ⟨c', found', -⟩ := ended.replaced found1 once1 foundC1 apart
      refine ⟨c', found', ?_⟩
      have unmoved := (recycleEmptied_unmoved ran).places
      have here := (places_object found').1
      rw [unmoved] at here
      rcases same.location orderly.housed thing with stayed | left
      · have before := (places_object foundC).1
        rw [inside, placeOf_real real] at before
        rw [stayed, before] at here
        exact absurd (placeOf_eq_some here.symm).2.symm
          (orderly'.unrelated real invalid found').2.2.1
      · rw [left] at here
        by_contra somewhere
        rw [placeOf_real somewhere] at here
        cases here
    · have slots1 := same.slots orderly v a
      have inherits1 := slots1.1.mpr inherits
      obtain ⟨graph', recycled⟩ := recycleEmptied_recycled orderly1.laidOut.graph ran
      obtain ⟨c, foundC⟩ := Option.isSome_iff_exists.mp inherits1.1
      obtain ⟨c', found', -⟩ := ended.replaced found1 once1 foundC start
      have path := orderly1.laidOut.graph.mem_ancestors.mp inherits1.2
      have inherits' : Inherits s' v a :=
        ⟨by rw [found', Option.isSome_some],
          graph'.mem_ancestors.mpr (ended.ancestor graph' start other path)⟩
      have kept := (recycled.kept orderly1.laidOut recyclable1 graph').2.2 rfl
      refine ⟨inherits', ?_⟩
      rw [(kept v a inherits').1 inherits1, slots1.2 inherits, List.map_map]
      rfl

theorem runAll_historyReachable {calls : List (Call V)} (reachable : HistoryReachable s)
    (every : ∀ call ∈ calls, ∀ s, OrderAllowed call s) (ran : runAll calls s = .ok s') :
    HistoryReachable s' := by
  unfold runAll at ran
  refine Failing.foldlM_invariant HistoryReachable ?_ reachable ran
  intro call member before after reached step
  obtain ⟨⟨outcome, next⟩, called, rest⟩ := Failing.bind_ok step
  cases rest
  exact .step reached (.call call outcome (every call member before) called)

def lineCalls : List (Call Unit) :=
  [.create NOTHING (.obj NOTHING) NOTHING false, .create 0 (.obj 0) 0 false,
    .create 0 (.obj 1) 0 false]

def orphanCalls : List (Call Unit) :=
  [.create NOTHING (.obj NOTHING) NOTHING false, .create NOTHING (.obj NOTHING) NOTHING false,
    .create 1 (.obj NOTHING) 1 true]

def recycleAfter (calls : List (Call Unit)) (progr : Int) :
    Except Crash (Db Unit × Package MoveError ObjVar × Db Unit) := do
  let s ← runAll calls Db.empty
  let (package, s') ← recycleCalled s false progr (.obj 1)
  return (s, package, s')

theorem recycleAfter_ok {calls : List (Call Unit)} {s s' : Db Unit}
    {package : Package MoveError ObjVar} (ran : recycleAfter calls progr = .ok (s, package, s')) :
    runAll calls Db.empty = .ok s ∧ recycleCalled s false progr (.obj 1) = .ok (package, s') := by
  obtain ⟨s1, first, ran⟩ := Failing.bind_ok ran
  obtain ⟨⟨package1, s2⟩, second, ran⟩ := Failing.bind_ok ran
  cases ran
  exact ⟨first, second⟩

theorem line_recycled : ∃ s s' : Db Unit, HistoryReachable s ∧ Recycles 0 1 s s' ∧
    LeftBehind s s' 1 ∧ (s'.object (.obj 2)).map Object.parents = some (.obj 0) := by
  obtain ⟨⟨s, package, s'⟩, ran, shape⟩ := Failing.of_okAnd (x := recycleAfter lineCalls 0)
    (p := fun (s, package, s') => package = .noVar && s.nextAnon = 0 &&
      (s.object (.obj 1)).map Object.propdefs = some [] &&
      (s.object (.obj 1)).map Object.parents = some (.obj 0) &&
      (s'.object (.obj 2)).map Object.parents = some (.obj 0)) (by decide +kernel)
  simp only [Bool.and_eq_true, decide_eq_true_eq] at shape
  obtain ⟨⟨⟨⟨rfl, noAnons⟩, bare⟩, only⟩, child⟩ := shape
  obtain ⟨first, called⟩ := recycleAfter_ok ran
  have reachable : HistoryReachable s :=
    runAll_historyReachable .start (by simp [lineCalls, OrderAllowed]) first
  have recycles : Recycles 0 1 s s' := ⟨false, s', Or.inl ⟨called, rfl⟩⟩
  refine ⟨s, s', reachable, recycles, ?_, child⟩
  refine ((recycle_leaves_nothing reachable (Or.inl fun o found => ?_) fun o found => ?_).2 0 s'
    recycles).mpr fun a c o foundC => ?_
  · rw [found] at bare
    exact Option.some.inj bare
  · rw [found] at only
    rw [Option.some.inj only]
    decide
  · rw [(historyReachable_orderly reachable).housed.indexed.allocated a (by omega)] at foundC
    cases foundC

theorem orphan_keeps_owner : ∃ s s' : Db Unit, HistoryReachable s ∧ Recycles 1 1 s s' ∧
    (s'.object (.anon 0)).map Object.owner = some 1 ∧ ¬LeftBehind s s' 1 := by
  obtain ⟨⟨s, package, s'⟩, ran, shape⟩ := Failing.of_okAnd (x := recycleAfter orphanCalls 1)
    (p := fun (_, package, s') => package = .noVar &&
      (s'.object (.anon 0)).map Object.owner = some 1) (by decide +kernel)
  simp only [Bool.and_eq_true, decide_eq_true_eq] at shape
  obtain ⟨rfl, owner⟩ := shape
  obtain ⟨first, called⟩ := recycleAfter_ok ran
  have reachable : HistoryReachable s :=
    runAll_historyReachable .start (by simp [orphanCalls, OrderAllowed]) first
  refine ⟨s, s', reachable, ⟨false, s', Or.inl ⟨called, rfl⟩⟩, owner, fun left => ?_⟩
  obtain ⟨o, found, same⟩ := Option.map_eq_some_iff.mp owner
  exact left.unowned _ o found (by simp [Object.owners, same])

end Recycle

end ToastStunt
