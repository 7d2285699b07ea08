import ToastStunt.Db.Inheritance

/-!
Which names an object inherits, and the checks that keep two definitions of one
name apart.
-/

namespace ToastStunt

open FirstVisit Runs

variable {V : Type}

section Names

def Propdef.sameName (p : Propdef) (name : CString) : Prop := caseFold p.name = caseFold name

def Defines (s : Db V) (v : ObjVar) (name : CString) : Prop :=
  ∃ o, s.object v = some o ∧ ∃ p ∈ o.propdefs, p.sameName name

def Unambiguous (s : Db V) : Prop :=
  (∀ v, ∀ a ∈ dbAncestors s v true, ∀ b ∈ dbAncestors s v true, a ≠ b →
    ∀ oa ob, s.object a = some oa → s.object b = some ob →
      ∀ p ∈ oa.propdefs, ∀ q ∈ ob.propdefs, strcasecmp p.name q.name ≠ 0) ∧
  ∀ v o, s.object v = some o → o.propdefs.Pairwise fun p q => strcasecmp p.name q.name ≠ 0

/-- The invariant behind `Unambiguous`: definitions carry the hash of their name, anonymous
objects have none, and names differ within an object and between two ancestors of one. -/
structure DistinctNames (s : Db V) : Prop where
  graph : WellFormed s
  hashed : ∀ v o, s.object v = some o → ∀ p ∈ o.propdefs, p.hash = strHash p.name
  anonBare : ∀ a o, s.object (.anon a) = some o → o.propdefs = []
  within : ∀ v o, s.object v = some o →
    o.propdefs.Pairwise fun p q => caseFold p.name ≠ caseFold q.name
  across : ∀ v a b, Ancestor s v a → Ancestor s v b → a ≠ b →
    ∀ name, Defines s a name → ¬Defines s b name

theorem DistinctNames.unambiguous {s : Db V} (distinct : DistinctNames s) : Unambiguous s := by
  constructor
  · intro v a memberA b memberB other oa ob foundA foundB p memberP q memberQ same
    rw [distinct.graph.mem_ancestors] at memberA memberB
    rw [strcasecmp_eq_zero] at same
    exact distinct.across v a b memberA memberB other q.name
      ⟨oa, foundA, p, memberP, same⟩ ⟨ob, foundB, q, memberQ, rfl⟩
  · intro v o found
    refine (distinct.within v o found).imp fun differ same => ?_
    exact differ ((strcasecmp_eq_zero _ _).mp same)

theorem Propdef.named_iff {p : Propdef} (hashed : p.hash = strHash p.name) {name : CString} :
    p.named name (strHash name) = true ↔ p.sameName name := by
  simp only [Propdef.named, Bool.and_eq_true, decide_eq_true_eq, strcasecmp_eq_zero,
    Propdef.sameName]
  exact ⟨And.right, fun same => ⟨hashed.trans (strHash_congr same), same⟩⟩

theorem definedAt_iff {o : Object V} (hashed : ∀ p ∈ o.propdefs, p.hash = strHash p.name)
    {name : CString} :
    propertyDefinedAt name (strHash name) o = true ↔ ∃ p ∈ o.propdefs, p.sameName name := by
  simp only [propertyDefinedAt, List.any_eq_true]
  constructor
  · rintro ⟨p, member, named⟩
    exact ⟨p, member, (Propdef.named_iff (hashed p member)).mp named⟩
  · rintro ⟨p, member, same⟩
    exact ⟨p, member, (Propdef.named_iff (hashed p member)).mpr same⟩

theorem Defines.congr {s : Db V} {v : ObjVar} {name other : CString}
    (same : caseFold name = caseFold other) : Defines s v name ↔ Defines s v other := by
  simp only [Defines, Propdef.sameName, same]

end Names

section Shrinking

structure Shrinks (s s' : Db V) : Prop where
  propdefs : ∀ v o', s'.object v = some o' →
    o'.propdefs = [] ∨ ∃ o, s.object v = some o ∧ o'.propdefs.Sublist o.propdefs
  edges : ∀ v u, u ∈ parentsOf s' v → Ancestor s v u

theorem Shrinks.ancestors {s s' : Db V} (shrinks : Shrinks s s') {v a : ObjVar}
    (path : Ancestor s' v a) : Ancestor s v a := by
  induction path with
  | refl => exact Ancestor.self s v
  | tail _ edge ih => exact Relation.ReflTransGen.trans ih (shrinks.edges _ _ edge)

theorem Shrinks.defines {s s' : Db V} (shrinks : Shrinks s s') {v : ObjVar} {name : CString}
    (defines : Defines s' v name) : Defines s v name := by
  obtain ⟨o', found', p, member, same⟩ := defines
  rcases shrinks.propdefs v o' found' with none | ⟨o, found, kept⟩
  · rw [none] at member
    cases member
  · exact ⟨o, found, p, kept.subset member, same⟩

theorem Shrinks.distinct {s s' : Db V} (shrinks : Shrinks s s') (distinct : DistinctNames s)
    (graph : WellFormed s') : DistinctNames s' where
  graph := graph
  hashed v o' found' p member := by
    rcases shrinks.propdefs v o' found' with none | ⟨o, found, kept⟩
    · rw [none] at member
      cases member
    · exact distinct.hashed v o found p (kept.subset member)
  anonBare a o' found' := by
    rcases shrinks.propdefs _ o' found' with none | ⟨o, found, kept⟩
    · exact none
    · rw [distinct.anonBare a o found] at kept
      exact List.sublist_nil.mp kept
  within v o' found' := by
    rcases shrinks.propdefs v o' found' with none | ⟨o, found, kept⟩
    · rw [none]
      exact List.Pairwise.nil
    · exact (distinct.within v o found).sublist kept
  across v a b pathA pathB other name definesA definesB := by
    exact distinct.across v a b (shrinks.ancestors pathA) (shrinks.ancestors pathB) other name
      (shrinks.defines definesA) (shrinks.defines definesB)

theorem Ancestor.of_edge {s : Db V} {v u : ObjVar} (edge : u ∈ parentsOf s v) : Ancestor s v u :=
  Ancestor.above edge (Ancestor.self s u)

theorem Shrinks.of_view {α : Type} {look : Object V → α} {s s' : Db V}
    (view : ∀ v, (s'.object v).map look = (s.object v).map look)
    (seen : ∀ o o', look o' = look o → o'.parents = o.parents ∧ o'.propdefs = o.propdefs) :
    Shrinks s s' := by
  have back (v : ObjVar) (o' : Object V) (found' : s'.object v = some o') :
      ∃ o, s.object v = some o ∧ o'.parents = o.parents ∧ o'.propdefs = o.propdefs := by
    have same := view v
    rw [found', Option.map_some, eq_comm, Option.map_eq_some_iff] at same
    obtain ⟨o, found, equal⟩ := same
    exact ⟨o, found, seen o o' equal.symm⟩
  have valid : s'.valid = s.valid := by
    funext oid
    have some := congrArg Option.isSome (view (.obj oid))
    simpa [Db.valid] using some
  constructor
  · intro v o' found'
    obtain ⟨o, found, -, propdefs⟩ := back v o' found'
    exact Or.inr ⟨o, found, propdefs ▸ List.Sublist.refl _⟩
  · intro v u edge
    obtain ⟨o', oid, found', member, known, rfl⟩ := mem_parentsOf.mp edge
    obtain ⟨o, found, parents, -⟩ := back v o' found'
    exact Ancestor.of_edge (mem_parentsOf.mpr
      ⟨o, oid, found, parents ▸ member, by rw [← valid]; exact known, rfl⟩)

theorem Quiet.shrinks {s s' : Db V} (quiet : Quiet s s') : Shrinks s s' :=
  Shrinks.of_view quiet.view fun o o' same => by
    simp only [Object.inheritance, Prod.mk.injEq] at same
    exact ⟨same.1, same.2.2.1⟩

theorem Unrelated.shrinks {s s' : Db V} (change : Unrelated s s') : Shrinks s s' :=
  Shrinks.of_view change.view fun o o' same => by
    simp only [Object.skeleton, Prod.mk.injEq] at same
    exact ⟨same.2.1, same.2.2.2.1⟩

theorem Shrinks.of_elsewhere {s s' : Db V} {v : ObjVar} (graph : WellFormed s)
    (graph' : WellFormed s') (elsewhere : ∀ w, w ≠ v → s'.object w = s.object w)
    (bare : ∀ o, s'.object v = some o → o.parents.named = [] ∧ o.propdefs = []) :
    Shrinks s s' := by
  constructor
  · intro w o' found'
    by_cases same : w = v
    · exact Or.inl (bare o' (same ▸ found')).2
    · exact Or.inr ⟨o', elsewhere w same ▸ found', List.Sublist.refl _⟩
  · intro w u edge
    obtain ⟨p, rfl, -⟩ := WellFormed.parent_is_obj edge
    obtain ⟨n, found, named⟩ := graph'.mem_parents.mp edge
    obtain ⟨o, object, rfl⟩ := node_some.mp found
    by_cases same : w = v
    · have none := (bare o (same ▸ object)).1
      simp only [Object.node, none, List.not_mem_nil] at named
    · rw [elsewhere w same] at object
      exact Ancestor.of_edge (graph.mem_parents.mpr
        ⟨o.node, WellFormed.node_of_object object, named⟩)

theorem Blank.shrinks {s s' : Db V} {v : ObjVar} (blank : Blank s s' v) (graph : WellFormed s)
    (graph' : WellFormed s') : Shrinks s s' := by
  refine Shrinks.of_elsewhere graph graph' blank.elsewhere fun o found => ?_
  obtain ⟨o', present, same⟩ := blank.present
  rw [found] at present
  cases present
  simp only [Object.inheritance, Prod.mk.injEq] at same
  exact ⟨by simp [same.1, ObjOrList.named], same.2.2.1⟩

theorem Gone.shrinks {s s' : Db V} {v : ObjVar} (gone : Gone s s' v) (graph : WellFormed s)
    (graph' : WellFormed s') : Shrinks s s' := by
  refine Shrinks.of_elsewhere graph graph' gone.elsewhere fun o found => ?_
  rw [gone.absent] at found
  cases found

namespace ChangedParents

variable {s s' s2 : Db V} {v : ObjVar} {new : ObjOrList} {kids : List Nat}

theorem propdefs (change : ChangedParents s s' v new kids s2) (graph : WellFormed s) (w : ObjVar) :
    (s'.object w).map Object.propdefs = (s.object w).map Object.propdefs := by
  have fixed : SameUpTo Object.propdefs s2 s' :=
    (fix_unslotted change.fixed).coarser fun o o' same => by
      have equal := congrArg Object.propdefs same
      exact equal
  rw [fixed.view]
  have reparented := change.reparented graph
  cases found : s.object w with
  | none => rw [reparented.absent w found]
  | some o =>
      obtain ⟨children, object, -⟩ := reparented.object w o found
      rw [object]
      rfl

theorem parentsOf (change : ChangedParents s s' v new kids s2) (graph : WellFormed s) {w : ObjVar}
    (elsewhere : w ≠ v) : parentsOf s' w = parentsOf s w := by
  rw [(fix_unslotted change.fixed).graph.parentsOf, (change.reparented graph).parentsOf w elsewhere]

theorem parentsOf_self (change : ChangedParents s s' v new kids s2) (graph : WellFormed s) :
    ToastStunt.parentsOf s' v = ((enlistVar new).filter s.valid).map .obj := by
  obtain ⟨o, -, found, -⟩ := change.relinked
  rw [(fix_unslotted change.fixed).graph.parentsOf, (change.reparented graph).parentsOf_self found]

theorem mem_parents_self (change : ChangedParents s s' v new kids s2) (graph : WellFormed s)
    {u : ObjVar} (edge : u ∈ ToastStunt.parentsOf s' v) : ∃ p ∈ new.named, u = .obj p := by
  rw [change.parentsOf_self graph, List.mem_map] at edge
  obtain ⟨p, member, rfl⟩ := edge
  rw [List.mem_filter] at member
  exact ⟨p, (mem_enlistVar (graph.not_nothing member.2)).mp member.1, rfl⟩

theorem defines_iff (change : ChangedParents s s' v new kids s2) (graph : WellFormed s)
    {w : ObjVar} {name : CString} : Defines s' w name ↔ Defines s w name := by
  have same := change.propdefs graph w
  constructor
  · rintro ⟨o', found', p, member, named⟩
    rw [found', Option.map_some, eq_comm, Option.map_eq_some_iff] at same
    obtain ⟨o, found, equal⟩ := same
    exact ⟨o, found, p, equal ▸ member, named⟩
  · rintro ⟨o, found, p, member, named⟩
    rw [found, Option.map_some, Option.map_eq_some_iff] at same
    obtain ⟨o', found', equal⟩ := same
    exact ⟨o', found', p, equal ▸ member, named⟩

theorem shrinks (change : ChangedParents s s' v new kids s2) (graph : WellFormed s)
    (above : ∀ p ∈ new.named, Ancestor s v (.obj p)) : Shrinks s s' := by
  constructor
  · intro w o' found'
    have same := change.propdefs graph w
    rw [found', Option.map_some, eq_comm, Option.map_eq_some_iff] at same
    obtain ⟨o, found, equal⟩ := same
    exact Or.inr ⟨o, found, equal ▸ List.Sublist.refl _⟩
  · intro w u edge
    by_cases self : w = v
    · subst self
      obtain ⟨p, named, rfl⟩ := change.mem_parents_self graph edge
      exact above p named
    · rw [change.parentsOf graph self] at edge
      exact Ancestor.of_edge edge

end ChangedParents

theorem Spliced.shrinks {s s' : Db V} {oid : Int} (turn : Spliced oid s s') : Shrinks s s' := by
  obtain ⟨graph, child, c, o, s2, next, foundChild, found, change⟩ := turn
  have ancestors := spliced_ancestors graph (dbNextChild_ok graph next) foundChild found
  refine change.shrinks graph fun p named => ?_
  obtain ⟨-, u, edge, path⟩ := ancestors p named
  exact Ancestor.above edge path

theorem fixupOwners_shrinks (s : Db V) (oid : Int) : Shrinks s (dbFixupOwners s oid) := by
  have view (v : ObjVar) : ((dbFixupOwners s oid).object v).map
      (fun o => (o.parents, o.propdefs)) = (s.object v).map fun o => (o.parents, o.propdefs) := by
    unfold dbFixupOwners
    cases v with
    | obj p => simp only [Option.map_map]; rfl
    | anon a =>
        simp only
        split
        · rw [Option.map_map]; rfl
        · rfl
  exact Shrinks.of_view view fun o o' same => by simpa using same

theorem Recycled.distinct {s s' : Db V} {oid : Int} {outcome : Outcome}
    (recycled : Recycled s s' oid outcome) (distinct : DistinctNames s) (graph' : WellFormed s') : DistinctNames s' := by
  obtain ⟨s1, s2, quiet, graph1, turns, graph2, rest⟩ := recycled.steps
  have distinct1 := quiet.shrinks.distinct distinct graph1
  have distinct2 : DistinctNames s2 := by
    clear rest graph2
    induction turns with
    | refl => exact distinct1
    | tail _ turn ih => exact turn.shrinks.distinct ih turn.wellFormed
  rcases rest with ⟨-, rfl⟩ | ⟨-, s3, detached, graph3, gone⟩
  · exact distinct2
  · have distinct3 : DistinctNames s3 := by
      rcases detached with rfl | ⟨m, change⟩
      · exact distinct2
      · exact (change.shrinks graph2 (by simp [ObjOrList.named])).distinct distinct2 graph3
    have owners := (fixupOwners_shrinks s3 oid).distinct distinct3
      ((fixupOwners_graph s3 oid).wellFormed graph3)
    exact (gone.shrinks owners.graph graph').distinct owners graph'

end Shrinking

section Checks

variable {s : Db V}

theorem definedAt_false (distinct : DistinctNames s) {v : ObjVar} {o : Object V}
    (found : s.object v = some o) {name : CString}
    (clear : propertyDefinedAt name (strHash name) o = false) : ¬Defines s v name := by
  rintro ⟨o', found', defined⟩
  rw [found] at found'
  cases found'
  rw [(definedAt_iff (distinct.hashed v o found)).mpr defined] at clear
  cases clear

theorem definedAtOrBelow_false (distinct : DistinctNames s) {name : CString} {fuel : Nat}
    {v w : ObjVar} (clear : propertyDefinedAtOrBelow s name (strHash name) fuel v = .ok false)
    (below : Reach (childrenOf s) v w) : ¬Defines s w name := by
  induction fuel generalizing v with
  | zero => cases clear
  | succ fuel ih =>
      obtain ⟨o, found, rest⟩ := Failing.bind_ok clear
      rw [Db.dereference_ok] at found
      split at rest
      · cases rest
      · rename_i notHere
        rcases Relation.ReflTransGen.cases_head below with same | ⟨u, edge, path⟩
        · subst same
          exact definedAt_false distinct found (by simpa using notHere)
        · obtain ⟨o', c, found', member, -, rfl⟩ := mem_childrenOf.mp edge
          rw [found] at found'
          cases found'
          exact ih (Failing.anyM_false rest c member) path

theorem not_defined_below (distinct : DistinctNames s) {name : CString} {oid : Int} {fuel : Nat}
    (clear : propertyDefinedAtOrBelow s name (strHash name) fuel (.obj oid) = .ok false)
    {w : ObjVar} (below : Ancestor s w (.obj oid)) : ¬Defines s w name := by
  cases w with
  | obj c =>
      exact definedAtOrBelow_false distinct clear
        (distinct.graph.reach_children.mpr ⟨⟨c, rfl⟩, below⟩)
  | anon a =>
      rintro ⟨o, found, p, member, -⟩
      rw [distinct.anonBare a o found] at member
      cases member

theorem findSlot_none {name : CString} (distinct : DistinctNames s) {definers : List ObjVar}
    {n : Nat} (none : findSlot s name (strHash name) definers n = none) :
    ∀ v ∈ definers, ¬Defines s v name := by
  induction definers generalizing n with
  | nil => exact nofun
  | cons definer rest ih =>
      rw [findSlot] at none
      intro v member
      cases found : s.object definer with
      | none =>
          simp only [found] at none
          rcases List.mem_cons.mp member with rfl | inside
          · rintro ⟨o, present, -⟩
            rw [found] at present
            cases present
          · exact ih none v inside
      | some o =>
          simp only [found] at none
          split at none
          · cases none
          · rename_i absent
            rcases List.mem_cons.mp member with rfl | inside
            · refine definedAt_false distinct found ?_
              rw [List.findIdx?_eq_none_iff] at absent
              rw [propertyDefinedAt, List.any_eq_false]
              intro p here
              simp [absent p here]
            · exact ih none v inside

theorem not_found_above (distinct : DistinctNames s) {oid : Int} {name : CString}
    (absent : (dbFindProperty s (.obj oid) name).isSome = false) {w : ObjVar}
    (above : Ancestor s (.obj oid) w) : ¬Defines s w name := by
  have graph := distinct.graph
  unfold dbFindProperty at absent
  split at absent
  · cases absent
  · rw [Option.isSome_eq_false_iff, Option.isNone_iff_eq_none] at absent
    apply findSlot_none distinct absent
    rcases Relation.ReflTransGen.cases_head above with same | ⟨u, edge, path⟩
    · rw [same]
      exact List.mem_cons_self
    · apply List.mem_cons_of_mem
      rw [List.mem_filter]
      refine ⟨graph.mem_proper_ancestors.mpr ⟨u, edge, path⟩, ?_⟩
      have isObj : ∃ p, w = .obj p ∧ s.valid p = true := by
        rcases Relation.ReflTransGen.cases_tail path with same | ⟨_, _, last⟩
        · exact same ▸ WellFormed.parent_is_obj edge
        · exact WellFormed.parent_is_obj last
      obtain ⟨p, rfl, valid⟩ := isObj
      exact valid

/-- The stack of `dbpriv_check_properties_for_chparent` collects every ancestor of the proposed
parents. -/
theorem proposedAncestors_complete {fuel : Nat} {stack seen result : List Int}
    (ran : proposedAncestors s fuel stack seen = .ok result) :
    (∀ x ∈ seen, x ∈ result) ∧ ∀ p ∈ stack, s.valid p = true → ∀ y, Ancestor s (.obj p) (.obj y) →
      y ∈ result := by
  induction fuel generalizing stack seen result with
  | zero => cases ran
  | succ fuel ih =>
      rw [proposedAncestors] at ran
      induction stack generalizing seen with
      | nil =>
          simp only [List.foldlM_nil, pure, Except.pure, Except.ok.injEq] at ran
          subst ran
          exact ⟨fun x member => member, by rintro _ ⟨⟩⟩
      | cons top rest restIh =>
          obtain ⟨middle, first, later⟩ := Failing.foldlM_cons_ok ran
          obtain ⟨kept, collected⟩ := restIh later
          cases found : s.object (.obj top) with
          | none =>
              simp only [found, Except.ok.injEq] at first
              subst first
              refine ⟨kept, fun p member valid y path => ?_⟩
              rcases List.mem_cons.mp member with rfl | inside
              · obtain ⟨o, present⟩ := Db.valid_iff.mp valid
                rw [found] at present
                cases present
              · exact collected p inside valid y path
          | some o =>
              simp only [found] at first
              obtain ⟨keptMiddle, collectedMiddle⟩ := ih first
              refine ⟨fun x member => kept x (keptMiddle x (mem_addNew.mpr (Or.inl member))), ?_⟩
              intro p member valid y path
              rcases List.mem_cons.mp member with rfl | inside
              · rcases Relation.ReflTransGen.cases_head path with same | ⟨u, edge, above⟩
                · cases same
                  exact kept p (keptMiddle p (mem_addNew.mpr (Or.inr rfl)))
                · obtain ⟨o', q, found', parent, validQ, rfl⟩ := mem_parentsOf.mp edge
                  rw [found] at found'
                  cases found'
                  exact kept y (collectedMiddle q parent validQ y above)
              · exact collected p inside valid y path

theorem chparentChecks (distinct : DistinctNames s) {v : ObjVar} {new : ObjOrList}
    {kids : List Nat} (passed : dbprivCheckPropertiesForChparent s v new kids = .ok true)
    (newValid : ∀ p ∈ new.named, s.valid p = true) {p x : Int} (named : p ∈ new.named)
    (above : Ancestor s (.obj p) (.obj x)) {name : CString} (defines : Defines s (.obj x) name) :
    (∀ oid w, v = .obj oid → Ancestor s w (.obj oid) → ¬Defines s w name) ∧
      ∀ q y, q ∈ new.named → Ancestor s (.obj q) (.obj y) → y ≠ x → ¬Defines s (.obj y) name := by
  obtain ⟨ancestors, collected, passed⟩ := Failing.bind_ok passed
  have complete := (proposedAncestors_complete collected).2
  obtain ⟨below, belowRan, passed⟩ := Failing.bind_ok passed
  cases below with
  | true => cases passed
  | false =>
      obtain ⟨among, amongRan, passed⟩ := Failing.bind_ok passed
      cases among with
      | true => cases passed
      | false =>
          have inside := complete p (named_subset named) (newValid p named) x above
          obtain ⟨ox, found, d, member, same⟩ := defines
          have hashed := distinct.hashed _ ox found d member
          constructor
          · intro oid w isObj path
            subst isObj
            have here := Failing.anyM_false belowRan x inside
            obtain ⟨o2, found2, here⟩ := Failing.bind_ok here
            rw [Db.dereference_ok, found] at found2
            cases found2
            obtain ⟨defined, ran, here⟩ := Failing.bind_ok (Failing.anyM_false here d member)
            cases defined with
            | true => cases here
            | false =>
                rw [hashed] at ran
                rw [Defines.congr (same : caseFold d.name = caseFold name).symm]
                exact not_defined_below distinct ran path
          · intro q y namedQ aboveQ other
            have insideY := complete q (named_subset namedQ) (newValid q namedQ) y aboveQ
            have here := Failing.anyM_false amongRan x inside
            obtain ⟨o2, found2, here⟩ := Failing.bind_ok here
            rw [Db.dereference_ok, found] at found2
            cases found2
            have pair := Failing.anyM_false here y insideY
            rw [if_neg other] at pair
            obtain ⟨oy, foundY, pair⟩ := Failing.bind_ok pair
            rw [Db.dereference_ok] at foundY
            simp only [pure, Except.pure, Except.ok.injEq, List.any_eq_false] at pair
            have clear := pair d member
            rw [hashed, Bool.not_eq_true] at clear
            rw [Defines.congr (same : caseFold d.name = caseFold name).symm]
            exact definedAt_false distinct foundY clear

end Checks

section Reparenting

variable {s s' s2 : Db V} {v : ObjVar} {new : ObjOrList} {kids : List Nat}

/-- `a` is an ancestor of `d` along a path that does not pass through `v` upwards. -/
def Beside (s : Db V) (v : ObjVar) : ObjVar → ObjVar → Prop :=
  Reach fun w => if w = v then [] else parentsOf s w

theorem Beside.ancestor {d a : ObjVar} (beside : Beside s v d a) : Ancestor s d a := by
  induction beside with
  | refl => exact Ancestor.self s d
  | tail _ edge ih =>
      beta_reduce at edge
      split at edge
      · cases edge
      · exact ih.tail edge

def Clashes (s : Db V) (v : ObjVar) (new : ObjOrList) : Prop :=
  ∃ d a, Ancestor s d v ∧ Beside s v d a ∧ ¬Ancestor s a v ∧
    ∃ p ∈ new.named, ∃ b, Ancestor s (.obj p) b ∧ a ≠ b ∧
      ∃ name, Defines s a name ∧ Defines s b name

def ClashesAt (s : Db V) (oid : Int) (name : CString) : Prop :=
  ∃ d a, Ancestor s d (.obj oid) ∧ Ancestor s d a ∧ ¬Ancestor s a (.obj oid) ∧
    ¬Ancestor s (.obj oid) a ∧ Defines s a name

theorem ChangedParents.ancestor_cases (change : ChangedParents s s' v new kids s2)
    (graph : WellFormed s) (apart : ∀ p ∈ new.named, ¬Ancestor s (.obj p) v) {d a : ObjVar}
    (path : Ancestor s' d a) :
    Beside s v d a ∨ Ancestor s d v ∧ ∃ p ∈ new.named, Ancestor s (.obj p) a := by
  induction path with
  | refl => exact Or.inl Relation.ReflTransGen.refl
  | @tail b c _ edge ih =>
      by_cases self : b = v
      · subst self
        obtain ⟨p, named, rfl⟩ := change.mem_parents_self graph edge
        rcases ih with beside | ⟨-, q, namedQ, above⟩
        · exact Or.inr ⟨beside.ancestor, p, named, Ancestor.self s _⟩
        · exact absurd above (apart q namedQ)
      · rw [change.parentsOf graph self] at edge
        rcases ih with beside | ⟨up, p, named, above⟩
        · refine Or.inl (beside.tail ?_)
          beta_reduce
          rwa [if_neg self]
        · exact Or.inr ⟨up, p, named, above.tail edge⟩

theorem ChangedParents.distinct (change : ChangedParents s s' v new kids s2)
    (distinct : DistinctNames s) (newValid : ∀ p ∈ new.named, s.valid p = true)
    (apart : ∀ p ∈ new.named, ¬Ancestor s (.obj p) v) (noClash : ¬Clashes s v new) :
    DistinctNames s' := by
  have graph := distinct.graph
  have back (w : ObjVar) (o' : Object V) (found' : s'.object w = some o') :
      ∃ o, s.object w = some o ∧ o.propdefs = o'.propdefs := by
    have same := change.propdefs graph w
    rw [found', Option.map_some] at same
    exact Option.map_eq_some_iff.mp same.symm
  have isObj {p : Int} {b : ObjVar} (above : Ancestor s (.obj p) b) : ∃ y, b = .obj y := by
    rcases Relation.ReflTransGen.cases_tail above with same | ⟨_, _, last⟩
    · exact ⟨p, same⟩
    · obtain ⟨y, rfl, -⟩ := WellFormed.parent_is_obj last
      exact ⟨y, rfl⟩
  have mixed {d a b : ObjVar} {name : CString} (up : Ancestor s d v) (beside : Beside s v d a)
      {p : Int} (named : p ∈ new.named) (above : Ancestor s (.obj p) b) (other : a ≠ b)
      (definesA : Defines s a name) (definesB : Defines s b name) : False := by
    by_cases below : Ancestor s a v
    · obtain ⟨y, rfl⟩ := isObj above
      have checks := chparentChecks distinct change.propertiesOk newValid named above definesB
      cases a with
      | anon i =>
          obtain ⟨o, found, q, member, -⟩ := definesA
          rw [distinct.anonBare i o found] at member
          cases member
      | obj x =>
          obtain ⟨oid, rfl⟩ := isObj below
          exact checks.1 oid (.obj x) rfl below definesA
    · exact noClash ⟨d, a, up, beside, below, p, named, b, above, other, name, definesA, definesB⟩
  refine ⟨change.wellFormed graph newValid apart, ?_, ?_, ?_, ?_⟩
  · intro w o' found' q member
    obtain ⟨o, found, same⟩ := back w o' found'
    exact distinct.hashed w o found q (same ▸ member)
  · intro i o' found'
    obtain ⟨o, found, same⟩ := back _ o' found'
    rw [← same]
    exact distinct.anonBare i o found
  · intro w o' found'
    obtain ⟨o, found, same⟩ := back w o' found'
    rw [← same]
    exact distinct.within w o found
  · intro d a b pathA pathB other name definesA definesB
    rw [change.defines_iff graph] at definesA definesB
    rcases change.ancestor_cases graph apart pathA with besideA | ⟨up, p, named, aboveA⟩ <;>
      rcases change.ancestor_cases graph apart pathB with besideB | ⟨upB, q, namedB, aboveB⟩
    · exact distinct.across d a b besideA.ancestor besideB.ancestor other name definesA definesB
    · exact mixed upB besideA namedB aboveB other definesA definesB
    · exact mixed up besideB named aboveA other.symm definesB definesA
    · obtain ⟨x, rfl⟩ := isObj aboveA
      obtain ⟨y, rfl⟩ := isObj aboveB
      have checks := chparentChecks distinct change.propertiesOk newValid named aboveA definesA
      refine checks.2 q y namedB aboveB ?_ definesB
      rintro rfl
      exact other rfl

end Reparenting

end ToastStunt
