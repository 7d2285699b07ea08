import ToastStunt.Db.Relaying

/-!
The steps of the built-ins that re-parent, create and remove objects keep every slot
in its place.
-/

namespace ToastStunt

open FirstVisit Blocks

variable {V : Type}

section Reparenting

variable {s s' s2 : Db V} {v : ObjVar} {new : ObjOrList} {kids : List Nat}

theorem Carried.of_laid {old new : List ObjVar} {slots : List (Pval V)}
    {block : ObjVar → List (Pval V)} (laid : Laid (propdefsLength s) old block slots)
    (same : definers s new = definers s old) :
    Carried (propdefsLength s) old new slots slots := by
  have read := laid.of_filter same
  refine ⟨block, _, laid, read, fun a above => ⟨fun member => ?_, fun absent => ?_⟩⟩
  · split
    · rename_i none
      exact (List.length_eq_zero_iff.mp ((laid.width_eq a member).trans none)).symm
    · rfl
  · split
    · exact nofun
    · rename_i wide
      have inside : a ∈ definers s new := mem_definers.mpr ⟨above, wide⟩
      rw [same, mem_definers] at inside
      exact absurd inside.1 absent

theorem kept_of_carried (out : LaidOut s) (graph' : WellFormed s') (widths : propdefsLength s' = propdefsLength s)
    (every : ∀ u o', s'.object u = some o' →
      (∃ o, s.object u = some o ∧ Carried (propdefsLength s) (dbAncestors s u true)
        (dbAncestors s' u true) o.propval o'.propval) ∨
      s.object u = none ∧ o'.propval = [] ∧
        ∀ a ∈ dbAncestors s' u true, propdefsLength s a = 0) : LaidOut s' ∧ Kept s s' := by
  refine ⟨⟨graph', fun a => widths ▸ out.bare a, fun u o' found' => ?_⟩, fun u a inherits => ?_⟩
  · rcases every u o' found' with ⟨o, -, _, block', -, laid', -⟩ | ⟨-, none, narrow⟩
    · rw [laid'.length, countSlots, widths]
    · have laid : Laid (propdefsLength s) (dbAncestors s' u true) (fun _ => []) o'.propval :=
        ⟨by simp [none], fun a member => (narrow a member).symm⟩
      rw [laid.length, countSlots, widths]
  · obtain ⟨o', found'⟩ := Option.isSome_iff_exists.mp inherits.1
    rcases every u o' found' with ⟨o, found, block, block', laid, laid', kept⟩ | ⟨absent, none, -⟩
    · have after : slotsFor s' u a = block' a := slotsFor_eq found' (widths ▸ laid') inherits.2
      rw [after]
      refine ⟨fun old => ?_, fun absent => ?_⟩
      · rw [slotsFor_eq found laid old.2]
        exact (kept a inherits.2).1 old.2
      · refine (kept a inherits.2).2 fun member => absent ⟨?_, member⟩
        rw [found]
        rfl
    · have empty : slotsFor s' u a = [] := by
        simp only [slotsFor, found']
        split <;> simp_all
      have never : ¬Inherits s u a := by
        intro old
        have present := old.1
        rw [absent] at present
        cases present
      rw [empty]
      exact ⟨fun old => absurd old never, by rintro _ _ ⟨⟩⟩

theorem Reparented.moved (change : Reparented s s2 v new) (out : LaidOut s) {o : Object V}
    (found : s.object v = some o) (newValid : ∀ p ∈ new.named, s.valid p = true)
    (apart : ∀ p ∈ new.named, ¬Ancestor s (.obj p) v) : Moved s s2 v where
  out := out
  graph := change.wellFormed out.graph found newValid apart
  parents := change.parentsOf
  widths := by
    funext w
    unfold propdefsLength
    cases before : s.object w with
    | none => rw [change.absent w before]
    | some ow =>
        obtain ⟨children, after, -⟩ := change.object w ow before
        rw [after]
  slots w := by
    cases before : s.object w with
    | none => rw [change.absent w before]
    | some ow =>
        obtain ⟨children, after, -⟩ := change.object w ow before
        rw [after]
        rfl

theorem Reparented.parentsAfter (change : Reparented s s2 v new) {o : Object V}
    (found : s.object v = some o) : ToastStunt.parentsOf s2 = parentsAfter s v new := by
  funext w
  unfold ToastStunt.parentsAfter
  split
  · rename_i self
    exact self ▸ change.parentsOf_self found
  · rename_i other
    exact change.parentsOf w other

theorem Reparented.separated (change : Reparented s s2 v new) {o : Object V}
    (found : s.object v = some o) (moved : Moved s s2 v) (separable : Separable s v new) :
    Separated s s2 v := by
  have after (w : ObjVar) : dbAncestors s2 w true = ancestorsAfter s v new w := by
    simp only [dbAncestors, ancestorsAfter, change.parentsAfter found, traversalDepth,
      change.numObjects, if_true, List.singleton_append]
  intro d below other
  have parents := moved.parents d other
  rcases separable d (moved.below.mp below) other with unique | stable
  · left
    intro p edgeP q edgeQ upP upQ
    rw [parents] at edgeP edgeQ
    exact unique p edgeP q edgeQ (moved.below.mp upP) (moved.below.mp upQ)
  · right
    intro p edge changed
    rw [parents] at edge
    refine changed ?_
    rw [after]
    exact stable p edge (moved.below.mp (moved.changed_below changed))

theorem relinked_runs (out : LaidOut s)
    (separated : Reparented s s2 v new → Moved s s2 v → Separated s s2 v)
    (newValid : ∀ p ∈ new.named, s.valid p = true)
    (apart : ∀ p ∈ new.named, ¬Ancestor s (.obj p) v) {o : Object V}
    (found : s.object v = some o) {s1 : Db V} (relinked : relink s v o.parents new = .ok s1)
    (assigned : s1.modify v (fun o => { o with parents := new }) = .ok s2) :
    ∃ s', dbprivFixPropertiesAfterChparent (traversalDepth s2 + 1) v (dbAncestors s v true)
        (dbAncestors s2 v true) (gatheredKids s v []) s2 = .ok s' ∧ LaidOut s' ∧ Kept s s' := by
  have change := reparented out.graph found relinked assigned
  have moved := change.moved out found newValid apart
  have separated := separated change moved
  obtain ⟨rank, ranked, bounded⟩ := moved.graph.ranked_children
  have enough : Reaches rank (traversalDepth s2 + 1) v := by
    have bound := bounded v
    cases v with
    | obj p =>
        show rank (.obj p) + 2 ≤ traversalDepth s2 + 1
        omega
    | anon a =>
        show 1 ≤ traversalDepth s2 + 1
        omega
  have kidsSame : gatheredKids s v [] = kidsOf s2 v := by
    obtain ⟨_, -, rfl⟩ := Db.modify_ok assigned
    cases v with
    | anon a => rfl
    | obj p =>
        obtain ⟨-, rfl⟩ := relinkChildren_ok relinked
        rfl
  have ready : Ready s s2 s2 v := by
    refine ⟨SameUpTo.refl s2, fun u _ => moved.slots u, fun u _ _ => moved.slots u, ?_⟩
    intro u edge changed
    exact absurd (moved.changed_below changed) (moved.graph.no_cycle edge)
  have own : v ∈ dbAncestors s v true := out.graph.mem_ancestors.mpr (Ancestor.self s v)
  have present : ∃ o2, s2.object v = some o2 := by
    obtain ⟨_, object, -⟩ := change.object v o found
    exact ⟨_, object⟩
  obtain ⟨s', ran, relaid⟩ :=
    moved.fix_runs separated ranked enough (Ancestor.self s2 v) own rfl ready present
  rw [kidsSame]
  have widths : propdefsLength s' = propdefsLength s := relaid.same.widths.trans moved.widths
  refine ⟨s', ran, kept_of_carried out (relaid.same.graph.wellFormed moved.graph) widths ?_⟩
  intro u o' found'
  rw [relaid.same.graph.dbAncestors]
  have view := congrArg (Option.map fun _ => ()) (relaid.same.view u)
  have slotsU := moved.slots u
  obtain ⟨before, foundBefore⟩ : ∃ before, s.object u = some before := by
    cases known : s.object u with
    | some before => exact ⟨before, rfl⟩
    | none => simp [found', change.absent u known] at view
  refine Or.inl ⟨before, foundBefore, ?_⟩
  by_cases both : Changed s s2 u ∧ Ancestor s2 u v
  · obtain ⟨slots, values, carried⟩ := relaid.carried u before both.1 both.2 foundBefore
    obtain ⟨o2, found2, same⟩ := valuesOf_some.mp values
    rw [found'] at found2
    cases found2
    exact same ▸ carried
  · have stable : ¬Changed s s2 u := fun changed => both ⟨changed, moved.changed_below changed⟩
    have values := relaid.untouched u both
    simp only [valuesOf, found', slotsU, foundBefore, Option.map_some, Option.some.injEq] at values
    rw [values]
    exact Carried.of_laid (out.laid foundBefore) (not_not.mp stable)

/-- The condition under which re-parenting `v` keeps the slots, for whatever comes of it. -/
def SeparatedBy (s : Db V) (v : ObjVar) (new : ObjOrList) : Prop :=
  ∀ s2, Reparented s s2 v new → Moved s s2 v → Separated s s2 v

theorem Separable.separatedBy (separable : Separable s v new) {o : Object V}
    (found : s.object v = some o) : SeparatedBy s v new :=
  fun _ change moved => change.separated found moved separable

theorem ChangedParents.kept (change : ChangedParents s s' v new (gatheredKids s v []) s2)
    (out : LaidOut s) (separated : SeparatedBy s v new)
    (newValid : ∀ p ∈ new.named, s.valid p = true)
    (apart : ∀ p ∈ new.named, ¬Ancestor s (.obj p) v) : LaidOut s' ∧ Kept s s' := by
  obtain ⟨o, s1, found, relinked, assigned⟩ := change.relinked
  obtain ⟨s3, ran, result⟩ :=
    relinked_runs out (separated s2) newValid apart found relinked assigned
  have same := change.fixed
  rw [ran] at same
  cases same
  exact result

end Reparenting

section Elsewhere

variable {s s' : Db V} {v : ObjVar}

theorem propdefsLength_eq {w : ObjVar} (same : (s'.object w).map Object.propdefs =
    (s.object w).map Object.propdefs) : propdefsLength s' w = propdefsLength s w := by
  unfold propdefsLength
  cases found : s.object w <;> cases found' : s'.object w <;> simp_all

theorem Quiet.parentsOf (quiet : Quiet s s') : parentsOf s' = parentsOf s := by
  have valid : s'.valid = s.valid := by
    funext oid
    have present := congrArg Option.isSome (quiet.view (.obj oid))
    simpa [Db.valid] using present
  funext w
  have same := congrArg (Option.map fun look => look.1) (quiet.view w)
  rw [Option.map_map, Option.map_map] at same
  unfold ToastStunt.parentsOf
  cases found : s.object w <;> cases found' : s'.object w <;>
    simp_all [Object.inheritance]

theorem Quiet.kept (quiet : Quiet s s') (out : LaidOut s) (graph' : WellFormed s') :
    LaidOut s' ∧ Kept s s' := by
  have view {α : Type} (look : ObjOrList × List Int × List Propdef × List (Pval V) → α)
      (w : ObjVar) : (s'.object w).map (fun o => look o.inheritance) =
        (s.object w).map fun o => look o.inheritance := by
    have same := congrArg (Option.map look) (quiet.view w)
    rw [Option.map_map, Option.map_map] at same
    exact same
  have result := kept_of_same (f := id) out graph' fun w o' found' => by
    have same := view (fun look => look.2.2.2) w
    rw [found', Option.map_some, eq_comm, Option.map_eq_some_iff] at same
    obtain ⟨o, found, slots⟩ := same
    refine ⟨o, found, ?_, ancestors_congr out.graph graph' fun u _ =>
      congrFun quiet.parentsOf u, fun a _ => ?_⟩
    · rw [List.map_id]
      exact slots.symm
    · exact propdefsLength_eq (view (fun look => look.2.2.1) a)
  exact ⟨result.1, result.2.of_map_id⟩

theorem parentsOf_elsewhere (elsewhere : ∀ w, w ≠ v → s'.object w = s.object w) {w : ObjVar}
    (other : w ≠ v) (alone : v ∉ parentsOf s w) (alone' : v ∉ parentsOf s' w) :
    parentsOf s' w = parentsOf s w := by
  have object := elsewhere w other
  cases found : s.object w with
  | none => simp [parentsOf, object, found]
  | some o =>
      have found' : s'.object w = some o := object.trans found
      have same : ∀ p ∈ enlistVar o.parents, s'.valid p = s.valid p := by
        intro p member
        by_cases self : ObjVar.obj p = v
        · have invalid : s.valid p = false := by
            by_contra valid
            exact alone (self ▸ mem_parentsOf.mpr ⟨o, p, found, member, by simpa using valid, rfl⟩)
          have invalid' : s'.valid p = false := by
            by_contra valid
            exact alone' (self ▸ mem_parentsOf.mpr
              ⟨o, p, found', member, by simpa using valid, rfl⟩)
          rw [invalid, invalid']
        · rw [Db.valid, Db.valid, elsewhere _ self]
      simp only [parentsOf, found, found']
      rw [List.filter_congr same]

theorem ancestors_elsewhere (graph : WellFormed s) (graph' : WellFormed s')
    (elsewhere : ∀ w, w ≠ v → s'.object w = s.object w) (alone : ∀ w, v ∉ parentsOf s w)
    (alone' : ∀ w, v ∉ parentsOf s' w) {w : ObjVar} (other : w ≠ v) :
    v ∉ dbAncestors s w true ∧ dbAncestors s' w true = dbAncestors s w true := by
  have apart {u : ObjVar} (path : Ancestor s w u) : u ≠ v := by
    rintro rfl
    rcases Relation.ReflTransGen.cases_tail path with same | ⟨_, _, edge⟩
    · exact other same.symm
    · exact alone _ edge
  refine ⟨fun member => apart (graph.mem_ancestors.mp member) rfl, ?_⟩
  refine ancestors_congr graph graph' fun u path => ?_
  exact parentsOf_elsewhere elsewhere (apart path) (alone u) (alone' u)

theorem not_parent_of_absent (absent : s.object v = none) (w : ObjVar) : v ∉ parentsOf s w := by
  intro edge
  obtain ⟨p, rfl, valid⟩ := WellFormed.parent_is_obj edge
  rw [Db.valid, absent] at valid
  cases valid

theorem Blank.ancestors (blank : Blank s s' v) (graph : WellFormed s) (graph' : WellFormed s')
    {w : ObjVar} (other : w ≠ v) : dbAncestors s' w true = dbAncestors s w true :=
  (ancestors_elsewhere graph graph' blank.elsewhere (not_parent_of_absent blank.absent)
    (fun _ edge => (blank.no_parent graph graph' edge).2 rfl) other).2

theorem Blank.kept (blank : Blank s s' v) (out : LaidOut s) (graph' : WellFormed s') :
    LaidOut s' ∧ Kept s s' := by
  obtain ⟨fresh, foundFresh, bare⟩ := blank.present
  simp only [Object.inheritance, Prod.mk.injEq] at bare
  have widths : propdefsLength s' = propdefsLength s := by
    funext w
    by_cases self : w = v
    · subst self
      simp [propdefsLength, blank.absent, foundFresh, bare.2.2.1]
    · simp only [propdefsLength, blank.elsewhere w self]
  refine kept_of_carried out graph' widths fun u o' found' => ?_
  by_cases self : u = v
  · subst self
    rw [foundFresh] at found'
    cases found'
    refine Or.inr ⟨blank.absent, bare.2.2.2, fun a member => ?_⟩
    have none : parentsOf s' u = [] := by
      rw [List.eq_nil_iff_forall_not_mem]
      exact fun w edge => (blank.no_parent out.graph graph' edge).1 rfl
    rw [graph'.ancestors_eq, none] at member
    have same : a = u := by simpa using member
    rw [same]
    simp [propdefsLength, blank.absent]
  · have found := blank.elsewhere u self ▸ found'
    refine Or.inl ⟨o', found, ?_⟩
    rw [blank.ancestors out.graph graph' self]
    exact Carried.of_laid (out.laid found) rfl

theorem Gone.alone (gone : Gone s s' v) (graph : WellFormed s) (w : ObjVar) :
    v ∉ parentsOf s w := by
  obtain ⟨o, foundV, childless⟩ := gone.present
  intro edge
  obtain ⟨p, rfl, -⟩ := WellFormed.parent_is_obj edge
  cases w with
  | obj c =>
      have child := mem_childrenOf.mp (graph.mem_children.mpr edge)
      obtain ⟨o', _, found', member, -⟩ := child
      rw [foundV] at found'
      cases found'
      rw [childless] at member
      cases member
  | anon a =>
      have indexed := (graph.indexed p a).mpr (graph.mem_parents.mp edge)
      rw [gone.noAnons p rfl] at indexed
      cases indexed

theorem Gone.kept (gone : Gone s s' v) (out : LaidOut s) (graph' : WellFormed s') :
    LaidOut s' ∧ Kept s s' := by
  have alone := gone.alone out.graph
  have alone' := not_parent_of_absent gone.absent
  have result := kept_of_same (f := id) out graph' fun w o' found' => by
    have other : w ≠ v := by
      rintro rfl
      rw [gone.absent] at found'
      cases found'
    obtain ⟨outside, order⟩ :=
      ancestors_elsewhere out.graph graph' gone.elsewhere alone alone' other
    refine ⟨o', gone.elsewhere w other ▸ found', by rw [List.map_id], order, fun a member => ?_⟩
    have apart : a ≠ v := by
      rintro rfl
      exact outside member
    simp only [propdefsLength, gone.elsewhere a apart]
  exact ⟨result.1, result.2.of_map_id⟩

theorem Kept.trans {s1 s2 s3 : Db V} (first : Kept s1 s2) (second : Kept s2 s3)
    (between : ∀ v a, Inherits s3 v a → Inherits s1 v a → Inherits s2 v a) : Kept s1 s3 :=
  KeptBy.trans first second between fun _ _ _ clear => clear

theorem Inherits.of_shrinks (graph : WellFormed s) (graph' : WellFormed s')
    (shrinks : Shrinks s s') (back : ∀ w, s.object w = none → s'.object w = none) {w a : ObjVar}
    (inherits : Inherits s' w a) : Inherits s w a := by
  constructor
  · by_contra absent
    have none := back w (by simpa using absent)
    rw [Inherits, none] at inherits
    cases inherits.1
  · exact graph.mem_ancestors.mpr (shrinks.ancestors (graph'.mem_ancestors.mp inherits.2))

end Elsewhere

section Birth

variable {s s' : Db V} {v : ObjVar} {parents : ObjOrList}

theorem separatedBy_of_childless {o : Object V} (found : s.object v = some o) (childless : ∀ d, Ancestor s d v → d = v) (new : ObjOrList) :
    SeparatedBy s v new := by
  refine Separable.separatedBy ?_ found
  intro d below other
  exact absurd (childless d below) other

theorem Blank.only (blank : Blank s s' v) (graph : WellFormed s) (graph' : WellFormed s')
    {d : ObjVar} (path : Ancestor s' d v) : d = v := by
  rcases Relation.ReflTransGen.cases_tail path with same | ⟨_, _, edge⟩
  · exact same.symm
  · exact absurd rfl (blank.no_parent graph graph' edge).2

theorem Born.kept (born : Born s s' v parents) (out : LaidOut s) : LaidOut s' ∧ Kept s s' := by
  obtain ⟨s1, s2, s3, blank, graph1, change, newValid, graph3, quiet, graph'⟩ := born
  obtain ⟨out1, kept1⟩ := blank.kept out graph1
  obtain ⟨fresh, found, -⟩ := blank.present
  have only {d : ObjVar} (path : Ancestor s1 d v) : d = v := blank.only out.graph graph1 path
  have apart : ∀ p ∈ parents.named, ¬Ancestor s1 (.obj p) v := by
    intro p named path
    have same := only path
    subst same
    exact change.not_own_parent graph1 named
  have separated := separatedBy_of_childless found (fun d => only) parents
  obtain ⟨out3, kept3⟩ := change.kept out1 separated newValid apart
  obtain ⟨out', kept'⟩ := quiet.kept out3 graph'
  refine ⟨out', (kept1.trans kept3 ?_).trans kept' ?_⟩
  · intro w a _ inherits
    have other : w ≠ v := by
      rintro rfl
      rw [Inherits, blank.absent] at inherits
      cases inherits.1
    refine ⟨blank.elsewhere w other ▸ inherits.1, ?_⟩
    rw [blank.ancestors out.graph graph1 other]
    exact inherits.2
  · intro w a inherits _
    exact inherits.of_shrinks graph3 graph' quiet.shrinks fun u none => by
      simpa [none] using quiet.view u

end Birth

section Recycling

variable {s s' : Db V} {oid : Int}

def OneWay (s : Db V) (v : ObjVar) : Prop :=
  ∀ d, Ancestor s d v → d ≠ v →
    ∀ p ∈ parentsOf s d, ∀ q ∈ parentsOf s d, Ancestor s p v → Ancestor s q v → p = q

/-- The recycled object defines no property, or its children are reached in one way each. -/
def Recyclable (s : Db V) (oid : Int) : Prop :=
  (∀ o, s.object (.obj oid) = some o → o.propdefs = []) ∨
    ∀ c, .obj oid ∈ parentsOf s c → OneWay s c

theorem OneWay.separable {v : ObjVar} (oneWay : OneWay s v) (new : ObjOrList) :
    Separable s v new := fun d below other => Or.inl (oneWay d below other)

theorem split_at_mem {oids : List Int} (member : oid ∈ oids) :
    oids = oids.takeWhile (· ≠ oid) ++
      oid :: oids.drop ((oids.takeWhile (· ≠ oid)).length + 1) := by
  induction oids with
  | nil => cases member
  | cons head rest ih =>
      by_cases same : head = oid
      · simp [same]
      · have later : oid ∈ rest := by simpa [Ne.symm same] using member
        have kept : (decide (head ≠ oid)) = true := by simpa using same
        rw [List.takeWhile_cons, if_pos kept, List.length_cons, List.drop_succ_cons,
          List.cons_append, ← ih later]

theorem splicedParents_list (graph : WellFormed s) {child : ObjVar} {c o : Object V}
    (edge : .obj oid ∈ parentsOf s child) (foundChild : s.object child = some c)
    (found : s.object (.obj oid) = some o) :
    (∃ front back, parentsOf s child = front ++ .obj oid :: back ∧
      ((enlistVar (splicedParents s oid c.parents o.parents)).filter s.valid).map ObjVar.obj =
        addAll [] (front ++ parentsOf s (.obj oid) ++ back)) ∨
    parentsOf s child = [.obj oid] ∧
      ((enlistVar (splicedParents s oid c.parents o.parents)).filter s.valid).map ObjVar.obj =
        parentsOf s (.obj oid) := by
  obtain ⟨c', p, foundC, member, valid, same⟩ := mem_parentsOf.mp edge
  rw [foundChild] at foundC
  cases foundC
  cases same
  cases parents : c.parents with
  | obj q =>
      right
      have same : oid = q := by simpa [parents, enlistVar] using member
      subst same
      constructor
      · simp [parentsOf, foundChild, parents, enlistVar, valid]
      · simp [splicedParents, parentsOf, found]
  | list oids =>
      left
      obtain ⟨allValid, parentsC⟩ := parentsOf_list graph foundChild parents
      have inside : oid ∈ oids := by simpa [parents, enlistVar] using member
      have halves := split_at_mem inside
      let before := oids.takeWhile (· ≠ oid)
      let after := oids.drop (before.length + 1)
      obtain ⟨middle, middleEq, middleParents⟩ : ∃ middle : List Int,
          splicedParents s oid (.list oids) o.parents =
            .list (addAll (addAll (addAll [] before) middle) after) ∧
          middle.map ObjVar.obj = parentsOf s (.obj oid) := by
        cases above : o.parents with
        | obj q =>
            refine ⟨if s.valid q then [q] else [], rfl, ?_⟩
            by_cases validQ : s.valid q = true <;> simp [parentsOf, found, above, enlistVar, validQ]
        | list others =>
            exact ⟨others, rfl, (parentsOf_list graph found above).2.symm⟩
      have valid : ∀ q ∈ before ++ middle ++ after, s.valid q = true := by
        intro q memberQ
        simp only [List.mem_append] at memberQ
        rcases memberQ with (first | second) | third
        · exact allValid q (List.takeWhile_subset _ first)
        · obtain ⟨r, same, validR⟩ := WellFormed.parent_is_obj
            (middleParents ▸ List.mem_map_of_mem second)
          cases same
          exact validR
        · exact allValid q (List.mem_of_mem_drop third)
      refine ⟨before.map .obj, after.map .obj, ?_, ?_⟩
      · rw [parentsC, ← List.map_cons, ← List.map_append, ← halves]
      · rw [middleEq, ← middleParents, ← List.map_append, ← List.map_append]
        simp only [enlistVar]
        rw [← addAll_append, ← addAll_append, List.filter_eq_self.mpr fun q memberQ =>
          valid q (by simpa [or_assoc] using memberQ)]
        have image : addAll ([].map ObjVar.obj) ((before ++ middle ++ after).map ObjVar.obj) =
            (addAll [] (before ++ middle ++ after)).map ObjVar.obj :=
          addAll_map fun a _ b _ same => ObjVar.obj.inj same
        simpa only [List.append_assoc, List.map_nil] using image.symm

theorem spliced_unchanged {s2 : Db V} {child : ObjVar} {c o : Object V} (moved : Moved s s2 child)
    (edge : .obj oid ∈ parentsOf s child) (foundChild : s.object child = some c)
    (found : s.object (.obj oid) = some o) (bare : o.propdefs = [])
    (after : parentsOf s2 child =
      ((enlistVar (splicedParents s oid c.parents o.parents)).filter s.valid).map .obj)
    (w : ObjVar) : ¬Changed s s2 w := by
  obtain ⟨rank, ranked⟩ := moved.graph.acyclic
  generalize bound : rank w = depth
  induction depth using Nat.strongRecOn generalizing w with
  | ind depth ih =>
      have parents (p : ObjVar) (edgeP : p ∈ parentsOf s2 w) : ¬Changed s s2 p :=
        ih (rank p) (bound ▸ ranked w p edgeP) p rfl
      by_cases self : w = child
      · subst self
        have graph := moved.out.graph
        rw [Changed, not_not, definers_ancestors s moved.graph, definers_ancestors s graph]
        have same : (parentsOf s2 w).flatMap (fun u => definers s (dbAncestors s2 u true)) =
            (parentsOf s2 w).flatMap fun u => definers s (dbAncestors s u true) :=
          List.flatMap_congr fun p edgeP => not_not.mp (parents p edgeP)
        have through : definers s (dbAncestors s (.obj oid) true) =
            addAll [] ((parentsOf s (.obj oid)).flatMap fun u =>
              definers s (dbAncestors s u true)) := by
          have none : definers s [.obj oid] = [] := by
            simp [definers, propdefsLength, found, bare]
          rw [definers_ancestors s graph, none]
        rw [same, after]
        rcases splicedParents_list graph edge foundChild found with
          ⟨front, back, before, spliced⟩ | ⟨only, spliced⟩
        · rw [before, spliced, addAll_flatMap]
          simp only [List.flatMap_append, List.flatMap_cons, addAll_append]
          rw [through, addAll_addAll, addAll_nil]
        · rw [only, spliced, List.flatMap_singleton, through, addAll_addAll, addAll_nil]
      · exact moved.unchanged self parents

theorem Recyclable.separatedBy (recyclable : Recyclable s oid) {child : ObjVar} {c o : Object V}
    (edge : .obj oid ∈ parentsOf s child) (foundChild : s.object child = some c)
    (found : s.object (.obj oid) = some o) :
    SeparatedBy s child (splicedParents s oid c.parents o.parents) := by
  intro s2 reparented moved
  rcases recyclable with bare | oneWay
  · intro d below other
    right
    exact fun p _ => spliced_unchanged moved edge foundChild found (bare o found)
      (reparented.parentsOf_self foundChild) p
  · exact reparented.separated foundChild moved ((oneWay child edge).separable _)

theorem Spliced.kept (turn : Spliced oid s s') (out : LaidOut s) (recyclable : Recyclable s oid) :
    LaidOut s' ∧ Kept s s' ∧ Recyclable s' oid := by
  obtain ⟨graph, child, c, o, s2, next, foundChild, found, change⟩ := turn
  have edge := dbNextChild_ok graph next
  have ancestors := spliced_ancestors graph edge foundChild found
  obtain ⟨out', kept⟩ := change.kept out (recyclable.separatedBy edge foundChild found)
    (fun p named => (ancestors p named).1) (spliced_apart graph edge foundChild found)
  refine ⟨out', kept, ?_⟩
  have shrinks : Shrinks s s' := change.shrinks graph fun p named => by
    obtain ⟨-, u, parent, up⟩ := ancestors p named
    exact Ancestor.above parent up
  rcases recyclable with bare | oneWay
  · left
    intro o' found'
    have same := change.propdefs graph (.obj oid)
    rw [found, found', Option.map_some, Option.map_some, Option.some.injEq] at same
    rw [same, bare o found]
  · right
    intro b edgeB d below other p edgeP q edgeQ upP upQ
    have narrow {w u : ObjVar} (edgeU : u ∈ parentsOf s' w) (above : Ancestor s' u b)
        (notB : w ≠ b) : u ∈ parentsOf s w ∧ Ancestor s u b := by
      have up := shrinks.ancestors above
      refine ⟨?_, up⟩
      by_cases self : w = child
      · subst self
        obtain ⟨r, named, rfl⟩ := change.mem_parents_self graph edgeU
        rcases mem_splicedParents graph named with old | through
        · exact graph.mem_parents.mpr ⟨_, node_some.mpr ⟨c, foundChild, rfl⟩, old⟩
        · have parent : .obj r ∈ parentsOf s (.obj oid) :=
            graph.mem_parents.mpr ⟨_, node_some.mpr ⟨o, found, rfl⟩, through⟩
          have child : .obj oid ∈ parentsOf s b := by
            by_cases same : b = w
            · exact absurd same.symm notB
            · rwa [change.parentsOf graph same] at edgeB
          exact absurd (up.trans (Ancestor.of_edge child)) (graph.no_cycle parent)
      · rwa [change.parentsOf graph self] at edgeU
    have child : .obj oid ∈ parentsOf s b := by
      by_cases self : b = child
      · exact self ▸ edge
      · rwa [change.parentsOf graph self] at edgeB
    have first := narrow edgeP upP other
    have second := narrow edgeQ upQ other
    exact oneWay b child d (shrinks.ancestors below) other p first.1 q second.1 first.2 second.2

theorem Spliced.inherits (turn : Spliced oid s s') {w a : ObjVar} (inherits : Inherits s' w a) :
    Inherits s w a := by
  refine inherits.of_shrinks turn.formed turn.wellFormed turn.shrinks fun u none => ?_
  obtain ⟨graph, child, c, o, s2, -, -, -, change⟩ := turn
  simpa [none] using change.propdefs graph u

theorem spliced_kept (turns : Relation.ReflTransGen (Spliced oid) s s') (out : LaidOut s)
    (recyclable : Recyclable s oid) : LaidOut s' ∧ Kept s s' ∧ Recyclable s' oid := by
  induction turns with
  | refl => exact ⟨out, KeptBy.refl s, recyclable⟩
  | tail _ turn ih =>
      obtain ⟨outM, keptM, recyclableM⟩ := ih
      obtain ⟨out', kept', recyclable'⟩ := turn.kept outM recyclableM
      exact ⟨out', keptM.trans kept' fun _ _ inherits _ => turn.inherits inherits, recyclable'⟩

theorem Quiet.recyclable (quiet : Quiet s s') (recyclable : Recyclable s oid) :
    Recyclable s' oid := by
  rcases recyclable with bare | oneWay
  · left
    intro o' found'
    have same := quiet.view (.obj oid)
    rw [found', Option.map_some, eq_comm, Option.map_eq_some_iff] at same
    obtain ⟨o, found, equal⟩ := same
    simp only [Object.inheritance, Prod.mk.injEq] at equal
    rw [← equal.2.2.1, bare o found]
  · right
    unfold OneWay Ancestor at *
    rw [quiet.parentsOf]
    exact oneWay

def Pval.renounced (oid : Int) (pval : Pval V) : Pval V :=
  { pval with owner := fixupOwner oid pval.owner }

theorem fixupOwners_kept (out : LaidOut s) (oid : Int) : LaidOut (dbFixupOwners s oid) ∧
    KeptBy (fun _ _ slots => slots.map (Pval.renounced oid)) s (dbFixupOwners s oid) := by
  have graph := fixupOwners_graph s oid
  refine kept_of_same out (graph.wellFormed out.graph) fun v o' found' => ?_
  have widths (a : ObjVar) : propdefsLength (dbFixupOwners s oid) a = propdefsLength s a := by
    apply propdefsLength_eq
    unfold dbFixupOwners
    cases a with
    | obj p => simp only [Option.map_map]; rfl
    | anon a =>
        simp only
        split
        · rw [Option.map_map]; rfl
        · rfl
  have order := congrFun (congrFun graph.dbAncestors v) true
  have slots : ∃ o, s.object v = some o ∧ o'.propval = o.propval.map (Pval.renounced oid) := by
    unfold dbFixupOwners at found'
    cases v with
    | obj p =>
        obtain ⟨o, found, rfl⟩ := Option.map_eq_some_iff.mp found'
        exact ⟨o, found, rfl⟩
    | anon a =>
        simp only at found'
        split at found'
        · obtain ⟨o, found, rfl⟩ := Option.map_eq_some_iff.mp found'
          exact ⟨o, found, rfl⟩
        · -- without a parent there are no slots
          rename_i unindexed
          refine ⟨o', found', ?_⟩
          have orphan : parentsOf s (.anon a) = [] := by
            rw [List.eq_nil_iff_forall_not_mem]
            intro u edge
            obtain ⟨p, rfl, valid⟩ := WellFormed.parent_is_obj edge
            have indexed := (out.graph.indexed p a).mpr (out.graph.mem_parents.mp edge)
            have bounds := out.graph.valid_bounds valid
            apply unindexed
            simp only [List.any_eq_true, List.mem_range, decide_eq_true_eq]
            have same : ((p.toNat : Nat) : Int) = p := Int.toNat_of_nonneg bounds.1
            exact ⟨p.toNat, by omega, same ▸ indexed⟩
          have none := out.fit _ o' found'
          rw [out.graph.ancestors_eq, orphan, List.flatMap_nil, addAll_nil, countSlots, total_cons,
            out.bare, total, List.map_nil, List.sum_nil, Nat.add_zero,
            List.length_eq_zero_iff] at none
          rw [none, List.map_nil]
  obtain ⟨o, found, same⟩ := slots
  exact ⟨o, found, same, order, fun a _ => widths a⟩

theorem fixupOwners_inherits {w a : ObjVar} (inherits : Inherits (dbFixupOwners s oid) w a) :
    Inherits s w a := by
  have graph := fixupOwners_graph s oid
  rw [Inherits, graph.dbAncestors] at inherits
  refine ⟨?_, inherits.2⟩
  have view := congrArg Option.isSome (graph.node w)
  rw [Db.node, Db.node, Option.isSome_map, Option.isSome_map] at view
  rw [← view]
  exact inherits.1

theorem Recycled.kept {outcome : Outcome} (recycled : Recycled s s' oid outcome) (out : LaidOut s)
    (recyclable : Recyclable s oid) (graph' : WellFormed s') :
    LaidOut s' ∧ (outcome ≠ .done → Kept s s') ∧
      (outcome = .done → KeptBy (fun _ _ slots => slots.map (Pval.renounced oid)) s s') := by
  obtain ⟨s1, s2, quiet, graph1, turns, graph2, rest⟩ := recycled.steps
  obtain ⟨out1, kept1⟩ := quiet.kept out graph1
  obtain ⟨out2, kept2, -⟩ := spliced_kept turns out1 (quiet.recyclable recyclable)
  have first : Kept s s2 := by
    refine kept1.trans kept2 fun w a inherits _ => ?_
    clear kept2 rest out2 graph2
    induction turns with
    | refl => exact inherits
    | tail _ turn ih => exact ih (turn.inherits inherits)
  rcases rest with ⟨failed, rfl⟩ | ⟨done, s3, detached, graph3, gone⟩
  · exact ⟨out2, fun _ => first, fun done => absurd done failed⟩
  · have owners := fixupOwners_graph s3 oid
    have graphO := owners.wellFormed graph3
    have left : LaidOut s3 ∧ Kept s2 s3 ∧ ∀ w a, Inherits s3 w a → Inherits s2 w a := by
      rcases detached with rfl | ⟨m, change⟩
      · exact ⟨out2, KeptBy.refl _, fun _ _ inherits => inherits⟩
      · have orphan : (ObjOrList.obj NOTHING).named = [] := by simp [ObjOrList.named]
        have alone (w : ObjVar) : .obj oid ∉ parentsOf s2 w := by
          intro edge
          by_cases self : w = .obj oid
          · subst self
            exact graph2.no_cycle edge (Ancestor.self s2 _)
          · have none := gone.alone graphO w
            rw [owners.parentsOf, change.parentsOf graph2 self] at none
            exact none edge
        have childless (d : ObjVar) (path : Ancestor s2 d (.obj oid)) : d = .obj oid := by
          rcases Relation.ReflTransGen.cases_tail path with same | ⟨_, _, edge⟩
          · exact same.symm
          · exact absurd edge (alone _)
        obtain ⟨o, -, found, -⟩ := change.relinked
        have separated := separatedBy_of_childless found childless (.obj NOTHING)
        obtain ⟨out3, kept3⟩ := change.kept out2 separated (by simp [orphan]) (by simp [orphan])
        refine ⟨out3, kept3, fun w a inherits => ?_⟩
        refine inherits.of_shrinks graph2 graph3 (change.shrinks graph2 (by simp [orphan])) ?_
        exact fun u none => by simpa [none] using change.propdefs graph2 u
    obtain ⟨out3, kept3, inherits3⟩ := left
    obtain ⟨outO, keptO⟩ := fixupOwners_kept out3 oid
    obtain ⟨out', kept'⟩ := gone.kept outO graph'
    have upTo3 : Kept s s3 := first.trans kept3 fun w a inherits _ => inherits3 w a inherits
    have upToO := KeptBy.trans upTo3 keptO (fun w a inherits _ => fixupOwners_inherits inherits)
      fun _ _ slots clear pval member => by
        obtain ⟨before, inside, rfl⟩ := List.mem_map.mp member
        exact clear before inside
    have final := KeptBy.trans upToO kept' (fun w a inherits _ =>
      inherits.of_shrinks graphO graph' (gone.shrinks graphO graph') fun u none => by
        by_cases self : u = .obj oid
        · rw [self, gone.absent]
        · rw [gone.elsewhere u self, none]) fun _ _ _ clear => clear
    exact ⟨out', fun failed => absurd done failed, fun _ => final⟩

end Recycling

end ToastStunt
