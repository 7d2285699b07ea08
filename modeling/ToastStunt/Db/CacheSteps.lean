import ToastStunt.Db.Coherence

/-!
Every change of the database keeps the caches coherent, or the caches are cleared
of what it affects: the functions of the server with caches follow those without.
-/

namespace ToastStunt

open FirstVisit Following

variable {V : Type} {plainly : Prop}

def Object.searched (o : Object V) : ObjOrList × List (Word × Bool) := (o.parents, o.callables)

def SameSearch (s s' : Db V) : Prop :=
  ∀ v, (s'.object v).map Object.searched = (s.object v).map Object.searched

namespace SameSearch

variable {s s' : Db V}

theorem of_sameUpTo {α : Type} {look : Object V → α} (same : SameUpTo look s s')
    (seen : ∀ o o', look o' = look o → o'.searched = o.searched) : SameSearch s s' :=
  (same.coarser seen).view

theorem present (same : SameSearch s s') (v : ObjVar) :
    (s'.object v).isSome = (s.object v).isSome := by
  have view := same v
  cases found : s.object v <;> cases found' : s'.object v <;> simp_all

theorem valid (same : SameSearch s s') : s'.valid = s.valid := by
  funext oid
  exact same.present (.obj oid)

theorem back (same : SameSearch s s') {v : ObjVar} {o' : Object V} (found : s'.object v = some o') :
    ∃ o, s.object v = some o ∧ o.parents = o'.parents ∧ o.callables = o'.callables := by
  have view := same v
  rw [found, Option.map_some, eq_comm, Option.map_eq_some_iff] at view
  obtain ⟨o, before, equal⟩ := view
  simp only [Object.searched, Prod.mk.injEq] at equal
  exact ⟨o, before, equal⟩

theorem forth (same : SameSearch s s') {v : ObjVar} {o : Object V} (found : s.object v = some o) :
    ∃ o', s'.object v = some o' ∧ o'.parents = o.parents ∧ o'.callables = o.callables := by
  have view := same v
  rw [found, Option.map_some, Option.map_eq_some_iff] at view
  obtain ⟨o', after, equal⟩ := view
  simp only [Object.searched, Prod.mk.injEq] at equal
  exact ⟨o', after, equal⟩

theorem parentsOf (same : SameSearch s s') : parentsOf s' = parentsOf s := by
  funext v
  unfold ToastStunt.parentsOf
  rw [same.valid]
  cases found' : s'.object v with
  | none =>
      have gone := same.present v
      rw [found', Option.isSome_none, eq_comm, Option.isSome_eq_false_iff, Option.isNone_iff_eq_none]
        at gone
      rw [gone]
  | some o' =>
      obtain ⟨o, found, parents, -⟩ := same.back found'
      simp only [found, parents]

theorem callableAt (same : SameSearch s s') (verb : CString) :
    callableAt s' verb = callableAt s verb := by
  funext v
  refine callableAt_congr ?_ verb
  have view := congrArg (Option.map Prod.snd) (same v)
  rw [Option.map_map, Option.map_map] at view
  exact view

end SameSearch

theorem dbAncestors_congr {s s' : Db V} (graph : WellFormed s) (graph' : WellFormed s')
    {v : ObjVar} (agree : ∀ w, Ancestor s v w → parentsOf s' w = parentsOf s w) (full : Bool) :
    dbAncestors s' v full = dbAncestors s v full := by
  have same := ancestors_congr graph graph' agree
  cases full with
  | true => exact same
  | false => rw [dbAncestors_tail, dbAncestors_tail, same]

namespace Coherent

variable {s s' : Db V} {c : Caches}

theorem sameSearch (coherent : Coherent plainly s c) (same : SameSearch s s') (graph' : WellFormed s') :
    Coherent plainly s' c where
  graph := graph'
  verbless a o' found' := by
    obtain ⟨o, found, -, verbs⟩ := same.back found'
    rw [← callables_nil, ← verbs, callables_nil]
    exact coherent.verbless a o found
  apart v w present presentW := by
    rw [same.present] at present presentW
    exact coherent.apart v w present presentW
  ancestors oid list known := by
    rw [coherent.ancestors oid list known]
    exact (dbAncestors_congr coherent.graph graph' (fun w _ => by rw [same.parentsOf]) false).symm
  verbs plain bucket vc member := by
    obtain ⟨v, o, found, verbs, address, answer⟩ := coherent.verbs plain bucket vc member
    obtain ⟨o', found', -, verbs'⟩ := same.forth found
    refine ⟨v, o', found', ?_, address, answer.trans ?_⟩
    · rwa [ne_eq, ← callables_nil, verbs', callables_nil]
    · rw [calledFrom_congr coherent.graph
        (dbAncestors_congr coherent.graph graph' (fun w _ => by rw [same.parentsOf]) true)
        fun u _ => by rw [same.callableAt]]

theorem unslotted (coherent : Coherent plainly s c) (same : SameUpTo Object.unslotted s s') :
    Coherent plainly s' c := by
  refine coherent.sameSearch (SameSearch.of_sameUpTo same fun o o' sameLook => ?_)
    (same.graph.wellFormed coherent.graph)
  have searched : o'.unslotted.searched = o.unslotted.searched := congrArg Object.searched sameLook
  exact searched

end Coherent

section Slots

variable {s : Db V}

theorem dbAncestors_keeps (Kept : (Nat → List VcEntry) → Prop) (v : ObjVar) (full : Bool) :
    Follows (fun c => Coherent plainly s c ∧ Kept c.vcTable) (Cached.dbAncestors s v full)
      (.ok (dbAncestors s v full)) fun _ c => Coherent plainly s c ∧ Kept c.vcTable := by
  rintro c list c' ⟨coherent, kept⟩ ran
  have present : (s.object v).isSome := by
    obtain ⟨o, found, -⟩ := lift_ok ran
    simp [Db.dereference_ok.mp found]
  obtain ⟨c1, ran1, coherent1, -, table⟩ := dbAncestors_run coherent present full
  rw [ran1] at ran
  cases ran
  exact ⟨rfl, coherent1, table ▸ kept⟩

theorem dbAncestors_follows (v : ObjVar) (full : Bool) :
    Follows (Coherent plainly s) (Cached.dbAncestors s v full) (.ok (dbAncestors s v full))
      fun _ => Coherent plainly s :=
  (dbAncestors_keeps (fun _ => True) v full).mono (fun _ coherent => ⟨coherent, trivial⟩)
    fun _ _ _ => And.left

theorem propertiesOffset_follows (target this : ObjVar) :
    Follows (Coherent plainly s) (Cached.propertiesOffset s target this) (.ok (propertiesOffset s target this))
      fun _ => Coherent plainly s :=
  Follows.query (dbAncestors_follows this true) (Follows.pure fun _ => id)

theorem parentWith_follows (ancestor : ObjVar) (parents : List Int) :
    Follows (Coherent plainly s) (Cached.parentWith s ancestor parents) (.ok (parentWith s ancestor parents))
      fun _ => Coherent plainly s := by
  induction parents with
  | nil => exact Follows.pure fun _ => id
  | cons parent rest ih =>
      unfold Cached.parentWith parentWith
      split
      · refine Follows.query (propertiesOffset_follows ancestor (.obj parent)) ?_
        cases propertiesOffset s ancestor (.obj parent) with
        | none => exact ih
        | some offset => exact Follows.pure fun _ => id
      · exact ih

theorem slotsOf_follows (me : Object V) (old : List ObjVar) (ancestor : ObjVar) :
    Follows (Coherent plainly s) (Cached.slotsOf s me old ancestor) (slotsOf s me old ancestor)
      fun _ => Coherent plainly s := by
  unfold Cached.slotsOf slotsOf
  simp only
  cases offsetIn s ancestor old with
  | some offset => exact Follows.lift_only
  | none =>
      simp only
      refine Follows.ite (fun _ => Follows.pure fun _ => id) fun _ => ?_
      refine Follows.query (parentWith_follows ancestor (enlistVar me.parents)) ?_
      cases parentWith s ancestor (enlistVar me.parents) with
      | none => exact Follows.throw
      | some found =>
          refine Follows.lift fun op _ => ?_
          exact Follows.lift fun inherited _ => Follows.pure fun _ => id

theorem ancestorsThrough_follows (obj child : ObjVar) (old new : List ObjVar) :
    Follows (Coherent plainly s) (Cached.ancestorsThrough s obj child old new)
      (ancestorsThrough s obj child old new) fun _ => Coherent plainly s := by
  unfold Cached.ancestorsThrough ancestorsThrough
  refine Follows.lift fun oc _ => ?_
  cases oc.parents with
  | obj _ => exact Follows.pure fun _ => id
  | list parents =>
      refine Follows.foldlM (fun _ => Coherent plainly s) (fun parent _ lists => ?_) _
      refine Follows.lift fun op _ => ?_
      refine Follows.ite (fun _ => Follows.pure fun _ => id) fun _ => ?_
      exact Follows.query (dbAncestors_follows _ true) (Follows.pure fun _ => id)

theorem fix_follows {fuel : Nat} {s : Db V} (obj : ObjVar) (old new : List ObjVar)
    (anonKids : List Nat) :
    Follows (Coherent plainly s) (Cached.dbprivFixPropertiesAfterChparent fuel obj old new anonKids s)
      (dbprivFixPropertiesAfterChparent fuel obj old new anonKids s) (Coherent plainly) := by
  induction fuel generalizing s obj old new anonKids with
  | zero => exact Follows.throw
  | succ fuel ih =>
      unfold Cached.dbprivFixPropertiesAfterChparent dbprivFixPropertiesAfterChparent
      refine Follows.lift fun me _ => ?_
      refine Follows.ite (fun _ => ?_) fun _ => ?_
      · exact Follows.throw_bind
      · refine Follows.bind (Follows.mapM fun ancestor _ => slotsOf_follows me old ancestor) ?_
        intro slots _
        refine Follows.lift fun s1 assigned => ?_
        have same : SameUpTo Object.unslotted s s1 := SameUpTo.of_modify (by intros; rfl) assigned
        refine Follows.mono (?_ : Follows (Coherent plainly s1) _ _ (Coherent plainly))
          (fun c coherent => coherent.unslotted same) fun _ _ _ => id
        refine Follows.foldlM (Coherent plainly) (fun child _ before => ?_) s1
        refine Follows.bind (ancestorsThrough_follows obj child old new) fun lists _ => ?_
        exact ih child lists.1 lists.2 (childAnonKids before child)

theorem cached_fix_unslotted {fuel : Nat} {s s' : Db V} {v : ObjVar} {old new : List ObjVar}
    {anonKids : List Nat} {c c' : Caches}
    (ran : (Cached.dbprivFixPropertiesAfterChparent fuel v old new anonKids s).run c = .ok (s', c')) :
    SameUpTo Object.unslotted s s' := by
  induction fuel generalizing s s' v old new anonKids c c' with
  | zero => cases ran
  | succ fuel ih =>
      obtain ⟨me, -, ran⟩ := lift_ok ran
      split at ran
      · cases ran
      · obtain ⟨slots, c1, -, ran⟩ := bind_ok ran
        obtain ⟨s1, assigned, ran⟩ := lift_ok ran
        have start : SameUpTo Object.unslotted s s1 :=
          SameUpTo.of_modify (by intros; rfl) assigned
        simp only [run_foldlM] at ran
        refine Failing.foldlM_invariant
          (fun (pair : Db V × Caches) => SameUpTo Object.unslotted s pair.1) ?_ start ran
        rintro child _ before after same step
        obtain ⟨lists, c2, -, step⟩ := bind_ok step
        exact same.trans (ih step)

theorem cached_fix_not_own_child {fuel : Nat} {s s' : Db V} {oid : Int} {old new : List ObjVar}
    {anonKids : List Nat} {c c' : Caches}
    (ran : (Cached.dbprivFixPropertiesAfterChparent fuel (.obj oid) old new anonKids s).run c =
      .ok (s', c')) {o : Object V} (found : s.object (.obj oid) = some o) : oid ∉ o.children := by
  intro ownChild
  induction fuel generalizing s s' old new anonKids o c c' with
  | zero => cases ran
  | succ fuel ih =>
      obtain ⟨me, foundMe, ran⟩ := lift_ok ran
      rw [Db.dereference_ok, found] at foundMe
      cases foundMe
      split at ran
      · cases ran
      · obtain ⟨slots, c1, -, ran⟩ := bind_ok ran
        obtain ⟨s1, assigned, ran⟩ := lift_ok ran
        have start : SameUpTo Object.unslotted s s1 :=
          SameUpTo.of_modify (by intros; rfl) assigned
        have member : ObjVar.obj oid ∈ o.children.map ObjVar.obj ++ anonKids.map ObjVar.anon :=
          List.mem_append_left _ (List.mem_map_of_mem ownChild)
        simp only [run_foldlM] at ran
        obtain ⟨before, after, same, step⟩ := Failing.foldlM_reaches
          (fun (pair : Db V × Caches) => SameUpTo Object.unslotted s pair.1) (by
            intro child _ before after same step
            obtain ⟨lists, c2, -, step⟩ := bind_ok step
            exact same.trans (cached_fix_unslotted step)) start ran _ member
        obtain ⟨lists, c2, -, step⟩ := bind_ok step
        have node := same.graph.node (.obj oid)
        obtain ⟨o', found', sameNode⟩ := node_some.mp (node.trans (node_some.mpr ⟨o, found, rfl⟩))
        refine ih step found' ?_
        rw [show o'.children = o.children from congrArg Node.children sameNode]
        exact ownChild

end Slots

section Parents

variable {s s2 : Db V} {c : Caches} {v : ObjVar} {new : ObjOrList}

/-- Either the table of verbs was cleared, or the object has neither verbs nor children. -/
def Spared (o : Object V) (table : Nat → List VcEntry) : Prop :=
  o.verbdefs = [] ∧ o.children = [] ∨ table = fun _ => []

def forgotten (s : Db V) (v : ObjVar) (c : Caches) : Caches :=
  match v with
  | .obj oid => c.forget (dbDescendants s (.obj oid) true)
  | .anon _ => c

theorem forgotten_address (s : Db V) (v : ObjVar) (c : Caches) :
    (forgotten s v c).address = c.address := by
  cases v <;> rfl

theorem forgotten_vcTable (s : Db V) (v : ObjVar) (c : Caches) :
    (forgotten s v c).vcTable = c.vcTable := by
  cases v <;> rfl

/-- What stays in the ancestor cache is not below the object. -/
theorem forgotten_known (graph : WellFormed s) {oid : Int} {list : List ObjVar}
    (known : (forgotten s v c).ancestorCache oid = some list) :
    c.ancestorCache oid = some list ∧ ¬Ancestor s (.obj oid) v := by
  cases v with
  | anon a => exact ⟨known, not_anon_ancestor⟩
  | obj p =>
      simp only [forgotten, Caches.forget] at known
      split at known
      · cases known
      · rename_i outside
        exact ⟨known, fun path => outside (graph.mem_descendants.mpr ⟨⟨oid, rfl⟩, path⟩)⟩

theorem Reparented.back (change : Reparented s s2 v new) {w : ObjVar} {o' : Object V}
    (found' : s2.object w = some o') : ∃ o, s.object w = some o ∧ o'.verbdefs = o.verbdefs := by
  cases found : s.object w with
  | none =>
      rw [change.absent w found] at found'
      cases found'
  | some o =>
      obtain ⟨children, after, -⟩ := change.object w o found
      rw [found'] at after
      exact ⟨o, rfl, by rw [Option.some.inj after]⟩

theorem Reparented.callableAt (change : Reparented s s2 v new) (verb : CString) :
    callableAt s2 verb = callableAt s verb := by
  funext w
  refine callableAt_congr ?_ verb
  cases found : s.object w with
  | none => rw [change.absent w found]
  | some o =>
      obtain ⟨children, after, -⟩ := change.object w o found
      rw [after]
      rfl

theorem Coherent.relinked (coherent : Coherent plainly s c) (change : Reparented s s2 v new)
    (graph2 : WellFormed s2) {o : Object V} (found : s.object v = some o)
    (spared : Spared o c.vcTable) : Coherent plainly s2 (forgotten s2 v c) where
  graph := graph2
  verbless a o' found' := by
    obtain ⟨before, foundBefore, verbs⟩ := change.back found'
    rw [verbs]
    exact coherent.verbless a before foundBefore
  apart w u presentW presentU := by
    rw [forgotten_address]
    obtain ⟨ow', foundW⟩ := Option.isSome_iff_exists.mp presentW
    obtain ⟨ou', foundU⟩ := Option.isSome_iff_exists.mp presentU
    obtain ⟨ow, beforeW, -⟩ := change.back foundW
    obtain ⟨ou, beforeU, -⟩ := change.back foundU
    exact coherent.apart w u (by simp [beforeW]) (by simp [beforeU])
  ancestors oid list known := by
    obtain ⟨before, outside⟩ := forgotten_known graph2 known
    rw [coherent.ancestors oid list before]
    refine dbAncestors_congr graph2 coherent.graph (fun w path => ?_) false
    have other : w ≠ v := by
      rintro rfl
      exact outside path
    exact (change.parentsOf w other).symm
  verbs plain bucket vc member := by
    rw [forgotten_vcTable] at member
    rcases spared with ⟨verbless, childless⟩ | cleared
    · obtain ⟨w, ow, foundW, verbs, address, answer⟩ := coherent.verbs plain bucket vc member
      have outside : ¬Ancestor s w v := by
        intro path
        have other : w ≠ v := by
          rintro rfl
          rw [found] at foundW
          cases foundW
          exact verbs verbless
        cases w with
        | anon a => exact verbs (coherent.verbless a ow foundW)
        | obj p =>
            cases v with
            | anon a => exact not_anon_ancestor path
            | obj oid => exact other (by rw [coherent.graph.childless_apart found childless path])
      have order : dbAncestors s2 w true = dbAncestors s w true := by
        refine dbAncestors_congr coherent.graph graph2 (fun u path => change.parentsOf u ?_) true
        rintro rfl
        exact outside path
      obtain ⟨children, after, -⟩ := change.object w ow foundW
      refine ⟨w, _, after, verbs, by rw [forgotten_address]; exact address, ?_⟩
      rw [answer, calledFrom_congr coherent.graph order fun u _ => by rw [change.callableAt]]
      unfold Caches.handle
      rw [forgotten_address]
    · rw [cleared] at member
      cases member

theorem affectedByParents_keeps (o : Object V) :
    Follows (Coherent plainly s) (Cached.affectedByParents o) (.ok ()) fun _ c =>
      Coherent plainly s c ∧ Spared o c.vcTable := by
  intro c u c' coherent ran
  unfold Cached.affectedByParents at ran
  split at ran
  · rename_i spared
    cases ran
    exact ⟨rfl, coherent, Or.inl spared⟩
  · cases ran
    exact ⟨rfl, coherent.withoutVerbs, Or.inr rfl⟩

theorem forgetDescendants_follows (Before After : Caches → Prop) (s : Db V) (v : ObjVar)
    (holds : ∀ c, Before c → After (forgotten s v c)) :
    Follows Before (Cached.forgetDescendants s v) (.ok ()) fun _ => After := by
  intro c u c' before ran
  cases v with
  | obj oid =>
      cases ran
      exact ⟨rfl, holds c before⟩
  | anon a =>
      cases ran
      exact ⟨rfl, holds c before⟩

/-- Re-parenting erases what it affects. An object that is made its own parent has no state
afterwards, so the graph may be taken to be well-formed. -/
theorem dbChangeParents_follows (graph : WellFormed s)
    (newValid : (∃ oid, v = .obj oid) ∨ ∀ p ∈ new.named, s.valid p = true)
    (apart : ∀ p ∈ new.named, Ancestor s (.obj p) v → v = .obj p) (anonKids : List Nat) :
    Follows (Coherent plainly s) (Cached.dbChangeParents s v new anonKids)
      (dbChangeParents s v new anonKids) fun r c => Coherent plainly r.2 c := by
  unfold Cached.dbChangeParents dbChangeParents
  refine Follows.ite (fun _ => Follows.pure fun _ => id) fun _ => ?_
  simp only
  refine Follows.lift fun kidsOk _ => ?_
  refine Follows.ite (fun _ => Follows.pure fun _ => id) fun _ => ?_
  refine Follows.lift fun propertiesOk _ => ?_
  refine Follows.ite (fun _ => Follows.pure fun _ => id) fun _ => ?_
  refine Follows.lift fun o dereferenced => ?_
  have found := Db.dereference_ok.mp dereferenced
  refine Follows.query (affectedByParents_keeps o) ?_
  refine Follows.query (dbAncestors_keeps (Spared o) v true) ?_
  refine Follows.lift fun s1 relinked => ?_
  refine Follows.lift fun s2 assigned => ?_
  have change := reparented graph found relinked assigned
  by_cases own : ∃ p ∈ new.named, v = .obj p
  · obtain ⟨oid, named, rfl⟩ := own
    intro c r c' _ ran
    obtain ⟨_, c1, -, ran⟩ := bind_ok ran
    obtain ⟨_, c2, -, ran⟩ := bind_ok ran
    obtain ⟨_, c3, fixed, -⟩ := bind_ok ran
    obtain ⟨children, object, -, members⟩ := change.object (.obj oid) o found
    exact absurd ((members oid).mpr (Or.inr ⟨rfl, oid, named, rfl⟩))
      (cached_fix_not_own_child fixed object)
  · have valid : ∀ p ∈ new.named, s.valid p = true := by
      rcases newValid with ⟨oid, rfl⟩ | valid
      · exact (relinkChildren_ok relinked).1
      · exact valid
    have graph2 : WellFormed s2 := change.wellFormed graph found valid
      fun p named path => own ⟨p, named, apart p named path⟩
    refine Follows.query (forgetDescendants_follows _ (Coherent plainly s2) s2 v ?_) ?_
    · rintro c ⟨coherent, spared⟩
      exact coherent.relinked change graph2 found spared
    · refine Follows.query (dbAncestors_follows v true) ?_
      refine Follows.bind (fix_follows v _ _ _) fun s3 _ => ?_
      exact Follows.pure fun _ => id

end Parents

section Objects

variable {s s' : Db V} {c : Caches} {v : ObjVar}

theorem orphan_ancestors (orphan : parentsOf s v = []) : dbAncestors s v false = [] := by
  rw [dbAncestors, orphan]
  rfl

theorem absent_parentsOf (absent : s.object v = none) : parentsOf s v = [] := by
  rw [parentsOf, absent]

theorem unnamed_parentsOf (graph : WellFormed s) {o : Object V} (found : s.object v = some o)
    (unnamed : o.parents.named = []) : parentsOf s v = [] := by
  rw [List.eq_nil_iff_forall_not_mem]
  intro u edge
  obtain ⟨p, rfl, -⟩ := WellFormed.parent_is_obj edge
  obtain ⟨n, known, named⟩ := graph.mem_parents.mp edge
  rw [WellFormed.node_of_object found] at known
  cases known
  rw [Object.node, unnamed] at named
  cases named

theorem Coherent.aside (coherent : Coherent plainly s c) (graph' : WellFormed s')
    (elsewhere : ∀ w, w ≠ v → s'.object w = s.object w) (alone : ∀ w, v ∉ parentsOf s w)
    (alone' : ∀ w, v ∉ parentsOf s' w)
    (orphan : ∀ oid, v = .obj oid → parentsOf s v = [] ∧ parentsOf s' v = [])
    (verbless : ∀ o, s'.object v = some o → o.verbdefs = [])
    (unlisted : (∀ o, s.object v = some o → o.verbdefs = []) ∨ c.vcTable = fun _ => [])
    {pointer : Nat}
    (fresh : (s'.object v).isSome → ∀ w, (s.object w).isSome → w ≠ v → c.address w ≠ pointer) :
    Coherent plainly s' (c.placed v pointer) := by
  have placed {w : ObjVar} (other : w ≠ v) : (c.placed v pointer).address w = c.address w :=
    if_neg other
  have here : (c.placed v pointer).address v = pointer := if_pos rfl
  constructor
  · exact graph'
  · intro a o found
    by_cases same : .anon a = v
    · exact verbless o (same ▸ found)
    · exact coherent.verbless a o (elsewhere _ same ▸ found)
  · intro w u presentW presentU addresses
    have apart {w u : ObjVar} (presentW : (s'.object w).isSome) (presentU : (s'.object u).isSome)
        (same : w = v) (other : u ≠ v)
        (addresses : (c.placed v pointer).address w = (c.placed v pointer).address u) : False := by
      rw [placed other, same, here] at addresses
      rw [elsewhere u other] at presentU
      exact fresh (same ▸ presentW) u presentU other addresses.symm
    by_cases same : w = v
    · by_cases sameU : u = v
      · exact same.trans sameU.symm
      · exact (apart presentW presentU same sameU addresses).elim
    · by_cases sameU : u = v
      · exact (apart presentU presentW sameU same addresses.symm).elim
      · rw [placed same, placed sameU] at addresses
        rw [elsewhere _ same] at presentW
        rw [elsewhere _ sameU] at presentU
        exact coherent.apart w u presentW presentU addresses
  · intro oid list known
    rw [coherent.ancestors oid list known]
    by_cases same : .obj oid = v
    · obtain ⟨before, after⟩ := orphan oid same.symm
      rw [same, orphan_ancestors before, orphan_ancestors after]
    · rw [dbAncestors_tail, dbAncestors_tail,
        (ancestors_elsewhere coherent.graph graph' elsewhere alone alone' same).2]
  · intro plain bucket vc member
    rcases unlisted with none | cleared
    · obtain ⟨w, o, found, verbs, address, answer⟩ := coherent.verbs plain bucket vc member
      have other : w ≠ v := by
        rintro rfl
        exact verbs (none o found)
      obtain ⟨-, order⟩ := ancestors_elsewhere coherent.graph graph' elsewhere alone alone' other
      have outside (u : ObjVar) (path : Ancestor s w u) : u ≠ v := by
        rintro rfl
        rcases Relation.ReflTransGen.cases_tail path with same | ⟨_, _, edge⟩
        · exact other same.symm
        · exact alone _ edge
      refine ⟨w, o, elsewhere w other ▸ found, verbs, (placed other).trans address, ?_⟩
      rw [answer, calledFrom_congr coherent.graph order fun u path =>
        callableAt_congr (by rw [elsewhere u (outside u path)]) _]
      cases answered : calledFrom s w vc.verbname with
      | none => rfl
      | some pair =>
          obtain ⟨u, member, at_u⟩ := List.exists_of_findSome?_eq_some answered
          have definer : pair.1 = u := callableAt_definer at_u
          have stays := outside u (coherent.graph.mem_ancestors.mp member)
          simp only [Option.map_some, Caches.handle, definer, placed stays]
    · change vc ∈ c.vcTable bucket at member
      rw [cleared] at member
      cases member

end Objects

end ToastStunt
