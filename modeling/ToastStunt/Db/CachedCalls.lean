import ToastStunt.Db.BareGraph
import ToastStunt.Db.CacheSteps

/-!
The built-in functions with the caches do what they do without, and leave the
caches coherent.
-/

namespace ToastStunt

open FirstVisit Following

variable {V : Type} {plainly : Prop}

section Create

variable {s s' : Db V} {v : ObjVar}

def Free (s : Db V) (pointer : Nat) (c : Caches) : Prop :=
  ∀ v, (s.object v).isSome → c.address v ≠ pointer

theorem created_verbless {newObjid : Int} {anonymous : Bool} {oid owner : Int} {s1 : Db V}
    (made : dbCreateObject s newObjid anonymous = (v, oid, s1))
    (owned : dbSetObjectOwner s1 v owner = .ok s') {o : Object V} (found : s'.object v = some o) :
    o.verbdefs = [] := by
  have fresh : s1.object v = some (dbInitObject oid) := by
    simp only [dbCreateObject] at made
    split at made <;> cases made <;> exact if_pos rfl
  obtain ⟨before, present, rfl⟩ := Db.modify_ok owned
  rw [fresh] at present
  cases present
  rw [Db.setObject_object, if_pos rfl] at found
  cases found
  rfl

theorem Coherent.born {c : Caches} (coherent : Coherent plainly s c) (blank : Blank s s' v)
    (graph' : WellFormed s') (verbless : ∀ o, s'.object v = some o → o.verbdefs = [])
    {pointer : Nat} (free : Free s pointer c) : Coherent plainly s' (c.placed v pointer) := by
  have none (o : Object V) (found : s.object v = some o) : o.verbdefs = [] := by
    rw [blank.absent] at found
    cases found
  obtain ⟨o, present, same⟩ := blank.present
  simp only [Object.inheritance, Prod.mk.injEq] at same
  have unnamed : o.parents.named = [] := by
    rw [same.1]
    rfl
  exact coherent.aside graph' blank.elsewhere (not_parent_of_absent blank.absent)
    (fun _ edge => (blank.no_parent coherent.graph graph' edge).2 rfl)
    (fun _ _ => ⟨absent_parentsOf blank.absent, unnamed_parentsOf graph' present unnamed⟩) verbless
    (Or.inl none) fun _ w present _ => free w present

theorem Coherent.gone {c : Caches} (coherent : Coherent plainly s c) (gone : Gone s s' v)
    (graph' : WellFormed s') (orphan : ∀ oid, v = .obj oid → parentsOf s v = [])
    (unlisted : (∃ a, v = .anon a) ∨ c.vcTable = fun _ => []) : Coherent plainly s' c := by
  have absent (o : Object V) (found : s'.object v = some o) : False := by
    rw [gone.absent] at found
    cases found
  rw [← c.placed_address v]
  refine coherent.aside graph' gone.elsewhere (gone.alone coherent.graph)
    (not_parent_of_absent gone.absent)
    (fun oid same => ⟨orphan oid same, absent_parentsOf gone.absent⟩) ?_ ?_ ?_
  · exact fun o found => (absent o found).elim
  · rcases unlisted with ⟨a, rfl⟩ | cleared
    · exact Or.inl fun o found => coherent.verbless a o found
    · exact Or.inr cleared
  · intro present
    rw [gone.absent] at present
    cases present

theorem dbCreateObject_follows {newObjid : Int} {anonymous : Bool} {oid : Int} {s1 : Db V}
    (made : dbCreateObject s newObjid anonymous = (v, oid, s1)) (pointer : Nat)
    (Before : Caches → Prop) :
    Follows Before (Cached.dbCreateObject s newObjid anonymous pointer) (.ok (v, oid, s1))
      fun _ c => ∃ before, Before before ∧ c = before.placed v pointer := by
  intro c r c' before ran
  cases ran
  rw [made]
  exact ⟨rfl, c, before, rfl⟩

/-- What the creation of an object has come to when the new object gets its parents. -/
theorem created_coherent {newObjid : Int} {anonymous : Bool} {oid owner : Int} {s1 : Db V}
    (birth : Created s s' anonymous v oid)
    (made : dbCreateObject s newObjid anonymous = (v, oid, s1))
    (owned : dbSetObjectOwner s1 v owner = .ok s') {pointer : Nat} {c : Caches}
    (placed : ∃ before, (Coherent plainly s before ∧ Free s pointer before) ∧ c = before.placed v pointer) :
    Coherent plainly s' c := by
  obtain ⟨before, ⟨coherent, free⟩, rfl⟩ := placed
  exact coherent.born birth.blank birth.formed (fun o => created_verbless made owned) free

theorem Created.childless {anonymous : Bool} {oid : Int} (birth : Created s s' anonymous v oid)
    {p : Int} (path : Ancestor s' (.obj p) v) : v = .obj p := by
  obtain ⟨o, present, same⟩ := birth.blank.present
  simp only [Object.inheritance, Prod.mk.injEq] at same
  rcases birth.kind with ⟨-, rfl⟩ | ⟨-, rfl⟩
  · rw [birth.formed.childless_apart present same.2.1 path]
  · exact absurd path not_anon_ancestor

theorem destroyed_unnamed {oid : Int} (ran : dbDestroyObject s oid = .ok s') :
    ∃ o, s.object (.obj oid) = some o ∧ o.parents.named = [] := by
  unfold dbDestroyObject at ran
  split at ran
  · cases ran
  · rename_i o found
    split at ran
    · cases ran
    · rename_i unrelated
      simp only [not_or, not_not] at unrelated
      exact ⟨o, found, unrelated.2.2.1⟩

theorem dbDestroyObject_follows (graph : WellFormed s) {oid : Int}
    (noAnons : s.anonymousObjects oid = []) :
    Follows (Coherent plainly s) (Cached.dbDestroyObject s oid) (dbDestroyObject s oid) (Coherent plainly) := by
  refine Follows.changing (fun c => Coherent plainly s c ∧ c.vcTable = fun _ => [])
    (fun c coherent => ⟨coherent.withoutVerbs, rfl⟩) ?_
  refine Follows.lift_only.mono (fun _ => id) fun s1 c destroyed ⟨coherent, cleared⟩ => ?_
  obtain ⟨gone, formed, -⟩ := dbDestroyObject_ok graph noAnons destroyed
  obtain ⟨o, found, unnamed⟩ := destroyed_unnamed destroyed
  refine coherent.gone gone formed (fun p same => ?_) (Or.inr cleared)
  exact unnamed_parentsOf graph found unnamed

theorem dbDestroyAnonymousObject_follows (graph : WellFormed s) (address : Nat) :
    Follows (Coherent plainly s) (liftM (dbDestroyAnonymousObject s address) : Cached (Db V))
      (dbDestroyAnonymousObject s address) (Coherent plainly) := by
  refine Follows.lift_only.mono (fun _ => id) fun s1 c destroyed coherent => ?_
  obtain ⟨gone, formed, -⟩ := dbDestroyAnonymousObject_ok graph destroyed
  exact coherent.gone gone formed nofun (Or.inl ⟨address, rfl⟩)

theorem Coherent.resized {c : Caches} (coherent : Coherent plainly s c) (oid : Int)
    (graph' : WellFormed (dbSetLastUsedObjid s oid)) : Coherent plainly (dbSetLastUsedObjid s oid) c := by
  obtain ⟨n, same, -⟩ := setLastUsed_spec s oid
  refine coherent.sameSearch (fun w => ?_) graph'
  rw [same]

theorem dbMakeAnonymous_searched {address : Nat} {last : Int}
    (made : dbMakeAnonymous s address last = .ok s') : SameSearch s s' := by
  obtain ⟨n, same, -⟩ := setLastUsed_spec s last
  unfold dbMakeAnonymous at made
  rw [same] at made
  have sameLook : SameUpTo Object.searched { s with numObjects := n } s' :=
    SameUpTo.of_modify (by intros; rfl) made
  exact sameLook.view

/-- A call without the caches always leaves a well-formed graph; with them, it does the same. -/
theorem bfCreate_follows (graph : WellFormed s) (progr : Int) (parents : ObjOrList) (owner : Int)
    (anonymous : Bool) (pointer : Nat) :
    Follows (fun c => Coherent plainly s c ∧ Free s pointer c)
      (Cached.bfCreate s progr parents owner anonymous pointer)
      (bfCreate s progr parents owner anonymous) fun r => Coherent plainly r.2 := by
  have general : Follows (fun c => Coherent plainly s c ∧ Free s pointer c)
      (Cached.bfCreate s progr parents owner anonymous pointer)
      (bfCreate s progr parents owner anonymous) fun r c => WellFormed r.2 → Coherent plainly r.2 c := by
    unfold Cached.bfCreate bfCreate
    refine Follows.ite (fun _ => Follows.pure fun _ before _ => before.1) fun usable => ?_
    refine Follows.lift fun allowed _ => ?_
    refine Follows.ite (fun _ => Follows.pure fun _ before _ => before.1) fun _ => ?_
    cases made : dbCreateObject s (-1) anonymous with
    | mk v rest =>
    obtain ⟨oid, s1⟩ := rest
    refine Follows.query (dbCreateObject_follows made pointer _) ?_
    simp only
    refine Follows.lift fun s2 owned => ?_
    have birth := created graph (Or.inl (by omega)) made owned
    have newValid : ∀ p ∈ parents.named, s2.valid p = true := by
      simp only [Bool.or_eq_true, not_or, Bool.not_eq_true] at usable
      exact fun p named => birth.blank.valid (usable_valid usable.2 p named)
    refine Follows.mono (?_ : Follows (Coherent plainly s2) _ _ _)
      (fun c placed => created_coherent birth made owned placed) fun _ _ _ => id
    refine Follows.bind (dbChangeParents_follows birth.formed (Or.inr newValid)
      (fun p _ path => birth.childless path) []) fun answer change => ?_
    obtain ⟨changed, s3⟩ := answer
    cases changed with
    | false =>
        obtain ⟨-, rfl⟩ : _ ∧ s3 = s2 := by
          rcases dbChangeParents_ok change with refused | ⟨done, -⟩
          · exact refused
          · cases done
        have noAnons {oid : Int} (absent : s.object (.obj oid) = none) :
            s3.anonymousObjects oid = [] := birth.blank.index ▸ graph.unindexed absent
        rcases birth.kind with ⟨-, rfl⟩ | ⟨-, rfl⟩
        · refine Follows.bind (dbDestroyObject_follows birth.formed (noAnons birth.blank.absent)) ?_
          exact fun s4 _ => Follows.pure fun c coherent graph' => coherent.resized _ graph'
        · refine Follows.bind (dbDestroyAnonymousObject_follows birth.formed _) ?_
          exact fun s4 _ => Follows.pure fun c coherent graph' => coherent.resized _ graph'
    | true =>
        rcases birth.kind with ⟨-, rfl⟩ | ⟨-, rfl⟩
        · exact Follows.pure fun c coherent _ => coherent
        · refine Follows.lift fun s4 made => ?_
          exact Follows.pure fun c coherent graph' =>
            coherent.sameSearch (dbMakeAnonymous_searched made) graph'
  exact general.mono (fun _ => id) fun r c ran coherent => coherent (bfCreate_ok graph ran).1

theorem bfRecreate_follows (graph : WellFormed s) (progr old parent owner : Int) (pointer : Nat) :
    Follows (fun c => Coherent plainly s c ∧ Free s pointer c)
      (Cached.bfRecreate s progr old parent owner pointer)
      (bfRecreate s progr old parent owner) fun r => Coherent plainly r.2 := by
  unfold Cached.bfRecreate bfRecreate
  refine Follows.ite (fun _ => Follows.pure fun _ => And.left) fun free => ?_
  simp only
  refine Follows.lift fun allowed _ => ?_
  refine Follows.ite (fun _ => Follows.pure fun _ => And.left) fun _ => ?_
  cases made : dbCreateObject s old false with
  | mk v rest =>
  obtain ⟨oid, s1⟩ := rest
  refine Follows.query (dbCreateObject_follows made pointer _) ?_
  simp only
  refine Follows.lift fun s2 owned => ?_
  simp only [Bool.or_eq_true, not_or, Bool.not_eq_true] at free
  have birth := created graph (Or.inr free.2) made owned
  obtain ⟨-, rfl⟩ : False = False ∧ v = .obj oid := by
    rcases birth.kind with ⟨-, same⟩ | ⟨none, -⟩
    · exact ⟨rfl, same⟩
    · cases none
  refine Follows.mono (?_ : Follows (Coherent plainly s2) _ _ _)
    (fun c placed => created_coherent birth made owned placed) fun _ _ _ => id
  refine Follows.bind (dbChangeParents_follows birth.formed (Or.inl ⟨oid, rfl⟩)
    (fun p _ path => birth.childless path) []) fun answer change => ?_
  obtain ⟨changed, s3⟩ := answer
  cases changed with
  | false =>
      obtain ⟨-, rfl⟩ : _ ∧ s3 = s2 := by
        rcases dbChangeParents_ok change with refused | ⟨done, -⟩
        · exact refused
        · cases done
      have noAnons : s3.anonymousObjects oid = [] :=
        birth.blank.index ▸ graph.unindexed birth.blank.absent
      exact Follows.bind (dbDestroyObject_follows birth.formed noAnons) fun s4 _ =>
        Follows.pure fun _ => id
  | true => exact Follows.pure fun _ => id

theorem bfChparentChparents_follows (graph : WellFormed s) (progr : Int) (v : ObjVar)
    (what : ObjOrList) :
    Follows (Coherent plainly s) (Cached.bfChparentChparents s progr v what)
      (bfChparentChparents s progr v what) fun r => Coherent plainly r.2 := by
  unfold Cached.bfChparentChparents bfChparentChparents
  refine Follows.ite (fun _ => Follows.pure fun _ => id) fun usable => ?_
  simp only [Bool.or_eq_true, not_or, Bool.not_eq_true] at usable
  refine Follows.lift fun controlled _ => ?_
  refine Follows.lift fun allowed _ => ?_
  refine Follows.ite (fun _ => Follows.pure fun _ => id) fun _ => ?_
  refine Follows.ite (fun _ => Follows.pure fun _ => id) fun acyclic => ?_
  have apart := not_descendants graph acyclic
  refine Follows.bind (dbChangeParents_follows graph (Or.inr (usable_valid usable.2))
    (fun p named path => absurd path (apart p named)) []) fun ⟨changed, s'⟩ _ => ?_
  cases changed with
  | false => exact Follows.pure fun _ => id
  | true => exact Follows.pure fun _ => id

end Create

section Recycle

variable {s s' : Db V}

theorem reparentChildren_follows (oid : Int) {fuel : Nat} {s : Db V} (graph : WellFormed s) :
    Follows (Coherent plainly s) (Cached.reparentChildren oid fuel s) (reparentChildren oid fuel s)
      fun r => Coherent plainly r.2 := by
  induction fuel generalizing s with
  | zero => exact Follows.throw
  | succ fuel ih =>
      unfold Cached.reparentChildren reparentChildren
      refine Follows.lift fun next found => ?_
      cases next with
      | none => exact Follows.pure fun _ => id
      | some child =>
          refine Follows.lift fun c foundChild => ?_
          refine Follows.lift fun o foundO => ?_
          rw [Db.dereference_ok] at foundChild foundO
          have edge := dbNextChild_ok graph found
          have above := spliced_ancestors graph edge foundChild foundO
          have apart := spliced_apart graph edge foundChild foundO
          refine Follows.bind (dbChangeParents_follows graph
            (Or.inr fun p named => (above p named).1)
            (fun p named path => absurd path (apart p named)) []) fun ⟨changed, s1⟩ change => ?_
          cases changed with
          | false => exact Follows.pure fun _ => id
          | true =>
              have graph1 : WellFormed s1 := by
                rcases dbChangeParents_ok change with ⟨refused, -⟩ | ⟨-, s2, changed⟩
                · cases refused
                · exact changed.wellFormed graph (fun p named => (above p named).1) apart
              exact ih graph1

theorem fixupOwners_searched (s : Db V) (oid : Int) : SameSearch s (dbFixupOwners s oid) := by
  have fixed (o : Object V) : (doFixupOwners oid o).searched = o.searched := by
    simp only [doFixupOwners, Object.searched, Object.callables, List.map_map]
    rfl
  intro v
  unfold dbFixupOwners
  cases v with
  | obj p => simp only [Option.map_map, Function.comp_def, fixed]
  | anon a =>
      simp only
      split
      · simp only [Option.map_map, Function.comp_def, fixed]
      · rfl

theorem recycleObject_follows (graph : WellFormed s) (oid : Int) :
    Follows (Coherent plainly s) (Cached.recycleObject s oid) (recycleObject s oid)
      fun r => Coherent plainly r.2 := by
  unfold Cached.recycleObject recycleObject
  refine Follows.lift fun o _ => ?_
  refine Follows.lift fun s0 emptied => ?_
  refine Follows.lift fun s1 left => ?_
  have unplaced := emptied_unplaced emptied left
  have graph1 : WellFormed s1 := (unplaced.quiet graph).2
  refine Follows.mono (?_ : Follows (Coherent plainly s1) _ _ _) (fun c coherent => ?_) fun _ _ _ => id
  · refine Follows.bind (reparentChildren_follows oid graph1) fun ⟨done, s2⟩ turned => ?_
    obtain ⟨-, graph2, finished⟩ := reparentChildren_ok graph1 turned
    cases done with
    | false => exact Follows.pure fun _ => id
    | true =>
        refine Follows.bind (dbChangeParents_follows graph2 (Or.inl ⟨oid, rfl⟩)
          (by simp [ObjOrList.named]) []) fun ⟨changed, s3⟩ change => ?_
        obtain ⟨-, graph3, noAnons⟩ := orphaned graph2 (finished rfl) change
        have graph4 := (fixupOwners_graph s3 oid).wellFormed graph3
        refine Follows.mono (?_ : Follows (Coherent plainly (dbFixupOwners s3 oid)) _ _ _)
          (fun c coherent => coherent.sameSearch (fixupOwners_searched s3 oid) graph4)
          fun _ _ _ => id
        exact Follows.bind (dbDestroyObject_follows graph4 noAnons) fun s4 _ =>
          Follows.pure fun _ => id
  · refine coherent.sameSearch (SameSearch.of_sameUpTo unplaced fun o o' sameLook => ?_) graph1
    have searched : o'.unplaced.searched = o.unplaced.searched := congrArg Object.searched sameLook
    exact searched

theorem bfRecycle_follows (graph : WellFormed s) (progr : Int) (v : ObjVar) :
    Follows (Coherent plainly s) (Cached.bfRecycle s progr v) (bfRecycle s progr v)
      fun r => Coherent plainly r.2 := by
  unfold Cached.bfRecycle bfRecycle
  refine Follows.ite (fun _ => Follows.pure fun _ => id) fun _ => ?_
  refine Follows.lift fun controlled _ => ?_
  refine Follows.ite (fun _ => Follows.pure fun _ => id) fun _ => ?_
  cases v with
  | obj oid => exact recycleObject_follows graph oid
  | anon address =>
      exact Follows.bind (dbDestroyAnonymousObject_follows graph address) fun s1 _ =>
        Follows.pure fun _ => id

end Recycle

section Renumber

variable {s s' : Db V} {old new : Int} {o : Object V} {c : Caches}

theorem bare_searched (s : Db V) : SameSearch s s.bare := by
  intro v
  simp only [Db.bare, Option.map_map]
  congr 1
  funext o
  simp only [Function.comp_apply, Object.searched, Object.bare, Object.callables, List.map_map]
  rfl

theorem Coherent.of_bare (coherent : Coherent plainly s.bare c) (graph : WellFormed s) : Coherent plainly s c :=
  coherent.sameSearch (fun v => (bare_searched s v).symm) graph

theorem graph_of_bare (graph : WellFormed s.bare) : WellFormed s :=
  SameGraph.wellFormed ⟨fun v => ((bare_graph s).view v).symm, rfl, rfl, rfl⟩ graph

theorem renameAt_verbless (v : ObjVar) (q : Object V) :
    (renameAt old new v q).verbdefs = [] ↔ q.verbdefs = [] := by
  cases v <;> simp [renameAt, renameAnon, renameObject]

theorem renameAt_callables (v : ObjVar) (q : Object V) :
    (renameAt old new v q).callables = q.callables := by
  cases v <;>
    simp only [renameAt, renameAnon, renameObject, Object.callables, List.map_map] <;> rfl

theorem renamed_callableAt (moving : Moving s old new o) {v : ObjVar} (notNew : v ≠ .obj new)
    (verb : CString) : callableAt (renamed old new s) verb (renameVar old new v) =
      (callableAt s verb v).map fun found => (renameVar old new found.1, found.2) := by
  cases found : s.object v with
  | none =>
      have absent : (renamed old new s).object (renameVar old new v) = none := by
        cases present : (renamed old new s).object (renameVar old new v) with
        | none => rfl
        | some q' =>
            obtain ⟨w, q, foundW, same, -⟩ := moving.renamed_object.mp present
            rw [renameVar_inj notNew (moving.found_not_new foundW)] at same
            rw [same, foundW] at found
            cases found
      simp only [callableAt, found, absent, Option.map_none]
  | some q =>
      simp only [callableAt, found, moving.renamed_at found, firstCallable_eq,
        renameAt_callables, Option.map_map]
      rfl

theorem renamed_calledFrom (moving : Moving s old new o) {v : ObjVar} (notNew : v ≠ .obj new)
    (verb : CString) : calledFrom (renamed old new s) (renameVar old new v) verb =
      (calledFrom s v verb).map fun found => (renameVar old new found.1, found.2) := by
  rw [calledFrom, moving.renamed_ancestors notNew, List.findSome?_map, calledFrom,
    List.map_findSome?]
  refine findSome_congr fun u member => ?_
  have path := moving.consistent.graph.mem_ancestors.mp member
  exact renamed_callableAt moving (moving.ancestor_not_new notNew path) verb

theorem Coherent.renamed (coherent : Coherent plainly s c) (moving : Moving s old new o)
    (cleared : c.ancestorCache = fun _ => none) :
    Coherent plainly (renamed old new s) (c.placed (.obj new) (c.address (.obj old))) := by
  have moved {v : ObjVar} (notNew : v ≠ .obj new) :
      (c.placed (.obj new) (c.address (.obj old))).address (renameVar old new v) = c.address v := by
    by_cases self : v = .obj old
    · rw [self]
      have new_name : renameVar old new (.obj old) = .obj new := by simp [renameVar, renameId]
      rw [new_name]
      exact if_pos rfl
    · have kept : renameVar old new v = v := by
        cases v with
        | anon a => rfl
        | obj p =>
            have other : p ≠ old := fun same => self (same ▸ rfl)
            simp [renameVar, renameId, other]
      rw [kept]
      exact if_neg notNew
  constructor
  · exact moving.renamed_wellFormed
  · intro a q' found'
    obtain ⟨v, q, found, same, rfl⟩ := moving.renamed_object.mp found'
    cases v with
    | obj p => cases same
    | anon b => exact (renameAt_verbless _ q).mpr (coherent.verbless b q found)
  · intro v' w' presentV presentW addresses
    obtain ⟨q', foundV'⟩ := Option.isSome_iff_exists.mp presentV
    obtain ⟨r', foundW'⟩ := Option.isSome_iff_exists.mp presentW
    obtain ⟨v, q, foundV, rfl, -⟩ := moving.renamed_object.mp foundV'
    obtain ⟨w, r, foundW, rfl, -⟩ := moving.renamed_object.mp foundW'
    rw [moved (moving.found_not_new foundV), moved (moving.found_not_new foundW)] at addresses
    rw [coherent.apart v w (by simp [foundV]) (by simp [foundW]) addresses]
  · intro oid list known
    change c.ancestorCache oid = some list at known
    rw [cleared] at known
    cases known
  · intro plain bucket vc member
    obtain ⟨v, q, found, verbs, address, answer⟩ := coherent.verbs plain bucket vc member
    have notNew := moving.found_not_new found
    refine ⟨renameVar old new v, _, moving.renamed_at found, ?_, (moved notNew).trans address, ?_⟩
    · rwa [ne_eq, renameAt_verbless]
    · rw [answer, renamed_calledFrom moving notNew, Option.map_map]
      cases answered : calledFrom s v vc.verbname with
      | none => rfl
      | some pair =>
          obtain ⟨u, listed, at_u⟩ := List.exists_of_findSome?_eq_some answered
          have definer : pair.1 = u := callableAt_definer at_u
          have path := moving.consistent.graph.mem_ancestors.mp listed
          have there := moving.ancestor_not_new notNew path
          simp only [Option.map_some, Function.comp_apply, Caches.handle, definer, moved there]

theorem dbRenumberObject_follows (graph : WellFormed s) (valid : s.valid old = true)
    (once : leastFree s old ≠ none → NamedOnce s old) :
    Follows (Coherent plainly s) (Cached.dbRenumberObject s old) (dbRenumberObject s old)
      fun r => Coherent plainly r.2 := by
  refine Follows.changing (fun c => Coherent plainly s c ∧ c.ancestorCache = fun _ => none)
    (fun c coherent => ⟨coherent.withoutAncestors, rfl⟩) ?_
  rintro c r c' ⟨coherent, cleared⟩ ran
  obtain ⟨⟨n, s1⟩, renumbered, ran⟩ := lift_ok ran
  cases ran
  refine ⟨renumbered, ?_⟩
  rcases renumber_bare graph valid once renumbered with ⟨rfl, rfl⟩ | ⟨q, moving, renamedBare⟩
  · show Coherent plainly s1 (c.placed (.obj n) (c.address (.obj n)))
    rw [c.placed_address]
    exact coherent
  · have bareCoherent : Coherent plainly s.bare c :=
      coherent.sameSearch (bare_searched s) ((bare_graph s).wellFormed graph)
    have after := bareCoherent.renamed moving cleared
    rw [← renamedBare] at after
    exact after.of_bare (graph_of_bare after.graph)

theorem bfRenumber_follows (graph : WellFormed s) (progr oid : Int)
    (once : leastFree s oid ≠ none → NamedOnce s oid) :
    Follows (Coherent plainly s) (Cached.bfRenumber s progr oid) (bfRenumber s progr oid)
      fun r => Coherent plainly r.2 := by
  unfold Cached.bfRenumber bfRenumber
  refine Follows.ite (fun _ => Follows.pure fun _ => id) fun valid => ?_
  refine Follows.ite (fun _ => Follows.pure fun _ => id) fun _ => ?_
  exact Follows.bind (dbRenumberObject_follows graph (by simpa using valid) once)
    fun _ _ => Follows.pure fun _ => id

end Renumber

section Tables

variable {s s' : Db V}

theorem resetLastUsed_ok {turns : Nat} (ran : resetLastUsed turns s = .ok s') :
    ∃ n, s' = { s with numObjects := n } ∧ s.valid (n - 1) = true ∧
      ∀ p, s.valid p = true → p < s.numObjects → p < n := by
  induction turns generalizing s with
  | zero => cases ran
  | succ turns ih =>
      unfold resetLastUsed at ran
      split at ran
      · rename_i used
        cases ran
        exact ⟨_, rfl, used, fun _ _ bound => bound⟩
      · rename_i unused
        obtain ⟨n, same, last, kept⟩ := ih ran
        refine ⟨n, same, last, fun p valid bound => kept p valid ?_⟩
        have other : p ≠ s.numObjects - 1 := by
          rintro rfl
          exact unused valid
        have inside : p < s.numObjects - 1 := by omega
        exact inside

theorem bfResetMaxObject_follows (graph : WellFormed s) (progr : Int) :
    Follows (Coherent plainly s) (Cached.bfResetMaxObject s progr) (bfResetMaxObject s progr)
      fun r => Coherent plainly r.2 := by
  unfold Cached.bfResetMaxObject bfResetMaxObject
  refine Follows.ite (fun _ => Follows.pure fun _ => id) fun _ => ?_
  refine Follows.bind (?_ : Follows _ _ _ (Coherent plainly)) fun _ _ => Follows.pure fun _ => id
  intro c s1 c' coherent ran
  obtain ⟨s2, reset, ran⟩ := lift_ok ran
  cases ran
  refine ⟨reset, ?_⟩
  obtain ⟨n, rfl, last, kept⟩ := resetLastUsed_ok reset
  have graph' : WellFormed { s with numObjects := n } := by
    have bounds := graph.valid_bounds last
    exact wellFormed_resize graph (by omega) fun p valid => kept p valid (graph.valid_bounds valid).2
  exact coherent.withoutAncestors.sameSearch (fun _ => rfl) graph'

end Tables

section Verbs

variable {s s' : Db V} {c : Caches}

theorem Coherent.reverbed (coherent : Coherent plainly s c) (cleared : c.vcTable = fun _ => []) {oid : Int}
    {f : Object V → Object V} (unseen : ∀ o, (f o).node = o.node)
    (changed : s.modify (.obj oid) f = .ok s') : Coherent plainly s' c := by
  have same : SameGraph s s' := SameUpTo.of_modify (fun o _ => unseen o) changed
  obtain ⟨o, found, rfl⟩ := Db.modify_ok changed
  constructor
  · exact same.wellFormed coherent.graph
  · intro a q foundQ
    exact coherent.verbless a q foundQ
  · intro v w presentV presentW
    have present {u : ObjVar} (there : ((s.setObject (.obj oid) (some (f o))).object u).isSome) :
        (s.object u).isSome := by
      rw [Db.setObject_object] at there
      split at there
      · rename_i same
        rw [same, found]
        rfl
      · exact there
    exact coherent.apart v w (present presentV) (present presentW)
  · intro p list known
    rw [same.dbAncestors]
    exact coherent.ancestors p list known
  · intro _ bucket vc member
    rw [cleared] at member
    cases member

theorem reverbing_follows {oid : Int} {f : Object V → Object V} (unseen : ∀ o, (f o).node = o.node) :
    Follows (Coherent plainly s) (do Cached.dbPrivAffectedCallableVerbLookup; s.modify (.obj oid) f)
      (s.modify (.obj oid) f) (Coherent plainly) := by
  refine Follows.changing (fun c => Coherent plainly s c ∧ c.vcTable = fun _ => [])
    (fun c coherent => ⟨coherent.withoutVerbs, rfl⟩) ?_
  exact Follows.lift_only.mono (fun _ => id) fun s1 c changed before =>
    before.1.reverbed before.2 unseen changed

theorem dbSetVerbOwner_follows {oid owner : Int} {i : Nat} :
    Follows (Coherent plainly s) (liftM (dbSetVerbOwner s (.obj oid, i) owner) : Cached (Db V))
      (dbSetVerbOwner s (.obj oid, i) owner) (Coherent plainly) := by
  refine Follows.lift_only.mono (fun _ => id) fun s1 c changed coherent => ?_
  have verbs (o : Object V) : (o.verbdefs.modify i fun v => { v with owner := owner }).map
      (fun v => (v.name, v.exec)) = o.verbdefs.map fun v => (v.name, v.exec) := by
    refine List.ext_getElem? fun j => ?_
    rw [List.getElem?_map, List.getElem?_map, List.getElem?_modify]
    cases o.verbdefs[j]? with
    | none => rfl
    | some v => by_cases here : i = j <;> simp [here, Verbdef.exec]
  have graph : SameGraph s s1 := SameUpTo.of_modify (by intros; rfl) changed
  have searched : SameUpTo Object.searched s s1 :=
    SameUpTo.of_modify (by intro o _; exact Prod.ext rfl (verbs o)) changed
  exact coherent.sameSearch searched.view (graph.wellFormed coherent.graph)

theorem bfAddVerb_follows (progr oid owner : Int) (flags : Nat) (names : CString) (copy : Nat)
    (dobj : ArgSpec) (prep : Int) (iobj : ArgSpec) :
    Follows (Coherent plainly s) (Cached.bfAddVerb s progr oid owner flags names copy dobj prep iobj)
      (bfAddVerb s progr oid owner flags names copy dobj prep iobj) fun r => Coherent plainly r.2 := by
  unfold Cached.bfAddVerb bfAddVerb
  cases validateVerbInfo s owner names copy with
  | none => exact Follows.pure fun _ => id
  | some names =>
      refine Follows.ite (fun _ => Follows.pure fun _ => id) fun _ => ?_
      refine Follows.lift fun allowed _ => ?_
      refine Follows.ite (fun _ => Follows.pure fun _ => id) fun _ => ?_
      exact Follows.bind (reverbing_follows fun _ => rfl) fun _ _ => Follows.pure fun _ => id

theorem bfDeleteVerb_follows (progr oid : Int) (desc : VerbDesc) :
    Follows (Coherent plainly s) (Cached.bfDeleteVerb s progr oid desc) (bfDeleteVerb s progr oid desc)
      fun r => Coherent plainly r.2 := by
  unfold Cached.bfDeleteVerb bfDeleteVerb
  refine Follows.ite (fun _ => Follows.pure fun _ => id) fun _ => ?_
  refine Follows.lift fun allowed _ => ?_
  refine Follows.ite (fun _ => Follows.pure fun _ => id) fun _ => ?_
  refine Follows.lift fun o _ => ?_
  cases findDescribedVerb o desc with
  | none => exact Follows.pure fun _ => id
  | some i =>
      exact Follows.bind (reverbing_follows fun _ => rfl) fun _ _ => Follows.pure fun _ => id

theorem bfSetVerbInfo_follows (progr oid : Int) (desc : VerbDesc) (owner : Int) (flags : Nat)
    (names : CString) (copy : Nat) :
    Follows (Coherent plainly s) (Cached.bfSetVerbInfo s progr oid desc owner flags names copy)
      (bfSetVerbInfo s progr oid desc owner flags names copy) fun r => Coherent plainly r.2 := by
  unfold Cached.bfSetVerbInfo bfSetVerbInfo
  refine Follows.ite (fun _ => Follows.pure fun _ => id) fun _ => ?_
  cases validateVerbInfo s owner names copy with
  | none => exact Follows.pure fun _ => id
  | some names =>
      refine Follows.lift fun o _ => ?_
      cases findDescribedVerb o desc with
      | none => exact Follows.pure fun _ => id
      | some i =>
          refine Follows.lift fun allowed _ => ?_
          refine Follows.ite (fun _ => Follows.pure fun _ => id) fun _ => ?_
          refine Follows.bind dbSetVerbOwner_follows fun s1 _ => ?_
          refine Follows.bind (reverbing_follows fun _ => rfl) fun s2 _ => ?_
          exact Follows.bind (reverbing_follows fun _ => rfl) fun _ _ => Follows.pure fun _ => id

theorem bfSetVerbArgs_follows (progr oid : Int) (desc : VerbDesc) (dobj : ArgSpec) (prep : Int)
    (iobj : ArgSpec) :
    Follows (Coherent plainly s) (Cached.bfSetVerbArgs s progr oid desc dobj prep iobj)
      (bfSetVerbArgs s progr oid desc dobj prep iobj) fun r => Coherent plainly r.2 := by
  unfold Cached.bfSetVerbArgs bfSetVerbArgs
  refine Follows.ite (fun _ => Follows.pure fun _ => id) fun _ => ?_
  refine Follows.lift fun o _ => ?_
  cases findDescribedVerb o desc with
  | none => exact Follows.pure fun _ => id
  | some i =>
      refine Follows.lift fun allowed _ => ?_
      refine Follows.ite (fun _ => Follows.pure fun _ => id) fun _ => ?_
      exact Follows.bind (reverbing_follows fun _ => rfl) fun _ _ => Follows.pure fun _ => id

end Verbs

end ToastStunt
