import ToastStunt.Db.SlotSteps

/-!
The built-ins fail neither the assertion on the number of slots nor an access to
an array of slots.
-/

namespace ToastStunt

open FirstVisit Failing

variable {V : Type}

section Safety

/-- The failures that a wrong layout of slots leads to. -/
def Crash.ofSlots : Crash → Prop
  | .assertion | .outOfBounds => True
  | _ => False

abbrev SlotSafe {α : Type} (x : Except Crash α) : Prop := Avoids Crash.ofSlots x

variable {s s' : Db V}

theorem dereference_safe (s : Db V) (v : ObjVar) : SlotSafe (s.dereference v) := by
  unfold Db.dereference
  split
  · exact Avoids.error id
  · exact Avoids.ok _

theorem modify_safe (s : Db V) (v : ObjVar) (f : Object V → Object V) :
    SlotSafe (s.modify v f) := by
  unfold Db.modify
  split
  · exact Avoids.error id
  · exact Avoids.ok _

theorem dbObjectAllows_safe (v : ObjVar) (progr : Int) (flag : ObjectFlag) :
    SlotSafe (dbObjectAllows s v progr flag) := by
  unfold dbObjectAllows
  split
  · exact Avoids.ok _
  · exact (dereference_safe s v).bind fun _ _ => Avoids.ok _

theorem controls2_safe (who : Int) (what : ObjVar) : SlotSafe (controls2 s who what) := by
  unfold controls2
  split
  · exact Avoids.ok _
  · exact (dereference_safe s what).bind fun _ _ => Avoids.ok _

theorem parentsAllowed_safe (progr : Int) (flag : ObjectFlag) (parents : ObjOrList) :
    SlotSafe (parentsAllowed s progr flag parents) := by
  unfold parentsAllowed
  split
  · split
    · exact dbObjectAllows_safe _ _ _
    · exact Avoids.ok _
  · exact Avoids.allM fun oid _ => dbObjectAllows_safe _ _ _

theorem propertyDefinedAtOrBelow_safe (name : CString) (hash : BitVec 32) (fuel : Nat)
    (v : ObjVar) : SlotSafe (propertyDefinedAtOrBelow s name hash fuel v) := by
  induction fuel generalizing v with
  | zero => exact Avoids.error id
  | succ fuel ih =>
      refine (dereference_safe s v).bind fun o _ => ?_
      split
      · exact Avoids.ok _
      · exact Avoids.anyM fun child _ => ih _

theorem proposedAncestors_safe (fuel : Nat) (stack seen : List Int) :
    SlotSafe (proposedAncestors s fuel stack seen) := by
  induction fuel generalizing stack seen with
  | zero => exact Avoids.error id
  | succ fuel ih =>
      refine Avoids.foldlM (fun top _ before => ?_) seen
      split
      · exact Avoids.ok _
      · exact ih _ _

theorem checkProperties_safe (v : ObjVar) (parents : ObjOrList) (kids : List Nat) :
    SlotSafe (dbprivCheckPropertiesForChparent s v parents kids) := by
  refine (proposedAncestors_safe _ _ _).bind fun ancestors _ => ?_
  refine Avoids.bind ?_ fun below _ => ?_
  · refine Avoids.anyM fun ancestor _ => (dereference_safe s _).bind fun o2 _ => ?_
    refine Avoids.anyM fun p _ => (propertyDefinedAtOrBelow_safe _ _ _ _).bind fun found _ => ?_
    split
    · exact Avoids.ok _
    · exact Avoids.anyM fun kid _ => (dereference_safe s _).bind fun _ _ => Avoids.ok _
  · split
    · exact Avoids.ok _
    · refine Avoids.bind ?_ fun _ _ => Avoids.ok _
      refine Avoids.anyM fun ancestor _ => (dereference_safe s _).bind fun o2 _ => ?_
      refine Avoids.anyM fun other _ => ?_
      split
      · exact Avoids.ok _
      · exact (dereference_safe s _).bind fun _ _ => Avoids.ok _

theorem checkChildren_safe (v : ObjVar) (kids : List Nat) :
    SlotSafe (checkChildrenOfObject s v kids) := by
  refine Avoids.bind (Avoids.anyM fun kid _ => ?_) fun _ _ => Avoids.ok _
  refine (dereference_safe s _).bind fun o _ => ?_
  split <;> exact Avoids.ok _

theorem relink_safe (v : ObjVar) (old new : ObjOrList) : SlotSafe (relink s v old new) := by
  cases v with
  | anon a => exact Avoids.ok _
  | obj oid =>
      refine Avoids.bind (Avoids.foldlM (fun p _ before => modify_safe _ _ _) _) fun middle _ => ?_
      exact Avoids.foldlM (fun p _ before => modify_safe _ _ _) _

theorem dbChangeParents_safe {v : ObjVar} {new : ObjOrList}
    (fixes : ∀ o s1 s2, s.object v = some o → relink s v o.parents new = .ok s1 →
      s1.modify v (fun o => { o with parents := new }) = .ok s2 →
      SlotSafe (dbprivFixPropertiesAfterChparent (traversalDepth s2 + 1) v (dbAncestors s v true)
        (dbAncestors s2 v true) (gatheredKids s v []) s2)) :
    SlotSafe (dbChangeParents s v new []) := by
  unfold dbChangeParents
  split
  · exact Avoids.ok _
  · refine (checkChildren_safe _ _).bind fun kidsOk _ => ?_
    split
    · exact Avoids.ok _
    · refine (checkProperties_safe _ _ _).bind fun propertiesOk _ => ?_
      split
      · exact Avoids.ok _
      · refine (dereference_safe s v).bind fun o found => ?_
        refine (relink_safe v _ _).bind fun s1 relinked => ?_
        refine (modify_safe _ _ _).bind fun s2 assigned => ?_
        exact (fixes o s1 s2 (Db.dereference_ok.mp found) relinked assigned).bind
          fun _ _ => Avoids.ok _

theorem separated_safe (out : LaidOut s) {v : ObjVar} {new : ObjOrList}
    (separated : SeparatedBy s v new) (newValid : ∀ p ∈ new.named, s.valid p = true)
    (apart : ∀ p ∈ new.named, ¬Ancestor s (.obj p) v) : SlotSafe (dbChangeParents s v new []) := by
  refine dbChangeParents_safe fun o s1 s2 found relinked assigned => ?_
  obtain ⟨s', ran, -⟩ :=
    relinked_runs out (separated s2) newValid apart found relinked assigned
  exact Avoids.of_eq_ok ran

end Safety

section BuiltIns

variable {s s' : Db V}

theorem born_safe {v : ObjVar} (blank : Blank s s' v) (out : LaidOut s) (graph' : WellFormed s')
    {parents : ObjOrList} (newValid : ∀ p ∈ parents.named, s.valid p = true) :
    SlotSafe (dbChangeParents s' v parents []) := by
  obtain ⟨fresh, found, -⟩ := blank.present
  have only {d : ObjVar} (path : Ancestor s' d v) : d = v := blank.only out.graph graph' path
  refine separated_safe (blank.kept out graph').1 (separatedBy_of_childless found (fun d => only) _)
    (fun p named => blank.valid (newValid p named)) fun p named path => ?_
  obtain ⟨o, present⟩ := Db.valid_iff.mp (newValid p named)
  rw [only path, blank.absent] at present
  cases present

theorem dbDestroyObject_safe (oid : Int) : SlotSafe (dbDestroyObject s oid) := by
  unfold dbDestroyObject
  split
  · exact Avoids.error id
  · split
    · exact Avoids.error id
    · exact Avoids.ok _

theorem dbDestroyAnonymousObject_safe (address : Nat) :
    SlotSafe (dbDestroyAnonymousObject s address) :=
  (dereference_safe s _).bind fun _ _ => Avoids.ok _

theorem bfCreate_safe (out : LaidOut s) (progr owner : Int) (parents : ObjOrList)
    (anonymous : Bool) : SlotSafe (bfCreate s progr parents owner anonymous) := by
  unfold bfCreate
  split
  · exact Avoids.ok _
  · rename_i usable
    simp only [Bool.or_eq_true, not_or, Bool.not_eq_true] at usable
    refine (parentsAllowed_safe _ _ _).bind fun allowed _ => ?_
    split
    · exact Avoids.ok _
    · generalize made : dbCreateObject s (-1) anonymous = triple
      obtain ⟨v, oid, s0⟩ := triple
      refine (modify_safe _ _ _).bind fun s1 owned => ?_
      have birth := created out.graph (Or.inl (by omega)) made owned
      refine (born_safe birth.blank out birth.formed (usable_valid usable.2)).bind fun result _ => ?_
      obtain ⟨changed, s2⟩ := result
      cases changed with
      | false =>
          cases v with
          | anon address => exact (dbDestroyAnonymousObject_safe address).bind fun _ _ => Avoids.ok _
          | obj oid => exact (dbDestroyObject_safe oid).bind fun _ _ => Avoids.ok _
      | true =>
          cases v with
          | anon address => exact (modify_safe _ _ _).bind fun _ _ => Avoids.ok _
          | obj oid => exact Avoids.ok _

/-- A lonely object that is its own parent makes the recursion endless, but not fail. -/
theorem fix_own_child_safe {fuel : Nat} {oid q : Int} {t : Db V} {o : Object V}
    {old new : List ObjVar} (found : t.object (.obj oid) = some o) (parents : o.parents = .obj q)
    (children : o.children = [oid]) (bare : o.propdefs = []) (noSlots : o.propval = [])
    (noKids : t.anonymousObjects oid = []) (oldOwn : ∀ a ∈ old, a = .obj oid)
    (newOwn : ∀ a ∈ new, a = .obj oid) :
    SlotSafe (dbprivFixPropertiesAfterChparent fuel (.obj oid) old new [] t) := by
  induction fuel generalizing t o old new with
  | zero => exact Avoids.error id
  | succ fuel ih =>
      have width : propdefsLength t (.obj oid) = 0 := by
        simp only [propdefsLength, found, bare, List.length_nil]
      have laid : Blocks.Laid (propdefsLength t) old (fun _ => ([] : List (Pval V))) [] := by
        refine ⟨by simp, fun a member => ?_⟩
        rw [oldOwn a member, width, List.length_nil]
      have counted : countSlots t old = o.propval.length := by
        rw [noSlots, countSlots, ← laid.length]
      have slots : new.mapM (slotsOf t o old) = .ok (new.map fun _ => []) := by
        refine mapM_of_ok fun a member => ?_
        rw [newOwn a member, slotsOf]
        simp only [width]
        cases offset : offsetIn t (.obj oid) old with
        | none => rfl
        | some start =>
            have bound := (laid.slice offset).1
            rw [List.length_nil] at bound
            have first : start = 0 := by omega
            simp [slotsAt, first]
      have emptied : (new.map fun _ => ([] : List (Pval V))).flatten = [] := by
        simp
      have items : o.children.map ObjVar.obj ++ ([] : List Nat).map ObjVar.anon = [.obj oid] := by
        simp [children]
      rw [fix_eq found counted slots, emptied, items]
      refine Avoids.bind ?_ fun _ _ => Avoids.ok _
      let next := t.setObject (.obj oid) (some { o with propval := [] })
      have found' : next.object (.obj oid) = some { o with propval := [] } := if_pos rfl
      have through : ancestorsThrough next (.obj oid) (.obj oid) old new =
          .ok (.obj oid :: old, .obj oid :: new) := by
        unfold ancestorsThrough
        rw [bind_of_ok (Db.dereference_ok.mpr found')]
        simp only [parents]
        rfl
      have kids : childAnonKids next (.obj oid) = [] := by
        simp only [childAnonKids, dbprivAppendAnonList]
        rw [show next.anonymousObjects oid = [] from noKids, addAll_nil]
      unfold fixChild
      refine (Avoids.of_eq_ok through).bind fun lists ran => ?_
      cases through.symm.trans ran
      simp only
      rw [show childAnonKids _ _ = [] from kids]
      exact ih found' parents children bare rfl noKids
        (by simpa using oldOwn) (by simpa using newOwn)

theorem ancestors_own {oid : Int} {o : Object V} (found : s.object (.obj oid) = some o) {q : Int}
    (parents : o.parents = .obj q) (own : s.valid q = true → q = oid) :
    ∀ a ∈ dbAncestors s (.obj oid) true, a = .obj oid := by
  have closed : ∀ a, a = ObjVar.obj oid → ∀ u ∈ parentsOf s a, u = ObjVar.obj oid := by
    rintro a rfl u edge
    obtain ⟨o', p, found', member, valid, rfl⟩ := mem_parentsOf.mp edge
    rw [found] at found'
    cases found'
    rw [parents] at member
    have same : p = q := by simpa [enlistVar] using member
    rw [same, own (same ▸ valid)]
  intro a member
  simp only [dbAncestors, if_true, List.singleton_append, List.mem_cons] at member
  rcases member with same | above
  · exact same
  · exact visit_within closed (closed _ rfl) (by simp) a above

theorem recreated_own_parent_safe (out : LaidOut s) {oid parent : Int}
    (blank : Blank s s' (.obj oid)) (graph' : WellFormed s')
    (unusable : ¬∀ p ∈ (ObjOrList.obj parent).named, s.valid p = true) :
    SlotSafe (dbChangeParents s' (.obj oid) (.obj parent) []) := by
  refine dbChangeParents_safe fun o s1 s2 found relinked assigned => ?_
  have change := reparented graph' found relinked assigned
  have newValid := (relinkChildren_ok relinked).1
  have isOwn : parent = oid := by
    by_contra other
    refine unusable fun p named => ?_
    have valid := newValid p named
    have same : p = parent := by
      simp only [ObjOrList.named] at named
      split at named
      · cases named
      · exact List.mem_singleton.mp named
    have elsewhere := blank.elsewhere (.obj p) (by simpa [same] using other)
    simpa only [Db.valid, elsewhere] using valid
  subst isOwn
  have real : parent ≠ NOTHING := graph'.not_nothing (Db.valid_iff.mpr ⟨o, found⟩)
  obtain ⟨o', found', fresh⟩ := blank.present
  cases found.symm.trans found'
  simp only [Object.inheritance, Prod.mk.injEq] at fresh
  obtain ⟨children, object, nodup, members⟩ := change.object (.obj parent) o found
  have only : children = [parent] := by
    refine List.perm_singleton.mp ((List.perm_ext_iff_of_nodup nodup (by simp)).mpr fun c => ?_)
    rw [members c, fresh.2.1]
    simp [ObjOrList.named, real, eq_comm]
  have kids : gatheredKids s' (.obj parent) [] = [] := by
    simp only [gatheredKids, List.isEmpty_nil, if_true]
    rw [blank.index]
    exact out.graph.unindexed blank.absent
  have noKids : s2.anonymousObjects parent = [] := by
    rw [List.eq_nil_iff_forall_not_mem]
    intro a member
    rcases (change.index parent a).mp member with ⟨old, -⟩ | ⟨same, -⟩
    · rw [blank.index, out.graph.unindexed blank.absent] at old
      cases old
    · cases same
  rw [kids]
  rw [if_pos rfl] at object
  exact fix_own_child_safe object rfl only fresh.2.2.1 fresh.2.2.2 noKids
    (ancestors_own found fresh.1 fun valid => absurd rfl (graph'.not_nothing valid))
    (ancestors_own object rfl fun _ => rfl)

theorem bfRecreate_safe (out : LaidOut s) (progr old parent owner : Int) :
    SlotSafe (bfRecreate s progr old parent owner) := by
  unfold bfRecreate
  split
  · exact Avoids.ok _
  · rename_i free
    simp only [Bool.or_eq_true, decide_eq_true_eq, gt_iff_lt, not_or, Bool.not_eq_true] at free
    generalize (if s.valid owner = true then owner else progr) = newOwner
    refine (parentsAllowed_safe _ _ _).bind fun allowed _ => ?_
    split
    · exact Avoids.ok _
    · generalize made : dbCreateObject s old false = triple
      obtain ⟨v, oid, s0⟩ := triple
      refine (modify_safe _ _ _).bind fun s1 owned => ?_
      have birth := created out.graph (Or.inr free.2) made owned
      have isObj : v = .obj oid := by
        rcases birth.kind with ⟨-, same⟩ | ⟨none, -⟩
        · exact same
        · cases none
      subst isObj
      have changes : SlotSafe (dbChangeParents s1 (.obj oid) (.obj parent) []) := by
        by_cases usable : ∀ p ∈ (ObjOrList.obj parent).named, s.valid p = true
        · exact born_safe birth.blank out birth.formed usable
        · exact recreated_own_parent_safe out birth.blank birth.formed usable
      refine changes.bind fun result _ => ?_
      obtain ⟨changed, s2⟩ := result
      cases changed with
      | false => exact (dbDestroyObject_safe oid).bind fun _ _ => Avoids.ok _
      | true => exact Avoids.ok _

theorem bfChparentChparents_safe (out : LaidOut s) (progr : Int) {v : ObjVar} {what : ObjOrList}
    (separable : Separable s v what) : SlotSafe (bfChparentChparents s progr v what) := by
  unfold bfChparentChparents
  split
  · exact Avoids.ok _
  · rename_i usable
    simp only [Bool.or_eq_true, not_or, Bool.not_eq_true, Bool.not_eq_false'] at usable
    refine (controls2_safe _ _).bind fun controls _ => ?_
    refine (parentsAllowed_safe _ _ _).bind fun allowed _ => ?_
    split
    · exact Avoids.ok _
    · split
      · exact Avoids.ok _
      · rename_i apart
        have changes : SlotSafe (dbChangeParents s v what []) := by
          refine dbChangeParents_safe fun o s1 s2 found relinked assigned => ?_
          obtain ⟨s', ran, -⟩ := relinked_runs out (separable.separatedBy found s2)
            (usable_valid usable.2) (not_descendants out.graph apart) found relinked assigned
          exact Avoids.of_eq_ok ran
        refine changes.bind fun result _ => ?_
        obtain ⟨changed, s2⟩ := result
        cases changed with
        | false => exact Avoids.ok _
        | true => exact Avoids.ok _

theorem dbChangeLocation_safe (oid place : Int) (position : Nat) :
    SlotSafe (dbChangeLocation s oid place position) := by
  have moved (t : Db V) (p : Int) (f : Object V → Object V) : SlotSafe (modifyValid t p f) := by
    unfold modifyValid
    split
    · exact modify_safe _ _ _
    · exact Avoids.ok _
  refine (dereference_safe s _).bind fun o _ => ?_
  refine (moved _ _ _).bind fun s1 _ => ?_
  exact (moved _ _ _).bind fun s2 _ => modify_safe _ _ _

theorem moveContents_safe (oid : Int) (fuel : Nat) : SlotSafe (moveContents oid fuel s) := by
  induction fuel generalizing s with
  | zero => exact Avoids.error id
  | succ fuel ih =>
      refine (dereference_safe s _).bind fun o _ => ?_
      split
      · exact Avoids.ok _
      · exact (dbChangeLocation_safe _ _ _).bind fun s1 _ => ih

theorem leaveLocation_safe (oid : Int) : SlotSafe (leaveLocation s oid) := by
  refine (dereference_safe s _).bind fun o _ => ?_
  split
  · exact dbChangeLocation_safe _ _ _
  · exact Avoids.ok _

theorem dbNextChild_safe (oid : Int) : SlotSafe (dbNextChild s oid) := by
  refine (dereference_safe s _).bind fun o _ => ?_
  split
  · exact Avoids.ok _
  · split <;> exact Avoids.ok _

theorem reparentChildren_safe (out : LaidOut s) {oid : Int} (recyclable : Recyclable s oid)
    (fuel : Nat) : SlotSafe (reparentChildren oid fuel s) := by
  induction fuel generalizing s with
  | zero => exact Avoids.error id
  | succ fuel ih =>
      refine (dbNextChild_safe oid).bind fun next found => ?_
      cases next with
      | none => exact Avoids.ok _
      | some child =>
          refine (dereference_safe s _).bind fun c foundChild => ?_
          refine (dereference_safe s _).bind fun o foundO => ?_
          rw [Db.dereference_ok] at foundChild foundO
          have edge := dbNextChild_ok out.graph found
          have changes : SlotSafe (dbChangeParents s child
              (splicedParents s oid c.parents o.parents) []) :=
            separated_safe out (recyclable.separatedBy edge foundChild foundO)
              (fun p named => (spliced_ancestors out.graph edge foundChild foundO p named).1)
              (spliced_apart out.graph edge foundChild foundO)
          refine changes.bind fun result change => ?_
          obtain ⟨changed, s1⟩ := result
          cases changed with
          | false => exact Avoids.ok _
          | true =>
              rcases dbChangeParents_ok change with ⟨no, -⟩ | ⟨-, s2, changed⟩
              · cases no
              · have turn : Spliced oid s s1 :=
                  ⟨out.graph, child, c, o, s2, found, foundChild, foundO, changed⟩
                obtain ⟨out', -, recyclable'⟩ := turn.kept out recyclable
                exact ih out' recyclable'

theorem detached_safe (out : LaidOut s) {oid : Int} (next : dbNextChild s oid = .ok none) :
    SlotSafe (dbChangeParents s (.obj oid) (.obj NOTHING) []) := by
  obtain ⟨o, found, -⟩ := Failing.bind_ok next
  rw [Db.dereference_ok] at found
  have orphan : (ObjOrList.obj NOTHING).named = [] := by simp [ObjOrList.named]
  refine separated_safe out (separatedBy_of_childless found (fun d path => ?_) _)
    (by simp [orphan]) (by simp [orphan])
  rcases Relation.ReflTransGen.cases_tail path with same | ⟨_, _, edge⟩
  · exact same.symm
  · exact absurd edge (no_next_child out.graph next _)

theorem recycleObject_safe (out : LaidOut s) {oid : Int} (recyclable : Recyclable s oid) :
    SlotSafe (recycleObject s oid) := by
  refine (dereference_safe s _).bind fun o _ => ?_
  refine (moveContents_safe _ _).bind fun s0 emptied => ?_
  refine (leaveLocation_safe _).bind fun s1 left => ?_
  obtain ⟨quiet, formed1⟩ := (emptied_unplaced emptied left).quiet out.graph
  have out1 := (quiet.kept out formed1).1
  have recyclable1 := quiet.recyclable recyclable
  refine (reparentChildren_safe out1 recyclable1 _).bind fun result turned => ?_
  obtain ⟨done, s2⟩ := result
  obtain ⟨turns, -, finished⟩ := reparentChildren_ok formed1 turned
  cases done with
  | false => exact Avoids.ok _
  | true =>
      have out2 := (spliced_kept turns out1 recyclable1).1
      refine (detached_safe out2 (finished rfl)).bind fun result _ => ?_
      exact (dbDestroyObject_safe oid).bind fun _ _ => Avoids.ok _

theorem bfRecycle_safe (out : LaidOut s) (progr : Int) {v : ObjVar}
    (recyclable : ∀ oid, v = .obj oid → Recyclable s oid) : SlotSafe (bfRecycle s progr v) := by
  unfold bfRecycle
  split
  · exact Avoids.ok _
  · refine (controls2_safe _ _).bind fun controls _ => ?_
    split
    · exact Avoids.ok _
    · cases v with
      | obj oid => exact recycleObject_safe out (recyclable oid rfl)
      | anon address => exact (dbDestroyAnonymousObject_safe address).bind fun _ _ => Avoids.ok _

end BuiltIns

end ToastStunt
