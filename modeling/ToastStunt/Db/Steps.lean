import ToastStunt.Db.Operations

/-!
The built-ins that create, re-parent and recycle objects, taken apart into single
changes of the inheritance graph. Each keeps the graph well-formed.
-/

namespace ToastStunt

open FirstVisit

variable {V : Type}

section Tables

theorem setLastUsed_spec (s : Db V) (oid : Int) : ∃ n,
    dbSetLastUsedObjid s oid = { s with numObjects := n } ∧ n ≤ s.numObjects ∧
      (oid ≤ s.numObjects → oid ≤ n) ∧
      ∀ p, s.valid p = true → p < s.numObjects → p < n := by
  unfold dbSetLastUsedObjid
  generalize List.range (s.numObjects - oid).toNat = turns
  induction turns generalizing s with
  | nil => exact ⟨s.numObjects, rfl, by omega, id, fun _ _ bound => bound⟩
  | cons turn rest ih =>
      rw [List.foldl_cons]
      split
      · rename_i lower
        simp only [Bool.and_eq_true, Bool.not_eq_true', gt_iff_lt, decide_eq_true_eq] at lower
        obtain ⟨n, same, upper, above, used⟩ := ih { s with numObjects := s.numObjects - 1 }
        change n ≤ s.numObjects - 1 at upper
        change oid ≤ s.numObjects - 1 → oid ≤ n at above
        change ∀ p, s.valid p = true → p < s.numObjects - 1 → p < n at used
        refine ⟨n, same, by omega, fun _ => above (by omega), fun p valid bound => ?_⟩
        have other : p ≠ s.numObjects - 1 := by
          rintro rfl
          rw [lower.1] at valid
          cases valid
        exact used p valid (by omega)
      · exact ih s

theorem wellFormed_resize {s : Db V} (formed : WellFormed s) {n : Int} (table : 0 ≤ n)
    (used : ∀ p, s.valid p = true → p < n) : WellFormed { s with numObjects := n } where
  table := table
  numbered oid node found := by
    have old := formed.numbered oid node found
    exact ⟨old.1, used oid (valid_iff_node.mpr ⟨node, found⟩), old.2.2⟩
  allocated := formed.allocated
  childless := formed.childless
  parentsValid := formed.parentsValid
  childrenValid := formed.childrenValid
  mirrored := formed.mirrored
  childrenNodup := formed.childrenNodup
  indexed := formed.indexed
  indexNodup := formed.indexNodup
  acyclic := formed.acyclic

theorem setLastUsed_ok {s : Db V} (formed : WellFormed s) {oid : Int}
    (above : (0 ≤ oid ∧ oid ≤ s.numObjects) ∨ ∃ p, s.valid p = true) :
    WellFormed (dbSetLastUsedObjid s oid) ∧ Quiet s (dbSetLastUsedObjid s oid) := by
  obtain ⟨n, same, -, lower, used⟩ := setLastUsed_spec s oid
  rw [same]
  refine ⟨wellFormed_resize formed ?_ ?_, fun _ => rfl, fun _ => List.Perm.refl _⟩
  · rcases above with ⟨nonneg, bound⟩ | ⟨p, valid⟩
    · exact Int.le_trans nonneg (lower bound)
    · have bounds := formed.valid_bounds valid
      have := used p valid bounds.2
      omega
  · intro p valid
    exact used p valid (formed.valid_bounds valid).2

end Tables

section Fresh

variable {s s' : Db V} {v : ObjVar}

theorem WellFormed.unindexed (formed : WellFormed s) {p : Int}
    (absent : s.object (.obj p) = none) : s.anonymousObjects p = [] := by
  rw [List.eq_nil_iff_forall_not_mem]
  intro a member
  obtain ⟨n, found, named⟩ := (formed.indexed p a).mp member
  obtain ⟨o, present⟩ := Db.valid_iff.mp (formed.parentsValid _ n found p named)
  rw [absent] at present
  cases present

theorem Blank.isolated (blank : Blank s s' v) (formed : WellFormed s)
    (numbered : ∀ oid o, v = .obj oid → s'.object v = some o →
      0 ≤ oid ∧ oid < s'.numObjects ∧ o.id = oid)
    (allocated : ∀ a, v = .anon a → a < s'.nextAnon)
    (numObjects : s.numObjects ≤ s'.numObjects) (nextAnon : s.nextAnon ≤ s'.nextAnon) :
    Isolated s s' v where
  elsewhere w other := by rw [Db.node, Db.node, blank.elsewhere w other]
  before n found := by
    rw [Db.node, blank.absent] at found
    cases found
  after n found := by
    obtain ⟨o, present, same⟩ := blank.present
    obtain ⟨o', found', rfl⟩ := node_some.mp found
    rw [present] at found'
    cases found'
    simp only [Object.inheritance, Prod.mk.injEq] at same
    exact ⟨by simp [Object.node, same.1, ObjOrList.named], same.2.1⟩
  noAnons p same := formed.unindexed (same ▸ blank.absent)
  index := blank.index
  numbered oid n same found := by
    obtain ⟨o, object, rfl⟩ := node_some.mp found
    exact numbered oid o same object
  allocated a same _ := allocated a same
  numObjects := numObjects
  nextAnon := nextAnon

theorem Gone.isolated (gone : Gone s s' v)
    (noParents : ∀ n, s.node v = some n → n.parents.named = [])
    (index : s'.anonymousObjects = s.anonymousObjects) (numObjects : s.numObjects ≤ s'.numObjects)
    (nextAnon : s.nextAnon ≤ s'.nextAnon) : Isolated s s' v where
  elsewhere w other := by rw [Db.node, Db.node, gone.elsewhere w other]
  before n found := by
    obtain ⟨o, present, childless⟩ := gone.present
    have same : o.node = n := by
      rw [Db.node, present] at found
      exact Option.some.inj found
    exact ⟨noParents n found, by rw [← same]; exact childless⟩
  after n found := by
    rw [Db.node, gone.absent] at found
    cases found
  noAnons := gone.noAnons
  index := index
  numbered oid n _ found := by
    rw [Db.node, gone.absent] at found
    cases found
  allocated a _ present := by
    rw [Db.node, gone.absent] at present
    exact absurd rfl present
  numObjects := numObjects
  nextAnon := nextAnon

theorem WellFormed.childless_apart (formed : WellFormed s) {oid : Int} {o : Object V}
    (found : s.object (.obj oid) = some o) (noChildren : o.children = []) {p : Int}
    (path : Ancestor s (.obj p) (.obj oid)) : p = oid := by
  rcases Relation.ReflTransGen.cases_tail path with same | ⟨middle, front, edge⟩
  · cases same
    rfl
  · have isObj : ∃ c, middle = .obj c := by
      rcases Relation.ReflTransGen.cases_tail front with same | ⟨_, _, last⟩
      · exact ⟨p, same⟩
      · obtain ⟨c, rfl, -⟩ := WellFormed.parent_is_obj last
        exact ⟨c, rfl⟩
    obtain ⟨c, rfl⟩ := isObj
    have child := formed.mem_children.mpr edge
    obtain ⟨o', _, found', member, _⟩ := mem_childrenOf.mp child
    rw [found] at found'
    cases found'
    rw [noChildren] at member
    cases member

theorem not_anon_ancestor {p : Int} {a : Nat} : ¬Ancestor s (.obj p) (.anon a) := by
  intro path
  rcases Relation.ReflTransGen.cases_tail path with same | ⟨_, _, last⟩
  · cases same
  · obtain ⟨_, same, -⟩ := WellFormed.parent_is_obj last
    cases same

theorem ChangedParents.childless_wellFormed {new : ObjOrList} {kids : List Nat} {s2 : Db V}
    (change : ChangedParents s s' v new kids s2) (formed : WellFormed s) {o : Object V}
    (found : s.object v = some o) (noChildren : o.children = [])
    (newValid : ∀ p ∈ new.named, s.valid p = true) : WellFormed s' := by
  refine change.wellFormed formed newValid fun p named path => ?_
  cases v with
  | obj oid =>
      have same := formed.childless_apart found noChildren path
      exact change.not_own_parent formed (same ▸ named)
  | anon a => exact not_anon_ancestor path

end Fresh

section Create

variable {s s' : Db V}

theorem WellFormed.unnumbered (formed : WellFormed s) : s.object (.obj s.numObjects) = none := by
  cases found : s.object (.obj s.numObjects) with
  | none => rfl
  | some o =>
      have := (formed.valid_bounds (Db.valid_iff.mpr ⟨o, found⟩)).2
      omega

theorem WellFormed.unallocated (formed : WellFormed s) :
    s.object (.anon s.nextAnon) = none :=
  Option.map_eq_none_iff.mp (formed.allocated s.nextAnon (Nat.le_refl _))

/-- What `db_create_object` and the assignment of the owner leave behind. -/
structure Created (s s' : Db V) (anonymous : Bool) (v : ObjVar) (oid : Int) : Prop where
  blank : Blank s s' v
  formed : WellFormed s'
  kind : anonymous = false ∧ v = .obj oid ∨ anonymous = true ∧ v = .anon s.nextAnon
  numObjects : s.numObjects ≤ s'.numObjects

/-- The number that `db_create_object` settles on is free and within the table. -/
theorem dbCreateObject_made (formed : WellFormed s) {newObjid : Int} {anonymous : Bool}
    (fresh : newObjid ≤ 0 ∨ s.valid newObjid = false) {v : ObjVar} {oid : Int} {s1 : Db V}
    (made : dbCreateObject s newObjid anonymous = (v, oid, s1)) :
    ∃ n, s.numObjects ≤ n ∧ 0 ≤ oid ∧ oid < n ∧ s.object (.obj oid) = none ∧
      (anonymous = false ∧ v = .obj oid ∧
          s1 = { s with numObjects := n }.setObject v (some (dbInitObject oid)) ∨
        anonymous = true ∧ v = .anon s.nextAnon ∧
          s1 = { s with numObjects := n, nextAnon := s.nextAnon + 1 }.setObject v
            (some (dbInitObject oid))) := by
  have table := formed.table
  unfold dbCreateObject at made
  by_cases appended : newObjid ≤ 0 ∨ s.numObjects ≤ newObjid
  · simp only [appended, if_true] at made
    refine ⟨s.numObjects + 1, by omega, ?_⟩
    cases anonymous with
    | false =>
        cases made
        exact ⟨table, by omega, formed.unnumbered, Or.inl ⟨rfl, rfl, rfl⟩⟩
    | true =>
        cases made
        exact ⟨table, by omega, formed.unnumbered, Or.inr ⟨rfl, rfl, rfl⟩⟩
  · simp only [appended, if_false] at made
    have free : s.object (.obj newObjid) = none := by
      have invalid : s.valid newObjid = false := by tauto
      simpa [Db.valid] using invalid
    refine ⟨s.numObjects, by omega, ?_⟩
    cases anonymous with
    | false =>
        cases made
        exact ⟨by omega, by omega, free, Or.inl ⟨rfl, rfl, rfl⟩⟩
    | true =>
        cases made
        exact ⟨by omega, by omega, free, Or.inr ⟨rfl, rfl, rfl⟩⟩

theorem created (formed : WellFormed s) {newObjid : Int} {anonymous : Bool}
    (fresh : newObjid ≤ 0 ∨ s.valid newObjid = false) {v : ObjVar} {oid owner : Int} {s1 : Db V}
    (made : dbCreateObject s newObjid anonymous = (v, oid, s1))
    (owned : dbSetObjectOwner s1 v owner = .ok s') : Created s s' anonymous v oid := by
  obtain ⟨n, lower, nonneg, bound, free, kind⟩ := dbCreateObject_made formed fresh made
  obtain ⟨o, foundO, rfl⟩ := Db.modify_ok owned
  rcases kind with ⟨rfl, rfl, rfl⟩ | ⟨rfl, rfl, rfl⟩
  · simp only [Db.setObject_object, if_true, Option.some.injEq] at foundO
    subst foundO
    have blank : Blank s (({ s with numObjects := n }.setObject (.obj oid)
        (some (dbInitObject oid))).setObject (.obj oid) (some { dbInitObject oid with
          owner := owner })) (.obj oid) :=
      { absent := free
        present := ⟨_, if_pos rfl, rfl⟩
        elsewhere := fun w other => by simp [other]
        index := rfl }
    refine ⟨blank, Isolated.wellFormed (blank.isolated formed ?_ nofun lower
      (Nat.le_refl _)) formed, Or.inl ⟨rfl, rfl⟩, lower⟩
    intro p o same found
    cases same
    simp only [Db.setObject_object, if_true, Option.some.injEq] at found
    subst found
    exact ⟨nonneg, bound, rfl⟩
  · simp only [Db.setObject_object, if_true, Option.some.injEq] at foundO
    subst foundO
    have blank : Blank s (({ s with numObjects := n, nextAnon := s.nextAnon + 1 }.setObject
        (.anon s.nextAnon) (some (dbInitObject oid))).setObject (.anon s.nextAnon)
        (some { dbInitObject oid with owner := owner })) (.anon s.nextAnon) :=
      { absent := formed.unallocated
        present := ⟨_, if_pos rfl, rfl⟩
        elsewhere := fun w other => by simp [other]
        index := rfl }
    refine ⟨blank, Isolated.wellFormed (blank.isolated formed nofun ?_ lower
      (Nat.le_succ _)) formed, Or.inr ⟨rfl, rfl⟩, lower⟩
    intro a same
    cases same
    exact Nat.lt_succ_self _

end Create

section Destroy

variable {s s' : Db V}

theorem dbDestroyObject_ok (formed : WellFormed s) {oid : Int}
    (noAnons : s.anonymousObjects oid = []) (ran : dbDestroyObject s oid = .ok s') :
    Gone s s' (.obj oid) ∧ WellFormed s' ∧ s'.numObjects = s.numObjects := by
  unfold dbDestroyObject at ran
  cases found : s.object (.obj oid) with
  | none =>
      rw [found] at ran
      cases ran
  | some o =>
      simp only [found] at ran
      split at ran
      · cases ran
      · rename_i unrelated
        simp only [not_or, not_not] at unrelated
        obtain ⟨-, -, noParents, childless⟩ := unrelated
        cases ran
        have gone : Gone s { s.setObject (.obj oid) none with
            allUsers := if isUser s oid then setremove s.allUsers oid else s.allUsers }
            (.obj oid) :=
          { present := ⟨o, found, childless⟩
            noAnons := by
              intro p same
              cases same
              exact noAnons
            absent := if_pos rfl
            elsewhere := fun w other => if_neg other
            index := by simp }
        refine ⟨gone, (gone.isolated ?_ rfl (Int.le_refl _) (Nat.le_refl _)).wellFormed formed, rfl⟩
        intro n present
        rw [Db.node, found] at present
        cases present
        exact noParents

theorem dbDestroyAnonymousObject_ok (formed : WellFormed s) {a : Nat}
    (ran : dbDestroyAnonymousObject s a = .ok s') :
    Gone s s' (.anon a) ∧ WellFormed s' ∧ s'.numObjects = s.numObjects := by
  obtain ⟨o, found, ran⟩ := Failing.bind_ok ran
  rw [Db.dereference_ok] at found
  simp only [pure, Except.pure, Except.ok.injEq] at ran
  generalize cleared : o.parents.named.foldl (fun s parent => dbprivRemoveAnon s parent a) s =
    middle at ran
  have unindexed : middle.unindexed = s.unindexed := cleared ▸ removeAnons_unindexed _ _ _
  obtain ⟨sameObjects, sameNumObjects, sameNextAnon, -⟩ := Db.unindexed_fields unindexed
  have detached : Reparented s (middle.setObject (.anon a)
      (some { o with parents := .obj NOTHING })) (.anon a) (.obj NOTHING) := by
    have relinked : relink s (.anon a) o.parents (.obj NOTHING) = .ok middle := by
      rw [← cleared]
      rfl
    exact reparented formed found relinked (by simp [Db.modify, sameObjects, found])
  have formedDetached := detached.wellFormed formed found (by simp [ObjOrList.named])
    (by simp [ObjOrList.named])
  have childless : o.children = [] := formed.childless a o.node (node_some.mpr ⟨o, found, rfl⟩)
  have index (p : Int) (b : Nat) : b ∈ middle.anonymousObjects p ↔
      b ∈ s.anonymousObjects p ∧ ObjVar.anon a ≠ .anon b := by
    simpa [ObjOrList.named] using detached.index p b
  subst ran
  refine ⟨?_, Isolated.wellFormed (v := .anon a) ?_ formedDetached, sameNumObjects⟩
  · exact {
      present := ⟨o, found, childless⟩
      noAnons := by rintro _ ⟨⟩
      absent := if_pos rfl
      elsewhere := fun w other => by simp [other, sameObjects]
      index := index }
  · exact {
      elsewhere := fun w other => by simp [Db.node, other]
      before := fun n present => by
        simp only [Db.node, Db.setObject_object, if_true, Option.map_some,
          Option.some.injEq] at present
        subst present
        exact ⟨rfl, childless⟩
      after := fun n present => by simp [Db.node] at present
      noAnons := by rintro _ ⟨⟩
      index := rfl
      numbered := by rintro _ _ ⟨⟩
      allocated := fun b _ present => by simp [Db.node] at present
      numObjects := Int.le_refl _
      nextAnon := Nat.le_refl _ }

theorem Blank.gone {v : ObjVar} {s1 : Db V} (blank : Blank s s1 v) (gone : Gone s1 s' v)
    (formed : WellFormed s) (formed' : WellFormed s') : Quiet s s' where
  view w := by
    by_cases same : w = v
    · rw [same, blank.absent, gone.absent]
    · rw [gone.elsewhere w same, blank.elsewhere w same]
  index p := by
    rw [List.perm_ext_iff_of_nodup (formed'.indexNodup p) (formed.indexNodup p)]
    intro a
    rw [gone.index, blank.index]
    refine ⟨And.left, fun member => ⟨member, ?_⟩⟩
    rintro rfl
    obtain ⟨n, found, -⟩ := (formed.indexed p a).mp member
    rw [Db.node, blank.absent] at found
    cases found

end Destroy

section BuiltIns

variable {s s' : Db V}

def Born (s s' : Db V) (v : ObjVar) (parents : ObjOrList) : Prop :=
  ∃ s1 s2 s3, Blank s s1 v ∧ WellFormed s1 ∧
    ChangedParents s1 s3 v parents (gatheredKids s1 v []) s2 ∧
    (∀ p ∈ parents.named, s1.valid p = true) ∧ WellFormed s3 ∧ Quiet s3 s' ∧ WellFormed s'

theorem usable_valid {parents : ObjOrList} (usable : unusableParents s parents = false) :
    ∀ p ∈ parents.named, s.valid p = true := by
  intro p named
  cases parents with
  | obj oid =>
      simp only [unusableParents, ObjOrList.named] at usable named
      split at named
      · cases named
      · rename_i real
        simp only [List.mem_singleton] at named
        subst named
        simpa [real] using usable
  | list oids =>
      simp only [unusableParents, ObjOrList.named] at usable named
      simp only [Bool.not_eq_false', List.all_eq_true] at usable
      exact usable p named

theorem Blank.valid {v : ObjVar} (blank : Blank s s' v) {p : Int} (valid : s.valid p = true) :
    s'.valid p = true := by
  obtain ⟨o, found⟩ := Db.valid_iff.mp valid
  have other : ObjVar.obj p ≠ v := by
    rintro rfl
    rw [blank.absent] at found
    cases found
  exact Db.valid_iff.mpr ⟨o, (blank.elsewhere _ other).trans found⟩

theorem dbMakeAnonymous_ok (formed : WellFormed s) {a : Nat} {last : Int}
    (above : (0 ≤ last ∧ last ≤ s.numObjects) ∨ ∃ p, s.valid p = true)
    (ran : dbMakeAnonymous s a last = .ok s') : Quiet s s' ∧ WellFormed s' := by
  unfold dbMakeAnonymous at ran
  obtain ⟨middle, quiet⟩ := setLastUsed_ok formed above
  generalize dbSetLastUsedObjid s last = s1 at middle quiet ran
  have childless (o : Object V) (found : s1.object (.anon a) = some o) : o.children = [] :=
    middle.childless a o.node (node_some.mpr ⟨o, found, rfl⟩)
  have sameInheritance := Quiet.of_modify (fun o found => by
    simp [Object.inheritance, childless o found]) ran
  obtain ⟨o, -, rfl⟩ := Db.modify_ok ran
  refine ⟨quiet.trans sameInheritance, sameInheritance.wellFormed middle ?_ rfl rfl⟩
  intro oid o' found
  simp only [Db.setObject_object, reduceCtorEq, if_false] at found
  exact (middle.numbered oid _ (node_some.mpr ⟨o', found, rfl⟩)).2.2

theorem orphan_not_refused {v : ObjVar} {parents : ObjOrList} (orphan : parents.named = [])
    (nothing : s.object (.obj NOTHING) = none)
    (kidsOk : checkChildrenOfObject s v (gatheredKids s v []) = .ok true)
    (ran : dbChangeParents s v parents [] = .ok (false, s')) : False := by
  have noDuplicates : checkForDuplicates parents = true := by
    cases parents with
    | obj oid => rfl
    | list oids =>
        rw [show oids = [] from orphan]
        rfl
  have noAncestors (fuel : Nat) :
      proposedAncestors s (fuel + 1) (enlistVar parents) [] = .ok [] := by
    cases parents with
    | obj oid =>
        have : oid = NOTHING := by
          by_contra real
          simp [ObjOrList.named, real] at orphan
        subst this
        simp only [proposedAncestors, enlistVar, List.foldlM_cons, nothing, List.foldlM_nil]
        rfl
    | list oids =>
        rw [show oids = [] from orphan]
        rfl
  have propertiesOk (kids : List Nat) :
      dbprivCheckPropertiesForChparent s v parents kids = .ok true := by
    unfold dbprivCheckPropertiesForChparent
    rw [noAncestors]
    rfl
  simp only [dbChangeParents, noDuplicates, kidsOk, propertiesOk, Bool.not_true,
    Bool.false_eq_true, if_false] at ran
  obtain ⟨allowed, first, ran⟩ := Failing.bind_ok ran
  cases first
  obtain ⟨allowed, second, ran⟩ := Failing.bind_ok ran
  cases second
  obtain ⟨o, -, ran⟩ := Failing.bind_ok ran
  obtain ⟨s1, -, ran⟩ := Failing.bind_ok ran
  obtain ⟨s2, -, ran⟩ := Failing.bind_ok ran
  obtain ⟨s3, -, ran⟩ := Failing.bind_ok ran
  cases ran

theorem WellFormed.nothing (formed : WellFormed s) : s.object (.obj NOTHING) = none := by
  cases found : s.object (.obj NOTHING) with
  | none => rfl
  | some o => exact absurd rfl (formed.not_nothing (Db.valid_iff.mpr ⟨o, found⟩))

theorem bfCreate_ok (formed : WellFormed s) {progr owner : Int} {parents : ObjOrList}
    {anonymous : Bool} {outcome : Outcome}
    (ran : bfCreate s progr parents owner anonymous = .ok (outcome, s')) :
    WellFormed s' ∧ (Quiet s s' ∨ ∃ v, Born s s' v parents) := by
  unfold bfCreate at ran
  split at ran
  · cases ran
    exact ⟨formed, Or.inl (Quiet.refl s)⟩
  · rename_i usable
    simp only [Bool.or_eq_true, Bool.and_eq_true, decide_eq_true_eq, ne_eq, not_or,
      not_and, Bool.not_eq_true] at usable
    obtain ⟨allowed, -, ran⟩ := Failing.bind_ok ran
    split at ran
    · cases ran
      exact ⟨formed, Or.inl (Quiet.refl s)⟩
    · generalize made : dbCreateObject s (-1) anonymous = triple at ran
      obtain ⟨v, oid, s0⟩ := triple
      simp only at ran
      obtain ⟨s1, owned, ran⟩ := Failing.bind_ok ran
      obtain ⟨⟨changed, s3⟩, change, rest⟩ := Failing.bind_ok ran
      have birth := created formed (Or.inl (by omega)) made owned
      have usableParents := usable_valid usable.2
      have newValid : ∀ p ∈ parents.named, s1.valid p = true := fun p named =>
        birth.blank.valid (usableParents p named)
      rcases dbChangeParents_ok change with ⟨rfl, rfl⟩ | ⟨rfl, s2, changed⟩
      · have someone : 0 < s.numObjects := by
          by_contra empty
          have orphan : parents.named = [] := by
            rw [List.eq_nil_iff_forall_not_mem]
            intro p named
            have := formed.valid_bounds (usableParents p named)
            omega
          have noKids : gatheredKids s3 v [] = [] := by
            rcases birth.kind with ⟨-, rfl⟩ | ⟨-, rfl⟩
            · rw [gatheredKids, birth.blank.index]
              exact formed.unindexed birth.blank.absent
            · rfl
          exact orphan_not_refused orphan birth.formed.nothing (by rw [noKids]; rfl) change
        have final {s4 : Db V} (gone : Gone s3 s4 v) (formed4 : WellFormed s4)
            (numObjects : s4.numObjects = s3.numObjects) :
            WellFormed (dbSetLastUsedObjid s4 (dbLastUsedObjid s)) ∧
              Quiet s (dbSetLastUsedObjid s4 (dbLastUsedObjid s)) := by
          have larger := birth.numObjects
          have resized := @setLastUsed_ok _ s4 formed4 (dbLastUsedObjid s)
            (Or.inl (by unfold dbLastUsedObjid; omega))
          exact ⟨resized.1, (birth.blank.gone gone formed formed4).trans resized.2⟩
        rcases birth.kind with ⟨-, rfl⟩ | ⟨-, rfl⟩
        · obtain ⟨s4, destroyed, rest⟩ := Failing.bind_ok rest
          cases rest
          have noAnons := (birth.blank.index ▸ formed.unindexed birth.blank.absent :
            s3.anonymousObjects oid = [])
          obtain ⟨gone, formed4, numObjects⟩ :=
            dbDestroyObject_ok birth.formed noAnons destroyed
          have result := final gone formed4 numObjects
          exact ⟨result.1, Or.inl result.2⟩
        · obtain ⟨s4, destroyed, rest⟩ := Failing.bind_ok rest
          cases rest
          obtain ⟨gone, formed4, numObjects⟩ :=
            dbDestroyAnonymousObject_ok birth.formed destroyed
          have result := final gone formed4 numObjects
          exact ⟨result.1, Or.inl result.2⟩
      · have formed3 : WellFormed s3 := by
          obtain ⟨o, present, same⟩ := birth.blank.present
          simp only [Object.inheritance, Prod.mk.injEq] at same
          exact changed.childless_wellFormed birth.formed present same.2.1 newValid
        have final : Quiet s3 s' ∧ WellFormed s' := by
          rcases birth.kind with ⟨-, rfl⟩ | ⟨rfl, rfl⟩
          · cases rest
            exact ⟨Quiet.refl _, formed3⟩
          · obtain ⟨s4, renamed, rest⟩ := Failing.bind_ok rest
            cases rest
            have validOwner : s.valid owner = true := by
              by_contra invalid
              have := usable.1.2 (by simpa using invalid)
              have := usable.1.1
              tauto
            refine dbMakeAnonymous_ok formed3 (Or.inr ⟨owner, ?_⟩) renamed
            rw [changed.valid birth.formed]
            exact birth.blank.valid validOwner
        exact ⟨final.2, Or.inr ⟨v, s1, s2, s3, birth.blank, birth.formed, changed, newValid,
          formed3, final.1, final.2⟩⟩

theorem bfRecreate_ok (formed : WellFormed s) {progr old parent owner : Int} {outcome : Outcome}
    (ran : bfRecreate s progr old parent owner = .ok (outcome, s')) :
    WellFormed s' ∧ (Quiet s s' ∨ ∃ v, Born s s' v (.obj parent)) := by
  unfold bfRecreate at ran
  split at ran
  · cases ran
    exact ⟨formed, Or.inl (Quiet.refl s)⟩
  · rename_i free
    simp only [Bool.or_eq_true, decide_eq_true_eq, gt_iff_lt, not_or, Bool.not_eq_true] at free
    generalize (if s.valid owner = true then owner else progr) = newOwner at ran
    obtain ⟨allowed, -, ran⟩ := Failing.bind_ok ran
    split at ran
    · cases ran
      exact ⟨formed, Or.inl (Quiet.refl s)⟩
    · generalize made : dbCreateObject s old false = triple at ran
      obtain ⟨v, oid, s0⟩ := triple
      simp only at ran
      obtain ⟨s1, owned, ran⟩ := Failing.bind_ok ran
      obtain ⟨⟨changed, s3⟩, change, rest⟩ := Failing.bind_ok ran
      have birth := created formed (Or.inr free.2) made owned
      obtain ⟨-, rfl⟩ : False = False ∧ v = .obj oid := by
        rcases birth.kind with ⟨-, same⟩ | ⟨none, -⟩
        · exact ⟨rfl, same⟩
        · cases none
      rcases dbChangeParents_ok change with ⟨rfl, rfl⟩ | ⟨rfl, s2, changed⟩
      · obtain ⟨s4, destroyed, rest⟩ := Failing.bind_ok rest
        cases rest
        have noAnons := (birth.blank.index ▸ formed.unindexed birth.blank.absent :
          s3.anonymousObjects oid = [])
        obtain ⟨gone, formed4, -⟩ := dbDestroyObject_ok birth.formed noAnons destroyed
        exact ⟨formed4, Or.inl (birth.blank.gone gone formed formed4)⟩
      · cases rest
        obtain ⟨o, present, same⟩ := birth.blank.present
        simp only [Object.inheritance, Prod.mk.injEq] at same
        have formed3 := changed.childless_wellFormed birth.formed present same.2.1 changed.newValid
        exact ⟨formed3, Or.inr ⟨.obj oid, s1, s2, _, birth.blank, birth.formed, changed,
          changed.newValid, formed3, Quiet.refl _, formed3⟩⟩

theorem named_subset {parents : ObjOrList} {p : Int} (named : p ∈ parents.named) :
    p ∈ enlistVar parents := by
  cases parents with
  | obj oid =>
      simp only [ObjOrList.named] at named
      split at named
      · cases named
      · exact named
  | list oids => exact named

theorem not_descendants (formed : WellFormed s) {v : ObjVar} {what : ObjOrList}
    (apart : ¬((enlistVar what).any fun parent => isADescendant s parent v) = true) :
    ∀ p ∈ what.named, ¬Ancestor s (.obj p) v := by
  intro p named path
  cases v with
  | obj oid =>
      apply apart
      rw [List.any_eq_true]
      refine ⟨p, named_subset named, ?_⟩
      simp only [isADescendant, decide_eq_true_eq]
      exact formed.mem_descendants.mpr ⟨⟨p, rfl⟩, path⟩
  | anon a => exact not_anon_ancestor path

theorem bfChparentChparents_ok (formed : WellFormed s) {progr : Int} {v : ObjVar}
    {what : ObjOrList} {outcome : Outcome}
    (ran : bfChparentChparents s progr v what = .ok (outcome, s')) :
    WellFormed s' ∧ (s' = s ∨
      (∃ s2, ChangedParents s s' v what (gatheredKids s v []) s2) ∧
        (∀ p ∈ what.named, s.valid p = true) ∧ ∀ p ∈ what.named, ¬Ancestor s (.obj p) v) := by
  unfold bfChparentChparents at ran
  split at ran
  · cases ran
    exact ⟨formed, Or.inl rfl⟩
  · rename_i usable
    simp only [Bool.or_eq_true, not_or, Bool.not_eq_true] at usable
    obtain ⟨controls, -, ran⟩ := Failing.bind_ok ran
    obtain ⟨allowed, -, ran⟩ := Failing.bind_ok ran
    split at ran
    · cases ran
      exact ⟨formed, Or.inl rfl⟩
    · split at ran
      · cases ran
        exact ⟨formed, Or.inl rfl⟩
      · rename_i apart
        obtain ⟨⟨changed, s3⟩, change, rest⟩ := Failing.bind_ok ran
        have newValid := usable_valid usable.2
        have acyclic := not_descendants formed apart
        rcases dbChangeParents_ok change with ⟨rfl, rfl⟩ | ⟨rfl, s2, changed⟩
        · cases rest
          exact ⟨formed, Or.inl rfl⟩
        · cases rest
          exact ⟨changed.wellFormed formed newValid acyclic,
            Or.inr ⟨⟨s2, changed⟩, newValid, acyclic⟩⟩

end BuiltIns

section Recycle

variable {s s' : Db V}

/-- One turn of the loop that takes the children away from `oid`. -/
structure Spliced (oid : Int) (s s' : Db V) : Prop where
  formed : WellFormed s
  spliced : ∃ child c o s2, dbNextChild s oid = .ok (some child) ∧
    s.object child = some c ∧ s.object (.obj oid) = some o ∧
    ChangedParents s s' child (splicedParents s oid c.parents o.parents)
      (gatheredKids s child []) s2

theorem dbNextChild_ok (formed : WellFormed s) {oid : Int} {child : ObjVar}
    (next : dbNextChild s oid = .ok (some child)) : .obj oid ∈ parentsOf s child := by
  obtain ⟨o, found, next⟩ := Failing.bind_ok next
  rw [Db.dereference_ok] at found
  split at next
  · rename_i first _ children
    cases next
    rw [← formed.mem_children, mem_childrenOf]
    have member : first ∈ o.children := by simp [children]
    exact ⟨o, first, found, member, formed.childrenValid (.obj oid) o.node
      (node_some.mpr ⟨o, found, rfl⟩) first member, rfl⟩
  · split at next
    · rename_i address _ kids
      cases next
      rw [formed.mem_parents]
      exact (formed.indexed oid address).mp (by simp [kids])
    · cases next

theorem no_next_child (formed : WellFormed s) {oid : Int} (next : dbNextChild s oid = .ok none)
    (w : ObjVar) : .obj oid ∉ parentsOf s w := by
  obtain ⟨o, found, next⟩ := Failing.bind_ok next
  rw [Db.dereference_ok] at found
  intro edge
  split at next
  · cases next
  · rename_i childless
    cases w with
    | obj c =>
        obtain ⟨o', c', foundO, member, -, -⟩ := mem_childrenOf.mp (formed.mem_children.mpr edge)
        rw [found] at foundO
        cases foundO
        rw [childless] at member
        cases member
    | anon a =>
        have indexed := (formed.indexed oid a).mpr (formed.mem_parents.mp edge)
        split at next
        · cases next
        · rename_i noKids
          rw [noKids] at indexed
          cases indexed

theorem mem_splicedParents (formed : WellFormed s) {oid : Int} {cp op : ObjOrList} {p : Int}
    (named : p ∈ (splicedParents s oid cp op).named) : p ∈ cp.named ∨ p ∈ op.named := by
  cases cp with
  | obj _ => exact Or.inr named
  | list parents =>
      simp only [splicedParents, ObjOrList.named, mem_addAll, List.not_mem_nil, false_or] at named
      rcases named with (before | middle) | after
      · exact Or.inl (List.takeWhile_subset _ before)
      · right
        cases op with
        | obj parent =>
            simp only at middle
            split at middle
            · rename_i valid
              simpa [ObjOrList.named, formed.not_nothing valid] using middle
            · cases middle
        | list oids => exact middle
      · exact Or.inl (List.mem_of_mem_drop after)

theorem spliced_ancestors (formed : WellFormed s) {oid : Int} {child : ObjVar} {c o : Object V}
    (edge : .obj oid ∈ parentsOf s child) (foundChild : s.object child = some c)
    (found : s.object (.obj oid) = some o) :
    ∀ p ∈ (splicedParents s oid c.parents o.parents).named,
      s.valid p = true ∧ ∃ u ∈ parentsOf s child, Ancestor s u (.obj p) := by
  intro p named
  rcases mem_splicedParents formed named with old | above
  · have node : s.node child = some c.node := node_some.mpr ⟨c, foundChild, rfl⟩
    exact ⟨formed.parentsValid child _ node p old, .obj p,
      formed.mem_parents.mpr ⟨_, node, old⟩, Ancestor.self s _⟩
  · have node : s.node (.obj oid) = some o.node := node_some.mpr ⟨o, found, rfl⟩
    exact ⟨formed.parentsValid _ _ node p above, .obj oid, edge,
      Ancestor.above (formed.mem_parents.mpr ⟨_, node, above⟩) (Ancestor.self s _)⟩

theorem spliced_apart (formed : WellFormed s) {oid : Int} {child : ObjVar} {c o : Object V}
    (edge : .obj oid ∈ parentsOf s child) (foundChild : s.object child = some c)
    (found : s.object (.obj oid) = some o) :
    ∀ p ∈ (splicedParents s oid c.parents o.parents).named, ¬Ancestor s (.obj p) child := by
  intro p named path
  obtain ⟨-, u, parent, up⟩ := spliced_ancestors formed edge foundChild found p named
  exact formed.no_cycle parent (up.trans path)

theorem Spliced.wellFormed {oid : Int} (turn : Spliced oid s s') : WellFormed s' := by
  obtain ⟨formed, child, c, o, s2, next, foundChild, found, change⟩ := turn
  have edge := dbNextChild_ok formed next
  exact change.wellFormed formed
    (fun p named => (spliced_ancestors formed edge foundChild found p named).1)
    (spliced_apart formed edge foundChild found)

theorem reparentChildren_ok (formed : WellFormed s) {oid : Int} {fuel : Nat} {done : Bool}
    (ran : reparentChildren oid fuel s = .ok (done, s')) :
    Relation.ReflTransGen (Spliced oid) s s' ∧ WellFormed s' ∧
      (done = true → dbNextChild s' oid = .ok none) := by
  induction fuel generalizing s with
  | zero => cases ran
  | succ fuel ih =>
      obtain ⟨next, found, ran⟩ := Failing.bind_ok ran
      cases next with
      | none =>
          cases ran
          exact ⟨Relation.ReflTransGen.refl, formed, fun _ => found⟩
      | some child =>
          obtain ⟨c, foundChild, ran⟩ := Failing.bind_ok ran
          obtain ⟨o, foundO, ran⟩ := Failing.bind_ok ran
          obtain ⟨⟨changed, s1⟩, change, rest⟩ := Failing.bind_ok ran
          rw [Db.dereference_ok] at foundChild foundO
          rcases dbChangeParents_ok change with ⟨rfl, rfl⟩ | ⟨rfl, s2, changed⟩
          · cases rest
            exact ⟨Relation.ReflTransGen.refl, formed, nofun⟩
          · have turn : Spliced oid s s1 :=
              ⟨formed, child, c, o, s2, found, foundChild, foundO, changed⟩
            obtain ⟨turns, final, finished⟩ := ih turn.wellFormed rest
            exact ⟨Relation.ReflTransGen.head turn turns, final, finished⟩

def Object.unplaced (o : Object V) : Object V := { o with location := NOTHING, contents := [] }

theorem dbChangeLocation_unplaced {oid place : Int} {position : Nat}
    (ran : dbChangeLocation s oid place position = .ok s') :
    SameUpTo Object.unplaced s s' := by
  obtain ⟨o, -, ran⟩ := Failing.bind_ok ran
  have moved {s1 s2 : Db V} {p : Int} {f : Object V → Object V}
      (unseen : ∀ o, (f o).unplaced = o.unplaced)
      (step : modifyValid s1 p f = .ok s2) : SameUpTo Object.unplaced s1 s2 := by
    unfold modifyValid at step
    split at step
    · exact SameUpTo.of_modify (fun o _ => unseen o) step
    · cases step
      exact SameUpTo.refl _
  obtain ⟨s1, left, ran⟩ := Failing.bind_ok ran
  obtain ⟨s2, entered, ran⟩ := Failing.bind_ok ran
  refine ((moved ?_ left).trans (moved ?_ entered)).trans (SameUpTo.of_modify ?_ ran)
  all_goals intros; rfl

theorem moveContents_unplaced {oid : Int} {fuel : Nat} (ran : moveContents oid fuel s = .ok s') :
    SameUpTo Object.unplaced s s' := by
  induction fuel generalizing s with
  | zero => cases ran
  | succ fuel ih =>
      obtain ⟨o, -, ran⟩ := Failing.bind_ok ran
      split at ran
      · cases ran
        exact SameUpTo.refl _
      · obtain ⟨s1, moved, ran⟩ := Failing.bind_ok ran
        exact (dbChangeLocation_unplaced moved).trans (ih ran)

theorem emptied_unplaced {oid : Int} {fuel : Nat} {s0 s1 : Db V}
    (emptied : moveContents oid fuel s = .ok s0) (left : leaveLocation s0 oid = .ok s1) :
    SameUpTo Object.unplaced s s1 := by
  refine (moveContents_unplaced emptied).trans ?_
  obtain ⟨o, -, left⟩ := Failing.bind_ok left
  split at left
  · exact dbChangeLocation_unplaced left
  · cases left
    exact SameUpTo.refl _

theorem SameUpTo.quiet (same : SameUpTo Object.unplaced s s') (formed : WellFormed s) :
    Quiet s s' ∧ WellFormed s' := by
  have graph : SameGraph s s' := by
    refine same.coarser fun o o' sameLook => ?_
    have node := congrArg Object.node sameLook
    exact node
  refine ⟨Quiet.of_sameUpTo same fun o o' sameLook => ?_, graph.wellFormed formed⟩
  have inheritance := congrArg Object.inheritance sameLook
  exact inheritance

theorem fixupOwners_graph (s : Db V) (oid : Int) : SameGraph s (dbFixupOwners s oid) where
  view v := by
    unfold dbFixupOwners
    cases v with
    | obj p => simp only [Option.map_map]; rfl
    | anon a =>
        simp only
        split
        · rw [Option.map_map]; rfl
        · rfl
  numObjects := rfl
  nextAnon := rfl
  index := rfl

/-- What `recycle` does to an object of the table: some of its children are passed on to its
parents, and if all were, it leaves its own parents, its ownerships and the table. -/
structure Recycled (s s' : Db V) (oid : Int) (outcome : Outcome) : Prop where
  steps : ∃ s1 s2, Quiet s s1 ∧ WellFormed s1 ∧ Relation.ReflTransGen (Spliced oid) s1 s2 ∧
    WellFormed s2 ∧ (outcome ≠ .done ∧ s' = s2 ∨ outcome = .done ∧ ∃ s3,
      (s3 = s2 ∨ ∃ m, ChangedParents s2 s3 (.obj oid) (.obj NOTHING)
        (gatheredKids s2 (.obj oid) []) m) ∧
      WellFormed s3 ∧ Gone (dbFixupOwners s3 oid) s' (.obj oid))

theorem orphaned (formed : WellFormed s) {oid : Int} (next : dbNextChild s oid = .ok none)
    {changed : Bool} (change : dbChangeParents s (.obj oid) (.obj NOTHING) [] = .ok (changed, s')) :
    (s' = s ∨ ∃ m, ChangedParents s s' (.obj oid) (.obj NOTHING) (gatheredKids s (.obj oid) []) m) ∧
      WellFormed s' ∧ s'.anonymousObjects oid = [] := by
  obtain ⟨o, found, next⟩ := Failing.bind_ok next
  rw [Db.dereference_ok] at found
  have alone : o.children = [] ∧ s.anonymousObjects oid = [] := by
    split at next
    · cases next
    · rename_i childless
      split at next
      · cases next
      · rename_i noKids
        exact ⟨childless, noKids⟩
  rcases dbChangeParents_ok change with ⟨rfl, rfl⟩ | ⟨rfl, m, changed⟩
  · exact ⟨Or.inl rfl, formed, alone.2⟩
  · have orphan : (ObjOrList.obj NOTHING).named = [] := by simp [ObjOrList.named]
    refine ⟨Or.inr ⟨m, changed⟩, changed.childless_wellFormed formed found alone.1
      (by simp [orphan]), ?_⟩
    rw [(fix_unslotted changed.fixed).index, List.eq_nil_iff_forall_not_mem]
    intro a member
    simpa [alone.2, orphan] using ((changed.reparented formed).index oid a).mp member

theorem recycleObject_ok (formed : WellFormed s) {oid : Int} {outcome : Outcome}
    (ran : recycleObject s oid = .ok (outcome, s')) : WellFormed s' ∧ Recycled s s' oid outcome := by
  obtain ⟨o, -, ran⟩ := Failing.bind_ok ran
  obtain ⟨s0, emptied, ran⟩ := Failing.bind_ok ran
  obtain ⟨s1, left, ran⟩ := Failing.bind_ok ran
  obtain ⟨quiet, formed1⟩ := (emptied_unplaced emptied left).quiet formed
  obtain ⟨⟨done, s2⟩, turned, rest⟩ := Failing.bind_ok ran
  obtain ⟨turns, formed2, finished⟩ := reparentChildren_ok formed1 turned
  cases done with
  | false =>
      cases rest
      exact ⟨formed2, s1, _, quiet, formed1, turns, formed2, Or.inl ⟨nofun, rfl⟩⟩
  | true =>
      obtain ⟨⟨changed, s3⟩, change, rest⟩ := Failing.bind_ok rest
      obtain ⟨s4, destroyed, rest⟩ := Failing.bind_ok rest
      cases rest
      obtain ⟨detached, formed3, noAnons⟩ := orphaned formed2 (finished rfl) change
      have formed3' := (fixupOwners_graph s3 oid).wellFormed formed3
      obtain ⟨gone, formed4, -⟩ := dbDestroyObject_ok formed3' noAnons destroyed
      exact ⟨formed4, s1, s2, quiet, formed1, turns, formed2,
        Or.inr ⟨rfl, s3, detached, formed3, gone⟩⟩

theorem bfRecycle_ok (formed : WellFormed s) {progr : Int} {v : ObjVar} {outcome : Outcome}
    (ran : bfRecycle s progr v = .ok (outcome, s')) :
    WellFormed s' ∧ (outcome ≠ .done ∧ s' = s ∨
      (∃ oid, v = .obj oid ∧ Recycled s s' oid outcome) ∨
      ∃ a, v = .anon a ∧ Gone s s' (.anon a)) := by
  unfold bfRecycle at ran
  split at ran
  · cases ran
    exact ⟨formed, Or.inl ⟨nofun, rfl⟩⟩
  · obtain ⟨controls, -, ran⟩ := Failing.bind_ok ran
    split at ran
    · cases ran
      exact ⟨formed, Or.inl ⟨nofun, rfl⟩⟩
    · cases v with
      | obj oid =>
          obtain ⟨formed', recycled⟩ := recycleObject_ok formed ran
          exact ⟨formed', Or.inr (Or.inl ⟨oid, rfl, recycled⟩)⟩
      | anon a =>
          obtain ⟨s1, destroyed, rest⟩ := Failing.bind_ok ran
          cases rest
          obtain ⟨gone, formed', -⟩ := dbDestroyAnonymousObject_ok formed destroyed
          exact ⟨formed', Or.inr (Or.inr ⟨a, rfl, gone⟩)⟩

end Recycle

end ToastStunt
