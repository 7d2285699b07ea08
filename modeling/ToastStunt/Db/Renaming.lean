import ToastStunt.Db.Inheritance

/-!
Renumbering an object against its purpose: the new state should be the old one
with one number replaced by another wherever it identifies the object.
-/

namespace ToastStunt

open FirstVisit

variable {V : Type}

section Purpose

def renameId (old new oid : Int) : Int := if oid = old then new else oid

def renameVar (old new : Int) : ObjVar → ObjVar
  | .obj oid => .obj (renameId old new oid)
  | .anon address => .anon address

/-- An owner that dangled at the new number is forgotten. -/
def renameOwner (old new owner : Int) : Int :=
  if owner = new then NOTHING else renameId old new owner

def renameParents (old new : Int) : ObjOrList → ObjOrList
  | .obj oid => .obj (renameId old new oid)
  | .list oids => .list (oids.map (renameId old new))

def renameObject (old new : Int) (o : Object V) : Object V :=
  { o with
    id := renameId old new o.id
    owner := renameOwner old new o.owner
    location := renameId old new o.location
    contents := o.contents.map (renameId old new)
    parents := renameParents old new o.parents
    children := o.children.map (renameId old new)
    propval := o.propval.map fun p => { p with owner := renameOwner old new p.owner }
    verbdefs := o.verbdefs.map fun v => { v with owner := renameOwner old new v.owner } }

/-- An anonymous object has no number of its own. -/
def renameAnon (old new : Int) (o : Object V) : Object V := { renameObject old new o with id := o.id }

def renamed (old new : Int) (s : Db V) : Db V :=
  { s with
    object := fun v =>
      match v with
      | .obj oid =>
          if oid = old then none
          else (s.object (.obj (if oid = new then old else oid))).map (renameObject old new)
      | .anon _ => (s.object v).map (renameAnon old new)
    anonymousObjects := fun oid =>
      if oid = old then [] else s.anonymousObjects (if oid = new then old else oid)
    allUsers := s.allUsers.map (renameId old new) }

/-- The lists that the server keeps and hands out without a copy: what `children()`, `parents()`,
`players()` and the property `contents` give is the list itself. -/
inductive OwnList where
  | children (v : ObjVar)
  | parents (v : ObjVar)
  | contents (v : ObjVar)
  | users
deriving DecidableEq, Repr

def Db.ownList (s : Db V) : OwnList → Option (List Int)
  | .children v => (s.object v).map Object.children
  | .parents v => (s.object v).bind fun o =>
      match o.parents with
      | .obj _ => none
      | .list oids => some oids
  | .contents v => (s.object v).map Object.contents
  | .users => some s.allUsers

def OwnList.moved (old new : Int) : OwnList → OwnList
  | .children v => .children (renameVar old new v)
  | .parents v => .parents (renameVar old new v)
  | .contents v => .contents (renameVar old new v)
  | .users => .users

def SharedList (s : Db V) (holds : V → OwnList → Prop) (list : OwnList) : Prop :=
  ∃ v o pval value, s.object v = some o ∧ pval ∈ o.propval ∧ pval.var = .value value ∧
    holds value list

/-- The values of properties read as before, since the lists in them do. -/
def ValuesKept (s s' : Db V) (holds : V → OwnList → Prop) (old new : Int) : Prop :=
  ∀ list oids, SharedList s holds list → s.ownList list = some oids →
    s'.ownList (list.moved old new) = some oids

def LeastFree (s : Db V) (old new : Int) : Prop :=
  (∀ k, 0 ≤ k → k < new → s.valid k = true) ∧
    (new = old ∨ 0 ≤ new ∧ new < old ∧ s.valid new = false)

/-- A well-formed database: besides the inheritance graph, locations and contents mirror each
other, nothing contains itself, anonymous objects are nowhere, and `all_users` lists the users. -/
structure Consistent (s : Db V) : Prop where
  graph : WellFormed s
  located : ∀ c o, s.object (.obj c) = some o → o.location ≠ NOTHING →
    ∃ l, s.object (.obj o.location) = some l ∧ c ∈ l.contents
  contained : ∀ p l, s.object (.obj p) = some l → ∀ c ∈ l.contents,
    ∃ o, s.object (.obj c) = some o ∧ o.location = p
  contentsNodup : ∀ p l, s.object (.obj p) = some l → l.contents.Nodup
  notInItself : ∀ p l, s.object (.obj p) = some l → l.location ≠ p
  nowhere : ∀ a o, s.object (.anon a) = some o → o.location = NOTHING ∧ o.contents = []
  users : ∀ oid, oid ∈ s.allUsers ↔ isUser s oid = true
  usersNodup : s.allUsers.Nodup

end Purpose

section Lists

def swapFirst (old new : Int) (list : List Int) : List Int :=
  match list.findIdx? (· = old) with
  | some i => list.set i new
  | none => list

theorem replaceFirst_ok {old new : Int} {list result : List Int} :
    replaceFirst old new list = .ok result ↔ old ∈ list ∧ result = swapFirst old new list := by
  unfold replaceFirst swapFirst
  cases found : list.findIdx? (· = old) with
  | none =>
      have absent : old ∉ list := by
        intro member
        rw [List.findIdx?_eq_none_iff] at found
        simpa using found old member
      simp [absent]
  | some i =>
      have member : old ∈ list := by
        obtain ⟨bound, holds, -⟩ := List.findIdx?_eq_some_iff_getElem.mp found
        have same : list[i] = old := by simpa using holds
        exact same ▸ List.getElem_mem bound
      simp [member, eq_comm]

theorem replaceFirst_of_mem {old : Int} (new : Int) {list : List Int} (member : old ∈ list) :
    replaceFirst old new list = .ok (swapFirst old new list) :=
  replaceFirst_ok.mpr ⟨member, rfl⟩

theorem swapFirst_cons (old new head : Int) (tail : List Int) :
    swapFirst old new (head :: tail) =
      if head = old then new :: tail else head :: swapFirst old new tail := by
  unfold swapFirst
  rw [List.findIdx?_cons]
  by_cases same : head = old
  · simp [same]
  · simp only [same, decide_false, if_false]
    cases tail.findIdx? (· = old) <;> rfl

theorem swapFirst_of_not_mem {old new : Int} {list : List Int} (absent : old ∉ list) :
    swapFirst old new list = list := by
  induction list with
  | nil => rfl
  | cons head tail ih =>
      rw [List.mem_cons, not_or] at absent
      rw [swapFirst_cons, if_neg (Ne.symm absent.1), ih absent.2]

theorem map_renameId_of_not_mem {old new : Int} {list : List Int} (absent : old ∉ list) :
    list.map (renameId old new) = list := by
  refine (List.map_congr_left fun oid member => ?_).trans (List.map_id list)
  have other : oid ≠ old := by
    rintro rfl
    exact absent member
  rw [renameId, if_neg other, id]

theorem not_mem_map_renameId {old new : Int} (other : old ≠ new) (list : List Int) :
    old ∉ list.map (renameId old new) := by
  intro member
  obtain ⟨oid, -, image⟩ := List.mem_map.mp member
  unfold renameId at image
  split at image
  · exact other image.symm
  · contradiction

theorem swapFirst_eq_map {old new : Int} (other : old ≠ new) {list : List Int} :
    swapFirst old new list = list.map (renameId old new) ↔ list.count old ≤ 1 := by
  induction list with
  | nil => simp [swapFirst]
  | cons head tail ih =>
      rw [swapFirst_cons, List.map_cons]
      by_cases same : head = old
      · subst same
        rw [if_pos rfl, List.count_cons_self, renameId, if_pos rfl, List.cons.injEq]
        constructor
        · rintro ⟨-, kept⟩
          have absent : head ∉ tail := by
            rw [kept]
            exact not_mem_map_renameId other tail
          simp [List.count_eq_zero_of_not_mem absent]
        · intro once
          have absent : head ∉ tail := List.count_eq_zero.mp (by omega)
          exact ⟨rfl, (map_renameId_of_not_mem absent).symm⟩
      · rw [if_neg same, renameId, if_neg same, List.cons.injEq, List.count_cons_of_ne same]
        simpa using ih

end Lists

section Loops

theorem touch_nodup {s : Db V} {keys : List ObjVar} (nodup : keys.Nodup)
    (f : Object V → Object V) (v : ObjVar) :
    (s.touch keys f).object v = if v ∈ keys then (s.object v).map f else s.object v := by
  simp only [Db.touch]
  split
  · rename_i member
    rw [List.count_eq_one_of_mem nodup member, Function.iterate_one]
  · rename_i absent
    rw [List.count_eq_zero_of_not_mem absent, Function.iterate_zero]
    exact congrFun Option.map_id _

theorem touch_view {α : Type} {look : Object V → α} {f : Object V → Object V}
    (unseen : ∀ o, look (f o) = look o) (s : Db V) (keys : List ObjVar) (v : ObjVar) :
    ((s.touch keys f).object v).map look = (s.object v).map look := by
  have kept (n : Nat) : look ∘ f^[n] = look := by
    induction n with
    | zero => rfl
    | succ n ih =>
        funext o
        rw [Function.comp_apply, Function.iterate_succ_apply', unseen]
        exact congrFun ih o
  rw [Db.touch, Option.map_map, kept]

theorem foldlM_once {ι : Type} {step : Db V → ι → Except Crash (Db V)} {key : ι → ObjVar}
    {f : Object V → Object V} {items : List ι} {s : Db V} (Ready : Object V → Prop)
    (nodup : (items.map key).Nodup)
    (ready : ∀ i ∈ items, ∃ o, s.object (key i) = some o ∧ Ready o)
    (runs : ∀ s i o, s.object (key i) = some o → Ready o → step s i = s.modify (key i) f) :
    items.foldlM step s = .ok (s.touch (items.map key) f) := by
  induction items generalizing s with
  | nil => simp [Db.touch, pure, Except.pure]
  | cons item rest ih =>
      obtain ⟨o, found, readyO⟩ := ready item (by simp)
      have first : step s item = .ok (s.setObject (key item) (some (f o))) := by
        rw [runs s item o found readyO]
        simp [Db.modify, found]
      rw [List.map_cons, List.nodup_cons] at nodup
      rw [List.foldlM_cons, first, List.map_cons, ← Db.touch_cons s _ (rest.map key) f found]
      refine ih nodup.2 fun other member => ?_
      have apart : key other ≠ key item := by
        intro same
        exact nodup.1 (same ▸ List.mem_map_of_mem member)
      rw [Db.setObject_object, if_neg apart]
      exact ready other (by simp [member])

theorem nodup_map_obj {oids : List Int} (nodup : oids.Nodup) : (oids.map ObjVar.obj).Nodup :=
  nodup.map fun _ _ => ObjVar.obj.inj

def swapChildren (old new : Int) (o : Object V) : Object V :=
  { o with children := swapFirst old new o.children }

def swapParents (old new : Int) (o : Object V) : Object V :=
  { o with parents := match o.parents with
      | .obj _ => .obj new
      | .list oids => .list (swapFirst old new oids) }

def swapContents (old new : Int) (o : Object V) : Object V :=
  { o with contents := swapFirst old new o.contents }

theorem fixChildren_eq {old new p : Int} {s : Db V} {o : Object V}
    (found : s.object (.obj p) = some o) (child : old ∈ o.children) :
    fixChildren old new s p = s.modify (.obj p) (swapChildren old new) := by
  simp only [fixChildren, Db.dereference_ok.mpr found, replaceFirst_of_mem new child, Db.modify, found, swapChildren,
    bind, Except.bind]

theorem fixChildren_ok {old new p : Int} {s s' : Db V}
    (ran : fixChildren old new s p = .ok s') : ∃ q, s.object (.obj p) = some q ∧
      old ∈ q.children ∧ s' = s.setObject (.obj p) (some (swapChildren old new q)) := by
  obtain ⟨q, found, rest⟩ := Failing.bind_ok ran
  rw [Db.dereference_ok] at found
  obtain ⟨children, replaced, -⟩ := Failing.bind_ok rest
  have member := (replaceFirst_ok.mp replaced).1
  rw [fixChildren_eq found member] at ran
  obtain ⟨q', found', rfl⟩ := Db.modify_ok ran
  rw [found] at found'
  cases found'
  exact ⟨q, found, member, rfl⟩

theorem fixChildren_once {old new : Int} (other : old ≠ new) {parents : List Int} {s s' : Db V}
    (once : ∀ p q, s.object (.obj p) = some q → q.children.count old ≤ 1)
    (ran : parents.foldlM (fixChildren old new) s = .ok s') : parents.Nodup := by
  induction parents generalizing s with
  | nil => exact List.nodup_nil
  | cons parent rest ih =>
      obtain ⟨middle, first, later⟩ := Failing.foldlM_cons_ok ran
      obtain ⟨q, found, -, rfl⟩ := fixChildren_ok first
      have replaced : old ∉ swapFirst old new q.children := by
        rw [(swapFirst_eq_map other).mpr (once parent q found)]
        exact not_mem_map_renameId other _
      rw [List.nodup_cons]
      constructor
      · intro again
        obtain ⟨before, after, absent, step⟩ := Failing.foldlM_reaches
          (fun t => ∀ q, t.object (.obj parent) = some q → old ∉ q.children) (by
            intro p _ before after absent step r foundR
            obtain ⟨q', found', member, rfl⟩ := fixChildren_ok step
            have apart : ObjVar.obj parent ≠ .obj p := by
              rintro same
              cases same
              exact absent q' found' member
            rw [Db.setObject_object, if_neg apart] at foundR
            exact absent r foundR) (by
            intro r foundR
            rw [Db.setObject_object, if_pos rfl, Option.some.injEq] at foundR
            subst foundR
            exact replaced) later parent again
        obtain ⟨q', found', member, -⟩ := fixChildren_ok step
        exact absent q' found' member
      · refine ih ?_ later
        intro p r foundR
        rw [Db.setObject_object] at foundR
        split at foundR
        · rw [Option.some.injEq] at foundR
          subst foundR
          have none := List.count_eq_zero_of_not_mem replaced
          show (swapFirst old new q.children).count old ≤ 1
          omega
        · exact once p r foundR

theorem fixParents_eq {old new c : Int} {s : Db V} {o : Object V}
    (found : s.object (.obj c) = some o) (parent : old ∈ enlistVar o.parents) :
    fixParents old new s c = s.modify (.obj c) (swapParents old new) := by
  cases parents : o.parents with
  | obj oid =>
      simp only [fixParents, Db.dereference_ok.mpr found, parents, Db.modify, found, swapParents,
        bind, Except.bind]
  | list oids =>
      rw [parents] at parent
      have member : old ∈ oids := parent
      simp only [fixParents, Db.dereference_ok.mpr found, parents, replaceFirst_of_mem new member,
        Db.modify, found, swapParents, bind, Except.bind]

theorem fixContents_eq {old new p : Int} {s : Db V} {o : Object V}
    (found : s.object (.obj p) = some o) (content : old ∈ o.contents) :
    fixContents old new s p = s.modify (.obj p) (swapContents old new) := by
  simp only [fixContents, Db.dereference_ok.mpr found, replaceFirst_of_mem new content, Db.modify, found, swapContents,
    bind, Except.bind]

end Loops

structure Moving (s : Db V) (old new : Int) (o : Object V) : Prop where
  consistent : Consistent s
  found : s.object (.obj old) = some o
  free : s.object (.obj new) = none
  nonneg : 0 ≤ new
  below : new < old

namespace Moving

variable {s : Db V} {old new : Int} {o : Object V}

theorem other (moving : Moving s old new o) : old ≠ new := by
  rintro rfl
  have free := moving.free
  rw [moving.found] at free
  cases free

theorem old_real (moving : Moving s old new o) : old ≠ NOTHING :=
  moving.consistent.graph.not_nothing (Db.valid_iff.mpr ⟨o, moving.found⟩)

theorem not_new (moving : Moving s old new o) {p : Int} {q : Object V}
    (found : s.object (.obj p) = some q) : p ≠ new := by
  rintro rfl
  rw [moving.free] at found
  cases found

theorem not_own_parent (moving : Moving s old new o) : old ∉ o.parents.named := by
  intro named
  have edge := moving.consistent.graph.mem_parents.mpr
    ⟨o.node, WellFormed.node_of_object moving.found, named⟩
  exact moving.consistent.graph.no_cycle edge (Ancestor.self s _)

theorem parent (moving : Moving s old new o) {p : Int} (named : p ∈ o.parents.named) :
    p ≠ old ∧ p ≠ new ∧ ∃ q, s.object (.obj p) = some q ∧ old ∈ q.children := by
  have graph := moving.consistent.graph
  have node := WellFormed.node_of_object moving.found
  obtain ⟨q, found⟩ := Db.valid_iff.mp (graph.parentsValid _ _ node p named)
  refine ⟨?_, moving.not_new found, q, found, ?_⟩
  · rintro rfl
    exact moving.not_own_parent named
  · exact (graph.mirrored p old _ _ (WellFormed.node_of_object found) node).mpr named

theorem child_iff (moving : Moving s old new o) {c : Int} {q : Object V}
    (found : s.object (.obj c) = some q) : c ∈ o.children ↔ old ∈ q.parents.named :=
  moving.consistent.graph.mirrored old c _ _ (WellFormed.node_of_object moving.found)
    (WellFormed.node_of_object found)

theorem child (moving : Moving s old new o) {c : Int} (member : c ∈ o.children) :
    c ≠ old ∧ c ≠ new ∧ ∃ q, s.object (.obj c) = some q ∧ old ∈ q.parents.named := by
  have graph := moving.consistent.graph
  have node := WellFormed.node_of_object moving.found
  obtain ⟨q, found⟩ := Db.valid_iff.mp (graph.childrenValid _ _ node c member)
  have named := (moving.child_iff found).mp member
  refine ⟨?_, moving.not_new found, q, found, named⟩
  rintro rfl
  rw [moving.found] at found
  cases found
  exact moving.not_own_parent named

theorem place (moving : Moving s old new o) (located : o.location ≠ NOTHING) :
    o.location ≠ old ∧ o.location ≠ new ∧
      ∃ l, s.object (.obj o.location) = some l ∧ old ∈ l.contents := by
  obtain ⟨l, found, content⟩ := moving.consistent.located old o moving.found located
  exact ⟨moving.consistent.notInItself old o moving.found, moving.not_new found, l, found, content⟩

theorem content (moving : Moving s old new o) {c : Int} (member : c ∈ o.contents) :
    c ≠ old ∧ c ≠ new ∧ ∃ q, s.object (.obj c) = some q ∧ q.location = old := by
  obtain ⟨q, found, location⟩ := moving.consistent.contained old o moving.found c member
  refine ⟨?_, moving.not_new found, q, found, location⟩
  rintro rfl
  exact moving.consistent.notInItself _ q found location

theorem kid (moving : Moving s old new o) {p : Int} {a : Nat} (member : a ∈ s.anonymousObjects p) :
    ∃ q, s.object (.anon a) = some q ∧ p ∈ q.parents.named := by
  obtain ⟨n, found, named⟩ := (moving.consistent.graph.indexed p a).mp member
  obtain ⟨q, object, rfl⟩ := node_some.mp found
  exact ⟨q, object, named⟩

end Moving

def ownersOf (q : Object V) : List Int := q.owner :: q.propval.map Pval.owner

def setLocation (new : Int) (o : Object V) : Object V := { o with location := new }

def swapAnonParents (old new : Int) (o : Object V) : Object V :=
  { o with parents := renameParents old new o.parents }

def parentKeys (o : Object V) : List ObjVar := o.parents.named.map .obj

def childKeys (o : Object V) : List ObjVar := o.children.map .obj

def placeKeys (o : Object V) : List ObjVar :=
  if o.location = NOTHING then [] else [.obj o.location]

def contentKeys (o : Object V) : List ObjVar := o.contents.map .obj

def relinked (s : Db V) (old new : Int) (o : Object V) : Db V :=
  ((((changeIdentity s old new o).touch (parentKeys o) (swapChildren old new)).touch (childKeys o)
    (swapParents old new)).touch (placeKeys o) (swapContents old new)).touch (contentKeys o)
      (setLocation new) |>.touch ((s.anonymousObjects old).map .anon) (swapAnonParents old new)

def reowned (s : Db V) (old new : Int) : Db V :=
  let s := fixNumberedOwners (fixUsers (moveAnonIndex s old new) old new) old new
  s.touch ((indexedAnons s).map .anon) (renumberAnonOwners old new)

theorem changeIdentity_object (s : Db V) (old new : Int) (o : Object V) (w : ObjVar) :
    (changeIdentity s old new o).object w = if w = .obj old then none
      else if w = .obj new then some { o with id := new } else s.object w := rfl

theorem fixAnonParents_eq (old new : Int) (s : Db V) (a : Nat) :
    fixAnonParents old new s a = s.modify (.anon a) (swapAnonParents old new) := by
  have same : (fun o : Object V => { o with parents := match o.parents with
      | .obj parent => .obj (if parent = old then new else parent)
      | .list parents => .list (parents.map fun parent => if parent = old then new else parent) }) =
      swapAnonParents old new := by
    funext o
    unfold swapAnonParents
    cases o.parents <;> rfl
  rw [← same]
  rfl

namespace Moving

variable {s : Db V} {old new : Int} {o : Object V}

theorem childKeys_nodup (moving : Moving s old new o) : (childKeys o).Nodup :=
  nodup_map_obj (moving.consistent.graph.childrenNodup _ _
    (WellFormed.node_of_object moving.found))

theorem placeKeys_nodup (o : Object V) : (placeKeys o).Nodup := by
  unfold placeKeys
  split <;> simp

theorem kidKeys_nodup (moving : Moving s old new o) :
    ((s.anonymousObjects old).map ObjVar.anon).Nodup :=
  (moving.consistent.graph.indexNodup old).map fun _ _ => ObjVar.anon.inj

theorem contentKeys_nodup (moving : Moving s old new o) : (contentKeys o).Nodup :=
  nodup_map_obj (moving.consistent.contentsNodup old o moving.found)

theorem apart (moving : Moving s old new o) {v : ObjVar} (own : v = .obj old ∨ v = .obj new) :
    v ∉ parentKeys o ∧ v ∉ childKeys o ∧ v ∉ placeKeys o ∧ v ∉ contentKeys o := by
  have not_mem (oids : List Int) (differ : ∀ p ∈ oids, p ≠ old ∧ p ≠ new) :
      v ∉ oids.map ObjVar.obj := by
    intro member
    obtain ⟨p, inside, rfl⟩ := List.mem_map.mp member
    have := differ p inside
    simp only [ObjVar.obj.injEq] at own
    tauto
  refine ⟨not_mem _ fun p named => ?_, not_mem _ fun c child => ?_, ?_,
    not_mem _ fun c inside => ?_⟩
  · exact ⟨(moving.parent named).1, (moving.parent named).2.1⟩
  · exact ⟨(moving.child child).1, (moving.child child).2.1⟩
  · unfold placeKeys
    split
    · simp
    · rename_i located
      have place := moving.place located
      simpa using not_mem [o.location] (by simpa using ⟨place.1, place.2.1⟩)
  · exact ⟨(moving.content inside).1, (moving.content inside).2.1⟩

theorem fixChildren_runs (moving : Moving s old new o) (nodup : o.parents.named.Nodup) :
    o.parents.named.foldlM (fixChildren old new) (changeIdentity s old new o) =
      .ok ((changeIdentity s old new o).touch (parentKeys o) (swapChildren old new)) := by
  refine foldlM_once (fun q => old ∈ q.children) (nodup_map_obj nodup) ?_
    fun s p q found ready => fixChildren_eq found ready
  intro p named
  obtain ⟨notOld, notNew, q, found, child⟩ := moving.parent named
  exact ⟨q, by simp [changeIdentity_object, notOld, notNew, found], child⟩

theorem object_at_new (moving : Moving s old new o) :
    let s1 := changeIdentity s old new o
    let s2 := s1.touch (parentKeys o) (swapChildren old new)
    let s3 := s2.touch (childKeys o) (swapParents old new)
    let s4 := s3.touch (placeKeys o) (swapContents old new)
    s2.object (.obj new) = some { o with id := new } ∧
      s4.object (.obj new) = some { o with id := new } := by
  obtain ⟨noParent, noChild, noPlace, -⟩ := moving.apart (Or.inr rfl)
  simp [Db.touch, List.count_eq_zero_of_not_mem, noParent, noChild, noPlace,
    changeIdentity_object, moving.other.symm]

theorem fixParents_runs (moving : Moving s old new o) {s' : Db V}
    (same : ∀ c ∈ o.children, (s'.object (.obj c)).map Object.parents =
      (s.object (.obj c)).map Object.parents) :
    o.children.foldlM (fixParents old new) s' =
      .ok (s'.touch (childKeys o) (swapParents old new)) := by
  refine foldlM_once (fun q => old ∈ enlistVar q.parents) moving.childKeys_nodup ?_
    fun s p q found ready => fixParents_eq found ready
  intro c child
  obtain ⟨-, -, q, found, named⟩ := moving.child child
  have parents := same c child
  rw [found, Option.map_some, Option.map_eq_some_iff] at parents
  obtain ⟨q', found', equal⟩ := parents
  exact ⟨q', found', (mem_enlistVar moving.old_real).mpr (equal ▸ named)⟩

theorem fixPlace_runs (moving : Moving s old new o) {s' : Db V}
    (same : o.location ≠ NOTHING → (s'.object (.obj o.location)).map Object.contents =
      (s.object (.obj o.location)).map Object.contents) :
    fixPlace old new s' o.location = .ok (s'.touch (placeKeys o) (swapContents old new)) := by
  unfold fixPlace placeKeys
  by_cases nowhere : o.location = NOTHING
  · simp [nowhere, Db.touch]
  · obtain ⟨-, -, l, found, content⟩ := moving.place nowhere
    have contents := same nowhere
    rw [found, Option.map_some, Option.map_eq_some_iff] at contents
    obtain ⟨l', found', equal⟩ := contents
    rw [if_neg nowhere, if_neg nowhere, fixContents_eq found' (equal ▸ content)]
    have once := @foldlM_modify V ObjVar s' id [.obj o.location]
      (swapContents old new) (by simp [found'])
    simpa using once

theorem fixRelatives_runs (moving : Moving s old new o) (nodup : o.parents.named.Nodup) :
    fixRelatives (changeIdentity s old new o) old new o = .ok (relinked s old new o) := by
  obtain ⟨atNew2, atNew4⟩ := moving.object_at_new
  have unmoved {p : Int} (differs : p ≠ old ∧ p ≠ new) :
      (changeIdentity s old new o).object (.obj p) = s.object (.obj p) := by
    simp [changeIdentity_object, differs]
  have children : ∀ c ∈ o.children, (((changeIdentity s old new o).touch (parentKeys o)
      (swapChildren old new)).object (.obj c)).map Object.parents =
        (s.object (.obj c)).map Object.parents := by
    intro c child
    have apart := moving.child child
    rw [touch_view (by intro; rfl), unmoved ⟨apart.1, apart.2.1⟩]
  have placed (located : o.location ≠ NOTHING) : ((((changeIdentity s old new o).touch
      (parentKeys o) (swapChildren old new)).touch (childKeys o)
        (swapParents old new)).object (.obj o.location)).map Object.contents =
          (s.object (.obj o.location)).map Object.contents := by
    have apart := moving.place located
    rw [touch_view (by intro; rfl), touch_view (by intro; rfl), unmoved ⟨apart.1, apart.2.1⟩]
  unfold fixRelatives
  rw [Failing.bind_of_ok (moving.fixChildren_runs nodup),
    Failing.bind_of_ok (Db.dereference_ok.mpr atNew2),
    Failing.bind_of_ok (moving.fixParents_runs children),
    Failing.bind_of_ok (moving.fixPlace_runs placed),
    Failing.bind_of_ok (Db.dereference_ok.mpr atNew4)]
  have moved := @foldlM_modify V Int ((((changeIdentity s old new o).touch (parentKeys o)
    (swapChildren old new)).touch (childKeys o) (swapParents old new)).touch (placeKeys o)
      (swapContents old new)) ObjVar.obj o.contents (setLocation new) (by
    intro c content
    obtain ⟨notOld, notNew, q, found, -⟩ := moving.content content
    simp [Db.touch, unmoved ⟨notOld, notNew⟩, found])
  refine (Failing.bind_of_ok moved _).trans ?_
  have kids : (fixAnonParents old new : Db V → Nat → Except Crash (Db V)) =
      fun s a => s.modify (.anon a) (swapAnonParents old new) := by
    funext s a
    exact fixAnonParents_eq old new s a
  rw [kids]
  exact foldlM_modify (by
    intro a member
    obtain ⟨q, found, -⟩ := moving.kid member
    simp [Db.touch, changeIdentity_object, found])

end Moving

section Index

variable {s : Db V} {old new : Int}

theorem moveAnonIndex_object (s : Db V) (old new : Int) :
    (moveAnonIndex s old new).object = s.object := by
  unfold moveAnonIndex
  split <;> rfl

theorem moveAnonIndex_tables (s : Db V) (old new : Int) :
    (moveAnonIndex s old new).numObjects = s.numObjects ∧
      (moveAnonIndex s old new).nextAnon = s.nextAnon ∧
      (moveAnonIndex s old new).allUsers = s.allUsers := by
  unfold moveAnonIndex
  split <;> exact ⟨rfl, rfl, rfl⟩

theorem moveAnonIndex_index (unused : s.anonymousObjects new = []) (p : Int) :
    (moveAnonIndex s old new).anonymousObjects p =
      if p = old then [] else s.anonymousObjects (if p = new then old else p) := by
  unfold moveAnonIndex
  split
  · rename_i noKids
    by_cases atOld : p = old
    · rw [if_pos atOld, atOld, noKids]
    · rw [if_neg atOld]
      split
      · rename_i atNew
        rw [atNew, unused, noKids]
      · rfl
  · simp only
    split
    · rfl
    · split <;> rfl

theorem fixUsers_fields (s : Db V) (old new : Int) :
    (fixUsers s old new).object = s.object ∧ (fixUsers s old new).numObjects = s.numObjects ∧
      (fixUsers s old new).nextAnon = s.nextAnon ∧
      (fixUsers s old new).anonymousObjects = s.anonymousObjects := by
  unfold fixUsers
  split
  · split <;> exact ⟨rfl, rfl, rfl, rfl⟩
  · exact ⟨rfl, rfl, rfl, rfl⟩

theorem fixUsers_allUsers (s : Db V) (old new : Int) : (fixUsers s old new).allUsers =
    if isUser s new then swapFirst old new s.allUsers else s.allUsers := by
  unfold fixUsers swapFirst
  split
  · cases s.allUsers.findIdx? (· = old) <;> rfl
  · rfl

end Index

namespace Moving

variable {s : Db V} {old new : Int} {o : Object V}

theorem map_ite (c : Prop) [Decidable c] (x : Option (Object V)) (f : Object V → Object V) :
    (if c then x.map f else x) = x.map fun q => if c then f q else q := by
  split
  · rfl
  · exact (congrFun Option.map_id x).symm

theorem swapAnonParents_of_not_named (old_real : old ≠ NOTHING) {q : Object V}
    (absent : old ∉ q.parents.named) : renameParents old new q.parents = q.parents := by
  cases parents : q.parents with
  | obj oid =>
      have other : oid ≠ old := by
        rintro rfl
        simp [parents, ObjOrList.named, old_real] at absent
      simp [renameParents, renameId, other]
  | list oids =>
      rw [parents] at absent
      have kept : oids.map (renameId old new) = oids := map_renameId_of_not_mem absent
      rw [renameParents, kept]

theorem relinked_anon (moving : Moving s old new o) (a : Nat) :
    (relinked s old new o).object (.anon a) =
      (s.object (.anon a)).map (swapAnonParents old new) := by
  have noPlace : ObjVar.anon a ∉ placeKeys o := by
    unfold placeKeys
    split <;> simp
  rw [relinked, touch_nodup moving.kidKeys_nodup]
  simp only [Db.touch, contentKeys, childKeys, parentKeys, List.count_eq_zero_of_not_mem noPlace,
    List.count_eq_zero_of_not_mem (show ObjVar.anon a ∉ o.contents.map ObjVar.obj by simp),
    List.count_eq_zero_of_not_mem (show ObjVar.anon a ∉ o.children.map ObjVar.obj by simp),
    List.count_eq_zero_of_not_mem (show ObjVar.anon a ∉ o.parents.named.map ObjVar.obj by simp),
    Function.iterate_zero, Option.map_id_fun, id, changeIdentity_object, reduceCtorEq, if_false]
  by_cases kid : a ∈ s.anonymousObjects old
  · simp [kid]
  · cases found : s.object (.anon a) with
    | none => simp
    | some q =>
        have absent : old ∉ q.parents.named := by
          intro named
          exact kid ((moving.consistent.graph.indexed old a).mpr
            ⟨q.node, WellFormed.node_of_object found, named⟩)
        simp [kid, swapAnonParents, swapAnonParents_of_not_named moving.old_real absent]

def patchParents (old new : Int) : ObjOrList → ObjOrList
  | .obj oid => .obj (renameId old new oid)
  | .list oids => .list (swapFirst old new oids)

def patched (old new : Int) (q : Object V) : Object V :=
  { q with
    location := renameId old new q.location
    contents := swapFirst old new q.contents
    parents := patchParents old new q.parents
    children := swapFirst old new q.children }

theorem patchParents_of_not_named (old_real : old ≠ NOTHING) {parents : ObjOrList}
    (absent : old ∉ parents.named) : patchParents old new parents = parents := by
  cases parents with
  | obj oid =>
      have other : oid ≠ old := by
        rintro rfl
        simp [ObjOrList.named, old_real] at absent
      simp [patchParents, renameId, other]
  | list oids =>
      have kept : swapFirst old new oids = oids := swapFirst_of_not_mem absent
      rw [patchParents, kept]

theorem swapParents_of_named {q : Object V}
    (named : old ∈ q.parents.named) :
    swapParents old new q = { q with parents := patchParents old new q.parents } := by
  unfold swapParents
  cases parents : q.parents with
  | obj oid =>
      have same : oid = old := by
        rw [parents] at named
        simp only [ObjOrList.named] at named
        split at named
        · cases named
        · exact (List.mem_singleton.mp named).symm
      simp [patchParents, renameId, same]
  | list oids => rfl

theorem relinked_numbered (moving : Moving s old new o) (nodup : o.parents.named.Nodup) {p : Int}
    (notOld : p ≠ old) (notNew : p ≠ new) :
    (relinked s old new o).object (.obj p) = (s.object (.obj p)).map (patched old new) := by
  have noKid : ObjVar.obj p ∉ (s.anonymousObjects old).map ObjVar.anon := by simp
  have start : (changeIdentity s old new o).object (.obj p) = s.object (.obj p) := by
    simp [changeIdentity_object, notOld, notNew]
  have parentKeysNodup : (parentKeys o).Nodup := nodup_map_obj nodup
  rw [relinked, touch_nodup moving.kidKeys_nodup, if_neg noKid,
    touch_nodup moving.contentKeys_nodup, touch_nodup (placeKeys_nodup o),
    touch_nodup moving.childKeys_nodup, touch_nodup parentKeysNodup, start]
  cases found : s.object (.obj p) with
  | none => simp
  | some q =>
      have graph := moving.consistent.graph
      have parent : .obj p ∈ parentKeys o ↔ old ∈ q.children := by
        have mirrored := graph.mirrored p old _ _ (WellFormed.node_of_object found)
          (WellFormed.node_of_object moving.found)
        exact Iff.trans (by simp [parentKeys, Object.node]) mirrored.symm
      have child : .obj p ∈ childKeys o ↔ old ∈ q.parents.named := by
        rw [← moving.child_iff found]
        simp [childKeys]
      have place : .obj p ∈ placeKeys o ↔ old ∈ q.contents := by
        have real : p ≠ NOTHING := graph.not_nothing (Db.valid_iff.mpr ⟨q, found⟩)
        unfold placeKeys
        constructor
        · split
          · simp
          · rename_i located
            intro member
            simp only [List.mem_singleton, ObjVar.obj.injEq] at member
            obtain ⟨l, foundL, content⟩ := moving.consistent.located old o moving.found located
            rw [← member, found] at foundL
            cases foundL
            exact content
        · intro content
          obtain ⟨o', found', location⟩ := moving.consistent.contained p q found old content
          rw [moving.found] at found'
          cases found'
          simp [location, real]
      have content : .obj p ∈ contentKeys o ↔ q.location = old := by
        constructor
        · intro member
          simp only [contentKeys, List.mem_map, ObjVar.obj.injEq, exists_eq_right] at member
          obtain ⟨q', found', location⟩ := moving.consistent.contained old o moving.found p member
          rw [found] at found'
          cases found'
          exact location
        · intro location
          obtain ⟨l, foundL, inside⟩ := moving.consistent.located p q found
            (location ▸ moving.old_real)
          rw [location, moving.found] at foundL
          cases foundL
          simpa [contentKeys] using inside
      have children : (if old ∈ q.children then swapChildren old new q else q) =
          { q with children := swapFirst old new q.children } := by
        split
        · rfl
        · rename_i absent
          rw [swapFirst_of_not_mem absent]
      have parents (r : Object V) (same : r.parents = q.parents) :
          (if old ∈ q.parents.named then swapParents old new r else r) =
            { r with parents := patchParents old new r.parents } := by
        rw [← same]
        split
        · rename_i named
          exact swapParents_of_named named
        · rename_i absent
          rw [patchParents_of_not_named moving.old_real absent]
      have contents (r : Object V) (same : r.contents = q.contents) :
          (if old ∈ q.contents then swapContents old new r else r) =
            { r with contents := swapFirst old new r.contents } := by
        rw [← same]
        split
        · rfl
        · rename_i absent
          rw [swapFirst_of_not_mem absent]
      have location (r : Object V) (same : r.location = q.location) :
          (if q.location = old then setLocation new r else r) =
            { r with location := renameId old new r.location } := by
        rw [← same]
        unfold renameId setLocation
        split <;> rfl
      simp only [map_ite, Option.map_some, parent, child, place, content]
      rw [← apply_ite some, children, Option.map_some,
        parents { q with children := swapFirst old new q.children } rfl, Option.map_some,
        contents { q with
          parents := patchParents old new q.parents
          children := swapFirst old new q.children } rfl, Option.map_some,
        location { q with
          contents := swapFirst old new q.contents
          parents := patchParents old new q.parents
          children := swapFirst old new q.children } rfl]
      rfl

theorem relinked_new (moving : Moving s old new o) :
    (relinked s old new o).object (.obj new) = some { o with id := new } := by
  obtain ⟨-, -, -, noContent⟩ := moving.apart (Or.inr rfl)
  have noKid : ObjVar.obj new ∉ (s.anonymousObjects old).map ObjVar.anon := by simp
  rw [relinked, touch_nodup moving.kidKeys_nodup, if_neg noKid,
    touch_nodup moving.contentKeys_nodup, if_neg noContent]
  exact moving.object_at_new.2

theorem relinked_old (s : Db V) (old new : Int) (o : Object V) :
    (relinked s old new o).object (.obj old) = none := by
  simp [relinked, Db.touch, changeIdentity_object]

def beforeAnons (s : Db V) (old new : Int) (o : Object V) : Db V :=
  fixNumberedOwners (fixUsers (moveAnonIndex (relinked s old new o) old new) old new) old new

theorem beforeAnons_object (s : Db V) (old new : Int) (o : Object V) (v : ObjVar) :
    (beforeAnons s old new o).object v = match v with
      | .obj _ => ((relinked s old new o).object v).map (renumberOwners old new)
      | .anon _ => (relinked s old new o).object v := by
  have users := (fixUsers_fields (moveAnonIndex (relinked s old new o) old new) old new).1
  cases v <;> simp only [beforeAnons, fixNumberedOwners, users, moveAnonIndex_object]

theorem beforeAnons_index (moving : Moving s old new o) (p : Int) :
    (beforeAnons s old new o).anonymousObjects p =
      if p = old then [] else s.anonymousObjects (if p = new then old else p) := by
  have unused : (relinked s old new o).anonymousObjects new = [] :=
    moving.consistent.graph.unindexed moving.free
  have users := (fixUsers_fields (moveAnonIndex (relinked s old new o) old new) old new).2.2.2
  rw [beforeAnons, fixNumberedOwners, users, moveAnonIndex_index unused]
  rfl

theorem renumber_runs (moving : Moving s old new o) (nodup : o.parents.named.Nodup) {n : Nat}
    (least : leastFree s old = some n) (same : new = n) :
    dbRenumberObject s old = .ok (new, reowned (relinked s old new o) old new) := by
  subst same
  unfold dbRenumberObject
  rw [least]
  simp only
  rw [Failing.bind_of_ok (Db.dereference_ok.mpr moving.found),
    Failing.bind_of_ok (moving.fixRelatives_runs nodup)]
  refine (Failing.bind_of_ok (foldlM_modify ?_) _).trans rfl
  intro a member
  simp only [indexedAnons, List.mem_flatMap] at member
  obtain ⟨p, -, indexed⟩ := member
  change a ∈ (beforeAnons s old n o).anonymousObjects p at indexed
  rw [moving.beforeAnons_index] at indexed
  split at indexed
  · cases indexed
  · obtain ⟨q, found, -⟩ := moving.kid indexed
    change ((beforeAnons s old n o).object (.anon a)).isSome = true
    rw [beforeAnons_object, moving.relinked_anon, found]
    rfl

theorem index_count (moving : Moving s old new o) {a : Nat} {q : Object V}
    (found : s.object (.anon a) = some q) (p : Int) :
    (s.anonymousObjects p).count a = if p ∈ q.parents.named then 1 else 0 := by
  have graph := moving.consistent.graph
  have indexed : a ∈ s.anonymousObjects p ↔ p ∈ q.parents.named := by
    rw [graph.indexed, WellFormed.node_of_object found]
    simp [Object.node]
  split
  · rename_i named
    exact List.count_eq_one_of_mem (graph.indexNodup p) (indexed.mpr named)
  · rename_i absent
    exact List.count_eq_zero_of_not_mem fun member => absent (indexed.mp member)

theorem count_flatMap_ite {α β : Type} [DecidableEq β] {f : α → List β} {b : β} {P : α → Bool}
    (once : ∀ x, (f x).count b = if P x then 1 else 0) (list : List α) :
    (list.flatMap f).count b = (list.filter P).length := by
  induction list with
  | nil => rfl
  | cons head tail ih =>
      rw [List.flatMap_cons, List.count_append, ih, once, List.filter_cons]
      split
      · rw [List.length_cons, Nat.add_comm]
      · rw [Nat.zero_add]

theorem indexedAnons_count (moving : Moving s old new o) {a : Nat} {q : Object V}
    (found : s.object (.anon a) = some q) :
    (indexedAnons (beforeAnons s old new o)).count a = q.parents.named.dedup.length := by
  have graph := moving.consistent.graph
  have numObjects : (beforeAnons s old new o).numObjects = s.numObjects := by
    rw [beforeAnons, fixNumberedOwners, (fixUsers_fields _ old new).2.1,
      (moveAnonIndex_tables _ old new).1]
    rfl
  have once (i : Nat) : ((beforeAnons s old new o).anonymousObjects i).count a =
      if decide ((i : Int) ≠ old ∧ (if (i : Int) = new then old else (i : Int)) ∈ q.parents.named)
        then 1 else 0 := by
    rw [moving.beforeAnons_index]
    by_cases atOld : (i : Int) = old
    · simp [atOld]
    · rw [if_neg atOld, moving.index_count found]
      simp [atOld]
  rw [indexedAnons, count_flatMap_ite once, numObjects,
    ← List.length_map fun i : Nat => if (i : Int) = new then old else (i : Int)]
  apply List.Perm.length_eq
  rw [List.perm_ext_iff_of_nodup _ (List.nodup_dedup _)]
  · intro p
    simp only [List.mem_map, List.mem_filter, List.mem_range, decide_eq_true_eq, List.mem_dedup]
    constructor
    · rintro ⟨i, ⟨-, -, member⟩, rfl⟩
      exact member
    · intro named
      have valid := graph.parentsValid _ _ (WellFormed.node_of_object found) p named
      obtain ⟨r, foundR⟩ := Db.valid_iff.mp valid
      have bounds := graph.valid_bounds valid
      have notNew := moving.not_new foundR
      have oldBounds := graph.valid_bounds (Db.valid_iff.mpr ⟨o, moving.found⟩)
      by_cases atOld : p = old
      · have same : ((new.toNat : Nat) : Int) = new := Int.toNat_of_nonneg moving.nonneg
        refine ⟨new.toNat, ⟨?_, ?_, ?_⟩, ?_⟩
        · have below := moving.below
          have nonneg := moving.nonneg
          omega
        · rw [same]
          exact moving.other.symm
        · rw [same, if_pos rfl]
          exact atOld ▸ named
        · rw [same, if_pos rfl, atOld]
      · have same : ((p.toNat : Nat) : Int) = p := Int.toNat_of_nonneg bounds.1
        refine ⟨p.toNat, ⟨by omega, ?_, ?_⟩, ?_⟩ <;> rw [same]
        · exact atOld
        · rwa [if_neg notNew]
        · rw [if_neg notNew]
  · refine List.Nodup.map_on ?_ (List.nodup_range.filter _)
    intro i memberI j memberJ same
    simp only [List.mem_filter, decide_eq_true_eq] at memberI memberJ
    split at same <;> split at same <;> omega

theorem renumberOwner_iterate_two (moving : Moving s old new o) (n : Nat) (owner : Int) :
    (renumberOwner old new)^[n + 2] owner =
      if owner = old ∨ owner = new then NOTHING else owner := by
  have nonneg := moving.nonneg
  have below := moving.below
  induction n with
  | zero =>
      simp only [Function.iterate_succ_apply, Function.iterate_zero, id, renumberOwner, NOTHING]
      split <;> split <;> simp_all
      omega
  | succ n ih =>
      rw [Function.iterate_succ_apply', ih]
      simp only [renumberOwner, NOTHING]
      split <;> simp_all
      omega

/-- Visiting an owner `n` times renames it unless it is renamed twice or not at all. -/
theorem renumberOwner_iterate (moving : Moving s old new o) (n : Nat) (owner : Int) :
    (renumberOwner old new)^[n] owner = renameOwner old new owner ↔
      (n = 0 → owner ≠ old ∧ owner ≠ new) ∧ (2 ≤ n → owner ≠ old) := by
  have nonneg := moving.nonneg
  have below := moving.below
  match n with
  | 0 =>
      simp only [Function.iterate_zero, id, renameOwner, renameId, NOTHING]
      split <;> simp_all <;> omega
  | 1 =>
      simp [renumberOwner, renameOwner, renameId]
  | n + 2 =>
      rw [moving.renumberOwner_iterate_two]
      simp only [renameOwner, renameId, NOTHING]
      split <;> simp_all
      omega

theorem patchParents_eq (moving : Moving s old new o) (parents : ObjOrList) :
    patchParents old new parents = renameParents old new parents ↔
      (enlistVar parents).count old ≤ 1 := by
  cases parents with
  | obj oid =>
      simp only [patchParents, renameParents, enlistVar, true_iff]
      exact List.count_le_length
  | list oids =>
      rw [patchParents, renameParents, ObjOrList.list.injEq, swapFirst_eq_map moving.other, enlistVar]

theorem patched_eq (moving : Moving s old new o) {p : Int} {q : Object V}
    (found : s.object (.obj p) = some q) (notOld : p ≠ old) :
    renumberOwners old new (patched old new q) = renameObject old new q ↔
      (enlistVar q.parents).count old ≤ 1 := by
  have graph := moving.consistent.graph
  have node := WellFormed.node_of_object found
  have id : renameId old new q.id = q.id := by
    have numbered : q.id = p := (graph.numbered p _ node).2.2
    rw [numbered, renameId, if_neg notOld]
  have contents := (swapFirst_eq_map moving.other).mpr
    (List.nodup_iff_count_le_one.mp (moving.consistent.contentsNodup p q found) old)
  have children := (swapFirst_eq_map moving.other).mpr
    (List.nodup_iff_count_le_one.mp (graph.childrenNodup _ _ node) old)
  change swapFirst old new q.children = q.children.map (renameId old new) at children
  rw [← moving.patchParents_eq]
  constructor
  · intro same
    exact congrArg Object.parents same
  · intro same
    simp only [renumberOwners, patched, renameObject, id, contents, children, same]
    rfl

theorem moved_eq (moving : Moving s old new o) :
    renumberOwners old new { o with id := new } = renameObject old new o := by
  have graph := moving.consistent.graph
  have node := WellFormed.node_of_object moving.found
  have id : renameId old new o.id = new := by
    have numbered : o.id = old := (graph.numbered old _ node).2.2
    rw [numbered, renameId, if_pos rfl]
  have location : renameId old new o.location = o.location :=
    if_neg (moving.consistent.notInItself old o moving.found)
  have contents : o.contents.map (renameId old new) = o.contents :=
    map_renameId_of_not_mem fun member => (moving.content member).1 rfl
  have children : o.children.map (renameId old new) = o.children :=
    map_renameId_of_not_mem fun member => (moving.child member).1 rfl
  have parents : renameParents old new o.parents = o.parents :=
    swapAnonParents_of_not_named moving.old_real moving.not_own_parent
  simp only [renumberOwners, renameObject, id, location, contents, children, parents]
  rfl

theorem renumberAnonOwners_iterate (n : Nat) (q : Object V) :
    (renumberAnonOwners old new)^[n] q = { q with
      owner := (renumberOwner old new)^[n] q.owner
      propval := q.propval.map fun p =>
        { p with owner := (renumberOwner old new)^[n] p.owner } } := by
  induction n generalizing q with
  | zero => simp
  | succ n ih =>
      rw [Function.iterate_succ_apply, ih]
      simp [renumberAnonOwners, Function.iterate_succ_apply]

/-- An anonymous object is renamed unless the loop over its owners comes by too often or not at
all, or one of its verbs is affected. -/
theorem anon_eq (moving : Moving s old new o) {a : Nat} {q : Object V}
    (found : s.object (.anon a) = some q) (n : Nat) :
    (renumberAnonOwners old new)^[n] (swapAnonParents old new q) = renameAnon old new q ↔
      (∀ owner ∈ ownersOf q, (n = 0 → owner ≠ old ∧ owner ≠ new) ∧ (2 ≤ n → owner ≠ old)) ∧
        ∀ v ∈ q.verbdefs, v.owner ≠ old ∧ v.owner ≠ new := by
  obtain ⟨location, contents⟩ := moving.consistent.nowhere a q found
  have childless : q.children = [] :=
    moving.consistent.graph.childless a _ (WellFormed.node_of_object found)
  have sameLocation : renameId old new q.location = q.location := by
    rw [location, renameId, if_neg moving.old_real.symm]
  have verbs : q.verbdefs = q.verbdefs.map (fun v =>
      { v with owner := renameOwner old new v.owner }) ↔
        ∀ v ∈ q.verbdefs, v.owner ≠ old ∧ v.owner ≠ new := by
    nth_rewrite 1 [← List.map_id q.verbdefs]
    rw [List.map_inj_left]
    refine forall₂_congr fun v _ => ?_
    have never := moving.renumberOwner_iterate 0 v.owner
    cases v
    simpa using never
  have slots : (q.propval.map fun p => { p with owner := (renumberOwner old new)^[n] p.owner }) =
      (q.propval.map fun p => { p with owner := renameOwner old new p.owner }) ↔
        ∀ p ∈ q.propval, (n = 0 → p.owner ≠ old ∧ p.owner ≠ new) ∧ (2 ≤ n → p.owner ≠ old) := by
    rw [List.map_inj_left]
    refine forall₂_congr fun p _ => ?_
    rw [← moving.renumberOwner_iterate, Pval.mk.injEq]
    simp
  rw [renumberAnonOwners_iterate]
  simp only [swapAnonParents, renameAnon, renameObject, Object.mk.injEq, true_and, sameLocation,
    contents, childless, List.map_nil, verbs, slots, moving.renumberOwner_iterate,
    ownersOf, List.mem_cons, List.mem_map, forall_eq_or_imp, forall_exists_index, and_imp,
    forall_apply_eq_imp_iff₂]
  tauto

theorem renumber_ok_nodup (moving : Moving s old new o) {s' : Db V}
    (ran : fixRelatives (changeIdentity s old new o) old new o = .ok s') :
    o.parents.named.Nodup := by
  obtain ⟨s2, first, -⟩ := Failing.bind_ok ran
  refine fixChildren_once moving.other ?_ first
  intro p q found
  have graph := moving.consistent.graph
  rw [changeIdentity_object] at found
  split at found
  · cases found
  · split at found
    · rw [Option.some.injEq] at found
      subst found
      exact List.nodup_iff_count_le_one.mp
        (graph.childrenNodup _ _ (WellFormed.node_of_object moving.found)) old
    · exact List.nodup_iff_count_le_one.mp
        (graph.childrenNodup _ _ (WellFormed.node_of_object found)) old

theorem reowned_eq (s : Db V) (old new : Int) (o : Object V) :
    reowned (relinked s old new o) old new = (beforeAnons s old new o).touch
      ((indexedAnons (beforeAnons s old new o)).map .anon) (renumberAnonOwners old new) := rfl

theorem reowned_index (moving : Moving s old new o) :
    (reowned (relinked s old new o) old new).anonymousObjects =
      (renamed old new s).anonymousObjects := by
  funext p
  exact moving.beforeAnons_index p

theorem reowned_allUsers (moving : Moving s old new o) :
    (reowned (relinked s old new o) old new).allUsers = (renamed old new s).allUsers := by
  have users : (reowned (relinked s old new o) old new).allUsers =
      (fixUsers (moveAnonIndex (relinked s old new o) old new) old new).allUsers := rfl
  have moved : isUser (moveAnonIndex (relinked s old new o) old new) new = isUser s old := by
    simp only [isUser, moveAnonIndex_object, moving.relinked_new, moving.found]
  rw [users, fixUsers_allUsers, (moveAnonIndex_tables _ old new).2.2, moved]
  change (if isUser s old then swapFirst old new s.allUsers else s.allUsers) = _
  split
  · exact (swapFirst_eq_map moving.other).mpr
      (List.nodup_iff_count_le_one.mp moving.consistent.usersNodup old)
  · rename_i notUser
    rw [← moving.consistent.users] at notUser
    exact (map_renameId_of_not_mem notUser).symm

theorem reowned_numbered (moving : Moving s old new o) (nodup : o.parents.named.Nodup) (p : Int) :
    (reowned (relinked s old new o) old new).object (.obj p) = (renamed old new s).object (.obj p) ↔
      ∀ q, s.object (.obj p) = some q → (enlistVar q.parents).count old ≤ 1 := by
  have untouched : (reowned (relinked s old new o) old new).object (.obj p) =
      ((relinked s old new o).object (.obj p)).map (renumberOwners old new) := by
    have noAnon : ObjVar.obj p ∉ (indexedAnons (beforeAnons s old new o)).map ObjVar.anon := by simp
    have same := beforeAnons_object s old new o (.obj p)
    simp only at same
    rw [← same, reowned_eq, Db.touch]
    simp only
    rw [List.count_eq_zero_of_not_mem noAnon]
    exact congrFun Option.map_id _
  rw [untouched]
  by_cases atOld : p = old
  · subst atOld
    rw [relinked_old]
    have once : (enlistVar o.parents).count p ≤ 1 := by
      have absent : p ∉ enlistVar o.parents := by
        rw [mem_enlistVar moving.old_real]
        exact moving.not_own_parent
      rw [List.count_eq_zero_of_not_mem absent]
      omega
    simp [renamed, moving.found, once]
  · by_cases atNew : p = new
    · subst atNew
      rw [moving.relinked_new, Option.map_some, moving.moved_eq]
      simp [renamed, atOld, moving.found, moving.free]
    · rw [moving.relinked_numbered nodup atOld atNew]
      simp only [renamed, atOld, atNew, if_false]
      cases found : s.object (.obj p) with
      | none => simp
      | some q =>
          simp only [Option.map_some, Option.some.injEq, forall_eq']
          exact moving.patched_eq found atOld

theorem reowned_anon (moving : Moving s old new o) (a : Nat) :
    (reowned (relinked s old new o) old new).object (.anon a) =
      (renamed old new s).object (.anon a) ↔ ∀ q, s.object (.anon a) = some q →
        (∀ owner ∈ ownersOf q, (q.parents.named = [] → owner ≠ old ∧ owner ≠ new) ∧
          (2 ≤ q.parents.named.dedup.length → owner ≠ old)) ∧
        ∀ v ∈ q.verbdefs, v.owner ≠ old ∧ v.owner ≠ new := by
  have touched : (reowned (relinked s old new o) old new).object (.anon a) =
      ((s.object (.anon a)).map (swapAnonParents old new)).map (renumberAnonOwners old new)^[
        (indexedAnons (beforeAnons s old new o)).count a] := by
    rw [← moving.relinked_anon, ← List.count_map_of_injective _ ObjVar.anon
      (fun _ _ => ObjVar.anon.inj)]
    have same := beforeAnons_object s old new o (.anon a)
    simp only at same
    rw [← same]
    rfl
  rw [touched]
  cases found : s.object (.anon a) with
  | none => simp [renamed, found]
  | some q =>
      simp only [renamed, found, Option.map_some, Option.some.injEq, forall_eq']
      rw [moving.indexedAnons_count found, moving.anon_eq found]
      simp only [List.length_eq_zero_iff, List.dedup_eq_nil]

end Moving

section Main

variable {s : Db V} {old new : Int}

/-- Nothing that the code passes over, or comes by twice, is about `old` or `new`. -/
structure Renumberable (s : Db V) (old new : Int) : Prop where
  parentsOnce : ∀ o, s.object (.obj old) = some o → (enlistVar o.parents).Nodup
  childrenOnce : ∀ c q, s.object (.obj c) = some q → (enlistVar q.parents).count old ≤ 1
  owners : ∀ a q, s.object (.anon a) = some q → ∀ owner ∈ ownersOf q,
    (q.parents.named = [] → owner ≠ old ∧ owner ≠ new) ∧
      (2 ≤ q.parents.named.dedup.length → owner ≠ old)
  verbs : ∀ a q, s.object (.anon a) = some q → ∀ v ∈ q.verbdefs, v.owner ≠ old ∧ v.owner ≠ new

theorem leastFree_some {n : Nat} (least : leastFree s old = some n) :
    LeastFree s old n ∧ (n : Int) < old ∧ s.object (.obj n) = none := by
  obtain ⟨free, inside, below⟩ := List.find?_range_eq_some.mp least
  have absent : s.valid n = false := by simpa using free
  rw [List.mem_range] at inside
  refine ⟨⟨?_, Or.inr ⟨by omega, by omega, absent⟩⟩, by omega, by simpa [Db.valid] using absent⟩
  intro k nonneg bound
  have earlier := below k.toNat (by omega)
  have same : ((k.toNat : Nat) : Int) = k := Int.toNat_of_nonneg nonneg
  simpa [same] using earlier

theorem leastFree_none (least : leastFree s old = none) : LeastFree s old old := by
  refine ⟨fun k nonneg bound => ?_, Or.inl rfl⟩
  have used := List.find?_range_eq_none.mp least k.toNat (by omega)
  have same : ((k.toNat : Nat) : Int) = k := Int.toNat_of_nonneg nonneg
  simpa [same] using used

theorem LeastFree.unique {other : Int} (first : LeastFree s old new) (nonneg : 0 ≤ old)
    (second : LeastFree s old other) : new = other := by
  have not_below {a b : Int} (a_least : LeastFree s old a) (b_least : LeastFree s old b) :
      ¬a < b := by
    intro less
    rcases a_least.2 with rfl | ⟨a_nonneg, -, free⟩
    · rcases b_least.2 with rfl | ⟨-, bound, -⟩ <;> omega
    · rw [b_least.1 a a_nonneg less] at free
      cases free
  have left := not_below first second
  have right := not_below second first
  omega

theorem enlistVar_nodup (parents : ObjOrList) :
    (enlistVar parents).Nodup ↔ parents.named.Nodup := by
  cases parents with
  | obj p =>
      simp only [enlistVar, ObjOrList.named]
      split <;> simp
  | list oids => rfl

theorem reowned_eq_renamed {o : Object V} (moving : Moving s old new o)
    (nodup : o.parents.named.Nodup) :
    reowned (relinked s old new o) old new = renamed old new s ↔ Renumberable s old new := by
  constructor
  · intro same
    have objects (v : ObjVar) := congrFun (congrArg Db.object same) v
    refine ⟨fun o' found => ?_, fun c q found => ?_, fun a q found => ?_, fun a q found => ?_⟩
    · rw [moving.found] at found
      cases found
      exact (enlistVar_nodup o.parents).mpr nodup
    · exact (moving.reowned_numbered nodup c).mp (objects _) q found
    · exact ((moving.reowned_anon a).mp (objects _) q found).1
    · exact ((moving.reowned_anon a).mp (objects _) q found).2
  · intro fits
    have objects : (reowned (relinked s old new o) old new).object = (renamed old new s).object := by
      funext v
      cases v with
      | obj p => exact (moving.reowned_numbered nodup p).mpr (fits.childrenOnce p)
      | anon a =>
          exact (moving.reowned_anon a).mpr fun q found => ⟨fits.owners a q found, fits.verbs a q found⟩
    have tables := moveAnonIndex_tables (relinked s old new o) old new
    have users := fixUsers_fields (moveAnonIndex (relinked s old new o) old new) old new
    refine Db.ext objects ?_ ?_ moving.reowned_index moving.reowned_allUsers
    · exact users.2.1.trans tables.1
    · exact users.2.2.1.trans tables.2.1

theorem renumber_renames (consistent : Consistent s) (valid : s.valid old = true)
    (renumberable : ∀ new, LeastFree s old new → new ≠ old → Renumberable s old new) :
    ∃ new, LeastFree s old new ∧
      dbRenumberObject s old = .ok (new, if new = old then s else renamed old new s) := by
  obtain ⟨o, found⟩ := Db.valid_iff.mp valid
  cases least : leastFree s old with
  | none =>
      refine ⟨old, leastFree_none least, ?_⟩
      rw [if_pos rfl, dbRenumberObject, least]
      rfl
  | some n =>
      obtain ⟨leastN, below, free⟩ := leastFree_some least
      have moving : Moving s old n o := ⟨consistent, found, free, by omega, below⟩
      have fits := renumberable n leastN (by omega)
      have nodup := (enlistVar_nodup o.parents).mp (fits.parentsOnce o found)
      refine ⟨n, leastN, ?_⟩
      rw [if_neg (by omega), moving.renumber_runs nodup least rfl,
        (reowned_eq_renamed moving nodup).mpr fits]

theorem renumberable_of_renames (consistent : Consistent s) (valid : s.valid old = true)
    (leastNew : LeastFree s old new) (other : new ≠ old)
    (ran : dbRenumberObject s old = .ok (new, renamed old new s)) : Renumberable s old new := by
  obtain ⟨o, found⟩ := Db.valid_iff.mp valid
  have bounds := consistent.graph.valid_bounds valid
  cases least : leastFree s old with
  | none => exact absurd (leastNew.unique bounds.1 (leastFree_none least)) other
  | some n =>
      obtain ⟨leastN, below, free⟩ := leastFree_some least
      have moving : Moving s old n o := ⟨consistent, found, free, by omega, below⟩
      cases leastNew.unique bounds.1 leastN
      have nodup : o.parents.named.Nodup := by
        have linked := ran
        unfold dbRenumberObject at linked
        rw [least] at linked
        obtain ⟨o', found', linked⟩ := Failing.bind_ok linked
        rw [Db.dereference_ok, found] at found'
        cases found'
        obtain ⟨s1, relatives, -⟩ := Failing.bind_ok linked
        exact moving.renumber_ok_nodup relatives
      rw [moving.renumber_runs nodup least rfl] at ran
      simp only [Except.ok.injEq, Prod.mk.injEq, true_and] at ran
      exact (reowned_eq_renamed moving nodup).mp ran

theorem renamed_object (free : s.object (.obj new) = none) (other : old ≠ new) {v : ObjVar}
    {o : Object V} (found : s.object v = some o) : ∃ id,
      (renamed old new s).object (renameVar old new v) = some { renameObject old new o with id := id } := by
  cases v with
  | anon a => exact ⟨o.id, by simp [renamed, renameVar, renameAnon, found]⟩
  | obj p =>
      refine ⟨renameId old new o.id, ?_⟩
      by_cases self : p = old
      · subst self
        simp [renamed, renameVar, renameId, Ne.symm other, found, renameObject]
      · have notNew : p ≠ new := by
          rintro rfl
          rw [free] at found
          cases found
        simp [renamed, renameVar, renameId, self, notNew, found, renameObject]

theorem renamed_ownList (free : s.object (.obj new) = none) (other : old ≠ new) {list : OwnList}
    {oids : List Int} (kept : s.ownList list = some oids) :
    (renamed old new s).ownList (list.moved old new) = some (oids.map (renameId old new)) := by
  cases list with
  | users =>
      obtain rfl := Option.some.inj kept
      rfl
  | children v =>
      obtain ⟨o, found, rfl⟩ := Option.map_eq_some_iff.mp kept
      obtain ⟨id, moved⟩ := renamed_object free other found
      rw [OwnList.moved, Db.ownList, moved]
      rfl
  | contents v =>
      obtain ⟨o, found, rfl⟩ := Option.map_eq_some_iff.mp kept
      obtain ⟨id, moved⟩ := renamed_object free other found
      rw [OwnList.moved, Db.ownList, moved]
      rfl
  | parents v =>
      obtain ⟨o, found, listed⟩ := Option.bind_eq_some_iff.mp kept
      obtain ⟨id, moved⟩ := renamed_object free other found
      cases parents : o.parents with
      | obj p => simp [parents] at listed
      | list ps =>
          obtain rfl : ps = oids := by simpa [parents] using listed
          simp [OwnList.moved, Db.ownList, moved, renameObject, parents, renameParents]

theorem valuesKept_renamed (free : s.object (.obj new) = none) (other : old ≠ new)
    (holds : V → OwnList → Prop) : ValuesKept s (renamed old new s) holds old new ↔
      ∀ list oids, SharedList s holds list → s.ownList list = some oids → old ∉ oids := by
  refine forall₄_congr fun list oids _ kept => ?_
  rw [renamed_ownList free other kept, Option.some.injEq]
  constructor
  · intro same
    rw [← same]
    exact not_mem_map_renameId other oids
  · exact map_renameId_of_not_mem

theorem moved_self (list : OwnList) : list.moved old old = list := by
  have same (v : ObjVar) : renameVar old old v = v := by
    cases v with
    | anon a => rfl
    | obj p =>
        rw [renameVar, renameId]
        split
        · rename_i same
          rw [same]
        · rfl
  cases list <;> simp [OwnList.moved, same]

/-- `db_renumber_object` renames the database and nothing else exactly when the object is
renumberable and is in none of the server's lists that a property has for its value. -/
theorem renumber_renames_iff (consistent : Consistent s) (valid : s.valid old = true)
    (holds : V → OwnList → Prop) :
    (∃ new s', LeastFree s old new ∧ dbRenumberObject s old = .ok (new, s') ∧
      s' = (if new = old then s else renamed old new s) ∧ ValuesKept s s' holds old new) ↔
    ∀ new, LeastFree s old new → new ≠ old → Renumberable s old new ∧
      ∀ list oids, SharedList s holds list → s.ownList list = some oids → old ∉ oids := by
  have bounds := consistent.graph.valid_bounds valid
  have free {new : Int} (least : LeastFree s old new) (other : new ≠ old) :
      s.object (.obj new) = none := by
    obtain same | ⟨-, -, unused⟩ := least.2
    · exact absurd same other
    · simpa [Db.valid] using unused
  constructor
  · rintro ⟨new, s', least, ran, rfl, kept⟩ new' least' other
    cases least.unique bounds.1 least'
    rw [if_neg other] at ran kept
    exact ⟨renumberable_of_renames consistent valid least other ran,
      (valuesKept_renamed (free least other) (Ne.symm other) holds).mp kept⟩
  · intro fits
    obtain ⟨new, least, ran⟩ :=
      renumber_renames consistent valid fun new least other => (fits new least other).1
    refine ⟨new, _, least, ran, rfl, ?_⟩
    split
    · rename_i same
      intro list oids _ kept
      rwa [same, moved_self]
    · rename_i other
      exact (valuesKept_renamed (free least other) (Ne.symm other) holds).mpr (fits new least other).2

end Main

section Sharing

def placeless (o : Object V) : Bool :=
  o.location = NOTHING && o.contents = [] && !(.user ∈ o.flags)

def nothingPlaced (s : Db V) : Bool := s.allUsers = [] && s.every placeless

theorem consistent_of_nothingPlaced {s : Db V} (graph : WellFormed s)
    (checked : nothingPlaced s = true) : Consistent s := by
  simp only [nothingPlaced, Bool.and_eq_true, decide_eq_true_eq] at checked
  obtain ⟨noUsers, checked⟩ := checked
  have everywhere (v : ObjVar) (o : Object V) (found : s.object v = some o) :
      o.location = NOTHING ∧ o.contents = [] ∧ ObjectFlag.user ∉ o.flags := by
    have checked : placeless o = true := graph.of_every checked found
    simpa [placeless, and_assoc] using checked
  constructor
  · exact graph
  · intro c o found located
    exact absurd (everywhere _ o found).1 located
  · intro p l found c member
    rw [(everywhere _ l found).2.1] at member
    cases member
  · intro p l found
    rw [(everywhere _ l found).2.1]
    exact List.nodup_nil
  · intro p l found
    rw [(everywhere _ l found).1]
    exact (graph.not_nothing (Db.valid_iff.mpr ⟨l, found⟩)).symm
  · intro a o found
    exact ⟨(everywhere _ o found).1, (everywhere _ o found).2.1⟩
  · intro oid
    rw [noUsers]
    unfold isUser
    cases found : s.object (.obj oid) with
    | none => simp
    | some o => simp [(everywhere _ o found).2.2]
  · rw [noUsers]
    exact List.nodup_nil

/-- `#2` owns an anonymous object that has `#2` and `#3` as parents, and `#0` is free. -/
def sharingCalls : List (Call Unit) :=
  [.create (-1) (.obj (-1)) (-1) false, .create (-1) (.obj (-1)) (-1) false,
    .create (-1) (.obj (-1)) (-1) false, .create 2 (.obj (-1)) 2 false,
    .create 2 (.list [2, 3]) 2 true, .recycle 0 (.obj 0)]

def ownerForgotten (s : Db Unit) : Bool :=
  Failing.okAnd (dbRenumberObject s 2) fun result =>
    result.1 = 0 && (result.2.object (.anon 0)).map Object.owner = some NOTHING

theorem sharing_state : ∃ s : Db Unit, Consistent s ∧ s.valid 2 = true ∧
    (s.object (.anon 0)).map Object.owner = some 2 ∧ ownerForgotten s = true := by
  obtain ⟨s, ran, shape⟩ := Failing.of_okAnd (x := runAll sharingCalls Db.empty)
    (p := fun s => nothingPlaced s && s.valid 2 &&
      (s.object (.anon 0)).map Object.owner = some 2 && ownerForgotten s)
    (by decide)
  simp only [Bool.and_eq_true, decide_eq_true_eq] at shape
  have regraphs : ∀ call ∈ sharingCalls, call.regraphs = true := by decide
  have graph : WellFormed s :=
    reachable_wellFormed (runAll_reachable .start (fun call member _ => regraphs call member) ran)
  exact ⟨s, consistent_of_nothingPlaced graph shape.1.1.1, shape.1.1.2, shape.1.2, shape.2⟩

theorem ownerForgotten_not_renamed {s : Db Unit} (owned : (s.object (.anon 0)).map Object.owner = some 2)
    (forgotten : ownerForgotten s = true) (holds : Unit → OwnList → Prop) :
    ¬∃ new s', LeastFree s 2 new ∧ dbRenumberObject s 2 = .ok (new, s') ∧
      s' = (if new = 2 then s else renamed 2 new s) ∧ ValuesKept s s' holds 2 new := by
  rintro ⟨new, s', -, ran, rfl, -⟩
  rw [ownerForgotten, ran] at forgotten
  simp only [Failing.okAnd, Bool.and_eq_true, decide_eq_true_eq] at forgotten
  obtain ⟨rfl, owner⟩ := forgotten
  obtain ⟨q, found, same⟩ := Option.map_eq_some_iff.mp owned
  simp [renamed, renameAnon, renameObject, found, same, renameOwner, renameId, NOTHING] at owner

theorem renumber_forgets_owner : ∃ s : Db Unit, Consistent s ∧ s.valid 2 = true ∧
    ¬∃ new s', LeastFree s 2 new ∧ dbRenumberObject s 2 = .ok (new, s') ∧
      s' = (if new = 2 then s else renamed 2 new s) ∧
      ValuesKept s s' (fun _ _ => False) 2 new := by
  obtain ⟨s, consistent, valid, owned, forgotten⟩ := sharing_state
  exact ⟨s, consistent, valid, ownerForgotten_not_renamed owned forgotten _⟩

theorem sharing_not_renumberable : ∃ s : Db Unit, Consistent s ∧ s.valid 2 = true ∧
    ¬∀ new, LeastFree s 2 new → new ≠ 2 → Renumberable s 2 new ∧
      ∀ list oids, SharedList s (fun _ _ => False) list → s.ownList list = some oids → 2 ∉ oids := by
  obtain ⟨s, consistent, valid, owned, forgotten⟩ := sharing_state
  exact ⟨s, consistent, valid, fun fits => ownerForgotten_not_renamed owned forgotten _
    ((renumber_renames_iff consistent valid fun _ _ => False).mpr fits)⟩

end Sharing

end ToastStunt
