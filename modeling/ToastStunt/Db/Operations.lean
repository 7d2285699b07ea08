import ToastStunt.Db.Reparent

/-!
What the operations on the inheritance graph are made of: what each built-in does
between two states, one change of the graph at a time.
-/

namespace ToastStunt

open FirstVisit

variable {V : Type}

/-- A successful `db_change_parents`: the checks passed, the graph was changed to that of
`s2`, and then the slots were laid out anew. -/
structure ChangedParents (s s' : Db V) (v : ObjVar) (new : ObjOrList) (kids : List Nat)
    (s2 : Db V) : Prop where
  noDuplicates : checkForDuplicates new = true
  kidsOk : checkChildrenOfObject s v kids = .ok true
  propertiesOk : dbprivCheckPropertiesForChparent s v new kids = .ok true
  relinked : ∃ o s1, s.object v = some o ∧ relink s v o.parents new = .ok s1 ∧
    s1.modify v (fun o => { o with parents := new }) = .ok s2
  fixed : dbprivFixPropertiesAfterChparent (traversalDepth s2 + 1) v (dbAncestors s v true)
    (dbAncestors s2 v true) kids s2 = .ok s'

theorem dbChangeParents_ok {s s' : Db V} {v : ObjVar} {new : ObjOrList} {anonKids : List Nat}
    {changed : Bool} (ran : dbChangeParents s v new anonKids = .ok (changed, s')) :
    (changed = false ∧ s' = s) ∨
      (changed = true ∧ ∃ s2, ChangedParents s s' v new (gatheredKids s v anonKids) s2) := by
  have refused {b : Bool} {final : Db V}
      (early : (.ok (false, s) : Except Crash (Bool × Db V)) = .ok (b, final)) :
      b = false ∧ final = s := by
    cases early
    exact ⟨rfl, rfl⟩
  unfold dbChangeParents at ran
  cases duplicates : checkForDuplicates new with
  | false =>
      rw [duplicates] at ran
      exact Or.inl (refused ran)
  | true =>
      rw [duplicates] at ran
      simp only [Bool.not_true, Bool.false_eq_true, if_false] at ran
      obtain ⟨kidsOk, kidsRan, ran⟩ := Failing.bind_ok ran
      cases kidsOk with
      | false => exact Or.inl (refused ran)
      | true =>
          simp only [Bool.not_true, Bool.false_eq_true, if_false] at ran
          obtain ⟨propertiesOk, propertiesRan, ran⟩ := Failing.bind_ok ran
          cases propertiesOk with
          | false => exact Or.inl (refused ran)
          | true =>
              simp only [Bool.not_true, Bool.false_eq_true, if_false] at ran
              obtain ⟨o, found, ran⟩ := Failing.bind_ok ran
              obtain ⟨s1, relinked, ran⟩ := Failing.bind_ok ran
              obtain ⟨s2, assigned, ran⟩ := Failing.bind_ok ran
              obtain ⟨s3, fixed, ran⟩ := Failing.bind_ok ran
              cases ran
              exact Or.inr ⟨rfl, s2, duplicates, kidsRan, propertiesRan,
                ⟨o, s1, Db.dereference_ok.mp found, relinked, assigned⟩, fixed⟩

def Object.unslotted (o : Object V) : Object V := { o with propval := [] }

theorem SameUpTo.graph {s s' : Db V} (same : SameUpTo Object.unslotted s s') : SameGraph s s' := by
  refine same.coarser fun o o' sameLook => ?_
  have node := congrArg Object.node sameLook
  exact node

theorem fix_unslotted {fuel : Nat} {s s' : Db V} {v : ObjVar} {old new : List ObjVar}
    {anonKids : List Nat}
    (ran : dbprivFixPropertiesAfterChparent fuel v old new anonKids s = .ok s') :
    SameUpTo Object.unslotted s s' := by
  induction fuel generalizing s s' v old new anonKids with
  | zero => cases ran
  | succ fuel ih =>
      obtain ⟨me, -, ran⟩ := Failing.bind_ok ran
      split at ran
      · cases ran
      · obtain ⟨slots, -, ran⟩ := Failing.bind_ok ran
        obtain ⟨s1, assigned, ran⟩ := Failing.bind_ok ran
        have start : SameUpTo Object.unslotted s s1 :=
          SameUpTo.of_modify (by intros; rfl) assigned
        refine Failing.foldlM_invariant (SameUpTo Object.unslotted s) ?_ start ran
        intro child _ before after same step
        obtain ⟨lists, -, step⟩ := Failing.bind_ok step
        exact same.trans (ih step)

theorem fix_allUsers {fuel : Nat} {s s' : Db V} {v : ObjVar} {old new : List ObjVar}
    {anonKids : List Nat}
    (ran : dbprivFixPropertiesAfterChparent fuel v old new anonKids s = .ok s') :
    s'.allUsers = s.allUsers := by
  induction fuel generalizing s s' v old new anonKids with
  | zero => cases ran
  | succ fuel ih =>
      obtain ⟨me, -, ran⟩ := Failing.bind_ok ran
      split at ran
      · cases ran
      · obtain ⟨slots, -, ran⟩ := Failing.bind_ok ran
        obtain ⟨s1, assigned, ran⟩ := Failing.bind_ok ran
        obtain ⟨o, -, rfl⟩ := Db.modify_ok assigned
        refine Failing.foldlM_invariant (fun middle => middle.allUsers = s.allUsers) ?_ rfl ran
        intro child _ before after same step
        obtain ⟨lists, -, step⟩ := Failing.bind_ok step
        exact (ih step).trans same

theorem fix_not_own_child {fuel : Nat} {s s' : Db V} {oid : Int} {old new : List ObjVar}
    {anonKids : List Nat}
    (ran : dbprivFixPropertiesAfterChparent fuel (.obj oid) old new anonKids s = .ok s')
    {o : Object V} (found : s.object (.obj oid) = some o) : oid ∉ o.children := by
  intro ownChild
  induction fuel generalizing s s' old new anonKids o with
  | zero => cases ran
  | succ fuel ih =>
      obtain ⟨me, foundMe, ran⟩ := Failing.bind_ok ran
      rw [Db.dereference_ok, found] at foundMe
      cases foundMe
      split at ran
      · cases ran
      · obtain ⟨slots, -, ran⟩ := Failing.bind_ok ran
        obtain ⟨s1, assigned, ran⟩ := Failing.bind_ok ran
        have start : SameUpTo Object.unslotted s s1 :=
          SameUpTo.of_modify (by intros; rfl) assigned
        have member : ObjVar.obj oid ∈ o.children.map ObjVar.obj ++ anonKids.map ObjVar.anon :=
          List.mem_append_left _ (List.mem_map_of_mem ownChild)
        obtain ⟨before, after, same, step⟩ := Failing.foldlM_reaches
          (SameUpTo Object.unslotted s) (by
            intro child _ before after same step
            obtain ⟨lists, -, step⟩ := Failing.bind_ok step
            exact same.trans (fix_unslotted step)) start ran _ member
        obtain ⟨lists, -, step⟩ := Failing.bind_ok step
        have node := same.graph.node (.obj oid)
        obtain ⟨o', found', sameNode⟩ := node_some.mp (node.trans (node_some.mpr ⟨o, found, rfl⟩))
        refine ih step found' ?_
        rw [show o'.children = o.children from congrArg Node.children sameNode]
        exact ownChild

namespace ChangedParents

variable {s s' s2 : Db V} {v : ObjVar} {new : ObjOrList} {kids : List Nat}

theorem reparented (change : ChangedParents s s' v new kids s2) (formed : WellFormed s) :
    Reparented s s2 v new := by
  obtain ⟨o, s1, found, relinked, assigned⟩ := change.relinked
  exact ToastStunt.reparented formed found relinked assigned

theorem newValid {oid : Int} (change : ChangedParents s s' (.obj oid) new kids s2) :
    ∀ p ∈ new.named, s.valid p = true := by
  obtain ⟨o, s1, found, relinked, assigned⟩ := change.relinked
  exact (relinkChildren_ok relinked).1

theorem not_own_parent {oid : Int} (change : ChangedParents s s' (.obj oid) new kids s2)
    (formed : WellFormed s) : oid ∉ new.named := by
  intro ownParent
  obtain ⟨o, s1, found, relinked, assigned⟩ := change.relinked
  obtain ⟨children, object, -, members⟩ := (change.reparented formed).object (.obj oid) o found
  exact fix_not_own_child change.fixed object
    ((members oid).mpr (Or.inr ⟨rfl, oid, ownParent, rfl⟩))

theorem valid (change : ChangedParents s s' v new kids s2) (formed : WellFormed s) :
    s'.valid = s.valid := by
  rw [(fix_unslotted change.fixed).graph.valid, (change.reparented formed).valid]

theorem wellFormed (change : ChangedParents s s' v new kids s2) (formed : WellFormed s)
    (newValid : ∀ p ∈ new.named, s.valid p = true)
    (apart : ∀ p ∈ new.named, ¬Ancestor s (.obj p) v) : WellFormed s' := by
  obtain ⟨o, s1, found, relinked, assigned⟩ := change.relinked
  have middle := (change.reparented formed).wellFormed formed found newValid apart
  exact (fix_unslotted change.fixed).graph.wellFormed middle

end ChangedParents

/-- `s` and `s'` differ in the object at `v`, which is without relations in both, if it is
there at all. -/
structure Isolated (s s' : Db V) (v : ObjVar) : Prop where
  elsewhere : ∀ w, w ≠ v → s'.node w = s.node w
  before : ∀ n, s.node v = some n → n.parents.named = [] ∧ n.children = []
  after : ∀ n, s'.node v = some n → n.parents.named = [] ∧ n.children = []
  noAnons : ∀ p, v = .obj p → s.anonymousObjects p = []
  index : s'.anonymousObjects = s.anonymousObjects
  numbered : ∀ oid n, v = .obj oid → s'.node v = some n →
    0 ≤ oid ∧ oid < s'.numObjects ∧ n.id = oid
  allocated : ∀ a, v = .anon a → s'.node v ≠ none → a < s'.nextAnon
  numObjects : s.numObjects ≤ s'.numObjects
  nextAnon : s.nextAnon ≤ s'.nextAnon

namespace Isolated

variable {s s' : Db V} {v : ObjVar}

theorem not_named (apart : Isolated s s' v) (formed : WellFormed s) {w : ObjVar} {n : Node}
    (found : s.node w = some n) {p : Int} (member : p ∈ n.parents.named) : .obj p ≠ v := by
  rintro rfl
  obtain ⟨np, foundP⟩ := valid_iff_node.mp (formed.parentsValid w n found p member)
  cases w with
  | obj c =>
      have child := (formed.mirrored p c np n foundP found).mpr member
      rw [(apart.before np foundP).2] at child
      cases child
  | anon a =>
      have indexed := (formed.indexed p a).mpr ⟨n, found, member⟩
      rw [apart.noAnons p rfl] at indexed
      cases indexed

theorem not_child (apart : Isolated s s' v) (formed : WellFormed s) {w : ObjVar} {n : Node}
    (found : s.node w = some n) {c : Int} (member : c ∈ n.children) : .obj c ≠ v := by
  rintro rfl
  obtain ⟨nc, foundC⟩ := valid_iff_node.mp (formed.childrenValid w n found c member)
  cases w with
  | obj p =>
      have parent := (formed.mirrored p c n nc found foundC).mp member
      rw [(apart.before nc foundC).1] at parent
      cases parent
  | anon a =>
      rw [formed.childless a n found] at member
      cases member

theorem valid (apart : Isolated s s' v) {oid : Int} (elsewhere : .obj oid ≠ v) :
    s'.valid oid = s.valid oid := by
  have known := apart.elsewhere (.obj oid) elsewhere
  rw [Bool.eq_iff_iff, valid_iff_node, valid_iff_node, known]

theorem node (apart : Isolated s s' v) {w : ObjVar} {n : Node} (found : s'.node w = some n) :
    n.parents.named = [] ∧ n.children = [] ∨ w ≠ v ∧ s.node w = some n := by
  by_cases same : w = v
  · subst same
    exact Or.inl (apart.after n found)
  · exact Or.inr ⟨same, apart.elsewhere w same ▸ found⟩

theorem parentsOf (apart : Isolated s s' v) (formed : WellFormed s) {w u : ObjVar}
    (edge : u ∈ parentsOf s' w) : u ∈ parentsOf s w := by
  obtain ⟨n, oid, found, member, valid, rfl⟩ := mem_parentsOf_node.mp edge
  have real : oid ≠ NOTHING := by
    rintro rfl
    obtain ⟨nothing, foundNothing⟩ := valid_iff_node.mp valid
    by_cases same : v = .obj NOTHING
    · have := apart.numbered NOTHING nothing same (same ▸ foundNothing)
      simp [NOTHING] at this
    · rw [apart.elsewhere _ (Ne.symm same)] at foundNothing
      have := formed.numbered NOTHING nothing foundNothing
      simp [NOTHING] at this
  have named := (mem_enlistVar real).mp member
  rcases apart.node found with ⟨none, -⟩ | ⟨-, before⟩
  · rw [none] at named
    cases named
  · exact formed.mem_parents.mpr ⟨n, before, named⟩

theorem wellFormed (apart : Isolated s s' v) (formed : WellFormed s) : WellFormed s' := by
  constructor
  · exact Int.le_trans formed.table apart.numObjects
  · intro oid n found
    by_cases same : v = .obj oid
    · exact apart.numbered oid n same (same ▸ found)
    · rw [apart.elsewhere _ (Ne.symm same)] at found
      have old := formed.numbered oid n found
      exact ⟨old.1, Int.lt_of_lt_of_le old.2.1 apart.numObjects, old.2.2⟩
  · intro a fresh
    by_cases same : v = .anon a
    · by_contra present
      have := apart.allocated a same (same ▸ present)
      omega
    · rw [apart.elsewhere _ (Ne.symm same)]
      exact formed.allocated a (Nat.le_trans apart.nextAnon fresh)
  · intro a n found
    rcases apart.node found with ⟨-, none⟩ | ⟨-, before⟩
    · exact none
    · exact formed.childless a n before
  · intro w n found p member
    rcases apart.node found with ⟨none, -⟩ | ⟨-, before⟩
    · rw [none] at member
      cases member
    · rw [apart.valid (apart.not_named formed before member)]
      exact formed.parentsValid w n before p member
  · intro w n found c member
    rcases apart.node found with ⟨-, none⟩ | ⟨-, before⟩
    · rw [none] at member
      cases member
    · rw [apart.valid (apart.not_child formed before member)]
      exact formed.childrenValid w n before c member
  · intro p c np nc foundP foundC
    rcases apart.node foundP with ⟨-, noChildren⟩ | ⟨elsewhereP, beforeP⟩
    · rcases apart.node foundC with ⟨noParents, -⟩ | ⟨-, beforeC⟩
      · simp [noChildren, noParents]
      · simp only [noChildren, List.not_mem_nil, false_iff]
        intro named
        have elsewhere := apart.not_named formed beforeC named
        rw [apart.elsewhere _ elsewhere] at foundP
        have child := (formed.mirrored p c np nc foundP beforeC).mpr named
        rw [noChildren] at child
        cases child
    · rcases apart.node foundC with ⟨noParents, -⟩ | ⟨-, beforeC⟩
      · simp only [noParents, List.not_mem_nil, iff_false]
        intro member
        have elsewhere := apart.not_child formed beforeP member
        rw [apart.elsewhere _ elsewhere] at foundC
        have parent := (formed.mirrored p c np nc beforeP foundC).mp member
        rw [noParents] at parent
        cases parent
      · exact formed.mirrored p c np nc beforeP beforeC
  · intro w n found
    rcases apart.node found with ⟨-, none⟩ | ⟨-, before⟩
    · rw [none]
      exact List.nodup_nil
    · exact formed.childrenNodup w n before
  · intro p a
    rw [apart.index, formed.indexed]
    by_cases same : v = .anon a
    · subst same
      constructor
      · rintro ⟨n, found, member⟩
        rw [(apart.before n found).1] at member
        cases member
      · rintro ⟨n, found, member⟩
        rw [(apart.after n found).1] at member
        cases member
    · rw [apart.elsewhere _ (Ne.symm same)]
  · rw [apart.index]
    exact formed.indexNodup
  · obtain ⟨rank, ranked⟩ := formed.acyclic
    exact ⟨rank, fun w u edge => ranked w u (apart.parentsOf formed edge)⟩

end Isolated

/-- What the slots of an object depend on. -/
def Object.inheritance (o : Object V) :
    ObjOrList × List Int × List Propdef × List (Pval V) :=
  (o.parents, o.children, o.propdefs, o.propval)

/-- Nothing of the inheritance graph and of the slots has changed, except for the order in
which the index lists anonymous children. -/
structure Quiet (s s' : Db V) : Prop where
  view : ∀ v, (s'.object v).map Object.inheritance = (s.object v).map Object.inheritance
  index : ∀ p, (s'.anonymousObjects p).Perm (s.anonymousObjects p)

structure Blank (s s' : Db V) (v : ObjVar) : Prop where
  absent : s.object v = none
  present : ∃ o, s'.object v = some o ∧ o.inheritance = (.obj NOTHING, [], [], [])
  elsewhere : ∀ w, w ≠ v → s'.object w = s.object w
  index : s'.anonymousObjects = s.anonymousObjects

structure Gone (s s' : Db V) (v : ObjVar) : Prop where
  present : ∃ o, s.object v = some o ∧ o.children = []
  noAnons : ∀ p, v = .obj p → s.anonymousObjects p = []
  absent : s'.object v = none
  elsewhere : ∀ w, w ≠ v → s'.object w = s.object w
  index : ∀ p a, a ∈ s'.anonymousObjects p ↔ a ∈ s.anonymousObjects p ∧ v ≠ .anon a

namespace Quiet

variable {s s' s'' : Db V}

theorem refl (s : Db V) : Quiet s s := ⟨fun _ => rfl, fun _ => List.Perm.refl _⟩

theorem trans (first : Quiet s s') (second : Quiet s' s'') : Quiet s s'' where
  view v := (second.view v).trans (first.view v)
  index p := (second.index p).trans (first.index p)

theorem of_sameUpTo {α : Type} {look : Object V → α} (same : SameUpTo look s s')
    (seen : ∀ o o', look o' = look o → o'.inheritance = o.inheritance) : Quiet s s' where
  view := (same.coarser seen).view
  index p := by rw [same.index]

theorem of_modify {v : ObjVar} {f : Object V → Object V}
    (unseen : ∀ o, s.object v = some o → (f o).inheritance = o.inheritance)
    (changed : s.modify v f = .ok s') : Quiet s s' := by
  have same : SameUpTo Object.inheritance s s' := SameUpTo.of_modify unseen changed
  exact of_sameUpTo same fun _ _ equal => equal

theorem wellFormed (quiet : Quiet s s') (formed : WellFormed s)
    (ids : ∀ oid o, s'.object (.obj oid) = some o → o.id = oid)
    (numObjects : s'.numObjects = s.numObjects) (nextAnon : s'.nextAnon = s.nextAnon) :
    WellFormed s' := by
  refine SameLinks.wellFormed ⟨fun v => ?_, fun oid n found => ?_, numObjects, nextAnon,
    quiet.index⟩ formed
  · have links := congrArg (Option.map fun look => (look.1, look.2.1)) (quiet.view v)
    rw [Option.map_map, Option.map_map] at links
    rw [Db.node, Db.node, Option.map_map, Option.map_map]
    exact links
  · obtain ⟨o, object, rfl⟩ := node_some.mp found
    exact ids oid o object

end Quiet

end ToastStunt
