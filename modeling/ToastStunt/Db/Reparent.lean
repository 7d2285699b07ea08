import Mathlib.Logic.Function.Iterate
import ToastStunt.Db.WellFormed

/-!
What the re-linking part of `db_change_parents` does to the inheritance graph, and
that it keeps the graph well-formed.
-/

namespace ToastStunt

open FirstVisit

variable {V : Type}

section Touch

/-- One assignment through each of the pointers, counted with repetitions. -/
def Db.touch (s : Db V) (keys : List ObjVar) (f : Object V → Object V) : Db V :=
  { s with object := fun v => (s.object v).map f^[keys.count v] }

theorem Db.touch_cons (s : Db V) (key : ObjVar) (keys : List ObjVar) (f : Object V → Object V)
    {o : Object V} (found : s.object key = some o) :
    (s.setObject key (some (f o))).touch keys f = s.touch (key :: keys) f := by
  simp only [Db.touch, Db.setObject, Db.mk.injEq, and_true]
  funext v
  by_cases same : v = key
  · subst same
    simp [found]
  · simp [same, Ne.symm same]

theorem foldlM_modify_ok {ι : Type} {s s' : Db V} {key : ι → ObjVar} {items : List ι}
    {f : Object V → Object V} (ran : items.foldlM (fun s i => s.modify (key i) f) s = .ok s') :
    (∀ i ∈ items, (s.object (key i)).isSome) ∧ s' = s.touch (items.map key) f := by
  induction items generalizing s with
  | nil =>
      simp only [List.foldlM_nil, pure, Except.pure, Except.ok.injEq] at ran
      refine ⟨by simp, ran.symm.trans ?_⟩
      simp [Db.touch]
  | cons item rest ih =>
      obtain ⟨middle, first, later⟩ := Failing.foldlM_cons_ok ran
      obtain ⟨o, found, rfl⟩ := Db.modify_ok first
      obtain ⟨present, same⟩ := ih later
      refine ⟨?_, same.trans (Db.touch_cons s (key item) (rest.map key) f found)⟩
      intro other member
      rcases List.mem_cons.mp member with rfl | inside
      · simp [found]
      · have known := present other inside
        rw [Db.setObject_object] at known
        split at known
        · rename_i equal
          simp [equal, found]
        · exact known

theorem foldlM_modify {ι : Type} {s : Db V} {key : ι → ObjVar} {items : List ι}
    {f : Object V → Object V} (present : ∀ i ∈ items, (s.object (key i)).isSome) :
    items.foldlM (fun s i => s.modify (key i) f) s = .ok (s.touch (items.map key) f) := by
  induction items generalizing s with
  | nil => simp [Db.touch, pure, Except.pure]
  | cons item rest ih =>
      obtain ⟨o, found⟩ := Option.isSome_iff_exists.mp (present item (by simp))
      have first : s.modify (key item) f = .ok (s.setObject (key item) (some (f o))) := by
        simp [Db.modify, found]
      rw [List.foldlM_cons, first, List.map_cons, ← Db.touch_cons s _ (rest.map key) f found]
      apply ih
      intro other member
      rw [Db.setObject_object]
      split
      · rfl
      · exact present other (by simp [member])

def Object.withChildren (f : List Int → List Int) (o : Object V) : Object V :=
  { o with children := f o.children }

theorem withChildren_iterate (f : List Int → List Int) (n : Nat) :
    (Object.withChildren f)^[n] = (Object.withChildren f^[n] : Object V → Object V) := by
  induction n with
  | zero => rfl
  | succ n ih =>
      funext o
      rw [Function.iterate_succ_apply, ih]
      rfl

theorem setremove_iterate {list : List Int} (nodup : list.Nodup) (oid : Int) (n : Nat) :
    ((setremove · oid)^[n] list).Nodup ∧
      ∀ c, c ∈ (setremove · oid)^[n] list ↔ c ∈ list ∧ ¬(c = oid ∧ 0 < n) := by
  induction n generalizing list with
  | zero => simp [nodup]
  | succ n ih =>
      rw [Function.iterate_succ_apply]
      obtain ⟨rest, members⟩ := ih (nodup.erase oid)
      refine ⟨rest, fun c => ?_⟩
      have last := members c
      rw [nodup.mem_erase_iff] at last
      refine last.trans ?_
      by_cases same : c = oid <;> simp [same]

theorem setadd_iterate {list : List Int} (nodup : list.Nodup) (oid : Int) (n : Nat) :
    ((setadd · oid)^[n] list).Nodup ∧
      ∀ c, c ∈ (setadd · oid)^[n] list ↔ c ∈ list ∨ (c = oid ∧ 0 < n) := by
  induction n generalizing list with
  | zero => simp [nodup]
  | succ n ih =>
      rw [Function.iterate_succ_apply]
      have nodup' : (addNew list oid).Nodup := addNew_nodup nodup
      obtain ⟨rest, members⟩ := ih nodup'
      refine ⟨rest, fun c => ?_⟩
      have last := members c
      rw [mem_addNew] at last
      refine last.trans ?_
      by_cases same : c = oid <;> simp [same]

end Touch

section Index

theorem mem_removeAnons {s : Db V} (nodup : ∀ p, (s.anonymousObjects p).Nodup)
    (parents : List Int) (address : Nat) :
    let s' := parents.foldl (fun s parent => dbprivRemoveAnon s parent address) s
    (∀ p, (s'.anonymousObjects p).Nodup) ∧ ∀ p a, a ∈ s'.anonymousObjects p ↔
      a ∈ s.anonymousObjects p ∧ ¬(a = address ∧ p ∈ parents) := by
  induction parents generalizing s with
  | nil => simp [nodup]
  | cons parent rest ih =>
      have removed : ∀ p, ((dbprivRemoveAnon s parent address).anonymousObjects p).Nodup := by
        intro p
        simp only [dbprivRemoveAnon]
        split
        · exact (nodup p).erase address
        · exact nodup p
      obtain ⟨kept, members⟩ := ih removed
      refine ⟨kept, fun p a => ?_⟩
      rw [List.foldl_cons, members]
      simp only [dbprivRemoveAnon, List.mem_cons]
      by_cases first : p = parent
      · simp only [first, if_true, (nodup parent).mem_erase_iff]
        tauto
      · simp [first]

theorem mem_addAnons {s : Db V} (nodup : ∀ p, (s.anonymousObjects p).Nodup)
    (parents : List Int) (address : Nat) :
    let s' := parents.foldl (fun s parent => dbprivAddAnon s parent address) s
    (∀ p, (s'.anonymousObjects p).Nodup) ∧ ∀ p a, a ∈ s'.anonymousObjects p ↔
      a ∈ s.anonymousObjects p ∨ (a = address ∧ p ∈ parents) := by
  induction parents generalizing s with
  | nil => simp [nodup]
  | cons parent rest ih =>
      have added : ∀ p, ((dbprivAddAnon s parent address).anonymousObjects p).Nodup := by
        intro p
        simp only [dbprivAddAnon]
        split
        · exact addNew_nodup (nodup p)
        · exact nodup p
      obtain ⟨kept, members⟩ := ih added
      refine ⟨kept, fun p a => ?_⟩
      rw [List.foldl_cons, members]
      simp only [dbprivAddAnon, List.mem_cons]
      by_cases first : p = parent
      · simp only [first, if_true, mem_addNew]
        tauto
      · simp [first]

def Db.unindexed (s : Db V) : Db V := { s with anonymousObjects := fun _ => [] }

theorem Db.unindexed_fields {s s' : Db V} (same : s'.unindexed = s.unindexed) :
    s'.object = s.object ∧ s'.numObjects = s.numObjects ∧ s'.nextAnon = s.nextAnon ∧
      s'.allUsers = s.allUsers := by
  simp only [Db.unindexed, Db.mk.injEq, true_and] at same
  exact same

theorem removeAnons_unindexed (s : Db V) (parents : List Int) (address : Nat) :
    (parents.foldl (fun s parent => dbprivRemoveAnon s parent address) s).unindexed =
      s.unindexed := by
  induction parents generalizing s with
  | nil => rfl
  | cons parent rest ih => exact (ih _).trans rfl

theorem relinkAnon_unindexed (s : Db V) (address : Nat) (old new : ObjOrList) :
    (relinkAnon s address old new).unindexed = s.unindexed := by
  have added (parents : List Int) (s : Db V) :
      (parents.foldl (fun s parent => dbprivAddAnon s parent address) s).unindexed =
        s.unindexed := by
    induction parents generalizing s with
    | nil => rfl
    | cons parent rest ih => exact (ih _).trans rfl
  exact (added _ _).trans (removeAnons_unindexed _ _ _)

end Index

/-- `s'` is `s` with the parents of `v` replaced by `new`, and with everything that mirrors
them adjusted. -/
structure Reparented (s s' : Db V) (v : ObjVar) (new : ObjOrList) : Prop where
  object : ∀ w o, s.object w = some o → ∃ children,
    s'.object w = some { o with
      parents := if w = v then new else o.parents
      children := children } ∧
    children.Nodup ∧ ∀ c, c ∈ children ↔
      c ∈ o.children ∧ v ≠ .obj c ∨ v = .obj c ∧ ∃ p ∈ new.named, w = .obj p
  absent : ∀ w, s.object w = none → s'.object w = none
  numObjects : s'.numObjects = s.numObjects
  nextAnon : s'.nextAnon = s.nextAnon
  allUsers : s'.allUsers = s.allUsers
  indexNodup : ∀ p, (s'.anonymousObjects p).Nodup
  index : ∀ p a, a ∈ s'.anonymousObjects p ↔
    a ∈ s.anonymousObjects p ∧ v ≠ .anon a ∨ v = .anon a ∧ p ∈ new.named

theorem relinkChildren_ok {s s' : Db V} {oid : Int} {old new : ObjOrList}
    (ran : relinkChildren s oid old new = .ok s') :
    (∀ p ∈ new.named, s.valid p = true) ∧
      s' = (s.touch (old.named.map .obj) (Object.withChildren (setremove · oid))).touch
        (new.named.map .obj) (Object.withChildren (setadd · oid)) := by
  obtain ⟨s1, first, second⟩ := Failing.bind_ok ran
  obtain ⟨-, rfl⟩ := foldlM_modify_ok first
  obtain ⟨present, rfl⟩ := foldlM_modify_ok second
  refine ⟨fun p member => ?_, rfl⟩
  simpa [Db.touch, Db.valid] using present p member

def relinkedChildren (oid : Int) (old new : ObjOrList) (w : ObjVar) (children : List Int) :
    List Int :=
  (setadd · oid)^[(new.named.map ObjVar.obj).count w]
    ((setremove · oid)^[(old.named.map ObjVar.obj).count w] children)

theorem relinked_object (s : Db V) (oid : Int) (old new : ObjOrList) (w : ObjVar) :
    ((s.touch (old.named.map .obj) (Object.withChildren (setremove · oid))).touch
      (new.named.map .obj) (Object.withChildren (setadd · oid))).object w =
        (s.object w).map (Object.withChildren (relinkedChildren oid old new w)) := by
  simp only [Db.touch, withChildren_iterate, Option.map_map]
  rfl

theorem mem_relinkedChildren {oid : Int} {old : ObjOrList} (new : ObjOrList) {w : ObjVar}
    {children : List Int} (nodup : children.Nodup)
    (mirrored : oid ∈ children → ∃ p ∈ old.named, w = .obj p) :
    (relinkedChildren oid old new w children).Nodup ∧
      ∀ c, c ∈ relinkedChildren oid old new w children ↔
        c ∈ children ∧ c ≠ oid ∨ c = oid ∧ ∃ p ∈ new.named, w = .obj p := by
  have counted (parents : ObjOrList) : 0 < (parents.named.map ObjVar.obj).count w ↔
      ∃ p ∈ parents.named, w = .obj p := by
    rw [List.count_pos_iff, List.mem_map]
    simp only [eq_comm]
  obtain ⟨removedNodup, removed⟩ :=
    setremove_iterate nodup oid ((old.named.map ObjVar.obj).count w)
  obtain ⟨addedNodup, added⟩ :=
    setadd_iterate removedNodup oid ((new.named.map ObjVar.obj).count w)
  refine ⟨addedNodup, fun c => ?_⟩
  rw [relinkedChildren, added, removed, counted, counted]
  by_cases same : c = oid
  · subst same
    simp only [true_and, ne_eq, not_true, and_false, false_or]
    constructor
    · rintro (⟨member, absent⟩ | present)
      · exact absurd (mirrored member) absent
      · exact present
    · exact Or.inr
  · simp [same]

theorem reparented {s s1 s2 : Db V} {v : ObjVar} {o : Object V} {new : ObjOrList}
    (formed : WellFormed s) (found : s.object v = some o)
    (relinked : relink s v o.parents new = .ok s1)
    (changed : s1.modify v (fun o => { o with parents := new }) = .ok s2) :
    Reparented s s2 v new := by
  obtain ⟨o1, found1, rfl⟩ := Db.modify_ok changed
  have node (w : ObjVar) (ow : Object V) (foundW : s.object w = some ow) :
      s.node w = some ow.node := node_some.mpr ⟨ow, foundW, rfl⟩
  cases v with
  | obj oid =>
      obtain ⟨-, rfl⟩ := relinkChildren_ok relinked
      rw [relinked_object] at found1
      refine ⟨?_, ?_, rfl, rfl, rfl, formed.indexNodup, ?_⟩
      · intro w ow foundW
        have mirrored : oid ∈ ow.children → ∃ p ∈ o.parents.named, w = .obj p := by
          intro member
          cases w with
          | obj p => exact ⟨p, (formed.mirrored p oid _ _ (node _ _ foundW)
              (node _ _ found)).mp member, rfl⟩
          | anon a =>
              have none := formed.childless a _ (node _ _ foundW)
              rw [show ow.children = [] from none] at member
              cases member
        obtain ⟨nodup, members⟩ := mem_relinkedChildren new
          (formed.childrenNodup w _ (node _ _ foundW)) mirrored
        refine ⟨_, ?_, nodup, fun c => ?_⟩
        · rw [Db.setObject_object]
          split
          · rename_i same
            subst same
            rw [found] at foundW
            cases foundW
            rw [found, Option.map_some, Option.some.injEq] at found1
            subst found1
            rfl
          · rw [relinked_object, foundW]
            rfl
        · rw [members]
          simp only [Object.node, ne_eq, ObjVar.obj.injEq, @eq_comm Int oid c]
      · intro w missing
        rw [Db.setObject_object, relinked_object, missing]
        split
        · rename_i same
          subst same
          rw [found] at missing
          cases missing
        · rfl
      · intro p a
        simp [Db.touch]
  | anon address =>
      cases relinked
      obtain ⟨removedNodup, removed⟩ := mem_removeAnons formed.indexNodup o.parents.named address
      obtain ⟨addedNodup, added⟩ := mem_addAnons removedNodup new.named address
      obtain ⟨sameObjects, sameNumObjects, sameNextAnon, sameUsers⟩ :=
        Db.unindexed_fields (relinkAnon_unindexed s address o.parents new)
      rw [sameObjects] at found1
      refine ⟨?_, ?_, sameNumObjects, sameNextAnon, sameUsers, addedNodup, fun p a => ?_⟩
      · intro w ow foundW
        refine ⟨ow.children, ?_, formed.childrenNodup w _ (node _ _ foundW), by simp⟩
        rw [Db.setObject_object, sameObjects]
        split
        · rename_i same
          subst same
          rw [foundW] at found1
          cases found1
          rfl
        · exact foundW
      · intro w missing
        rw [Db.setObject_object, sameObjects]
        split
        · rename_i same
          subst same
          rw [missing] at found1
          cases found1
        · exact missing
      · have final := added p a
        rw [removed] at final
        refine final.trans ?_
        by_cases same : a = address
        · subst same
          simp only [true_and, ne_eq, not_true, and_false, false_or]
          constructor
          · rintro (⟨member, absent⟩ | present)
            · obtain ⟨n, foundN, inside⟩ := (formed.indexed p a).mp member
              rw [node _ _ found] at foundN
              cases foundN
              exact absurd inside absent
            · exact present
          · exact Or.inr
        · simp [same, Ne.symm same]

namespace Reparented

variable {s s' : Db V} {v : ObjVar} {new : ObjOrList}

theorem node_none (change : Reparented s s' v new) {w : ObjVar} :
    s'.node w = none ↔ s.node w = none := by
  simp only [Db.node, Option.map_eq_none_iff]
  constructor
  · intro missing
    cases found : s.object w with
    | none => rfl
    | some o =>
        obtain ⟨children, found', -⟩ := change.object w o found
        rw [missing] at found'
        cases found'
  · exact change.absent w

theorem node (change : Reparented s s' v new) {w : ObjVar} {n' : Node}
    (found' : s'.node w = some n') : ∃ n, s.node w = some n ∧ n'.id = n.id ∧
      n'.parents = (if w = v then new else n.parents) ∧ n'.children.Nodup ∧
      ∀ c, c ∈ n'.children ↔
        c ∈ n.children ∧ v ≠ .obj c ∨ v = .obj c ∧ ∃ p ∈ new.named, w = .obj p := by
  cases known : s.object w with
  | none =>
      rw [change.node_none.mpr (Option.map_eq_none_iff.mpr known)] at found'
      cases found'
  | some o =>
      obtain ⟨children, object, nodup, members⟩ := change.object w o known
      obtain ⟨o', found, rfl⟩ := node_some.mp found'
      rw [object] at found
      cases found
      exact ⟨o.node, node_some.mpr ⟨o, known, rfl⟩, rfl, rfl, nodup, members⟩

theorem valid (change : Reparented s s' v new) : s'.valid = s.valid := by
  funext oid
  have none := change.node_none (w := .obj oid)
  simp only [Db.node, Option.map_eq_none_iff] at none
  unfold Db.valid
  cases found : s.object (.obj oid) <;> cases found' : s'.object (.obj oid) <;> simp_all

theorem node_iff (change : Reparented s s' v new) {w : ObjVar} {p : Int} :
    (∃ n', s'.node w = some n' ∧ p ∈ n'.parents.named) ↔
      ∃ n, s.node w = some n ∧ p ∈ (if w = v then new else n.parents).named := by
  constructor
  · rintro ⟨n', found', member⟩
    obtain ⟨n, found, -, parents, -⟩ := change.node found'
    exact ⟨n, found, parents ▸ member⟩
  · rintro ⟨n, found, member⟩
    have present : s'.node w ≠ none := by
      rw [ne_eq, change.node_none, found]
      exact nofun
    obtain ⟨n', found'⟩ := Option.ne_none_iff_exists'.mp present
    obtain ⟨m, foundM, -, parents, -⟩ := change.node found'
    rw [found] at foundM
    cases foundM
    exact ⟨n', found', parents ▸ member⟩

theorem parentsOf (change : Reparented s s' v new) (w : ObjVar) (elsewhere : w ≠ v) :
    parentsOf s' w = parentsOf s w := by
  rw [parentsOf_eq, parentsOf_eq]
  cases found' : s'.node w with
  | none => rw [change.node_none.mp found']
  | some n' =>
      obtain ⟨n, found, -, parents, -⟩ := change.node found'
      rw [found]
      simp only [parents, elsewhere, if_false, change.valid]

theorem parentsOf_self (change : Reparented s s' v new) {o : Object V}
    (found : s.object v = some o) :
    ToastStunt.parentsOf s' v = ((enlistVar new).filter s.valid).map .obj := by
  obtain ⟨children, object, -⟩ := change.object v o found
  unfold ToastStunt.parentsOf
  rw [object, change.valid]
  simp

theorem acyclic (change : Reparented s s' v new) (formed : WellFormed s) {o : Object V}
    (found : s.object v = some o)
    (apart : ∀ p ∈ new.named, ¬Ancestor s (.obj p) v) :
    ∃ rank, Ranked (ToastStunt.parentsOf s') rank := by
  classical
  obtain ⟨rank, ranked, bounded⟩ := formed.bounded_rank
  refine ⟨fun w => if Ancestor s w v then rank w + traversalDepth s else rank w, ?_⟩
  intro w u edge
  have bound := bounded u
  beta_reduce
  by_cases self : w = v
  · subst self
    rw [change.parentsOf_self found, List.mem_map] at edge
    obtain ⟨p, member, rfl⟩ := edge
    rw [List.mem_filter] at member
    have named := (mem_enlistVar (formed.not_nothing member.2)).mp member.1
    rw [if_neg (apart p named), if_pos (Ancestor.self s w)]
    omega
  · rw [change.parentsOf w self] at edge
    have below := ranked w u edge
    by_cases up : Ancestor s u v
    · rw [if_pos up, if_pos (Ancestor.above edge up)]
      omega
    · rw [if_neg up]
      split <;> omega

theorem wellFormed (change : Reparented s s' v new) (formed : WellFormed s) {o : Object V}
    (found : s.object v = some o) (newValid : ∀ p ∈ new.named, s.valid p = true)
    (apart : ∀ p ∈ new.named, ¬Ancestor s (.obj p) v) : WellFormed s' := by
  constructor
  · rw [change.numObjects]
    exact formed.table
  · intro oid n' found'
    obtain ⟨n, foundN, id, -⟩ := change.node found'
    rw [change.numObjects, id]
    exact formed.numbered oid n foundN
  · intro a
    rw [change.node_none, change.nextAnon]
    exact formed.allocated a
  · intro a n' found'
    obtain ⟨n, foundN, -, -, -, members⟩ := change.node found'
    rw [List.eq_nil_iff_forall_not_mem]
    intro c member
    rcases (members c).mp member with ⟨old, -⟩ | ⟨-, p, -, isObj⟩
    · rw [formed.childless a n foundN] at old
      cases old
    · cases isObj
  · intro w n' found' p member
    obtain ⟨n, foundN, -, parents, -⟩ := change.node found'
    rw [change.valid]
    rw [parents] at member
    split at member
    · exact newValid p member
    · exact formed.parentsValid w n foundN p member
  · intro w n' found' c member
    obtain ⟨n, foundN, -, -, -, members⟩ := change.node found'
    rw [change.valid]
    rcases (members c).mp member with ⟨old, -⟩ | ⟨rfl, -⟩
    · exact formed.childrenValid w n foundN c old
    · exact Db.valid_iff.mpr ⟨o, found⟩
  · intro p c np' nc' foundP' foundC'
    obtain ⟨np, foundP, -, -, -, members⟩ := change.node foundP'
    obtain ⟨nc, foundC, -, parents, -⟩ := change.node foundC'
    rw [members, parents]
    by_cases self : v = .obj c
    · simp [self]
    · simpa [self, Ne.symm self] using formed.mirrored p c np nc foundP foundC
  · intro w n' found'
    obtain ⟨_, -, -, -, nodup, -⟩ := change.node found'
    exact nodup
  · intro p a
    rw [change.index, change.node_iff, formed.indexed]
    obtain ⟨nv, foundV⟩ : ∃ nv, s.node v = some nv := ⟨o.node, node_some.mpr ⟨o, found, rfl⟩⟩
    by_cases self : v = .anon a
    · subst self
      simp [foundV]
    · simp [self, Ne.symm self]
  · exact change.indexNodup
  · exact change.acyclic formed found apart

end Reparented

end ToastStunt
