import ToastStunt.Library.Failing
import ToastStunt.Db.Builtins

/-!
Well-formed inheritance graphs: parents and children mirror each other, the index
of anonymous objects is exact, and nothing is its own ancestor. Only the numbers,
parents and children of the objects matter, so most changes of an object keep it.
-/

namespace ToastStunt

open FirstVisit

variable {V : Type}

structure Node where
  id : Int
  parents : ObjOrList
  children : List Int

def Object.node (o : Object V) : Node := ⟨o.id, o.parents, o.children⟩

def Db.node (s : Db V) (v : ObjVar) : Option Node := (s.object v).map Object.node

structure SameUpTo {α : Type} (look : Object V → α) (s s' : Db V) : Prop where
  view : ∀ v, (s'.object v).map look = (s.object v).map look
  numObjects : s'.numObjects = s.numObjects
  nextAnon : s'.nextAnon = s.nextAnon
  index : s'.anonymousObjects = s.anonymousObjects

abbrev SameGraph (s s' : Db V) : Prop := SameUpTo Object.node s s'

structure WellFormed (s : Db V) : Prop where
  table : 0 ≤ s.numObjects
  numbered : ∀ oid n, s.node (.obj oid) = some n → 0 ≤ oid ∧ oid < s.numObjects ∧ n.id = oid
  allocated : ∀ a, s.nextAnon ≤ a → s.node (.anon a) = none
  childless : ∀ a n, s.node (.anon a) = some n → n.children = []
  parentsValid : ∀ v n, s.node v = some n → ∀ p ∈ n.parents.named, s.valid p = true
  childrenValid : ∀ v n, s.node v = some n → ∀ c ∈ n.children, s.valid c = true
  mirrored : ∀ p c np nc, s.node (.obj p) = some np → s.node (.obj c) = some nc →
    (c ∈ np.children ↔ p ∈ nc.parents.named)
  childrenNodup : ∀ v n, s.node v = some n → n.children.Nodup
  indexed : ∀ p a, a ∈ s.anonymousObjects p ↔
    ∃ n, s.node (.anon a) = some n ∧ p ∈ n.parents.named
  indexNodup : ∀ p, (s.anonymousObjects p).Nodup
  acyclic : ∃ rank, Ranked (parentsOf s) rank

theorem node_some {s : Db V} {v : ObjVar} {n : Node} :
    s.node v = some n ↔ ∃ o, s.object v = some o ∧ o.node = n := by
  simp [Db.node]

theorem valid_iff_node {s : Db V} {oid : Int} :
    s.valid oid = true ↔ ∃ n, s.node (.obj oid) = some n := by
  rw [Db.valid_iff]
  constructor
  · rintro ⟨o, found⟩
    exact ⟨o.node, node_some.mpr ⟨o, found, rfl⟩⟩
  · rintro ⟨n, found⟩
    obtain ⟨o, found, -⟩ := node_some.mp found
    exact ⟨o, found⟩

theorem mem_enlistVar {parents : ObjOrList} {oid : Int} (real : oid ≠ NOTHING) :
    oid ∈ enlistVar parents ↔ oid ∈ parents.named := by
  cases parents with
  | obj p =>
      simp only [enlistVar, ObjOrList.named, List.mem_singleton]
      split
      · rename_i none
        simp only [List.not_mem_nil, iff_false]
        rintro rfl
        exact real none
      · simp
  | list oids => simp [enlistVar, ObjOrList.named]

theorem mem_parentsOf_node {s : Db V} {v w : ObjVar} :
    w ∈ parentsOf s v ↔ ∃ n oid, s.node v = some n ∧ oid ∈ enlistVar n.parents ∧
      s.valid oid = true ∧ w = .obj oid := by
  rw [mem_parentsOf]
  constructor
  · rintro ⟨o, oid, found, rest⟩
    exact ⟨o.node, oid, node_some.mpr ⟨o, found, rfl⟩, rest⟩
  · rintro ⟨n, oid, found, rest⟩
    obtain ⟨o, object, rfl⟩ := node_some.mp found
    exact ⟨o, oid, object, rest⟩

theorem parentsOf_eq (s : Db V) (v : ObjVar) :
    parentsOf s v = match s.node v with
      | none => []
      | some n => ((enlistVar n.parents).filter s.valid).map .obj := by
  unfold parentsOf Db.node
  cases s.object v <;> rfl

theorem childrenOf_eq (s : Db V) (v : ObjVar) :
    childrenOf s v = match s.node v with
      | none => []
      | some n => (n.children.filter s.valid).map .obj := by
  unfold childrenOf Db.node
  cases s.object v <;> rfl

namespace SameUpTo

variable {α β : Type} {look : Object V → α} {s s' s'' : Db V}

theorem refl (s : Db V) : SameUpTo look s s := ⟨fun _ => rfl, rfl, rfl, rfl⟩

theorem trans (first : SameUpTo look s s') (second : SameUpTo look s' s'') :
    SameUpTo look s s'' where
  view v := (second.view v).trans (first.view v)
  numObjects := second.numObjects.trans first.numObjects
  nextAnon := second.nextAnon.trans first.nextAnon
  index := second.index.trans first.index

theorem coarser {glance : Object V → β} (same : SameUpTo look s s')
    (seen : ∀ o o', look o' = look o → glance o' = glance o) : SameUpTo glance s s' where
  view v := by
    have view := same.view v
    cases found : s.object v with
    | none =>
        rw [found, Option.map_none, Option.map_eq_none_iff] at view
        rw [view]
    | some o =>
        rw [found, Option.map_some, Option.map_eq_some_iff] at view
        obtain ⟨o', found', sameLook⟩ := view
        rw [found', Option.map_some, Option.map_some, seen o o' sameLook]
  numObjects := same.numObjects
  nextAnon := same.nextAnon
  index := same.index

theorem of_modify {v : ObjVar} {f : Object V → Object V}
    (unseen : ∀ o, s.object v = some o → look (f o) = look o) (changed : s.modify v f = .ok s') :
    SameUpTo look s s' := by
  obtain ⟨o, found, rfl⟩ := Db.modify_ok changed
  refine ⟨fun w => ?_, rfl, rfl, rfl⟩
  rw [Db.setObject_object]
  split
  · rename_i same
    rw [same, found, Option.map_some, Option.map_some, unseen o found]
  · rfl

end SameUpTo

namespace SameGraph

variable {s s' : Db V}

theorem node (same : SameGraph s s') (v : ObjVar) : s'.node v = s.node v := same.view v

theorem valid (same : SameGraph s s') : s'.valid = s.valid := by
  funext oid
  have node := same.node (.obj oid)
  unfold Db.node at node
  unfold Db.valid
  cases found : s.object (.obj oid) <;> cases found' : s'.object (.obj oid) <;> simp_all

theorem parentsOf (same : SameGraph s s') : parentsOf s' = parentsOf s := by
  funext v
  rw [parentsOf_eq, parentsOf_eq, same.node, same.valid]

theorem childrenOf (same : SameGraph s s') : childrenOf s' = childrenOf s := by
  funext v
  rw [childrenOf_eq, childrenOf_eq, same.node, same.valid]

theorem traversalDepth (same : SameGraph s s') : traversalDepth s' = traversalDepth s := by
  unfold ToastStunt.traversalDepth
  rw [same.numObjects]

theorem dbAncestors (same : SameGraph s s') : dbAncestors s' = dbAncestors s := by
  funext v full
  simp only [ToastStunt.dbAncestors, same.parentsOf, same.traversalDepth]

theorem dbDescendants (same : SameGraph s s') : dbDescendants s' = dbDescendants s := by
  funext v full
  simp only [ToastStunt.dbDescendants, same.childrenOf, same.traversalDepth]

end SameGraph

/-- The same links, wherever the numbers of anonymous objects and the order of the index may
differ. -/
structure SameLinks (s s' : Db V) : Prop where
  links : ∀ v, (s'.node v).map (fun n => (n.parents, n.children)) =
    (s.node v).map fun n => (n.parents, n.children)
  ids : ∀ oid n, s'.node (.obj oid) = some n → n.id = oid
  numObjects : s'.numObjects = s.numObjects
  nextAnon : s'.nextAnon = s.nextAnon
  index : ∀ p, (s'.anonymousObjects p).Perm (s.anonymousObjects p)

namespace SameLinks

variable {s s' : Db V}

theorem back (same : SameLinks s s') {v : ObjVar} {n' : Node} (found : s'.node v = some n') :
    ∃ n, s.node v = some n ∧ n'.parents = n.parents ∧ n'.children = n.children := by
  have links := same.links v
  rw [found, Option.map_some, eq_comm, Option.map_eq_some_iff] at links
  obtain ⟨n, foundN, equal⟩ := links
  simp only [Prod.mk.injEq] at equal
  exact ⟨n, foundN, equal.1.symm, equal.2.symm⟩

theorem forth (same : SameLinks s s') {v : ObjVar} {n : Node} (found : s.node v = some n) :
    ∃ n', s'.node v = some n' ∧ n'.parents = n.parents ∧ n'.children = n.children := by
  have links := same.links v
  rw [found, Option.map_some, Option.map_eq_some_iff] at links
  obtain ⟨n', foundN, equal⟩ := links
  simp only [Prod.mk.injEq] at equal
  exact ⟨n', foundN, equal⟩

theorem valid (same : SameLinks s s') : s'.valid = s.valid := by
  funext oid
  rw [Bool.eq_iff_iff, valid_iff_node, valid_iff_node]
  constructor
  · rintro ⟨n, found⟩
    obtain ⟨m, found, -⟩ := same.back found
    exact ⟨m, found⟩
  · rintro ⟨n, found⟩
    obtain ⟨m, found, -⟩ := same.forth found
    exact ⟨m, found⟩

theorem parentsOf (same : SameLinks s s') : parentsOf s' = parentsOf s := by
  funext v
  rw [parentsOf_eq, parentsOf_eq, same.valid]
  cases found : s'.node v with
  | none =>
      have links := same.links v
      rw [found, Option.map_none, eq_comm, Option.map_eq_none_iff] at links
      rw [links]
  | some n' =>
      obtain ⟨n, foundN, parents, -⟩ := same.back found
      simp only [foundN, parents]

theorem wellFormed (same : SameLinks s s') (formed : WellFormed s) : WellFormed s' := by
  constructor
  · rw [same.numObjects]
    exact formed.table
  · intro oid n' found
    obtain ⟨n, foundN, -⟩ := same.back found
    rw [same.numObjects]
    have old := formed.numbered oid n foundN
    exact ⟨old.1, old.2.1, same.ids oid n' found⟩
  · intro a fresh
    rw [same.nextAnon] at fresh
    have links := same.links (.anon a)
    rw [formed.allocated a fresh, Option.map_none, Option.map_eq_none_iff] at links
    exact links
  · intro a n' found
    obtain ⟨n, foundN, -, children⟩ := same.back found
    rw [children]
    exact formed.childless a n foundN
  · intro v n' found
    obtain ⟨n, foundN, parents, -⟩ := same.back found
    rw [parents, same.valid]
    exact formed.parentsValid v n foundN
  · intro v n' found
    obtain ⟨n, foundN, -, children⟩ := same.back found
    rw [children, same.valid]
    exact formed.childrenValid v n foundN
  · intro p c np' nc' foundP' foundC'
    obtain ⟨np, foundP, -, children⟩ := same.back foundP'
    obtain ⟨nc, foundC, parents, -⟩ := same.back foundC'
    rw [children, parents]
    exact formed.mirrored p c np nc foundP foundC
  · intro v n' found
    obtain ⟨n, foundN, -, children⟩ := same.back found
    rw [children]
    exact formed.childrenNodup v n foundN
  · intro p a
    rw [(same.index p).mem_iff, formed.indexed]
    constructor
    · rintro ⟨n, found, member⟩
      obtain ⟨n', found', parents, -⟩ := same.forth found
      exact ⟨n', found', parents ▸ member⟩
    · rintro ⟨n', found', member⟩
      obtain ⟨n, found, parents, -⟩ := same.back found'
      exact ⟨n, found, parents ▸ member⟩
  · intro p
    exact (same.index p).nodup_iff.mpr (formed.indexNodup p)
  · rw [same.parentsOf]
    exact formed.acyclic

end SameLinks

theorem SameGraph.wellFormed {s s' : Db V} (same : SameGraph s s') (formed : WellFormed s) :
    WellFormed s' := by
  refine SameLinks.wellFormed ⟨fun v => ?_, fun oid n found => ?_, same.numObjects,
    same.nextAnon, fun p => ?_⟩ formed
  · rw [same.node]
  · exact (formed.numbered oid n (same.node (.obj oid) ▸ found)).2.2
  · rw [same.index]

namespace WellFormed

variable {s : Db V}

theorem valid_bounds (formed : WellFormed s) {oid : Int} (valid : s.valid oid = true) :
    0 ≤ oid ∧ oid < s.numObjects := by
  obtain ⟨n, found⟩ := valid_iff_node.mp valid
  have := formed.numbered oid n found
  exact ⟨this.1, this.2.1⟩

theorem not_nothing (formed : WellFormed s) {oid : Int} (valid : s.valid oid = true) :
    oid ≠ NOTHING := by
  have := (formed.valid_bounds valid).1
  unfold NOTHING
  omega

theorem mem_parents (formed : WellFormed s) {v : ObjVar} {oid : Int} :
    .obj oid ∈ parentsOf s v ↔ ∃ n, s.node v = some n ∧ oid ∈ n.parents.named := by
  rw [mem_parentsOf_node]
  constructor
  · rintro ⟨n, p, found, member, valid, same⟩
    cases same
    exact ⟨n, found, (mem_enlistVar (formed.not_nothing valid)).mp member⟩
  · rintro ⟨n, found, member⟩
    have valid := formed.parentsValid v n found oid member
    exact ⟨n, oid, found, (mem_enlistVar (formed.not_nothing valid)).mpr member, valid, rfl⟩

theorem mem_children (formed : WellFormed s) {p c : Int} :
    .obj c ∈ childrenOf s (.obj p) ↔ .obj p ∈ parentsOf s (.obj c) := by
  rw [formed.mem_parents, mem_childrenOf]
  constructor
  · rintro ⟨o, oid, found, member, valid, same⟩
    cases same
    have np : s.node (.obj p) = some o.node := node_some.mpr ⟨o, found, rfl⟩
    obtain ⟨nc, foundChild⟩ := valid_iff_node.mp valid
    exact ⟨nc, foundChild, (formed.mirrored p c _ nc np foundChild).mp member⟩
  · rintro ⟨nc, foundChild, member⟩
    have valid := formed.parentsValid _ nc foundChild p member
    obtain ⟨np, found⟩ := valid_iff_node.mp valid
    obtain ⟨o, object, rfl⟩ := node_some.mp found
    exact ⟨o, c, object, (formed.mirrored p c _ nc found foundChild).mpr member,
      valid_iff_node.mpr ⟨nc, foundChild⟩, rfl⟩

theorem parent_is_obj {v w : ObjVar} (member : w ∈ parentsOf s v) :
    ∃ oid, w = .obj oid ∧ s.valid oid = true := by
  obtain ⟨_, oid, _, _, valid, rfl⟩ := mem_parentsOf_node.mp member
  exact ⟨oid, rfl, valid⟩

/-- Ranks can be taken as the number of valid objects of smaller rank, which the depth of a
traversal bounds. -/
theorem bounded_rank (formed : WellFormed s) :
    ∃ rank, Ranked (parentsOf s) rank ∧ ∀ v, rank v < traversalDepth s := by
  obtain ⟨rank, ranked⟩ := formed.acyclic
  let below (v : ObjVar) : Finset Nat := (Finset.range s.numObjects.toNat).filter fun i =>
    s.valid i = true ∧ rank (.obj i) < rank v
  refine ⟨fun v => (below v).card, ?_, ?_⟩
  · intro v w member
    have smaller := ranked v w member
    obtain ⟨oid, rfl, valid⟩ := parent_is_obj member
    have bounds := formed.valid_bounds valid
    apply Finset.card_lt_card
    refine Finset.ssubset_iff_of_subset ?_ |>.mpr ⟨oid.toNat, ?_, ?_⟩
    · intro i inside
      simp only [below, Finset.mem_filter] at inside ⊢
      exact ⟨inside.1, inside.2.1, by omega⟩
    · have same : ((oid.toNat : Nat) : Int) = oid := by omega
      simp only [below, Finset.mem_filter, Finset.mem_range, same]
      exact ⟨by omega, valid, smaller⟩
    · have same : ((oid.toNat : Nat) : Int) = oid := by omega
      simp [below, same]
  · intro v
    have few : (below v).card ≤ (Finset.range s.numObjects.toNat).card :=
      Finset.card_le_card (Finset.filter_subset _ _)
    rw [Finset.card_range] at few
    show (below v).card < s.numObjects.toNat + 1
    omega

theorem mem_ancestors (formed : WellFormed s) {v w : ObjVar} :
    w ∈ dbAncestors s v true ↔ Ancestor s v w := by
  obtain ⟨rank, ranked, bounded⟩ := formed.bounded_rank
  have same := visit_next ranked (bounded v)
  simp only [dbAncestors, if_true, List.singleton_append]
  rw [same, mem_preorder ranked (bounded v)]
  rfl

theorem mem_proper_ancestors (formed : WellFormed s) {v w : ObjVar} :
    w ∈ dbAncestors s v false ↔ ∃ u ∈ parentsOf s v, Ancestor s u w := by
  obtain ⟨rank, ranked, bounded⟩ := formed.bounded_rank
  simp only [dbAncestors, Bool.false_eq_true, if_false, List.nil_append]
  rw [mem_visit ranked fun u _ => bounded u]
  rfl

theorem ranked_children (formed : WellFormed s) :
    ∃ rank, Ranked (childrenOf s) rank ∧ ∀ v, rank v < traversalDepth s := by
  obtain ⟨rank, ranked, bounded⟩ := formed.bounded_rank
  refine ⟨fun v => traversalDepth s - 1 - rank v, ?_, fun v => ?_⟩
  · intro v w member
    obtain ⟨o, oid, found, inside, valid, rfl⟩ := mem_childrenOf.mp member
    cases v with
    | obj p =>
        have smaller := ranked _ _ (formed.mem_children.mp member)
        have bound := bounded (.obj oid)
        show traversalDepth s - 1 - rank (.obj oid) < traversalDepth s - 1 - rank (.obj p)
        have smallerBound := bounded (.obj p)
        omega
    | anon a =>
        have none := formed.childless a o.node (node_some.mpr ⟨o, found, rfl⟩)
        simp only [Object.node] at none
        simp [none] at inside
  · have : 0 < traversalDepth s := Nat.succ_pos _
    show traversalDepth s - 1 - rank v < traversalDepth s
    omega

theorem reach_children (formed : WellFormed s) {p : Int} {w : ObjVar} :
    Reach (childrenOf s) (.obj p) w ↔ (∃ c, w = .obj c) ∧ Ancestor s w (.obj p) := by
  constructor
  · intro path
    induction path with
    | refl => exact ⟨⟨p, rfl⟩, Relation.ReflTransGen.refl⟩
    | tail _ edge ih =>
        obtain ⟨⟨middle, rfl⟩, up⟩ := ih
        obtain ⟨_, c, _, _, _, rfl⟩ := mem_childrenOf.mp edge
        exact ⟨⟨c, rfl⟩, Relation.ReflTransGen.head (formed.mem_children.mp edge) up⟩
  · rintro ⟨⟨c, rfl⟩, up⟩
    have general : ∀ v w : ObjVar, Ancestor s v w → ∀ c p, v = .obj c → w = .obj p →
        Reach (childrenOf s) (.obj p) (.obj c) := by
      intro v w up
      induction up using Relation.ReflTransGen.head_induction_on with
      | refl =>
          intro c p first second
          rw [first] at second
          rw [ObjVar.obj.inj second]
          exact Relation.ReflTransGen.refl
      | head edge _ ih =>
          intro c p first second
          obtain ⟨middle, rfl, _⟩ := parent_is_obj edge
          rw [first] at edge
          exact Relation.ReflTransGen.tail (ih middle p rfl second)
            (formed.mem_children.mpr edge)
    exact general _ _ up c p rfl rfl

theorem mem_descendants (formed : WellFormed s) {p : Int} {w : ObjVar} :
    w ∈ dbDescendants s (.obj p) true ↔ (∃ c, w = .obj c) ∧ Ancestor s w (.obj p) := by
  obtain ⟨rank, ranked, bounded⟩ := formed.ranked_children
  have same := visit_next ranked (bounded (.obj p))
  simp only [dbDescendants, if_true, List.singleton_append]
  rw [same, mem_preorder ranked (bounded _), formed.reach_children]

theorem no_cycle (formed : WellFormed s) {v w : ObjVar} (edge : w ∈ parentsOf s v) :
    ¬Ancestor s w v := by
  intro path
  obtain ⟨rank, ranked⟩ := formed.acyclic
  have below := ranked v w edge
  have above := Reach.rank_le ranked path
  omega

end WellFormed

def Db.every (s : Db V) (check : Object V → Bool) : Bool :=
  (List.range s.numObjects.toNat).all (fun i : Nat => (s.object (.obj i)).all check) &&
    (List.range s.nextAnon).all fun a => (s.object (.anon a)).all check

theorem WellFormed.of_every {s : Db V} (formed : WellFormed s) {check : Object V → Bool}
    (checked : s.every check = true) {v : ObjVar} {o : Object V} (found : s.object v = some o) :
    check o = true := by
  simp only [Db.every, Bool.and_eq_true, List.all_eq_true, List.mem_range] at checked
  cases v with
  | obj p =>
      have bounds := formed.valid_bounds (Db.valid_iff.mpr ⟨o, found⟩)
      have same : ((p.toNat : Nat) : Int) = p := Int.toNat_of_nonneg bounds.1
      have here := checked.1 p.toNat (by omega)
      rwa [same, found] at here
  | anon a =>
      have allocated : a < s.nextAnon := by
        by_contra fresh
        have none := formed.allocated a (by omega)
        rw [node_some.mpr ⟨o, found, rfl⟩] at none
        cases none
      have here := checked.2 a allocated
      rwa [found] at here

end ToastStunt
