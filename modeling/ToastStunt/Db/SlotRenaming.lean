import ToastStunt.Db.SlotSteps
import ToastStunt.Db.Renaming

/-!
Renumbering and the layout of slots: a renamed database has the renamed ancestors,
and the same slots but for the owners.
-/

namespace ToastStunt

open FirstVisit Blocks

variable {V : Type}

def renameAt (old new : Int) : ObjVar → Object V → Object V
  | .obj _ => renameObject old new
  | .anon _ => renameAnon old new

def Pval.renamed (old new : Int) (pval : Pval V) : Pval V :=
  { pval with owner := renameOwner old new pval.owner }

theorem renameParents_named {old new : Int} (oldReal : old ≠ NOTHING) (newReal : new ≠ NOTHING)
    (parents : ObjOrList) :
    (renameParents old new parents).named = parents.named.map (renameId old new) := by
  cases parents with
  | list oids => rfl
  | obj p =>
      simp only [renameParents, ObjOrList.named]
      by_cases none : p = NOTHING
      · subst none
        have fixed : renameId old new NOTHING = NOTHING := if_neg (Ne.symm oldReal)
        simp [fixed]
      · have real : renameId old new p ≠ NOTHING := by
          unfold renameId
          split <;> assumption
        simp [none, real]

theorem enlistVar_renameParents (old new : Int) (parents : ObjOrList) :
    enlistVar (renameParents old new parents) = (enlistVar parents).map (renameId old new) := by
  cases parents <;> rfl

section Names

variable {old new : Int}

theorem renameAt_parents (v : ObjVar) (q : Object V) :
    (renameAt old new v q).parents = renameParents old new q.parents := by
  cases v <;> rfl

theorem renameAt_children (v : ObjVar) (q : Object V) :
    (renameAt old new v q).children = q.children.map (renameId old new) := by
  cases v <;> rfl

theorem renameAt_propdefs (v : ObjVar) (q : Object V) :
    (renameAt old new v q).propdefs = q.propdefs := by
  cases v <;> rfl

theorem renameAt_propval (v : ObjVar) (q : Object V) :
    (renameAt old new v q).propval = q.propval.map (Pval.renamed old new) := by
  cases v <;> rfl

theorem renameId_inj {p q : Int} (notNew : p ≠ new) (notNew' : q ≠ new) :
    renameId old new p = renameId old new q ↔ p = q := by
  unfold renameId
  constructor
  · split <;> split <;> simp_all [eq_comm]
  · rintro rfl
    rfl

theorem renameVar_inj {v w : ObjVar} (notNew : v ≠ .obj new) (notNew' : w ≠ .obj new) :
    renameVar old new v = renameVar old new w ↔ v = w := by
  cases v <;> cases w <;> simp only [renameVar, ObjVar.obj.injEq, reduceCtorEq, ObjVar.anon.injEq]
  exact renameId_inj (fun same => notNew (same ▸ rfl)) fun same => notNew' (same ▸ rfl)

end Names

namespace Moving

variable {s : Db V} {old new : Int} {o : Object V}

theorem new_real (moving : Moving s old new o) : new ≠ NOTHING := by
  have nonneg := moving.nonneg
  unfold NOTHING
  omega

theorem found_not_new (moving : Moving s old new o) {v : ObjVar} {q : Object V}
    (found : s.object v = some q) : v ≠ .obj new := by
  rintro rfl
  rw [moving.free] at found
  cases found

theorem renamed_object (moving : Moving s old new o) {v' : ObjVar} {q' : Object V} :
    (renamed old new s).object v' = some q' ↔ ∃ v q, s.object v = some q ∧
      v' = renameVar old new v ∧
      q' = renameAt old new v q := by
  have other := moving.other
  cases v' with
  | anon a =>
      simp only [renamed, Option.map_eq_some_iff]
      constructor
      · rintro ⟨q, found, rfl⟩
        exact ⟨.anon a, q, found, rfl, rfl⟩
      · rintro ⟨v, q, found, same, rfl⟩
        cases v with
        | obj p => cases same
        | anon b =>
            cases same
            exact ⟨q, found, rfl⟩
  | obj p =>
      simp only [renamed]
      constructor
      · intro found'
        split at found'
        · cases found'
        · rename_i notOld
          obtain ⟨q, found, rfl⟩ := Option.map_eq_some_iff.mp found'
          refine ⟨_, q, found, ?_, rfl⟩
          by_cases isNew : p = new
          · simp [isNew, renameVar, renameId]
          · simp [isNew, renameVar, renameId, notOld]
      · rintro ⟨v, q, found, same, rfl⟩
        cases v with
        | anon a => cases same
        | obj r =>
            have notNew := moving.not_new found
            cases same
            by_cases isOld : r = old
            · subst isOld
              simp [renameId, renameAt, Ne.symm other, found]
            · simp [renameId, renameAt, isOld, notNew, found]

theorem renamed_at (moving : Moving s old new o) {v : ObjVar} {q : Object V}
    (found : s.object v = some q) : (renamed old new s).object (renameVar old new v) =
      some (renameAt old new v q) :=
  moving.renamed_object.mpr ⟨v, q, found, rfl, rfl⟩

theorem renamed_valid (moving : Moving s old new o) {p : Int} (notNew : p ≠ new) :
    (renamed old new s).valid (renameId old new p) = s.valid p := by
  rw [Bool.eq_iff_iff, Db.valid_iff, Db.valid_iff]
  constructor
  · rintro ⟨q', found'⟩
    obtain ⟨v, q, found, same, -⟩ := moving.renamed_object.mp found'
    cases v with
    | anon a => cases same
    | obj r =>
        have same := (renameId_inj notNew (moving.not_new found)).mp (ObjVar.obj.inj same)
        exact ⟨q, same ▸ found⟩
  · rintro ⟨q, found⟩
    exact ⟨_, moving.renamed_at found⟩

theorem enlisted_not_new (moving : Moving s old new o) {v : ObjVar} {q : Object V}
    (found : s.object v = some q) {p : Int} (member : p ∈ enlistVar q.parents) : p ≠ new := by
  rintro rfl
  have node := WellFormed.node_of_object found
  have named := (mem_enlistVar moving.new_real).mp member
  obtain ⟨r, present⟩ := Db.valid_iff.mp (moving.consistent.graph.parentsValid v _ node p named)
  exact moving.not_new present rfl

theorem renamed_parentsOf (moving : Moving s old new o) {v : ObjVar} (notNew : v ≠ .obj new) :
    parentsOf (renamed old new s) (renameVar old new v) =
      (parentsOf s v).map (renameVar old new) := by
  cases found : s.object v with
  | none =>
      have absent : (renamed old new s).object (renameVar old new v) = none := by
        cases present : (renamed old new s).object (renameVar old new v) with
        | none => rfl
        | some q' =>
            obtain ⟨w, q, foundW, same, -⟩ := moving.renamed_object.mp present
            rw [(renameVar_inj notNew (moving.found_not_new foundW)).mp same, foundW] at found
            cases found
      simp only [parentsOf, absent, found, List.map_nil]
  | some q =>
      have after := moving.renamed_at found
      simp only [parentsOf, after, found, renameAt_parents, enlistVar_renameParents,
        List.filter_map, List.map_map]
      have filters : (enlistVar q.parents).filter ((renamed old new s).valid ∘ renameId old new) =
          (enlistVar q.parents).filter s.valid :=
        List.filter_congr fun p member => moving.renamed_valid (moving.enlisted_not_new found member)
      rw [filters]
      rfl

theorem renamed_named (moving : Moving s old new o) {v : ObjVar} {q : Object V} :
    (renameAt old new v q).parents.named = q.parents.named.map (renameId old new) := by
  rw [renameAt_parents, renameParents_named moving.old_real moving.new_real]

theorem named_not_new (moving : Moving s old new o) {v : ObjVar} {q : Object V}
    (found : s.object v = some q) {p : Int} (named : p ∈ q.parents.named) : p ≠ new :=
  moving.enlisted_not_new found (named_subset named)

theorem child_not_new (moving : Moving s old new o) {v : ObjVar} {q : Object V}
    (found : s.object v = some q) {c : Int} (member : c ∈ q.children) : c ≠ new := by
  obtain ⟨r, present⟩ := Db.valid_iff.mp
    (moving.consistent.graph.childrenValid v _ (WellFormed.node_of_object found) c member)
  exact moving.not_new present

theorem mem_map_renameId {list : List Int} (notNew : ∀ q ∈ list, q ≠ new) {p : Int}
    (other : p ≠ new) : renameId old new p ∈ list.map (renameId old new) ↔ p ∈ list := by
  rw [List.mem_map]
  constructor
  · rintro ⟨q, member, same⟩
    exact (renameId_inj (notNew q member) other).mp same ▸ member
  · exact fun member => ⟨p, member, rfl⟩

theorem renamed_index (moving : Moving s old new o) {p' : Int} {a : Nat} :
    a ∈ (renamed old new s).anonymousObjects p' ↔
      ∃ p, p ≠ new ∧ p' = renameId old new p ∧ a ∈ s.anonymousObjects p := by
  have other := moving.other
  have unused (b : Nat) : b ∉ s.anonymousObjects new := by
    intro member
    obtain ⟨q, found, named⟩ := moving.kid member
    exact moving.named_not_new found named rfl
  simp only [renamed]
  constructor
  · intro member
    split at member
    · cases member
    · rename_i notOld
      by_cases isNew : p' = new
      · rw [if_pos isNew] at member
        exact ⟨old, other, by simp [renameId, isNew], member⟩
      · rw [if_neg isNew] at member
        exact ⟨p', isNew, by simp [renameId, notOld], member⟩
  · rintro ⟨p, notNew, rfl, member⟩
    by_cases isOld : p = old
    · subst isOld
      simp [renameId, Ne.symm other, member]
    · simp [renameId, isOld, notNew, member]

theorem renamed_node (moving : Moving s old new o) {v' : ObjVar} {n' : Node}
    (found' : (renamed old new s).node v' = some n') :
    ∃ v q, s.object v = some q ∧ v' = renameVar old new v ∧ n' = (renameAt old new v q).node := by
  obtain ⟨q', object', rfl⟩ := node_some.mp found'
  obtain ⟨v, q, found, name, rfl⟩ := moving.renamed_object.mp object'
  exact ⟨v, q, found, name, rfl⟩

theorem renamed_numbered (moving : Moving s old new o) {p : Int} {q : Object V}
    (found : s.object (.obj p) = some q) :
    0 ≤ renameId old new p ∧ renameId old new p < s.numObjects ∧
      (renameAt old new (.obj p) q).node.id = renameId old new p := by
  have graph := moving.consistent.graph
  have below := moving.below
  have nonneg := moving.nonneg
  have numbered := graph.numbered p q.node (WellFormed.node_of_object found)
  have bounds := graph.valid_bounds (Db.valid_iff.mpr ⟨o, moving.found⟩)
  have id : q.id = p := numbered.2.2
  have id' : (renameAt old new (.obj p) q).node.id = renameId old new p := by
    rw [← id]
    rfl
  refine ⟨?_, ?_, id'⟩
  · unfold renameId
    split <;> omega
  · unfold renameId
    split <;> omega

theorem renamed_mirrored (moving : Moving s old new o) {p c : Int} {q r : Object V}
    (found : s.object (.obj p) = some q) (foundC : s.object (.obj c) = some r) :
    renameId old new c ∈ (renameAt old new (.obj p) q).children ↔
      renameId old new p ∈ (renameAt old new (.obj c) r).parents.named := by
  rw [renameAt_children, moving.renamed_named,
    mem_map_renameId (fun _ => moving.child_not_new found) (moving.not_new foundC),
    mem_map_renameId (fun _ => moving.named_not_new foundC) (moving.not_new found)]
  exact moving.consistent.graph.mirrored p c _ _ (WellFormed.node_of_object found)
    (WellFormed.node_of_object foundC)

theorem renamed_indexed (moving : Moving s old new o) (p' : Int) (a : Nat) :
    a ∈ (renamed old new s).anonymousObjects p' ↔
      ∃ n', (renamed old new s).node (.anon a) = some n' ∧ p' ∈ n'.parents.named := by
  rw [moving.renamed_index]
  constructor
  · rintro ⟨p, notNew, rfl, member⟩
    obtain ⟨q, found, named⟩ := moving.kid member
    refine ⟨_, node_some.mpr ⟨_, moving.renamed_at found, rfl⟩, ?_⟩
    show _ ∈ (renameAt old new (.anon a) q).parents.named
    rw [moving.renamed_named]
    exact List.mem_map_of_mem named
  · rintro ⟨n', found', named⟩
    obtain ⟨v, q, found, name, rfl⟩ := moving.renamed_node found'
    cases v with
    | obj p => cases name
    | anon b =>
        cases name
        change p' ∈ (renameAt old new (.anon a) q).parents.named at named
        rw [moving.renamed_named] at named
        obtain ⟨p, namedP, rfl⟩ := List.mem_map.mp named
        exact ⟨p, moving.named_not_new found namedP, rfl,
          (moving.consistent.graph.indexed p a).mpr ⟨_, WellFormed.node_of_object found, namedP⟩⟩

theorem renamed_acyclic (moving : Moving s old new o) :
    ∃ rank, Ranked (parentsOf (renamed old new s)) rank := by
  obtain ⟨rank, ranked⟩ := moving.consistent.graph.acyclic
  let back (v' : ObjVar) : ObjVar := if v' = .obj new then .obj old else v'
  have backVar {v : ObjVar} (notNew : v ≠ .obj new) : back (renameVar old new v) = v := by
    cases v with
    | anon a => simp [back, renameVar]
    | obj p =>
        have notNew : p ≠ new := fun same => notNew (same ▸ rfl)
        by_cases isOld : p = old
        · simp [back, renameVar, renameId, isOld]
        · simp [back, renameVar, renameId, isOld, notNew]
  refine ⟨fun v' => rank (back v'), fun v' w' edge => ?_⟩
  obtain ⟨q', p', found', -⟩ := mem_parentsOf.mp edge
  obtain ⟨v, q, found, rfl, rfl⟩ := moving.renamed_object.mp found'
  rw [moving.renamed_parentsOf (moving.found_not_new found)] at edge
  obtain ⟨w, edgeW, same⟩ := List.mem_map.mp edge
  obtain ⟨p, rfl, valid⟩ := WellFormed.parent_is_obj edgeW
  obtain ⟨r, foundW⟩ := Db.valid_iff.mp valid
  have smaller := ranked v _ edgeW
  rw [← same]
  simp only [backVar (moving.found_not_new found), backVar (moving.found_not_new foundW)]
  exact smaller

theorem renamed_wellFormed (moving : Moving s old new o) : WellFormed (renamed old new s) := by
  have graph := moving.consistent.graph
  constructor
  · exact graph.table
  · intro p' n' found'
    obtain ⟨v, q, found, name, rfl⟩ := moving.renamed_node found'
    cases v with
    | anon a => cases name
    | obj p =>
        cases name
        exact moving.renamed_numbered found
  · intro a unallocated
    have none := Option.map_eq_none_iff.mp (graph.allocated a unallocated)
    simp [Db.node, renamed, none]
  · intro a n' found'
    obtain ⟨v, q, found, name, rfl⟩ := moving.renamed_node found'
    cases v with
    | obj p => cases name
    | anon b =>
        have childless : q.children = [] :=
          graph.childless b q.node (WellFormed.node_of_object found)
        show (renameAt old new (.anon b) q).children = []
        rw [renameAt_children, childless, List.map_nil]
  · intro v' n' found' p' named
    obtain ⟨v, q, found, name, rfl⟩ := moving.renamed_node found'
    change p' ∈ (renameAt old new v q).parents.named at named
    rw [moving.renamed_named] at named
    obtain ⟨p, namedP, rfl⟩ := List.mem_map.mp named
    rw [moving.renamed_valid (moving.named_not_new found namedP)]
    exact graph.parentsValid v q.node (WellFormed.node_of_object found) p namedP
  · intro v' n' found' c' member
    obtain ⟨v, q, found, name, rfl⟩ := moving.renamed_node found'
    change c' ∈ (renameAt old new v q).children at member
    rw [renameAt_children] at member
    obtain ⟨c, memberC, rfl⟩ := List.mem_map.mp member
    rw [moving.renamed_valid (moving.child_not_new found memberC)]
    exact graph.childrenValid v q.node (WellFormed.node_of_object found) c memberC
  · intro p' c' np' nc' foundP' foundC'
    obtain ⟨v, q, found, name, rfl⟩ := moving.renamed_node foundP'
    obtain ⟨w, r, foundC, nameC, rfl⟩ := moving.renamed_node foundC'
    cases v with
    | anon a => cases name
    | obj p =>
        cases w with
        | anon a => cases nameC
        | obj c =>
            cases name
            cases nameC
            exact moving.renamed_mirrored found foundC
  · intro v' n' found'
    obtain ⟨v, q, found, name, rfl⟩ := moving.renamed_node found'
    show (renameAt old new v q).children.Nodup
    rw [renameAt_children]
    refine List.Nodup.map_on (fun c member d member' same => ?_)
      (graph.childrenNodup v q.node (WellFormed.node_of_object found))
    exact (renameId_inj (moving.child_not_new found member)
      (moving.child_not_new found member')).mp same
  · exact moving.renamed_indexed
  · intro p'
    simp only [renamed]
    split
    · exact List.nodup_nil
    · exact graph.indexNodup _
  · exact moving.renamed_acyclic

theorem ancestor_not_new (moving : Moving s old new o) {v a : ObjVar} (notNew : v ≠ .obj new)
    (path : Ancestor s v a) : a ≠ .obj new := by
  rcases Relation.ReflTransGen.cases_tail path with same | ⟨u, -, edge⟩
  · exact same ▸ notNew
  · obtain ⟨p, rfl, valid⟩ := WellFormed.parent_is_obj edge
    obtain ⟨q, found⟩ := Db.valid_iff.mp valid
    exact moving.found_not_new found

theorem renamed_ancestors (moving : Moving s old new o) {v : ObjVar} (notNew : v ≠ .obj new) :
    dbAncestors (renamed old new s) (renameVar old new v) true =
      (dbAncestors s v true).map (renameVar old new) := by
  have graph := moving.consistent.graph
  obtain ⟨rank, ranked, bounded⟩ := graph.bounded_rank
  obtain ⟨rank', ranked', bounded'⟩ := moving.renamed_wellFormed.bounded_rank
  have enough := bounded v
  rw [graph.ancestors_preorder ranked (traversalDepth s) enough,
    moving.renamed_wellFormed.ancestors_preorder ranked' (traversalDepth s) (bounded' _)]
  refine preorder_map (fun u path => ?_) (fun a b pathA pathB same => ?_) ranked enough
  · exact moving.renamed_parentsOf (moving.ancestor_not_new notNew path)
  · exact (renameVar_inj (moving.ancestor_not_new notNew pathA)
      (moving.ancestor_not_new notNew pathB)).mp same

theorem renamed_width (moving : Moving s old new o) {v : ObjVar} (notNew : v ≠ .obj new) :
    propdefsLength (renamed old new s) (renameVar old new v) = propdefsLength s v := by
  unfold propdefsLength
  cases found : s.object v with
  | some q => simp only [moving.renamed_at found, renameAt_propdefs]
  | none =>
      cases present : (renamed old new s).object (renameVar old new v) with
      | none => rfl
      | some q' =>
          obtain ⟨w, q, foundW, same, -⟩ := moving.renamed_object.mp present
          rw [(renameVar_inj notNew (moving.found_not_new foundW)).mp same, foundW] at found
          cases found

/-- Renaming an object of the table keeps every slot, with its owner renamed. -/
theorem renamed_kept (moving : Moving s old new o) (out : LaidOut s) :
    LaidOut (renamed old new s) ∧ ∀ v' a', Inherits (renamed old new s) v' a' →
      ∃ v a, v' = renameVar old new v ∧ a' = renameVar old new a ∧ Inherits s v a ∧
        slotsFor (renamed old new s) v' a' = (slotsFor s v a).map (Pval.renamed old new) := by
  have above {v : ObjVar} (notNew : v ≠ .obj new) {a : ObjVar} (member : a ∈ dbAncestors s v true) :
      a ≠ .obj new :=
    moving.ancestor_not_new notNew (out.graph.mem_ancestors.mp member)
  refine ⟨⟨moving.renamed_wellFormed, fun a => ?_, fun v' q' found' => ?_⟩, ?_⟩
  · have other : ObjVar.anon a ≠ .obj new := nofun
    exact (moving.renamed_width other).trans (out.bare a)
  · obtain ⟨v, q, found, rfl, rfl⟩ := moving.renamed_object.mp found'
    have notNew := moving.found_not_new found
    have widths : (dbAncestors s v true).map
        (propdefsLength (renamed old new s) ∘ renameVar old new) =
        (dbAncestors s v true).map (propdefsLength s) :=
      List.map_congr_left fun a member => moving.renamed_width (above notNew member)
    rw [renameAt_propval, List.length_map, out.fit v q found, moving.renamed_ancestors notNew,
      countSlots, countSlots, total, total, List.map_map, widths]
  · intro v' a' inherits
    obtain ⟨q', found'⟩ := Option.isSome_iff_exists.mp inherits.1
    obtain ⟨v, q, found, rfl, rfl⟩ := moving.renamed_object.mp found'
    have notNew := moving.found_not_new found
    have order := moving.renamed_ancestors notNew
    obtain ⟨-, ancestor⟩ := inherits
    rw [order] at ancestor
    obtain ⟨a, member, rfl⟩ := List.mem_map.mp ancestor
    refine ⟨v, a, rfl, rfl, ⟨by rw [found]; rfl, member⟩, ?_⟩
    have offset : propertiesOffset (renamed old new s) (renameVar old new a)
        (renameVar old new v) = propertiesOffset s a v := by
      rw [propertiesOffset, propertiesOffset, offsetIn, offsetIn, order]
      refine offset_map (fun b inside same => ?_) fun b inside => ?_
      · exact (renameVar_inj (above notNew member) (above notNew inside)).mp same
      · exact moving.renamed_width (above notNew inside)
    simp only [slotsFor, found, found', offset, moving.renamed_width (above notNew member)]
    cases propertiesOffset s a v with
    | none => rfl
    | some start =>
        simp only
        rw [renameAt_propval, List.map_take, List.map_drop]

end Moving

end ToastStunt
