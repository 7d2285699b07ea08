import Mathlib.Algebra.Order.BigOperators.Group.List
import Mathlib.Algebra.Order.Group.Nat
import Mathlib.Data.List.TakeWhile
import ToastStunt.Db.SlotSafety
import ToastStunt.Db.Places

/-!
The loop of `bf_recycle` over `db_next_child` ends: every change of parents returns, and each
takes the recycled object out of the parents of one child.
-/

namespace ToastStunt

open FirstVisit Failing

variable {V : Type}

section Checks

variable {s : Db V}

abbrev Returns {α : Type} (x : Except Crash α) : Prop := Avoids (fun _ => True) x

theorem dereference_returns {v : ObjVar} {o : Object V} (found : s.object v = some o) :
    Returns (s.dereference v) :=
  Avoids.of_eq_ok (Db.dereference_ok.mpr found)

theorem modify_returns {v : ObjVar} {o : Object V} (found : s.object v = some o)
    (f : Object V → Object V) : Returns (s.modify v f) := by
  unfold Db.modify
  rw [found]
  exact Avoids.ok _

theorem propertyDefinedAtOrBelow_returns (graph : WellFormed s) (name : CString)
    (hash : BitVec 32) {v : ObjVar} {o : Object V} (found : s.object v = some o) :
    Returns (propertyDefinedAtOrBelow s name hash (traversalDepth s) v) := by
  obtain ⟨rank, ranked, bounded⟩ := graph.ranked_children
  have general (fuel : Nat) : ∀ {v : ObjVar} {o : Object V}, s.object v = some o →
      rank v < fuel → Returns (propertyDefinedAtOrBelow s name hash fuel v) := by
    induction fuel with
    | zero => exact fun _ enough => absurd enough (Nat.not_lt_zero _)
    | succ fuel ih =>
        intro v o found enough
        refine (dereference_returns found).bind fun o' there => ?_
        cases (Db.dereference_ok.mp there).symm.trans found
        split
        · exact Avoids.ok _
        · refine Avoids.anyM fun child member => ?_
          have valid := graph.childrenValid v o.node (node_some.mpr ⟨o, found, rfl⟩) child member
          obtain ⟨c, foundChild⟩ := Db.valid_iff.mp valid
          have below := mem_childrenOf.mpr ⟨o, child, found, member, valid, rfl⟩
          have less := ranked v (.obj child) below
          exact ih foundChild (by omega)
  exact general _ found (bounded v)

theorem proposedAncestors_returns {rank : ObjVar → Nat} (ranked : Ranked (parentsOf s) rank)
    {fuel : Nat} {stack : List Int} (positive : 0 < fuel)
    (enough : ∀ p ∈ stack, s.valid p = true → rank (.obj p) + 1 < fuel) (seen : List Int) :
    Returns (proposedAncestors s fuel stack seen) := by
  induction fuel generalizing stack seen with
  | zero => exact absurd positive (Nat.lt_irrefl 0)
  | succ fuel ih =>
      refine Avoids.foldlM (fun top member before => ?_) seen
      split
      · exact Avoids.ok _
      · rename_i o found
        have bound := enough top member (Db.valid_iff.mpr ⟨o, found⟩)
        refine ih (by omega) (fun p above valid => ?_) _
        have lower := ranked _ _ (mem_parentsOf.mpr ⟨o, p, found, above, valid, rfl⟩)
        omega

theorem proposedAncestors_valid {fuel : Nat} {stack seen result : List Int}
    (ran : proposedAncestors s fuel stack seen = .ok result)
    (known : ∀ p ∈ seen, s.valid p = true) : ∀ p ∈ result, s.valid p = true := by
  induction fuel generalizing stack seen result with
  | zero => cases ran
  | succ fuel ih =>
      refine foldlM_invariant (fun seen : List Int => ∀ p ∈ seen, s.valid p = true)
        (fun top _ before after known step => ?_) known ran
      split at step
      · cases step
        exact known
      · rename_i o found
        refine ih step fun p member => ?_
        rcases mem_addNew.mp member with old | rfl
        · exact known p old
        · exact Db.valid_iff.mpr ⟨o, found⟩

theorem checkProperties_returns (graph : WellFormed s) {v : ObjVar} {o : Object V}
    (found : s.object v = some o) (new : ObjOrList) :
    Returns (dbprivCheckPropertiesForChparent s v new (gatheredKids s v [])) := by
  obtain ⟨rank, ranked, bounded⟩ := graph.bounded_rank
  have kids : ∀ kid ∈ gatheredKids s v [], ∃ k, s.object (.anon kid) = some k := by
    intro kid member
    cases v with
    | anon a => cases member
    | obj oid =>
        obtain ⟨n, node, -⟩ := (graph.indexed oid kid).mp member
        obtain ⟨k, foundKid, -⟩ := node_some.mp node
        exact ⟨k, foundKid⟩
  refine (proposedAncestors_returns ranked (Nat.succ_pos _) (fun p _ _ => ?_) _).bind
    fun ancestors proposed => ?_
  · have bound := bounded (.obj p)
    omega
  · have valid := proposedAncestors_valid proposed (by simp)
    have present (p : Int) (member : p ∈ ancestors) : Returns (s.dereference (.obj p)) := by
      obtain ⟨q, foundQ⟩ := Db.valid_iff.mp (valid p member)
      exact dereference_returns foundQ
    refine Avoids.bind ?_ fun below _ => ?_
    · refine Avoids.anyM fun ancestor member => (present ancestor member).bind fun o2 _ => ?_
      refine Avoids.anyM fun p _ =>
        (propertyDefinedAtOrBelow_returns graph _ _ found).bind fun defined _ => ?_
      split
      · exact Avoids.ok _
      · refine Avoids.anyM fun kid member => ?_
        obtain ⟨k, foundKid⟩ := kids kid member
        exact (dereference_returns foundKid).bind fun _ _ => Avoids.ok _
    · split
      · exact Avoids.ok _
      · refine Avoids.bind ?_ fun _ _ => Avoids.ok _
        refine Avoids.anyM fun ancestor member => (present ancestor member).bind fun o2 _ => ?_
        refine Avoids.anyM fun other memberO => ?_
        split
        · exact Avoids.ok _
        · exact (present other memberO).bind fun _ _ => Avoids.ok _

theorem checkChildren_returns (graph : WellFormed s) (v : ObjVar) :
    Returns (checkChildrenOfObject s v (gatheredKids s v [])) := by
  refine Avoids.bind (Avoids.anyM fun kid member => ?_) fun _ _ => Avoids.ok _
  cases v with
  | anon a => cases member
  | obj oid =>
      obtain ⟨n, node, -⟩ := (graph.indexed oid kid).mp member
      obtain ⟨k, foundKid, -⟩ := node_some.mp node
      refine (dereference_returns foundKid).bind fun k' _ => ?_
      split <;> exact Avoids.ok _

theorem relink_returns (graph : WellFormed s) {v : ObjVar} {o : Object V}
    (found : s.object v = some o) {new : ObjOrList}
    (newValid : ∀ p ∈ new.named, s.valid p = true) : Returns (relink s v o.parents new) := by
  cases v with
  | anon a => exact Avoids.ok _
  | obj oid =>
      have oldValid := graph.parentsValid _ o.node (node_some.mpr ⟨o, found, rfl⟩)
      have removed := foldlM_modify (f := Object.withChildren (setremove · oid)) oldValid
      refine (Avoids.of_eq_ok removed).bind fun s1 ran => ?_
      cases ran.symm.trans removed
      refine Avoids.of_eq_ok
        (foldlM_modify (f := Object.withChildren (setadd · oid)) fun p member => ?_)
      have valid := newValid p member
      rw [Db.valid] at valid
      rwa [Db.touch, Option.isSome_map]

end Checks

section Loop

variable {s s' : Db V}

theorem dbChangeParents_returns (out : LaidOut s) {v : ObjVar} {o : Object V}
    (found : s.object v = some o) {new : ObjOrList} (separated : SeparatedBy s v new)
    (newValid : ∀ p ∈ new.named, s.valid p = true)
    (apart : ∀ p ∈ new.named, ¬Ancestor s (.obj p) v) : Returns (dbChangeParents s v new []) := by
  unfold dbChangeParents
  split
  · exact Avoids.ok _
  · refine (checkChildren_returns out.graph v).bind fun kidsOk _ => ?_
    split
    · exact Avoids.ok _
    · refine (checkProperties_returns out.graph found new).bind fun propertiesOk _ => ?_
      split
      · exact Avoids.ok _
      · refine (dereference_returns found).bind fun o' there => ?_
        cases (Db.dereference_ok.mp there).symm.trans found
        refine (relink_returns out.graph found newValid).bind fun s1 relinked => ?_
        have present : ∃ o1, s1.object v = some o1 := by
          cases v with
          | anon a =>
              cases relinked
              obtain ⟨object, -⟩ := Db.unindexed_fields (relinkAnon_unindexed s a o.parents new)
              exact ⟨o, object ▸ found⟩
          | obj oid =>
              obtain ⟨-, rfl⟩ := relinkChildren_ok relinked
              rw [relinked_object, found]
              exact ⟨_, rfl⟩
        obtain ⟨o1, found1⟩ := present
        refine (modify_returns found1 _).bind fun s2 assigned => ?_
        obtain ⟨s3, ran, -⟩ :=
          relinked_runs out (separated s2) newValid apart found relinked assigned
        exact (Avoids.of_eq_ok ran).bind fun _ _ => Avoids.ok _

def timesNamed (s : Db V) (oid : Int) (v : ObjVar) : Nat :=
  match s.object v with
  | none => 0
  | some o => o.parents.named.count oid

theorem mem_parentsOf_timesNamed (graph : WellFormed s) {oid : Int} {v : ObjVar} :
    .obj oid ∈ parentsOf s v ↔ 0 < timesNamed s oid v := by
  rw [graph.mem_parents]
  unfold timesNamed
  constructor
  · rintro ⟨n, node, named⟩
    obtain ⟨o, found, rfl⟩ := node_some.mp node
    rw [found]
    exact List.count_pos_iff.mpr named
  · intro positive
    cases found : s.object v with
    | none =>
        rw [found] at positive
        cases positive
    | some o =>
        rw [found] at positive
        exact ⟨o.node, node_some.mpr ⟨o, found, rfl⟩, List.count_pos_iff.mp positive⟩

theorem WellFormed.named_of_edge (graph : WellFormed s) {v : ObjVar} {o : Object V} {p : Int}
    (found : s.object v = some o) (edge : .obj p ∈ parentsOf s v) : p ∈ o.parents.named := by
  obtain ⟨n, node, named⟩ := graph.mem_parents.mp edge
  obtain ⟨o', found', rfl⟩ := node_some.mp node
  cases found'.symm.trans found
  exact named

theorem WellFormed.edge_of_named (graph : WellFormed s) {v : ObjVar} {o : Object V} {p : Int}
    (found : s.object v = some o) (named : p ∈ o.parents.named) : .obj p ∈ parentsOf s v :=
  graph.mem_parents.mpr ⟨o.node, node_some.mpr ⟨o, found, rfl⟩, named⟩

theorem not_own_parent (graph : WellFormed s) {oid : Int} {o : Object V}
    (found : s.object (.obj oid) = some o) : oid ∉ o.parents.named := fun named =>
  graph.no_cycle (graph.edge_of_named found named) (Ancestor.self s _)

theorem splicedParents_named (graph : WellFormed s) {oid : Int} {cp : ObjOrList} {o : Object V}
    (member : oid ∈ cp.named) (found : s.object (.obj oid) = some o) :
    (∃ before after, cp.named = before ++ oid :: after ∧ oid ∉ before ∧
      (splicedParents s oid cp o.parents).named = addAll [] (before ++ o.parents.named ++ after)) ∨
    cp.named = [oid] ∧ splicedParents s oid cp o.parents = o.parents := by
  cases cp with
  | obj q =>
      right
      rw [ObjOrList.named] at member
      split at member
      · cases member
      · rename_i real
        cases List.mem_singleton.mp member
        exact ⟨if_neg real, rfl⟩
  | list ps =>
      left
      refine ⟨ps.takeWhile (· ≠ oid), ps.drop ((ps.takeWhile (· ≠ oid)).length + 1),
        split_at_mem member, fun inside => ?_, ?_⟩
      · exact absurd (List.mem_takeWhile_imp inside) (by simp)
      · have valid := graph.parentsValid _ o.node (node_some.mpr ⟨o, found, rfl⟩)
        have append (before middle after : List Int) :
            addAll (addAll (addAll [] before) middle) after =
              addAll [] (before ++ middle ++ after) := by
          rw [addAll_append, addAll_append]
        cases parents : o.parents with
        | list oids => exact append _ oids _
        | obj parent =>
            have named : o.node.parents = .obj parent := parents
            refine (append _ (if s.valid parent then [parent] else []) _).trans ?_
            by_cases nothing : parent = NOTHING
            · have invalid : s.valid NOTHING = false := by
                simp [Db.valid, graph.nothing]
              simp [ObjOrList.named, nothing, invalid]
            · have known := valid parent (by simp [named, ObjOrList.named, nothing])
              simp [ObjOrList.named, nothing, known]

/-- What is left of a child's parents names the object less often. -/
theorem count_splicedParents (graph : WellFormed s) {oid : Int} {cp : ObjOrList} {o : Object V}
    (member : oid ∈ cp.named) (found : s.object (.obj oid) = some o) :
    (splicedParents s oid cp o.parents).named.count oid < cp.named.count oid := by
  have absent := not_own_parent graph found
  rcases splicedParents_named graph member found with
    ⟨before, after, split, first, spliced⟩ | ⟨only, spliced⟩
  · have once : (splicedParents s oid cp o.parents).named.count oid ≤ 1 := by
      rw [spliced]
      exact List.nodup_iff_count_le_one.mp (addAll_nodup _ List.nodup_nil) oid
    have counted : cp.named.count oid = after.count oid + 1 := by
      rw [split, List.count_append, List.count_eq_zero_of_not_mem first, List.count_cons_self,
        Nat.zero_add]
    by_cases again : oid ∈ after
    · have some := List.count_pos_iff.mpr again
      omega
    · have none : oid ∉ (splicedParents s oid cp o.parents).named := by
        rw [spliced]
        simp [first, absent, again]
      rw [List.count_eq_zero_of_not_mem none]
      omega
  · rw [spliced, only, List.count_eq_zero_of_not_mem absent, List.count_singleton_self]
    exact Nat.zero_lt_one

theorem ChangedParents.parents {v : ObjVar} {new : ObjOrList} {kids : List Nat} {s2 : Db V}
    (change : ChangedParents s s' v new kids s2) (graph : WellFormed s) (w : ObjVar) :
    (s'.object w).map Object.parents =
      (s.object w).map fun o => if w = v then new else o.parents := by
  have fixed : SameUpTo Object.parents s2 s' :=
    (fix_unslotted change.fixed).coarser fun o o' same => by
      have equal := congrArg Object.parents same
      exact equal
  rw [fixed.view]
  have reparented := change.reparented graph
  cases found : s.object w with
  | none => rw [reparented.absent w found, Option.map_none, Option.map_none]
  | some o =>
      obtain ⟨children, object, -⟩ := reparented.object w o found
      rw [object, Option.map_some, Option.map_some]

theorem Spliced.timesNamed_lt {oid : Int} (turn : Spliced oid s s') :
    ∃ child, .obj oid ∈ parentsOf s child ∧ timesNamed s' oid child < timesNamed s oid child ∧
      ∀ w ≠ child, timesNamed s' oid w = timesNamed s oid w := by
  obtain ⟨graph, child, c, o, s2, next, foundChild, found, change⟩ := turn
  have edge := dbNextChild_ok graph next
  have member := graph.named_of_edge foundChild edge
  have named (w : ObjVar) : timesNamed s' oid w = match s.object w with
      | none => 0
      | some n => (if w = child then splicedParents s oid c.parents o.parents
          else n.parents).named.count oid := by
    have parents := change.parents graph w
    unfold timesNamed
    cases present : s.object w with
    | none =>
        rw [present, Option.map_none, Option.map_eq_none_iff] at parents
        rw [parents]
    | some n =>
        rw [present, Option.map_some, Option.map_eq_some_iff] at parents
        obtain ⟨n', found', equal⟩ := parents
        rw [found']
        show n'.parents.named.count oid = _
        rw [equal]
  refine ⟨child, edge, ?_, fun w other => ?_⟩
  · rw [named, timesNamed, foundChild]
    simp only [if_true]
    exact count_splicedParents graph member found
  · rw [named, timesNamed]
    simp only [if_neg other]

/-- The loop over the children returns when it may take as many turns as the object is named. -/
theorem reparentChildren_returns (out : LaidOut s) {oid : Int} (recyclable : Recyclable s oid)
    (valid : s.valid oid = true) {kin : List ObjVar}
    (known : ∀ v, .obj oid ∈ parentsOf s v → v ∈ kin) {fuel : Nat}
    (enough : (kin.map (timesNamed s oid)).sum < fuel) :
    ∃ done s', reparentChildren oid fuel s = .ok (done, s') := by
  suffices returns : Returns (reparentChildren oid fuel s) by
    obtain ⟨⟨done, s'⟩, ran⟩ := returns.returns
    exact ⟨done, s', ran⟩
  induction fuel generalizing s with
  | zero => exact absurd enough (Nat.not_lt_zero _)
  | succ fuel ih =>
      obtain ⟨o, found⟩ := Db.valid_iff.mp valid
      have nextReturns : Returns (dbNextChild s oid) := by
        refine (dereference_returns found).bind fun o' _ => ?_
        split
        · exact Avoids.ok _
        · split <;> exact Avoids.ok _
      refine nextReturns.bind fun next ran => ?_
      cases next with
      | none => exact Avoids.ok _
      | some child =>
          have edge := dbNextChild_ok out.graph ran
          obtain ⟨n, node, -⟩ := out.graph.mem_parents.mp edge
          obtain ⟨c, foundChild, -⟩ := node_some.mp node
          refine (dereference_returns foundChild).bind fun c' there => ?_
          cases (Db.dereference_ok.mp there).symm.trans foundChild
          refine (dereference_returns found).bind fun o' there => ?_
          cases (Db.dereference_ok.mp there).symm.trans found
          have ancestors := spliced_ancestors out.graph edge foundChild found
          refine (dbChangeParents_returns out foundChild
            (recyclable.separatedBy edge foundChild found) (fun p named => (ancestors p named).1)
            (spliced_apart out.graph edge foundChild found)).bind fun result changed => ?_
          obtain ⟨done, s1⟩ := result
          cases done with
          | false => exact Avoids.ok _
          | true =>
              obtain ⟨-, s2, change⟩ := (dbChangeParents_ok changed).resolve_left (by simp)
              have turn : Spliced oid s s1 :=
                ⟨out.graph, child, c, o, s2, ran, foundChild, found, change⟩
              obtain ⟨out1, -, recyclable1⟩ := turn.kept out recyclable
              obtain ⟨least, edgeL, less, same⟩ := turn.timesNamed_lt
              have fewer (w : ObjVar) : timesNamed s1 oid w ≤ timesNamed s oid w := by
                by_cases this : w = least
                · exact this ▸ Nat.le_of_lt less
                · exact Nat.le_of_eq (same w this)
              refine ih out1 recyclable1 (change.valid out.graph ▸ valid) (fun v edgeV => ?_) ?_
              · refine known v ((mem_parentsOf_timesNamed out.graph).mpr ?_)
                exact Nat.lt_of_lt_of_le ((mem_parentsOf_timesNamed out1.graph).mp edgeV) (fewer v)
              · have smaller :
                    (kin.map (timesNamed s1 oid)).sum < (kin.map (timesNamed s oid)).sum :=
                  List.sum_lt_sum _ _ (fun w _ => fewer w) ⟨least, known least edgeL, less⟩
                omega

/-- As many turns as `reparentTurns` counts are enough. -/
theorem reparentChildren_ends (out : LaidOut s) {oid : Int} (recyclable : Recyclable s oid)
    (valid : s.valid oid = true) {fuel : Nat} (enough : reparentTurns s oid < fuel) :
    ∃ done s', reparentChildren oid fuel s = .ok (done, s') := by
  obtain ⟨o, found⟩ := Db.valid_iff.mp valid
  have few (v : ObjVar) : timesNamed s oid v ≤ parentSlots s v := by
    unfold timesNamed parentSlots
    cases s.object v with
    | none => exact Nat.le_refl 0
    | some c =>
        show c.parents.named.count oid ≤ (enlistVar c.parents).length
        refine Nat.le_trans List.count_le_length ?_
        cases c.parents with
        | list ps => exact Nat.le_refl _
        | obj q =>
            show (if q = NOTHING then [] else [q]).length ≤ 1
            split <;> simp
  have known (v : ObjVar) (edge : .obj oid ∈ parentsOf s v) :
      v ∈ o.children.map ObjVar.obj ++ (s.anonymousObjects oid).map ObjVar.anon := by
    cases v with
    | obj c =>
        obtain ⟨o', c', foundO, member, -, same⟩ :=
          mem_childrenOf.mp (out.graph.mem_children.mpr edge)
        cases foundO.symm.trans found
        cases same
        exact List.mem_append_left _ (List.mem_map_of_mem member)
    | anon a =>
        have indexed := (out.graph.indexed oid a).mpr (out.graph.mem_parents.mp edge)
        exact List.mem_append_right _ (List.mem_map_of_mem indexed)
  refine reparentChildren_returns out recyclable valid known (Nat.lt_of_le_of_lt ?_ enough)
  rw [reparentTurns, found, List.map_append, List.sum_append, List.map_map, List.map_map]
  exact Nat.add_le_add (List.sum_le_sum fun c _ => few (.obj c))
    (List.sum_le_sum fun a _ => few (.anon a))

end Loop

end ToastStunt
