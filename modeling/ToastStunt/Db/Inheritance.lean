import ToastStunt.Db.Runs

/-!
In every state that the built-ins on the inheritance graph reach, the graph is
well-formed, in the terms of the objects' own fields.
-/

namespace ToastStunt

open FirstVisit Runs

variable {V : Type}

theorem reachable_wellFormed {s : Db V}
    (reachable : ReachableBy (fun call _ => call.regraphs = true) s) : WellFormed s := by
  refine reachable.invariant WellFormed empty_wellFormed ?_
  rintro before after formed (⟨call, outcome, regraphs, ran⟩ | unrelated)
  · exact regraph_wellFormed formed regraphs ran
  · exact unrelated.wellFormed formed

namespace WellFormed

variable {s : Db V}

theorem node_of_object {v : ObjVar} {o : Object V} (found : s.object v = some o) :
    s.node v = some o.node :=
  node_some.mpr ⟨o, found, rfl⟩

theorem parents_valid (formed : WellFormed s) {v : ObjVar} {o : Object V}
    (found : s.object v = some o) :
    o.parents = .obj NOTHING ∨ ∀ p ∈ enlistVar o.parents, s.valid p = true := by
  have valid := formed.parentsValid v o.node (node_of_object found)
  cases parents : o.parents with
  | obj p =>
      by_cases none : p = NOTHING
      · exact Or.inl (none ▸ rfl)
      · right
        intro q member
        apply valid q
        simpa [Object.node, parents, ObjOrList.named, none, enlistVar] using member
  | list oids =>
      right
      intro q member
      apply valid q
      simpa [Object.node, parents, ObjOrList.named, enlistVar] using member

theorem children_count (formed : WellFormed s) {p c : Int} {op oc : Object V}
    (foundP : s.object (.obj p) = some op) (foundC : s.object (.obj c) = some oc) :
    op.children.count c = if p ∈ enlistVar oc.parents then 1 else 0 := by
  have real : p ≠ NOTHING := formed.not_nothing (Db.valid_iff.mpr ⟨op, foundP⟩)
  have mirrored := formed.mirrored p c _ _ (node_of_object foundP) (node_of_object foundC)
  have once := formed.childrenNodup _ _ (node_of_object foundP)
  split
  · rename_i parent
    rw [mem_enlistVar real] at parent
    exact List.count_eq_one_of_mem once (mirrored.mpr parent)
  · rename_i other
    rw [mem_enlistVar real] at other
    exact List.count_eq_zero_of_not_mem fun member => other (mirrored.mp member)

theorem index_exact (formed : WellFormed s) {p : Int} (valid : s.valid p = true) (a : Nat) :
    a ∈ s.anonymousObjects p ↔ ∃ o, s.object (.anon a) = some o ∧ p ∈ enlistVar o.parents := by
  rw [formed.indexed]
  constructor
  · rintro ⟨n, found, named⟩
    obtain ⟨o, object, rfl⟩ := node_some.mp found
    exact ⟨o, object, (mem_enlistVar (formed.not_nothing valid)).mpr named⟩
  · rintro ⟨o, found, named⟩
    exact ⟨o.node, node_of_object found, (mem_enlistVar (formed.not_nothing valid)).mp named⟩

theorem not_own_ancestor (formed : WellFormed s) (v : ObjVar) : v ∉ dbAncestors s v false := by
  intro member
  obtain ⟨u, edge, path⟩ := formed.mem_proper_ancestors.mp member
  exact formed.no_cycle edge path

end WellFormed

theorem inheritance_graph_wellFormed {s : Db V}
    (reachable : ReachableBy (fun call _ => call.regraphs = true) s) :
    (∀ v o, s.object v = some o →
      o.parents = .obj NOTHING ∨ ∀ p ∈ enlistVar o.parents, s.valid p = true) ∧
    (∀ p c op oc, s.object (.obj p) = some op → s.object (.obj c) = some oc →
      op.children.count c = if p ∈ enlistVar oc.parents then 1 else 0) ∧
    (∀ p, s.valid p = true → (s.anonymousObjects p).Nodup ∧ ∀ a, a ∈ s.anonymousObjects p ↔
      ∃ o, s.object (.anon a) = some o ∧ p ∈ enlistVar o.parents) ∧
    ∀ v, v ∉ dbAncestors s v false := by
  have formed := reachable_wellFormed reachable
  refine ⟨fun v o found => formed.parents_valid found,
    fun p c op oc foundP foundC => formed.children_count foundP foundC,
    fun p valid => ⟨formed.indexNodup p, formed.index_exact valid⟩, formed.not_own_ancestor⟩

/-- Two objects, the second a child of the first, and an anonymous child of both. -/
def familyCalls : List (Call Unit) :=
  [.create (-1) (.obj (-1)) (-1) false, .create 0 (.obj 0) 0 false,
    .create 0 (.list [1, 0]) 0 true, .chparents 0 (.obj 1) (.list [0])]

theorem inheritance_graph_family : ∃ s : Db Unit, s.anonymousObjects 0 = [0] ∧
    s.anonymousObjects 1 = [0] ∧ s.valid 1 = true ∧ ∀ v, v ∉ dbAncestors s v false := by
  obtain ⟨s, ran, shape⟩ := Failing.of_okAnd (x := runAll familyCalls Db.empty)
    (p := fun s => s.anonymousObjects 0 = [0] && s.anonymousObjects 1 = [0] && s.valid 1)
    (by decide)
  simp only [Bool.and_eq_true, decide_eq_true_eq] at shape
  have regraphs : ∀ call ∈ familyCalls, call.regraphs = true := by decide
  have reachable : ReachableBy (fun call _ => call.regraphs = true) s :=
    runAll_reachable .start (fun call member _ => regraphs call member) ran
  exact ⟨s, shape.1.1, shape.1.2, shape.2, (inheritance_graph_wellFormed reachable).2.2.2⟩

end ToastStunt
