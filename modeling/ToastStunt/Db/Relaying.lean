import ToastStunt.Db.Layout

/-!
`dbpriv_fix_properties_after_chparent` on the objects below a re-parented one. One
call lays the slots of one object out anew, from the old ancestors it is given; the
recursion reaches an object once for every path that leads down to it.
-/

namespace ToastStunt

open FirstVisit Blocks

variable {V : Type}

section OnePass

/-- Slots laid out anew: what was inherited before is taken over, the rest is clear. -/
def Carried (width : ObjVar → Nat) (old new : List ObjVar) (slots slots' : List (Pval V)) : Prop :=
  ∃ block block', Laid width old block slots ∧ Laid width new block' slots' ∧
    ∀ a ∈ new, (a ∈ old → block' a = block a) ∧
      (a ∉ old → ∀ pval ∈ block' a, pval.var = .clear)

variable {s : Db V}

theorem parentWith_some {a : ObjVar} {parents : List Int}
    (inherited : ∃ p ∈ parents, s.valid p = true ∧ a ∈ dbAncestors s (.obj p) true) :
    ∃ p start, parentWith s a parents = some (p, start) ∧ p ∈ parents ∧ s.valid p = true ∧
      propertiesOffset s a (.obj p) = some start := by
  induction parents with
  | nil =>
      obtain ⟨p, member, -⟩ := inherited
      cases member
  | cons parent rest ih =>
      have later (elsewhere : ∃ p ∈ rest, s.valid p = true ∧ a ∈ dbAncestors s (.obj p) true)
          (skipped : parentWith s a (parent :: rest) = parentWith s a rest) :
          ∃ p start, parentWith s a (parent :: rest) = some (p, start) ∧ p ∈ parent :: rest ∧
            s.valid p = true ∧ propertiesOffset s a (.obj p) = some start := by
        obtain ⟨p, start, found, member, valid, offset⟩ := ih elsewhere
        exact ⟨p, start, skipped.trans found, List.mem_cons_of_mem _ member, valid, offset⟩
      obtain ⟨p, member, valid, above⟩ := inherited
      by_cases known : s.valid parent = true
      · cases offset : propertiesOffset s a (.obj parent) with
        | some start =>
            exact ⟨parent, start, by simp [parentWith, known, offset], List.mem_cons_self, known,
              offset⟩
        | none =>
            have absent : a ∉ dbAncestors s (.obj parent) true := offset_none.mp offset
            rcases List.mem_cons.mp member with rfl | inside
            · exact absurd above absent
            · exact later ⟨p, inside, valid, above⟩ (by simp [parentWith, known, offset])
      · rcases List.mem_cons.mp member with rfl | inside
        · exact absurd valid known
        · exact later ⟨p, inside, valid, above⟩ (by simp [parentWith, known])

theorem slotsAt_of_laid {order : List ObjVar} {block : ObjVar → List (Pval V)}
    {slots : List (Pval V)} (laid : Laid (propdefsLength s) order block slots) {a : ObjVar}
    {start : Nat} (offset : Blocks.offset (propdefsLength s) a order = some start) :
    slotsAt slots start (propdefsLength s a) = .ok (block a) := by
  obtain ⟨bound, cut⟩ := laid.slice offset
  rw [slotsAt, if_pos bound, cut]

def Fitting (s : Db V) (v : ObjVar) (order : List ObjVar) : Prop :=
  ∃ o block, s.object v = some o ∧ Laid (propdefsLength s) order block o.propval

theorem slotsOf_ok (graph : WellFormed s) {w : ObjVar} {me : Object V}
    (found : s.object w = some me) {old : List ObjVar} {block : ObjVar → List (Pval V)}
    (laid : Laid (propdefsLength s) old block me.propval) (own : w ∈ old)
    (parents : ∀ u ∈ parentsOf s w, Fitting s u (dbAncestors s u true)) {a : ObjVar}
    (above : a ∈ dbAncestors s w true) :
    ∃ slots, slotsOf s me old a = .ok slots ∧ slots.length = propdefsLength s a ∧
      (a ∈ old → slots = block a) ∧ (a ∉ old → ∀ pval ∈ slots, pval.var = .clear) := by
  unfold slotsOf
  cases offset : offsetIn s a old with
  | some start =>
      have member : a ∈ old := by
        by_contra absent
        rw [offsetIn, offset_none.mpr absent] at offset
        cases offset
      refine ⟨block a, slotsAt_of_laid laid offset, laid.width_eq a member, fun _ => rfl, ?_⟩
      exact fun absent => absurd member absent
  | none =>
      have absent : a ∉ old := offset_none.mp offset
      by_cases narrow : propdefsLength s a = 0
      · refine ⟨[], by simp [narrow], narrow.symm, fun member => absurd member absent, ?_⟩
        rintro _ _ ⟨⟩
      · have other : a ≠ w := by
          rintro rfl
          exact absent own
        rw [graph.ancestors_eq, List.mem_cons, mem_addAll, List.mem_flatMap] at above
        obtain ⟨u, edge, aboveU⟩ : ∃ u ∈ parentsOf s w, a ∈ dbAncestors s u true := by
          simpa [other] using above
        obtain ⟨o, p, foundO, member, valid, rfl⟩ := mem_parentsOf.mp edge
        rw [found] at foundO
        cases foundO
        obtain ⟨q, start, chosen, memberQ, validQ, offsetQ⟩ :=
          parentWith_some ⟨p, member, valid, aboveU⟩
        have edgeQ : .obj q ∈ parentsOf s w :=
          mem_parentsOf.mpr ⟨me, q, found, memberQ, validQ, rfl⟩
        obtain ⟨oq, blockQ, foundQ, laidQ⟩ := parents _ edgeQ
        have cut := slotsAt_of_laid laidQ offsetQ
        have fits : (blockQ a).length = propdefsLength s a := by
          refine laidQ.width_eq a ?_
          by_contra missing
          rw [propertiesOffset, offsetIn, offset_none.mpr missing] at offsetQ
          cases offsetQ
        refine ⟨(blockQ a).map fun pv => { pv with var := .clear }.ownedBy me.owner, ?_, ?_, ?_, ?_⟩
        · simp only [narrow, if_false, chosen]
          rw [Failing.bind_of_ok (Db.dereference_ok.mpr foundQ), Failing.bind_of_ok cut]
          rfl
        · rw [List.length_map, fits]
        · exact fun member => absurd member absent
        · intro _ pval member
          obtain ⟨pv, -, rfl⟩ := List.mem_map.mp member
          unfold Pval.ownedBy
          split <;> rfl

theorem relay_ok (graph : WellFormed s) {w : ObjVar} {me : Object V}
    (found : s.object w = some me) {old : List ObjVar} {block : ObjVar → List (Pval V)}
    (laid : Laid (propdefsLength s) old block me.propval) (own : w ∈ old)
    (parents : ∀ u ∈ parentsOf s w, Fitting s u (dbAncestors s u true)) :
    ∃ slots, (dbAncestors s w true).mapM (slotsOf s me old) = .ok slots ∧
      Carried (propdefsLength s) old (dbAncestors s w true) me.propval slots.flatten := by
  have each (a : ObjVar) (above : a ∈ dbAncestors s w true) :=
    slotsOf_ok graph found laid own parents above
  choose! block' ok width kept clear using each
  refine ⟨(dbAncestors s w true).map block', Failing.mapM_of_ok ok, block, block', laid, ?_, ?_⟩
  · exact ⟨by rw [← List.flatMap_def], width⟩
  · exact fun a above => ⟨kept a above, clear a above⟩

end OnePass

section Condition

def definers (s : Db V) (order : List ObjVar) : List ObjVar :=
  order.filter fun a => propdefsLength s a ≠ 0

def parentsAfter (s : Db V) (v : ObjVar) (new : ObjOrList) (w : ObjVar) : List ObjVar :=
  if w = v then ((enlistVar new).filter s.valid).map .obj else parentsOf s w

def ancestorsAfter (s : Db V) (v : ObjVar) (new : ObjOrList) (w : ObjVar) : List ObjVar :=
  w :: visit (parentsAfter s v new) (traversalDepth s) (parentsAfter s v new w) []

/-- Below `v`, an object has one parent only at or below `v`, or several whose defining
ancestors stay as they are. -/
def Separable (s : Db V) (v : ObjVar) (new : ObjOrList) : Prop :=
  ∀ d, Ancestor s d v → d ≠ v →
    (∀ p ∈ parentsOf s d, ∀ q ∈ parentsOf s d, Ancestor s p v → Ancestor s q v → p = q) ∨
    ∀ p ∈ parentsOf s d, Ancestor s p v →
      definers s (ancestorsAfter s v new p) = definers s (dbAncestors s p true)

variable {s s2 : Db V} {v : ObjVar}

theorem mem_definers {order : List ObjVar} {a : ObjVar} :
    a ∈ definers s order ↔ a ∈ order ∧ propdefsLength s a ≠ 0 := by
  simp [definers]

theorem Carried.of_definers {old given new : List ObjVar} {slots slots' : List (Pval V)}
    {block : ObjVar → List (Pval V)} (laid : Laid (propdefsLength s) old block slots)
    (carried : Carried (propdefsLength s) given new slots slots')
    (same : definers s given = definers s old) :
    Carried (propdefsLength s) old new slots slots' := by
  obtain ⟨block1, block', laid1, laid', kept⟩ := carried
  have read := laid.of_filter same
  have narrow {a : ObjVar} {b : List (Pval V)} (width : b.length = propdefsLength s a)
      (none : propdefsLength s a = 0) : b = [] := List.length_eq_zero_iff.mp (width.trans none)
  have known {a : ObjVar} (wide : propdefsLength s a ≠ 0) : a ∈ given ↔ a ∈ old := by
    have iff : a ∈ definers s given ↔ _ := mem_definers
    rw [same, mem_definers] at iff
    simpa [wide] using iff.symm
  refine ⟨block, block', laid, laid', fun a above => ?_⟩
  by_cases none : propdefsLength s a = 0
  · have empty := narrow (laid'.width_eq a above) none
    refine ⟨fun member => ?_, fun _ => by simp [empty]⟩
    rw [empty, narrow (laid.width_eq a member) none]
  · refine ⟨fun member => ?_, fun absent => (kept a above).2 (mt (known none).mp absent)⟩
    have inside := (known none).mpr member
    rw [(kept a above).1 inside, read.unique laid1 inside, if_neg none]

theorem Carried.same {old new : List ObjVar} {slots slots' : List (Pval V)}
    (carried : Carried (propdefsLength s) old new slots slots')
    (same : definers s new = definers s old) : slots' = slots := by
  obtain ⟨block, block', laid, laid', kept⟩ := carried
  have read := laid.of_filter same
  rw [read.entries_eq, laid'.entries_eq]
  refine List.flatMap_congr fun a above => ?_
  by_cases none : propdefsLength s a = 0
  · rw [if_pos none, List.length_eq_zero_iff.mp ((laid'.width_eq a above).trans none)]
  · have inside : a ∈ definers s new := mem_definers.mpr ⟨above, none⟩
    rw [same, mem_definers] at inside
    rw [if_neg none, (kept a above).1 inside.1]

theorem definers_ancestors (s : Db V) {s' : Db V} (graph : WellFormed s') (w : ObjVar) :
    definers s (dbAncestors s' w true) =
      addAll (definers s [w]) ((parentsOf s' w).flatMap fun u =>
        definers s (dbAncestors s' u true)) := by
  rw [graph.ancestors_eq, ← addAll_singleton (graph.not_above_itself w)]
  unfold definers
  rw [addAll_filter, List.filter_flatMap]

structure Moved (s s2 : Db V) (v : ObjVar) : Prop where
  out : LaidOut s
  graph : WellFormed s2
  parents : ∀ w, w ≠ v → parentsOf s2 w = parentsOf s w
  widths : propdefsLength s2 = propdefsLength s
  slots : ∀ w, (s2.object w).map Object.propval = (s.object w).map Object.propval

def Changed (s s2 : Db V) (w : ObjVar) : Prop :=
  definers s (dbAncestors s2 w true) ≠ definers s (dbAncestors s w true)

namespace Moved

theorem below (moved : Moved s s2 v) {d : ObjVar} : Ancestor s2 d v ↔ Ancestor s d v := by
  constructor
  all_goals
    intro path
    induction path using Relation.ReflTransGen.head_induction_on with
    | refl => exact Ancestor.self _ v
    | @head w u edge _ ih =>
        by_cases self : w = v
        · exact self ▸ Ancestor.self _ w
        · exact Ancestor.above (moved.parents w self ▸ edge) ih

theorem outside (moved : Moved s s2 v) {w : ObjVar} (apart : ¬Ancestor s2 w v) :
    dbAncestors s2 w true = dbAncestors s w true := by
  rw [moved.below] at apart
  refine ancestors_congr moved.out.graph moved.graph fun u path => moved.parents u ?_
  rintro rfl
  exact apart path

theorem changed_below (moved : Moved s s2 v) {w : ObjVar} (changed : Changed s s2 w) :
    Ancestor s2 w v := by
  by_contra apart
  exact changed (by rw [moved.outside apart])

theorem unchanged (moved : Moved s s2 v) {w : ObjVar} (other : w ≠ v)
    (parents : ∀ p ∈ parentsOf s2 w, ¬Changed s s2 p) : ¬Changed s s2 w := by
  rw [Changed, not_not, definers_ancestors s moved.graph, definers_ancestors s moved.out.graph,
    ← moved.parents w other]
  congr 1
  exact List.flatMap_congr fun p edge => not_not.mp (parents p edge)

end Moved

def Separated (s s2 : Db V) (v : ObjVar) : Prop :=
  ∀ d, Ancestor s2 d v → d ≠ v →
    (∀ p ∈ parentsOf s2 d, ∀ q ∈ parentsOf s2 d, Ancestor s2 p v → Ancestor s2 q v → p = q) ∨
    ∀ p ∈ parentsOf s2 d, ¬Changed s s2 p

namespace Moved

theorem changed_parent (moved : Moved s s2 v) (separated : Separated s s2 v) {u p : ObjVar}
    (changed : Changed s s2 u) (edge : p ∈ parentsOf s2 u) (up : Ancestor s2 p v) :
    Changed s s2 p ∧ ∀ q ∈ parentsOf s2 u, Ancestor s2 q v → q = p := by
  have below : Ancestor s2 u v := Ancestor.above edge up
  have other : u ≠ v := by
    rintro rfl
    exact moved.graph.no_cycle edge up
  rcases separated u below other with unique | stable
  · refine ⟨?_, fun q edgeQ upQ => unique q edgeQ p edge upQ up⟩
    by_contra stable
    refine moved.unchanged other (fun q edgeQ => ?_) changed
    by_cases upQ : Ancestor s2 q v
    · exact unique q edgeQ p edge upQ up ▸ stable
    · exact mt moved.changed_below upQ
  · exact absurd changed (moved.unchanged other stable)

theorem changed_chain (moved : Moved s s2 v) (separated : Separated s s2 v) {u c : ObjVar}
    (changed : Changed s s2 u) (path : Ancestor s2 u c) (up : Ancestor s2 c v) :
    Changed s s2 c := by
  induction path using Relation.ReflTransGen.head_induction_on with
  | refl => exact changed
  | head edge rest ih =>
      exact ih (moved.changed_parent separated changed edge (rest.trans up)).1

theorem comparable (moved : Moved s s2 v) (separated : Separated s s2 v) {u b c : ObjVar}
    (changed : Changed s s2 u) (pathB : Ancestor s2 u b) (pathC : Ancestor s2 u c)
    (upB : Ancestor s2 b v) (upC : Ancestor s2 c v) : Ancestor s2 b c ∨ Ancestor s2 c b := by
  induction pathB using Relation.ReflTransGen.head_induction_on with
  | refl => exact Or.inl pathC
  | @head u p edge rest ih =>
      rcases Relation.ReflTransGen.cases_head pathC with same | ⟨q, edgeQ, restQ⟩
      · exact Or.inr (same ▸ Ancestor.above edge rest)
      · have step := moved.changed_parent separated changed edge (rest.trans upB)
        have same := step.2 q edgeQ (restQ.trans upC)
        exact ih step.1 (same ▸ restQ)

theorem same_branch (moved : Moved s s2 v) (separated : Separated s s2 v) {u w b c : ObjVar}
    (changed : Changed s s2 u) (pathB : Ancestor s2 u b) (pathC : Ancestor s2 u c)
    (edgeB : w ∈ parentsOf s2 b) (edgeC : w ∈ parentsOf s2 c) (up : Ancestor s2 w v) : b = c := by
  have upB : Ancestor s2 b v := Ancestor.above edgeB up
  have upC : Ancestor s2 c v := Ancestor.above edgeC up
  have order {x y : ObjVar} (changedX : Changed s s2 x) (edgeX : w ∈ parentsOf s2 x)
      (edgeY : w ∈ parentsOf s2 y) (upY : Ancestor s2 y v) (path : Ancestor s2 x y) : x = y := by
    rcases Relation.ReflTransGen.cases_head path with same | ⟨p, edge, rest⟩
    · exact same
    · have same := (moved.changed_parent separated changedX edgeX up).2 p edge (rest.trans upY)
      exact absurd (same ▸ rest) (moved.graph.no_cycle edgeY)
  rcases moved.comparable separated changed pathB pathC upB upC with path | path
  · exact order (moved.changed_chain separated changed pathB upB) edgeB edgeC upC path
  · exact (order (moved.changed_chain separated changed pathC upC) edgeC edgeB upB path).symm

end Moved

end Condition

section Recursion

def valuesOf (s : Db V) (v : ObjVar) : Option (List (Pval V)) := (s.object v).map Object.propval

def kidsOf (s : Db V) : ObjVar → List Nat
  | .obj oid => s.anonymousObjects oid
  | .anon _ => []

theorem SameUpTo.widths {s s' : Db V} (same : SameUpTo Object.unslotted s s') :
    propdefsLength s' = propdefsLength s := by
  funext v
  have view := congrArg (Option.map fun o => o.propdefs.length) (same.view v)
  rw [Option.map_map, Option.map_map] at view
  unfold propdefsLength
  cases found : s.object v <;> cases found' : s'.object v <;> simp_all [Object.unslotted]

theorem mem_childrenAndKids {s : Db V} (graph : WellFormed s) {w c : ObjVar} {o : Object V}
    (found : s.object w = some o) :
    c ∈ o.children.map ObjVar.obj ++ (kidsOf s w).map ObjVar.anon ↔ w ∈ parentsOf s c := by
  rw [List.mem_append, List.mem_map, List.mem_map]
  cases w with
  | anon a =>
      have none : o.children = [] := graph.childless a o.node (node_some.mpr ⟨o, found, rfl⟩)
      simp only [none, kidsOf, List.not_mem_nil, false_and, exists_false, or_self, false_iff]
      intro edge
      obtain ⟨p, isObj, -⟩ := WellFormed.parent_is_obj edge
      cases isObj
  | obj p =>
      cases c with
      | obj c =>
          rw [← graph.mem_children, mem_childrenOf]
          constructor
          · rintro (⟨_, member, same⟩ | ⟨_, _, same⟩) <;> cases same
            exact ⟨o, c, found, member,
              graph.childrenValid _ o.node (node_some.mpr ⟨o, found, rfl⟩) c member, rfl⟩
          · rintro ⟨o', _, found', member, -, same⟩
            rw [found] at found'
            cases found'
            cases same
            exact Or.inl ⟨c, member, rfl⟩
      | anon a =>
          rw [graph.mem_parents, ← graph.indexed]
          simp [kidsOf]

theorem childrenAndKids_nodup {s : Db V} (graph : WellFormed s) {w : ObjVar} {o : Object V}
    (found : s.object w = some o) :
    (o.children.map ObjVar.obj ++ (kidsOf s w).map ObjVar.anon).Nodup := by
  have children : o.children.Nodup :=
    graph.childrenNodup w o.node (node_some.mpr ⟨o, found, rfl⟩)
  have kids : (kidsOf s w).Nodup := by
    cases w with
    | obj p => exact graph.indexNodup p
    | anon a => exact List.nodup_nil
  rw [List.nodup_append]
  refine ⟨children.map fun _ _ same => ObjVar.obj.inj same,
    kids.map fun _ _ same => ObjVar.anon.inj same, ?_⟩
  intro x first y second same
  obtain ⟨_, _, rfl⟩ := List.mem_map.mp first
  obtain ⟨_, _, rfl⟩ := List.mem_map.mp second
  cases same

def fixChild (fuel : Nat) (w : ObjVar) (old new : List ObjVar) (s : Db V) (child : ObjVar) :
    Except Crash (Db V) := do
  let (oldAncestors, newAncestors) ← ancestorsThrough s w child old new
  dbprivFixPropertiesAfterChparent fuel child oldAncestors newAncestors (childAnonKids s child) s

theorem fix_eq {fuel : Nat} {w : ObjVar} {old new : List ObjVar} {kids : List Nat} {s : Db V}
    {me : Object V} (found : s.object w = some me)
    (fits : countSlots s old = me.propval.length) {slots : List (List (Pval V))}
    (ran : new.mapM (slotsOf s me old) = .ok slots) :
    dbprivFixPropertiesAfterChparent (fuel + 1) w old new kids s =
      (me.children.map ObjVar.obj ++ kids.map ObjVar.anon).foldlM (fixChild fuel w old new)
        (s.setObject w (some { me with propval := slots.flatten })) := by
  rw [dbprivFixPropertiesAfterChparent, Failing.bind_of_ok (Db.dereference_ok.mpr found)]
  simp only [fits, ne_eq, not_true_eq_false, if_false]
  rw [Failing.bind_of_ok ran]
  simp only [Db.modify, found]
  rfl

theorem foldl_addAll_pair {ι α : Type} [DecidableEq α] (f g : ι → List α) (items : List ι)
    (first second : List α) :
    items.foldl (fun lists item => (addAll lists.1 (f item), addAll lists.2 (g item)))
      (first, second) = (addAll first (items.flatMap f), addAll second (items.flatMap g)) := by
  induction items generalizing first second with
  | nil => rfl
  | cons item rest ih =>
      rw [List.foldl_cons, ih, List.flatMap_cons, List.flatMap_cons, addAll_append, addAll_append]

theorem parentsOf_list {s : Db V} (graph : WellFormed s) {c : ObjVar} {oc : Object V}
    (found : s.object c = some oc) {oids : List Int} (parents : oc.parents = .list oids) :
    (∀ p ∈ oids, s.valid p = true) ∧ parentsOf s c = oids.map .obj := by
  have valid : ∀ p ∈ oids, s.valid p = true := by
    intro p member
    refine graph.parentsValid c oc.node (node_some.mpr ⟨oc, found, rfl⟩) p ?_
    simpa [Object.node, parents, ObjOrList.named] using member
  refine ⟨valid, ?_⟩
  simp only [parentsOf, found, parents, enlistVar]
  rw [List.filter_eq_self.mpr valid]

theorem ancestorsThrough_ok {t : Db V} (graph : WellFormed t) {w c : ObjVar}
    (edge : w ∈ parentsOf t c) (old : List ObjVar) :
    ∃ given, ancestorsThrough t w c old (dbAncestors t w true) = .ok (given, dbAncestors t c true) ∧
      (parentsOf t c = [w] ∧ given = c :: old ∨ given = addAll [c] ((parentsOf t c).flatMap fun u =>
        if u = w then old else dbAncestors t u true)) := by
  obtain ⟨oc, p, found, member, valid, rfl⟩ := mem_parentsOf.mp edge
  unfold ancestorsThrough
  rw [Failing.bind_of_ok (Db.dereference_ok.mpr found)]
  cases parents : oc.parents with
  | obj q =>
      have samePQ : p = q := by simpa [parents, enlistVar] using member
      subst samePQ
      have only : parentsOf t c = [.obj p] := by
        simp [parentsOf, found, parents, enlistVar, valid]
      have below : dbAncestors t c true = c :: dbAncestors t (.obj p) true := by
        rw [graph.ancestors_eq, only, List.flatMap_singleton,
          addAll_of_nodup (graph.ancestors_nodup _)]
      refine ⟨c :: old, ?_, Or.inl ⟨only, rfl⟩⟩
      rw [below]
      rfl
  | list oids =>
      obtain ⟨allValid, parentsT⟩ := parentsOf_list graph found parents
      let pick (parent : Int) := if ObjVar.obj parent = .obj p then old else
        dbAncestors t (.obj parent) true
      refine ⟨addAll [c] (oids.flatMap pick), ?_, Or.inr (by rw [parentsT, List.flatMap_map])⟩
      have step (parent : Int) (member : parent ∈ oids)
          (lists : List ObjVar × List ObjVar) : (do
            let op ← t.dereference (.obj parent)
            if .obj op.id = ObjVar.obj p then
              return (addAll lists.1 old, addAll lists.2 (dbAncestors t (.obj p) true))
            let all := dbAncestors t (.obj op.id) true
            return (addAll lists.1 all, addAll lists.2 all)) =
            (.ok (addAll lists.1 (pick parent),
              addAll lists.2 (dbAncestors t (.obj parent) true)) :
              Except Crash (List ObjVar × List ObjVar)) := by
        obtain ⟨op, foundOp⟩ := Db.valid_iff.mp (allValid parent member)
        have id : op.id = parent :=
          (graph.numbered parent op.node (node_some.mpr ⟨op, foundOp, rfl⟩)).2.2
        rw [Failing.bind_of_ok (Db.dereference_ok.mpr foundOp), id]
        by_cases self : ObjVar.obj parent = .obj p
        · simp only [pick, self, if_true]
          rfl
        · simp only [pick, self, if_false]
          rfl
      simp only
      rw [Failing.foldlM_of_ok step, foldl_addAll_pair,
        graph.ancestors_eq c, ← addAll_singleton (graph.not_above_itself c), parentsT,
        List.flatMap_map]

namespace Moved

variable {s s2 : Db V} {v : ObjVar}

theorem through_ok (moved : Moved s s2 v) (separated : Separated s s2 v) {t : Db V}
    (same : SameUpTo Object.unslotted s2 t) {w c : ObjVar} (edge : w ∈ parentsOf s2 c)
    (up : Ancestor s2 w v) {old : List ObjVar}
    (sameOld : definers s old = definers s (dbAncestors s w true)) :
    ∃ given, ancestorsThrough t w c old (dbAncestors s2 w true) =
        .ok (given, dbAncestors s2 c true) ∧ c ∈ given ∧
      definers s given = definers s (dbAncestors s c true) := by
  have graph := same.graph.wellFormed moved.graph
  have other : c ≠ v := by
    rintro rfl
    exact moved.graph.no_cycle edge up
  have parentsC := moved.parents c other
  obtain ⟨given, ran, known⟩ := ancestorsThrough_ok graph (same.graph.parentsOf.symm ▸ edge) old
  rw [same.graph.dbAncestors] at ran
  rw [same.graph.parentsOf] at known
  refine ⟨given, ran, ?_⟩
  rcases known with ⟨only, rfl⟩ | rfl
  · refine ⟨List.mem_cons_self, ?_⟩
    have below : dbAncestors s c true = c :: dbAncestors s w true := by
      rw [moved.out.graph.ancestors_eq, ← parentsC, only, List.flatMap_singleton,
        addAll_of_nodup (moved.out.graph.ancestors_nodup _)]
    rw [below]
    unfold definers at sameOld ⊢
    rw [List.filter_cons, List.filter_cons, sameOld]
  · refine ⟨mem_addAll.mpr (Or.inl (by simp)), ?_⟩
    rw [definers_ancestors s moved.out.graph, ← parentsC]
    unfold definers
    rw [addAll_filter, List.filter_flatMap]
    congr 1
    refine List.flatMap_congr fun p edgeP => ?_
    by_cases self : p = w
    · simp only [self, if_true]
      exact sameOld
    · simp only [self, if_false]
      rw [same.graph.dbAncestors]
      have stable : ¬Changed s s2 p := by
        by_cases upP : Ancestor s2 p v
        · rcases separated c (Ancestor.above edge up) other with unique | stable
          · exact absurd (unique _ edgeP _ edge upP up) self
          · exact stable _ edgeP
        · exact mt moved.changed_below upP
      exact not_not.mp stable

end Moved

/-- What has to hold of `t`, on the way from `s2` to the final state, when `w` is visited. -/
structure Ready (s s2 t : Db V) (w : ObjVar) : Prop where
  same : SameUpTo Object.unslotted s2 t
  stable : ∀ u, ¬Changed s s2 u → valuesOf t u = valuesOf s u
  waiting : ∀ u, Changed s s2 u → Ancestor s2 u w → valuesOf t u = valuesOf s u
  above : ∀ u ∈ parentsOf s2 w, Changed s s2 u → Fitting t u (dbAncestors s2 u true)

/-- What the visit of `w` does. -/
structure Relaid (s s2 t t' : Db V) (w : ObjVar) : Prop where
  same : SameUpTo Object.unslotted t t'
  untouched : ∀ u, ¬(Changed s s2 u ∧ Ancestor s2 u w) → valuesOf t' u = valuesOf t u
  carried : ∀ u o, Changed s s2 u → Ancestor s2 u w → s.object u = some o →
    ∃ slots, valuesOf t' u = some slots ∧
      Carried (propdefsLength s) (dbAncestors s u true) (dbAncestors s2 u true) o.propval slots

theorem valuesOf_some {s : Db V} {u : ObjVar} {slots : List (Pval V)} :
    valuesOf s u = some slots ↔ ∃ o, s.object u = some o ∧ o.propval = slots := by
  simp [valuesOf]

namespace Moved

variable {s s2 : Db V} {v : ObjVar}

theorem fitting (moved : Moved s s2 v) {t : Db V} (same : SameUpTo Object.unslotted s2 t)
    {u : ObjVar} (stable : ¬Changed s s2 u) (values : valuesOf t u = valuesOf s u)
    {o : Object V} (found : t.object u = some o) : Fitting t u (dbAncestors s2 u true) := by
  have known : valuesOf s u = some o.propval := by rw [← values, valuesOf, found, Option.map_some]
  obtain ⟨before, foundBefore, slots⟩ := valuesOf_some.mp known
  have laid := (moved.out.laid foundBefore).of_filter (not_not.mp stable)
  rw [slots, ← moved.widths, ← same.widths] at laid
  exact ⟨o, _, found, laid⟩

theorem pass_ok (moved : Moved s s2 v) {t : Db V} {w : ObjVar} (ready : Ready s s2 t w)
    {me : Object V} (found : t.object w = some me) {old : List ObjVar} (own : w ∈ old)
    (sameOld : definers s old = definers s (dbAncestors s w true)) :
    countSlots t old = me.propval.length ∧
      ∃ slots, (dbAncestors s2 w true).mapM (slotsOf t me old) = .ok slots ∧
        ∃ o, s.object w = some o ∧ o.propval = me.propval ∧
          Carried (propdefsLength s) (dbAncestors s w true) (dbAncestors s2 w true) o.propval
            slots.flatten := by
  have widths : propdefsLength t = propdefsLength s := ready.same.widths.trans moved.widths
  have values : valuesOf t w = valuesOf s w := by
    by_cases changed : Changed s s2 w
    · exact ready.waiting w changed (Ancestor.self s2 w)
    · exact ready.stable w changed
  have known : valuesOf s w = some me.propval := by rw [← values, valuesOf, found, Option.map_some]
  obtain ⟨o, foundO, slotsO⟩ := valuesOf_some.mp known
  have laid := moved.out.laid foundO
  have given := laid.of_filter sameOld
  rw [slotsO] at given
  have parents : ∀ u ∈ parentsOf t w, Fitting t u (dbAncestors t u true) := by
    intro u edge
    have present : ∃ ou, t.object u = some ou := by
      obtain ⟨p, rfl, valid⟩ := WellFormed.parent_is_obj edge
      exact Db.valid_iff.mp valid
    obtain ⟨ou, foundU⟩ := present
    rw [ready.same.graph.parentsOf] at edge
    rw [ready.same.graph.dbAncestors]
    by_cases changed : Changed s s2 u
    · exact ready.above u edge changed
    · exact moved.fitting ready.same changed (ready.stable u changed) foundU
  have graph := ready.same.graph.wellFormed moved.graph
  rw [← widths] at given
  obtain ⟨slots, ran, carried⟩ := relay_ok graph found given own parents
  rw [ready.same.graph.dbAncestors] at ran carried
  refine ⟨given.length.symm, slots, ran, o, foundO, slotsO, ?_⟩
  rw [widths, ← slotsO] at carried
  exact carried.of_definers laid sameOld

end Moved

/-- The loop over the children of `w` with `rest` still to visit: `t0` is the state before the
pass over `w`, which left `mine` as its slots. -/
structure Halfway (s s2 t0 : Db V) (w : ObjVar) (mine : List (Pval V))
    (children rest : List ObjVar) (t : Db V) : Prop where
  same : SameUpTo Object.unslotted t0 t
  nodup : rest.Nodup
  subset : ∀ c ∈ rest, c ∈ children
  own : valuesOf t w = some mine
  untouched : ∀ u, u ≠ w → ¬(Changed s s2 u ∧ Ancestor s2 u w) → valuesOf t u = valuesOf t0 u
  pending : ∀ c ∈ rest, ∀ u, Changed s s2 u → Ancestor s2 u c → valuesOf t u = valuesOf t0 u
  finished : ∀ c ∈ children, c ∉ rest → ∀ u o, Changed s s2 u → Ancestor s2 u c →
    s.object u = some o → ∃ slots, valuesOf t u = some slots ∧
      Carried (propdefsLength s) (dbAncestors s u true) (dbAncestors s2 u true) o.propval slots

namespace Halfway

variable {s s2 t0 t : Db V} {v w : ObjVar} {mine : List (Pval V)} {children rest : List ObjVar}
  {c : ObjVar}

theorem ready (half : Halfway s s2 t0 w mine children (c :: rest) t) (moved : Moved s s2 v)
    (separated : Separated s s2 v) (before : Ready s s2 t0 w) (up : Ancestor s2 w v)
    (edge : w ∈ parentsOf s2 c) (stable : ¬Changed s s2 w → valuesOf s w = some mine)
    (fits : ∃ block, Laid (propdefsLength s) (dbAncestors s2 w true) block mine) :
    Ready s s2 t c where
  same := before.same.trans half.same
  stable u unchanged := by
    by_cases self : u = w
    · subst self
      rw [half.own, stable unchanged]
    · rw [half.untouched u self fun both => unchanged both.1, before.stable u unchanged]
  waiting u changed below := by
    rw [half.pending c (by simp) u changed below,
      before.waiting u changed (Relation.ReflTransGen.tail below edge)]
  above u edgeU changed := by
    have other : c ≠ v := by
      rintro rfl
      exact moved.graph.no_cycle edge up
    rcases separated c (Ancestor.above edge up) other with unique | stable
    · have same : u = w := unique u edgeU w edge (moved.changed_below changed) up
      subst same
      obtain ⟨o, found, slots⟩ := valuesOf_some.mp half.own
      obtain ⟨block, laid⟩ := fits
      refine ⟨o, block, found, ?_⟩
      rw [half.same.widths, before.same.widths, moved.widths, slots]
      exact laid
    · exact absurd changed (stable u edgeU)

theorem next (half : Halfway s s2 t0 w mine children (c :: rest) t) (moved : Moved s s2 v)
    (separated : Separated s s2 v) (up : Ancestor s2 w v)
    (edges : ∀ c ∈ children, w ∈ parentsOf s2 c) {t' : Db V} (visit : Relaid s s2 t t' c) :
    Halfway s s2 t0 w mine children rest t' := by
  have edge := edges c (half.subset c (by simp))
  have parts := List.nodup_cons.mp half.nodup
  have apart {u b : ObjVar} (member : b ∈ children) (other : b ≠ c) (changed : Changed s s2 u)
      (below : Ancestor s2 u b) : ¬Ancestor s2 u c := fun belowC =>
    other (moved.same_branch separated changed below belowC (edges b member) edge up)
  constructor
  · exact half.same.trans visit.same
  · exact parts.2
  · exact fun b member => half.subset b (by simp [member])
  · rw [visit.untouched w fun both => moved.graph.no_cycle edge both.2, half.own]
  · intro u other clear
    rw [visit.untouched u fun both =>
      clear ⟨both.1, Relation.ReflTransGen.tail both.2 edge⟩, half.untouched u other clear]
  · intro b member u changed below
    have other : b ≠ c := by
      rintro rfl
      exact parts.1 member
    rw [visit.untouched u fun both =>
      apart (half.subset b (by simp [member])) other changed below both.2,
      half.pending b (by simp [member]) u changed below]
  · intro b member done u o changed below found
    by_cases self : b = c
    · subst self
      exact visit.carried u o changed below found
    · rw [visit.untouched u fun both => apart member self changed below both.2]
      exact half.finished b member (by simp [self, done]) u o changed below found

end Halfway

def Reaches (rank : ObjVar → Nat) (fuel : Nat) : ObjVar → Prop
  | .obj oid => rank (.obj oid) + 2 ≤ fuel
  | .anon _ => 1 ≤ fuel

theorem Reaches.child {s : Db V} (graph : WellFormed s) {rank : ObjVar → Nat}
    (ranked : Ranked (childrenOf s) rank) {fuel : Nat} {w c : ObjVar}
    (enough : Reaches rank (fuel + 1) w) (edge : w ∈ parentsOf s c) : Reaches rank fuel c := by
  obtain ⟨p, rfl, -⟩ := WellFormed.parent_is_obj edge
  have fuelP : rank (.obj p) + 2 ≤ fuel + 1 := enough
  cases c with
  | obj c =>
      have smaller := ranked _ _ (graph.mem_children.mpr edge)
      show rank (.obj c) + 2 ≤ fuel
      omega
  | anon a =>
      show 1 ≤ fuel
      omega

/-- The recursion ends, never fails its assertion and never reads outside an array. -/
theorem Moved.fix_runs {s s2 : Db V} {v : ObjVar} (moved : Moved s s2 v)
    (separated : Separated s s2 v) {rank : ObjVar → Nat} (ranked : Ranked (childrenOf s2) rank)
    {fuel : Nat} {w : ObjVar} (enough : Reaches rank fuel w) (up : Ancestor s2 w v)
    {old : List ObjVar} (own : w ∈ old)
    (sameOld : definers s old = definers s (dbAncestors s w true)) {t : Db V}
    (ready : Ready s s2 t w) (present : ∃ o, t.object w = some o) :
    ∃ t', dbprivFixPropertiesAfterChparent fuel w old (dbAncestors s2 w true) (kidsOf s2 w) t =
      .ok t' ∧ Relaid s s2 t t' w := by
  induction fuel generalizing w old t with
  | zero => cases w <;> simp [Reaches] at enough
  | succ fuel ih =>
      obtain ⟨me, found⟩ := present
      obtain ⟨fits, slots, ran, o, foundO, slotsO, carried⟩ :=
        moved.pass_ok ready found own sameOld
      rw [fix_eq found fits ran]
      let t1 := t.setObject w (some { me with propval := slots.flatten })
      have graphT := ready.same.graph.wellFormed moved.graph
      have kids : kidsOf s2 w = kidsOf t w := by
        cases w with
        | obj p => exact (congrFun ready.same.index p).symm
        | anon a => rfl
      rw [kids]
      have edges (c : ObjVar)
          (member : c ∈ me.children.map ObjVar.obj ++ (kidsOf t w).map ObjVar.anon) :
          w ∈ parentsOf s2 c := by
        rw [← ready.same.graph.parentsOf]
        exact (mem_childrenAndKids graphT found).mp member
      have start : Halfway s s2 t w slots.flatten
          (me.children.map ObjVar.obj ++ (kidsOf t w).map ObjVar.anon)
          (me.children.map ObjVar.obj ++ (kidsOf t w).map ObjVar.anon) t1 := by
        have elsewhere (u : ObjVar) (other : u ≠ w) : valuesOf t1 u = valuesOf t u := by
          simp only [valuesOf, t1, Db.setObject_object, if_neg other]
        constructor
        · have assigned : t.modify w (fun o => { o with propval := slots.flatten }) = .ok t1 := by
            simp [Db.modify, found, t1]
          exact SameUpTo.of_modify (by intros; rfl) assigned
        · exact childrenAndKids_nodup graphT found
        · exact fun c member => member
        · simp [valuesOf, t1]
        · exact fun u other _ => elsewhere u other
        · intro c member u _ below
          refine elsewhere u ?_
          rintro rfl
          exact moved.graph.no_cycle (edges c member) below
        · exact fun c member outside => absurd member outside
      have stable (unchanged : ¬Changed s s2 w) : valuesOf s w = some slots.flatten := by
        rw [carried.same (not_not.mp unchanged)]
        exact valuesOf_some.mpr ⟨o, foundO, rfl⟩
      have laid : ∃ block, Laid (propdefsLength s) (dbAncestors s2 w true) block slots.flatten := by
        obtain ⟨_, block', -, laid', -⟩ := carried
        exact ⟨block', laid'⟩
      have steps (c : ObjVar) (rest : List ObjVar) (before : Db V)
          (half : Halfway s s2 t w slots.flatten
            (me.children.map ObjVar.obj ++ (kidsOf t w).map ObjVar.anon) (c :: rest) before) :
          ∃ after, fixChild fuel w old (dbAncestors s2 w true) before c = .ok after ∧
            Halfway s s2 t w slots.flatten
              (me.children.map ObjVar.obj ++ (kidsOf t w).map ObjVar.anon) rest after := by
        have edge := edges c (half.subset c (by simp))
        have readyC := half.ready moved separated ready up edge stable laid
        obtain ⟨given, through, ownC, sameC⟩ :=
          moved.through_ok separated readyC.same edge up sameOld
        have kidsC : childAnonKids before c = kidsOf s2 c := by
          cases c with
          | obj p =>
              show addAll [] (before.anonymousObjects p) = s2.anonymousObjects p
              rw [readyC.same.index, addAll_of_nodup (moved.graph.indexNodup p)]
          | anon a => rfl
        have presentC : ∃ o, before.object c = some o := by
          rw [← readyC.same.graph.parentsOf] at edge
          obtain ⟨o, _, foundC, -⟩ := mem_parentsOf.mp edge
          exact ⟨o, foundC⟩
        obtain ⟨after, visited, relaid⟩ := ih
          (enough.child moved.graph ranked edge) (Ancestor.above edge up) ownC sameC readyC
          presentC
        refine ⟨after, ?_, half.next moved separated up edges relaid⟩
        unfold fixChild
        rw [Failing.bind_of_ok through]
        simp only
        rw [kidsC]
        exact visited
      obtain ⟨t', looped, finish⟩ := Failing.foldlM_total _ steps start
      refine ⟨t', looped, finish.same, fun u clear => ?_, fun u before changed below foundU => ?_⟩
      · by_cases self : u = w
        · subst self
          have unchanged : ¬Changed s s2 u := fun changed => clear ⟨changed, Ancestor.self s2 u⟩
          rw [finish.own, ready.stable u unchanged, stable unchanged]
        · exact finish.untouched u self clear
      · rcases Relation.ReflTransGen.cases_tail below with same | ⟨c, path, edge⟩
        · subst same
          rw [foundO] at foundU
          cases foundU
          exact ⟨_, finish.own, carried⟩
        · have member : c ∈ me.children.map ObjVar.obj ++ (kidsOf t w).map ObjVar.anon := by
            rw [mem_childrenAndKids graphT found, ready.same.graph.parentsOf]
            exact edge
          exact finish.finished c member (by simp) u before changed path foundU

end Recursion

end ToastStunt
