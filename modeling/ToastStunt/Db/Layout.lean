import ToastStunt.Db.Naming

/-!
The layout of property slots: every object has one slot for each property that it
or an ancestor defines, ancestor by ancestor in the order of `db_ancestors`.
-/

namespace ToastStunt

open FirstVisit Blocks

variable {V : Type}

section Ancestors

variable {s s' : Db V}

theorem WellFormed.ancestors_preorder (graph : WellFormed s) {rank : ObjVar → Nat}
    (ranked : Ranked (parentsOf s) rank) (fuel : Nat) {v : ObjVar} (enough : rank v < fuel) :
    dbAncestors s v true = preorder (parentsOf s) fuel v := by
  obtain ⟨rank', ranked', bounded⟩ := graph.bounded_rank
  have same := visit_next ranked' (bounded v)
  simp only [dbAncestors, if_true, List.singleton_append]
  rw [same]
  let both (w : ObjVar) := min (rank w) (rank' w)
  have rankedBoth : Ranked (parentsOf s) both := by
    intro w u edge
    have first := ranked w u edge
    have second := ranked' w u edge
    simp only [both]
    omega
  have bound := bounded v
  exact preorder_fuel rankedBoth (by simp only [both]; omega) (by simp only [both]; omega)

theorem WellFormed.ancestors_nodup (graph : WellFormed s) (v : ObjVar) :
    (dbAncestors s v true).Nodup := by
  obtain ⟨rank, ranked, bounded⟩ := graph.bounded_rank
  rw [graph.ancestors_preorder ranked _ (bounded v)]
  exact preorder_nodup ranked (bounded v)

theorem WellFormed.ancestors_eq (graph : WellFormed s) (v : ObjVar) :
    dbAncestors s v true =
      v :: addAll [] ((parentsOf s v).flatMap fun u => dbAncestors s u true) := by
  obtain ⟨rank, ranked, bounded⟩ := graph.bounded_rank
  have enough := bounded v
  rw [graph.ancestors_preorder ranked _ (Nat.lt_succ_of_lt enough), preorder]
  have same : (parentsOf s v).flatMap (preorder (parentsOf s) (traversalDepth s)) =
      (parentsOf s v).flatMap fun u => dbAncestors s u true :=
    List.flatMap_congr fun u _ => (graph.ancestors_preorder ranked _ (bounded u)).symm
  rw [same]

theorem WellFormed.not_above_itself (graph : WellFormed s) (v : ObjVar) :
    v ∉ (parentsOf s v).flatMap fun u => dbAncestors s u true := by
  intro member
  obtain ⟨u, edge, above⟩ := List.mem_flatMap.mp member
  exact graph.no_cycle edge (graph.mem_ancestors.mp above)

theorem ancestors_congr (graph : WellFormed s) (graph' : WellFormed s') {v : ObjVar}
    (agree : ∀ w, Ancestor s v w → parentsOf s' w = parentsOf s w) :
    dbAncestors s' v true = dbAncestors s v true := by
  obtain ⟨rank, ranked, bounded⟩ := graph.bounded_rank
  obtain ⟨rank', ranked', bounded'⟩ := graph'.bounded_rank
  have enough := bounded v
  have enough' := bounded' v
  let fuel := traversalDepth s + traversalDepth s'
  rw [graph.ancestors_preorder ranked fuel (by omega),
    graph'.ancestors_preorder ranked' fuel (by omega)]
  exact preorder_congr agree

end Ancestors

section Slots

def slotsFor (s : Db V) (v a : ObjVar) : List (Pval V) :=
  match s.object v, propertiesOffset s a v with
  | some o, some start => (o.propval.drop start).take (propdefsLength s a)
  | _, _ => []

/-- Every object has as many slots as it and its ancestors define properties. -/
def SlotsFit (s : Db V) : Prop :=
  ∀ v o, s.object v = some o → o.propval.length = countSlots s (dbAncestors s v true)

def Inherits (s : Db V) (v a : ObjVar) : Prop :=
  (s.object v).isSome = true ∧ a ∈ dbAncestors s v true

/-- The slots for what is inherited before and after are those before, changed by `edit`; the
slots for what is newly inherited are clear. -/
def KeptBy (edit : ObjVar → ObjVar → List (Pval V) → List (Pval V)) (s s' : Db V) : Prop :=
  ∀ v a, Inherits s' v a →
    (Inherits s v a → slotsFor s' v a = edit v a (slotsFor s v a)) ∧
    (¬Inherits s v a → ∀ pval ∈ slotsFor s' v a, pval.var = .clear)

abbrev Kept (s s' : Db V) : Prop := KeptBy (fun _ _ slots => slots) s s'

structure LaidOut (s : Db V) : Prop where
  graph : WellFormed s
  bare : ∀ a, propdefsLength s (.anon a) = 0
  fit : SlotsFit s

variable {s s' : Db V}

theorem LaidOut.laid (out : LaidOut s) {v : ObjVar} {o : Object V} (found : s.object v = some o) :
    Laid (propdefsLength s) (dbAncestors s v true) (slotsFor s v) o.propval := by
  obtain ⟨block, laid⟩ := Laid.exists_of_length (out.graph.ancestors_nodup v) (out.fit v o found)
  refine laid.congr fun a member => ?_
  obtain ⟨start, offset⟩ := offset_of_mem (propdefsLength s) member
  have same : propertiesOffset s a v = some start := offset
  simp only [slotsFor, found, same]
  exact (laid.slice offset).2

/-- Slots that are laid out along the ancestors are found there. -/
theorem slotsFor_eq {v a : ObjVar} {o : Object V} {block : ObjVar → List (Pval V)}
    (found : s.object v = some o)
    (laid : Laid (propdefsLength s) (dbAncestors s v true) block o.propval)
    (member : a ∈ dbAncestors s v true) : slotsFor s v a = block a := by
  obtain ⟨start, offset⟩ := offset_of_mem (propdefsLength s) member
  have same : propertiesOffset s a v = some start := offset
  simp only [slotsFor, found, same]
  exact (laid.slice offset).2

theorem KeptBy.refl (s : Db V) : Kept s s :=
  fun _ _ inherits => ⟨fun _ => rfl, fun absent => absurd inherits absent⟩

theorem KeptBy.trans {edit edit' : ObjVar → ObjVar → List (Pval V) → List (Pval V)}
    {s1 s2 s3 : Db V} (first : KeptBy edit s1 s2) (second : KeptBy edit' s2 s3)
    (between : ∀ v a, Inherits s3 v a → Inherits s1 v a → Inherits s2 v a)
    (clears : ∀ v a slots, (∀ pval ∈ slots, pval.var = .clear) →
      ∀ pval ∈ edit' v a slots, pval.var = .clear) :
    KeptBy (fun v a slots => edit' v a (edit v a slots)) s1 s3 := by
  intro v a inherits
  constructor
  · intro old
    have middle := between v a inherits old
    rw [(second v a inherits).1 middle, (first v a middle).1 old]
  · intro new
    by_cases middle : Inherits s2 v a
    · rw [(second v a inherits).1 middle]
      exact clears v a _ ((first v a middle).2 new)
    · exact (second v a inherits).2 middle

theorem kept_of_same {f : Pval V → Pval V} (out : LaidOut s) (graph' : WellFormed s')
    (same : ∀ v o', s'.object v = some o' → ∃ o, s.object v = some o ∧
      o'.propval = o.propval.map f ∧ dbAncestors s' v true = dbAncestors s v true ∧
      ∀ a ∈ dbAncestors s v true, propdefsLength s' a = propdefsLength s a) :
    LaidOut s' ∧ KeptBy (fun _ _ slots => slots.map f) s s' := by
  refine ⟨⟨graph', fun a => ?_, fun v o' found' => ?_⟩, fun v a inherits => ?_⟩
  · cases found' : s'.object (.anon a) with
    | none => simp only [propdefsLength, found']
    | some o' =>
        obtain ⟨o, -, -, -, widths⟩ := same _ o' found'
        have own := out.graph.mem_ancestors.mpr (Ancestor.self s (.anon a))
        rw [widths _ own, out.bare]
  · obtain ⟨o, found, slots, order, widths⟩ := same v o' found'
    rw [slots, List.length_map, out.fit v o found, order, countSlots, countSlots, total, total,
      List.map_congr_left widths]
  · obtain ⟨o', found'⟩ := Option.isSome_iff_exists.mp inherits.1
    obtain ⟨o, found, slots, order, widths⟩ := same v o' found'
    have old : Inherits s v a := ⟨by rw [found]; rfl, order ▸ inherits.2⟩
    refine ⟨fun _ => ?_, fun absent => absurd old absent⟩
    have offset : propertiesOffset s' a v = propertiesOffset s a v := by
      rw [propertiesOffset, propertiesOffset, offsetIn, offsetIn, order]
      exact offset_congr fun b member _ => widths b member
    simp only [slotsFor, found, found', offset, widths a old.2]
    cases propertiesOffset s a v with
    | none => rfl
    | some start =>
        simp only
        rw [slots, List.map_take, List.map_drop]

theorem KeptBy.of_map_id (kept : KeptBy (fun _ _ slots => slots.map id) s s') : Kept s s' := by
  intro v a inherits
  refine ⟨fun old => ?_, (kept v a inherits).2⟩
  exact ((kept v a inherits).1 old).trans (List.map_id _)

end Slots

end ToastStunt
