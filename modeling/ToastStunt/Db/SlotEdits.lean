import ToastStunt.Db.SlotSteps

/-!
Adding and deleting a definition inserts or removes one slot in every object that
inherits from the definer.
-/

namespace ToastStunt

open FirstVisit Blocks

variable {V : Type}

section Descendants

variable {s : Db V}

theorem mem_foldl_anons (items : List ObjVar) (seen : List Nat) (a : Nat) :
    a ∈ items.foldl (fun seen v =>
      match v with
      | .obj oid => dbprivAppendAnonList s oid seen
      | .anon _ => seen) seen ↔
    a ∈ seen ∨ ∃ p, ObjVar.obj p ∈ items ∧ a ∈ s.anonymousObjects p := by
  induction items generalizing seen with
  | nil => simp
  | cons item rest ih =>
      rw [List.foldl_cons, ih]
      cases item with
      | obj p =>
          simp only [dbprivAppendAnonList, mem_addAll, List.mem_cons, ObjVar.obj.injEq]
          constructor
          · rintro ((old | here) | ⟨q, member, later⟩)
            · exact Or.inl old
            · exact Or.inr ⟨p, Or.inl rfl, here⟩
            · exact Or.inr ⟨q, Or.inr member, later⟩
          · rintro (old | ⟨q, rfl | member, later⟩)
            · exact Or.inl (Or.inl old)
            · exact Or.inl (Or.inr later)
            · exact Or.inr ⟨q, member, later⟩
      | anon b => simp

theorem foldl_anons_nodup (items : List ObjVar) {seen : List Nat} (nodup : seen.Nodup) :
    (items.foldl (fun seen v =>
      match v with
      | .obj oid => dbprivAppendAnonList s oid seen
      | .anon _ => seen) seen).Nodup := by
  induction items generalizing seen with
  | nil => exact nodup
  | cons item rest ih =>
      rw [List.foldl_cons]
      cases item with
      | obj p => exact ih (addAll_nodup _ nodup)
      | anon b => exact ih nodup

theorem WellFormed.descendants_nodup (graph : WellFormed s) (root : Int) :
    (dbDescendants s (.obj root) true).Nodup := by
  obtain ⟨rank, ranked, bounded⟩ := graph.ranked_children
  have same := visit_next ranked (bounded (.obj root))
  simp only [dbDescendants, if_true, List.singleton_append]
  rw [same]
  exact preorder_nodup ranked (bounded _)

theorem descendantsWithAnons_spec (graph : WellFormed s) {root : Int}
    (valid : s.valid root = true) : (descendantsWithAnons s root).Nodup ∧
      ∀ v, v ∈ descendantsWithAnons s root ↔
        v ≠ .obj root ∧ (s.object v).isSome = true ∧ .obj root ∈ dbAncestors s v true := by
  have whole : dbDescendants s (.obj root) true = .obj root :: dbDescendants s (.obj root) false :=
    rfl
  have nodup := graph.descendants_nodup root
  rw [whole, List.nodup_cons] at nodup
  have members (c : Int) : ObjVar.obj c ∈ dbDescendants s (.obj root) false ↔
      c ≠ root ∧ Ancestor s (.obj c) (.obj root) := by
    have full := @WellFormed.mem_descendants _ _ graph root (.obj c)
    rw [whole, List.mem_cons] at full
    constructor
    · intro member
      refine ⟨?_, (full.mp (Or.inr member)).2⟩
      rintro rfl
      exact nodup.1 member
    · rintro ⟨other, path⟩
      rcases full.mpr ⟨⟨c, rfl⟩, path⟩ with same | member
      · exact absurd (ObjVar.obj.inj same) other
      · exact member
  have onlyObj (v : ObjVar) (member : v ∈ dbDescendants s (.obj root) false) :
      ∃ c, v = .obj c :=
    (graph.mem_descendants.mp (whole ▸ List.mem_cons_of_mem _ member)).1
  have anons (a : Nat) : a ∈ (ObjVar.obj root :: dbDescendants s (.obj root) false).foldl
      (fun seen v =>
        match v with
        | .obj oid => dbprivAppendAnonList s oid seen
        | .anon _ => seen) [] ↔
      (s.object (.anon a)).isSome = true ∧ .obj root ∈ dbAncestors s (.anon a) true := by
    rw [mem_foldl_anons, graph.mem_ancestors, ← whole]
    simp only [List.not_mem_nil, false_or]
    constructor
    · rintro ⟨p, member, indexed⟩
      have edge := graph.mem_parents.mpr ((graph.indexed p a).mp indexed)
      obtain ⟨o, -, found, -⟩ := mem_parentsOf.mp edge
      refine ⟨by rw [found]; rfl, ?_⟩
      exact Ancestor.above edge (graph.mem_descendants.mp member).2
    · rintro ⟨-, path⟩
      rcases Relation.ReflTransGen.cases_head path with same | ⟨u, edge, rest⟩
      · cases same
      · obtain ⟨p, rfl, -⟩ := WellFormed.parent_is_obj edge
        exact ⟨p, graph.mem_descendants.mpr ⟨⟨p, rfl⟩, rest⟩,
          (graph.indexed p a).mpr (graph.mem_parents.mp edge)⟩
  constructor
  · unfold descendantsWithAnons
    rw [List.nodup_append]
    refine ⟨nodup.2, (foldl_anons_nodup _ List.nodup_nil).map fun _ _ => ObjVar.anon.inj, ?_⟩
    intro v first w second same
    obtain ⟨c, rfl⟩ := onlyObj v first
    obtain ⟨_, -, rfl⟩ := List.mem_map.mp second
    cases same
  · intro v
    unfold descendantsWithAnons
    simp only [List.mem_append, List.mem_map]
    cases v with
    | obj c =>
        rw [members, graph.mem_ancestors]
        constructor
        · rintro (⟨other, path⟩ | ⟨_, _, same⟩)
          · refine ⟨by simpa using other, ?_, path⟩
            rcases Relation.ReflTransGen.cases_head path with same | ⟨u, edge, -⟩
            · exact absurd (ObjVar.obj.inj same) other
            · obtain ⟨o, -, found, -⟩ := mem_parentsOf.mp edge
              rw [found]
              rfl
          · cases same
        · rintro ⟨other, -, path⟩
          exact Or.inl ⟨by simpa using other, path⟩
    | anon a =>
        constructor
        · rintro (member | ⟨b, indexed, same⟩)
          · obtain ⟨c, same⟩ := onlyObj _ member
            cases same
          · cases same
            exact ⟨nofun, (anons a).mp indexed⟩
        · rintro ⟨-, inherits⟩
          exact Or.inr ⟨a, (anons a).mpr inherits, rfl⟩

end Descendants

section Loop

theorem foldlM_each {ι : Type} {step : Db V → ι → Except Crash (Db V)} {key : ι → ObjVar}
    {f : ι → Object V → Object V} {items : List ι} {s : Db V} (nodup : (items.map key).Nodup)
    (runs : ∀ i ∈ items, ∃ o, s.object (key i) = some o ∧
      ∀ t, t.object (key i) = some o → step t i = t.modify (key i) (f i))
    (unseen : ∀ i o, (f i o).unslotted = o.unslotted) :
    ∃ s', items.foldlM step s = .ok s' ∧ SameUpTo Object.unslotted s s' ∧
      (∀ i ∈ items, s'.object (key i) = (s.object (key i)).map (f i)) ∧
      ∀ v, v ∉ items.map key → s'.object v = s.object v := by
  induction items generalizing s with
  | nil => exact ⟨s, rfl, SameUpTo.refl s, nofun, fun _ _ => rfl⟩
  | cons item rest ih =>
      obtain ⟨o, found, run⟩ := runs item (by simp)
      rw [List.map_cons, List.nodup_cons] at nodup
      have changed : s.modify (key item) (f item) =
          .ok (s.setObject (key item) (some (f item o))) := by
        simp [Db.modify, found]
      have apart {other : ι} (member : other ∈ rest) : key other ≠ key item := by
        intro same
        exact nodup.1 (same ▸ List.mem_map_of_mem member)
      have ready : ∀ i ∈ rest, ∃ o', (s.setObject (key item) (some (f item o))).object (key i) =
          some o' ∧ ∀ t, t.object (key i) = some o' → step t i = t.modify (key i) (f i) := by
        intro other member
        obtain ⟨o', found', run'⟩ := runs other (by simp [member])
        exact ⟨o', by rw [Db.setObject_object, if_neg (apart member)]; exact found', run'⟩
      obtain ⟨s', ran, same, each, others⟩ := ih nodup.2 ready
      refine ⟨s', ?_, ?_, ?_, ?_⟩
      · rw [List.foldlM_cons, run s found, changed]
        exact ran
      · exact (SameUpTo.of_modify (fun o _ => unseen item o) changed).trans same
      · intro i member
        rcases List.mem_cons.mp member with rfl | inside
        · rw [others _ nodup.1, Db.setObject_object, if_pos rfl, found, Option.map_some]
        · rw [each i inside, Db.setObject_object, if_neg (apart inside)]
      · intro v outside
        rw [List.map_cons, List.mem_cons, not_or] at outside
        rw [others v outside.2, Db.setObject_object, if_neg outside.1]

end Loop

section Edits

variable {s s' : Db V} {oid : Int}

theorem Redefined.widths {f : List Propdef → List Propdef} (redefined : Redefined s s' oid f)
    {o : Object V} (found : s.object (.obj oid) = some o) :
    propdefsLength s' =
      Function.update (propdefsLength s) (.obj oid) (f o.propdefs).length := by
  funext w
  by_cases same : w = .obj oid
  · subst same
    obtain ⟨s1, defined, look⟩ := redefined
    obtain ⟨o', found1, rfl⟩ := Db.modify_ok defined
    cases found.symm.trans found1
    rw [look.widths, Function.update_self]
    simp [propdefsLength]
  · rw [Function.update_of_ne same]
    exact propdefsLength_eq (redefined.elsewhere same)

theorem edited_kept {f : List Propdef → List Propdef} (redefined : Redefined s s' oid f)
    (out : LaidOut s) (edit : ObjVar → List (Pval V) → List (Pval V))
    (laid : ∀ v o', s'.object v = some o' →
      Laid (propdefsLength s') (dbAncestors s v true)
        (Function.update (slotsFor s v) (.obj oid) (edit v (slotsFor s v (.obj oid))))
        o'.propval) :
    LaidOut s' ∧ KeptBy (fun v a slots => if a = .obj oid then edit v slots else slots) s s' := by
  have order := redefined.sameGraph.dbAncestors
  refine ⟨⟨redefined.sameGraph.wellFormed out.graph, fun a => ?_, fun v o' found' => ?_⟩, ?_⟩
  · have other : ObjVar.anon a ≠ .obj oid := nofun
    rw [propdefsLength_eq (redefined.elsewhere other), out.bare]
  · rw [order]
    exact (laid v o' found').length
  · intro v a inherits
    obtain ⟨o', found'⟩ := Option.isSome_iff_exists.mp inherits.1
    have old : Inherits s v a := by
      refine ⟨?_, order ▸ inherits.2⟩
      have same := congrArg Option.isSome (redefined.sameGraph.node v)
      rw [Db.node, Db.node, Option.isSome_map, Option.isSome_map, inherits.1] at same
      exact same.symm
    refine ⟨fun _ => ?_, fun absent => absurd old absent⟩
    have here := laid v o' found'
    rw [← order] at here
    rw [slotsFor_eq found' here inherits.2]
    by_cases same : a = .obj oid
    · subst same
      rw [Function.update_self]
      exact (if_pos rfl).symm
    · rw [Function.update_of_ne same]
      exact (if_neg same).symm

/-- One pass over the definer and what inherits from it, which edits each object at the slot
of the definition. -/
theorem edits_run {n : Nat} {first : Db V → Except Crash (Db V)}
    {step : Db V → ObjVar → Int → Except Crash (Db V)}
    (change : ObjVar → Nat → Object V → Object V) (graph : WellFormed s)
    (valid : s.valid oid = true)
    (unseen : ∀ v i o, (change v i o).unslotted = o.unslotted)
    (ranFirst : first s = s.modify (.obj oid) (change (.obj oid) n))
    (runs : ∀ v o start, v ≠ .obj oid → s.object v = some o →
      propertiesOffset s (.obj oid) v = some start → ∀ t : Db V, t.object v = some o →
        step t v ((start : Int) + n) = t.modify v (change v (start + n))) :
    ∃ s', (first s >>= fun s =>
      ((descendantsWithAnons s oid).map fun v => (v, offsetOrMinusOne s (.obj oid) v)).foldlM
        (fun s entry => step s entry.1 (entry.2 + n)) s) = .ok s' ∧
      SameUpTo Object.unslotted s s' ∧
      ∀ v o', s'.object v = some o' → ∃ o, s.object v = some o ∧
        match propertiesOffset s (.obj oid) v with
        | none => o' = o
        | some start => o' = change v (start + n) o := by
  obtain ⟨root, foundRoot⟩ := Db.valid_iff.mp valid
  have ran1 : s.modify (.obj oid) (change (.obj oid) n) =
      .ok (s.setObject (.obj oid) (some (change (.obj oid) n root))) := by
    simp [Db.modify, foundRoot]
  let s1 := s.setObject (.obj oid) (some (change (.obj oid) n root))
  have same1 : SameUpTo Object.unslotted s s1 :=
    SameUpTo.of_modify (fun o _ => unseen _ _ o) ran1
  have graph1 := same1.graph.wellFormed graph
  have offsets (v : ObjVar) : propertiesOffset s1 (.obj oid) v = propertiesOffset s (.obj oid) v := by
    rw [propertiesOffset, propertiesOffset, offsetIn, offsetIn, same1.graph.dbAncestors, same1.widths]
  have valid1 : s1.valid oid = true := by
    rw [same1.graph.valid]
    exact valid
  obtain ⟨nodup, members⟩ := descendantsWithAnons_spec graph1 valid1
  let items := (descendantsWithAnons s1 oid).map fun v => (v, offsetOrMinusOne s1 (.obj oid) v)
  have keys : items.map Prod.fst = descendantsWithAnons s1 oid := by
    simp [items, Function.comp_def]
  have ready : ∀ entry ∈ items, ∃ o, s1.object entry.1 = some o ∧
      ∀ t, t.object entry.1 = some o → step t entry.1 (entry.2 + n) =
        t.modify entry.1 (change entry.1 (entry.2.toNat + n)) := by
    intro entry member
    obtain ⟨v, inside, rfl⟩ := List.mem_map.mp member
    obtain ⟨other, present, above⟩ := (members v).mp inside
    obtain ⟨o, found⟩ := Option.isSome_iff_exists.mp present
    obtain ⟨start, offset⟩ := offset_of_mem (propdefsLength s1) above
    have offset1 : propertiesOffset s1 (.obj oid) v = some start := offset
    have found0 : s.object v = some o := by
      rw [Db.setObject_object, if_neg other] at found
      exact found
    refine ⟨o, found, fun t here => ?_⟩
    simp only [offsetOrMinusOne, offset1, Int.toNat_natCast]
    exact runs v o start other found0 ((offsets v).symm.trans offset1) t here
  obtain ⟨s2, ran2, same2, each, others⟩ := foldlM_each (f := fun entry : ObjVar × Int =>
    change entry.1 (entry.2.toNat + n)) (keys ▸ nodup) ready fun entry o => unseen _ _ o
  refine ⟨s2, ?_, same1.trans same2, fun v o' found' => ?_⟩
  · rw [ranFirst, ran1]
    exact ran2
  by_cases isRoot : v = .obj oid
  · subst isRoot
    have apart : ObjVar.obj oid ∉ items.map Prod.fst := by
      rw [keys, members]
      exact fun inside => inside.1 rfl
    rw [others _ apart, Db.setObject_object, if_pos rfl] at found'
    have zero : propertiesOffset s (.obj oid) (.obj oid) = some 0 := by
      simp [propertiesOffset, offsetIn, dbAncestors, offset]
    refine ⟨root, foundRoot, ?_⟩
    rw [zero]
    simp only [Nat.zero_add]
    exact (Option.some.inj found').symm
  · by_cases inside : v ∈ descendantsWithAnons s1 oid
    · obtain ⟨-, present, above⟩ := (members v).mp inside
      obtain ⟨start, offset⟩ := offset_of_mem (propdefsLength s1) above
      have offset1 : propertiesOffset s1 (.obj oid) v = some start := offset
      have changed := each (v, offsetOrMinusOne s1 (.obj oid) v) (List.mem_map_of_mem inside)
      rw [found', Db.setObject_object, if_neg isRoot, eq_comm, Option.map_eq_some_iff] at changed
      obtain ⟨o, found, changed⟩ := changed
      refine ⟨o, found, ?_⟩
      rw [← offsets, offset1]
      simp only [offsetOrMinusOne, offset1, Int.toNat_natCast] at changed
      exact changed.symm
    · rw [others v (keys ▸ inside), Db.setObject_object, if_neg isRoot] at found'
      refine ⟨o', found', ?_⟩
      have outside : propertiesOffset s (.obj oid) v = none := by
        refine offset_none.mpr fun above => inside ((members v).mpr ⟨isRoot, ?_, ?_⟩)
        · rw [Db.setObject_object, if_neg isRoot, found']
          rfl
        · rw [same1.graph.dbAncestors]
          exact above
      rw [outside]

theorem Redefined.offsets {f : List Propdef → List Propdef} (redefined : Redefined s s' oid f)
    (v : ObjVar) : propertiesOffset s' (.obj oid) v = propertiesOffset s (.obj oid) v := by
  rw [propertiesOffset, propertiesOffset, offsetIn, offsetIn, redefined.sameGraph.dbAncestors]
  exact offset_congr fun w _ other => propdefsLength_eq (redefined.elsewhere other)

theorem LaidOut.width {s : Db V} {o : Object V} (found : s.object (.obj oid) = some o) :
    propdefsLength s (.obj oid) = o.propdefs.length := by
  simp only [propdefsLength, found]

def ownerOf (s : Db V) (v : ObjVar) : Int :=
  match s.object v with
  | none => NOTHING
  | some o => o.owner

def addedSlot (s : Db V) (oid : Int) (pval : Pval V) (v : ObjVar) : Pval V :=
  (if v = .obj oid then pval else { pval with var := .clear }).ownedBy (ownerOf s v)

theorem insertProp2_at {t : Db V} {v : ObjVar} {o : Object V} {pval : Pval V} {i : Nat}
    (found : t.object v = some o) (inside : i ≤ o.propval.length) :
    insertProp2 t v i pval = t.modify v fun o =>
      { o with propval := o.propval.insertIdx i (pval.ownedBy o.owner) } := by
  unfold insertProp2
  rw [Failing.bind_of_ok (Db.dereference_ok.mpr found), if_neg (by omega), Int.toNat_natCast]

theorem modify_congr {t : Db V} {v : ObjVar} {o : Object V} {f g : Object V → Object V}
    (found : t.object v = some o) (same : f o = g o) : t.modify v f = t.modify v g := by
  simp only [Db.modify, found, same]

theorem defined_object {f : List Propdef → List Propdef} {s1 : Db V}
    (defined : s.modify (.obj oid) (fun o => { o with propdefs := f o.propdefs }) = .ok s1)
    {v : ObjVar} {o1 : Object V} (here : s1.object v = some o1) :
    ∃ o, s.object v = some o ∧ o1.propval = o.propval ∧ o1.owner = o.owner := by
  obtain ⟨o, found, rfl⟩ := Db.modify_ok defined
  rw [Db.setObject_object] at here
  split at here
  · rename_i same
    cases here
    exact ⟨o, same ▸ found, rfl, rfl⟩
  · exact ⟨o1, here, rfl, rfl⟩

theorem edits_kept {f : List Propdef → List Propdef} {s1 : Db V} {n : Nat}
    (first : Db V → Except Crash (Db V)) (step : Db V → ObjVar → Int → Except Crash (Db V))
    (change : ObjVar → Nat → List (Pval V) → List (Pval V))
    (edit : ObjVar → List (Pval V) → List (Pval V)) (out : LaidOut s) {o : Object V}
    (found : s.object (.obj oid) = some o)
    (defined : s.modify (.obj oid) (fun o => { o with propdefs := f o.propdefs }) = .ok s1)
    (runs : ∀ v o1 start, s1.object v = some o1 →
      start + o.propdefs.length ≤ o1.propval.length → ∀ t : Db V, t.object v = some o1 →
        (v = .obj oid → start = 0 → first t = t.modify v fun o =>
          { o with propval := change v n o.propval }) ∧
        (v ≠ .obj oid → step t v ((start : Int) + n) = t.modify v fun o =>
          { o with propval := change v (start + n) o.propval }))
    (laid : ∀ v old start, s.object v = some old →
      propertiesOffset s (.obj oid) v = some start →
      Laid (Function.update (propdefsLength s) (.obj oid) (f o.propdefs).length)
        (dbAncestors s v true)
        (Function.update (slotsFor s v) (.obj oid) (edit v (slotsFor s v (.obj oid))))
        (change v (start + n) old.propval)) :
    ∃ s', (first s1 >>= fun s =>
      ((descendantsWithAnons s oid).map fun v => (v, offsetOrMinusOne s (.obj oid) v)).foldlM
        (fun s entry => step s entry.1 (entry.2 + n)) s) = .ok s' ∧ LaidOut s' ∧
      KeptBy (fun v a slots => if a = .obj oid then edit v slots else slots) s s' := by
  have redefined1 : Redefined s s1 oid f := ⟨s1, defined, SameUpTo.refl s1⟩
  have room (v : ObjVar) (o1 : Object V) (start : Nat) (here : s1.object v = some o1)
      (offset : propertiesOffset s1 (.obj oid) v = some start) :
      start + o.propdefs.length ≤ o1.propval.length := by
    obtain ⟨old, foundOld, same, -⟩ := defined_object defined here
    rw [redefined1.offsets] at offset
    have bound := ((out.laid foundOld).slice offset).1
    rwa [LaidOut.width found, ← same] at bound
  have valid1 : s1.valid oid = true := by
    rw [redefined1.sameGraph.valid]
    exact Db.valid_iff.mpr ⟨o, found⟩
  obtain ⟨root, foundRoot⟩ := Db.valid_iff.mp valid1
  have zero : propertiesOffset s1 (.obj oid) (.obj oid) = some 0 := by
    simp [propertiesOffset, offsetIn, dbAncestors, offset]
  obtain ⟨s', ran, same, each⟩ := edits_run
    (fun v i o => { o with propval := change v i o.propval })
    (redefined1.sameGraph.wellFormed out.graph) valid1 (fun v i o => rfl)
    ((runs _ root 0 foundRoot (room _ root 0 foundRoot zero) s1 foundRoot).1 rfl rfl)
    (fun v o1 start other here offset t found1 =>
      (runs v o1 start here (room v o1 start here offset) t found1).2 other)
  have redefined : Redefined s s' oid f := ⟨s1, defined, same⟩
  refine ⟨s', ran, edited_kept redefined out edit fun v o' found' => ?_⟩
  obtain ⟨o1, here, changed⟩ := each v o' found'
  obtain ⟨old, foundOld, values, -⟩ := defined_object defined here
  rw [redefined.widths found]
  rw [redefined1.offsets] at changed
  cases offset : propertiesOffset s (.obj oid) v with
  | none =>
      have apart {w : ObjVar} (member : w ∈ dbAncestors s v true) : w ≠ .obj oid := by
        rintro rfl
        exact offset_none.mp offset member
      rw [offset] at changed
      have unchanged : o' = o1 := changed
      rw [unchanged, values]
      refine ((out.laid foundOld).congr fun w member => ?_).width_congr fun w member => ?_
      · rw [Function.update_of_ne (apart member)]
      · rw [Function.update_of_ne (apart member)]
  | some start =>
      rw [offset] at changed
      have edited : o' = { o1 with propval := change v (start + n) o1.propval } := changed
      rw [edited, values]
      exact laid v old start foundOld offset

theorem LaidOut.block (out : LaidOut s) {o old : Object V} (found : s.object (.obj oid) = some o)
    {v : ObjVar} (foundOld : s.object v = some old) {start : Nat}
    (offset : propertiesOffset s (.obj oid) v = some start) :
    (slotsFor s v (.obj oid)).length = o.propdefs.length := by
  rw [← LaidOut.width found]
  exact (out.laid foundOld).width_eq _ (mem_of_offset offset)

theorem insertPropRecursively_kept (out : LaidOut s) {o : Object V}
    (found : s.object (.obj oid) = some o) {s1 : Db V} {f : List Propdef → List Propdef}
    (defined : s.modify (.obj oid) (fun o => { o with propdefs := f o.propdefs }) = .ok s1)
    (longer : (f o.propdefs).length = o.propdefs.length + 1) (pval : Pval V) :
    ∃ s', insertPropRecursively s1 oid o.propdefs.length pval = .ok s' ∧ LaidOut s' ∧
      KeptBy (fun v a slots => if a = .obj oid then slots ++ [addedSlot s oid pval v] else slots)
        s s' := by
  refine edits_kept (fun s => insertProp2 s (.obj oid) o.propdefs.length pval)
    (fun s v i => insertProp2 s v i { pval with var := .clear })
    (fun v i slots => slots.insertIdx i (addedSlot s oid pval v))
    (fun v slots => slots ++ [addedSlot s oid pval v]) out found defined ?_ ?_
  · intro v o1 start here room t found1
    obtain ⟨old, foundOld, -, owner⟩ := defined_object defined here
    have owned : ownerOf s v = o1.owner := by simp only [ownerOf, foundOld, owner]
    constructor
    · rintro rfl rfl
      rw [insertProp2_at found1 (by omega)]
      refine modify_congr found1 ?_
      rw [addedSlot, if_pos rfl, owned]
    · intro other
      refine (insertProp2_at found1 (i := start + o.propdefs.length) room).trans ?_
      refine modify_congr found1 ?_
      rw [addedSlot, if_neg other, owned]
  · intro v old start foundOld offset
    have inserted := (out.laid foundOld).insert (out.graph.ancestors_nodup v) offset
      (i := o.propdefs.length) (LaidOut.width found).ge (addedSlot s oid pval v)
    have atEnd : (slotsFor s v (.obj oid)).insertIdx o.propdefs.length (addedSlot s oid pval v) =
        slotsFor s v (.obj oid) ++ [addedSlot s oid pval v] := by
      rw [← out.block found foundOld offset, List.insertIdx_length_self]
    rwa [atEnd, LaidOut.width found, ← longer] at inserted

theorem removeProp2_at {t : Db V} {v : ObjVar} {o : Object V} {i : Nat}
    (found : t.object v = some o) (inside : i < o.propval.length) :
    removeProp2 t v i = t.modify v fun o => { o with propval := o.propval.eraseIdx i } := by
  unfold removeProp2
  rw [Failing.bind_of_ok (Db.dereference_ok.mpr found), if_neg (by omega), Int.toNat_natCast]

theorem removePropRecursively_kept (out : LaidOut s) {o : Object V}
    (found : s.object (.obj oid) = some o) {s1 : Db V} {f : List Propdef → List Propdef} {n : Nat}
    (defined : s.modify (.obj oid) (fun o => { o with propdefs := f o.propdefs }) = .ok s1)
    (inside : n < o.propdefs.length)
    (shorter : (f o.propdefs).length = o.propdefs.length - 1) :
    ∃ s', removePropRecursively s1 oid n = .ok s' ∧ LaidOut s' ∧
      KeptBy (fun _ a slots => if a = .obj oid then slots.eraseIdx n else slots) s s' := by
  refine edits_kept (fun s => removeProp2 s (.obj oid) n) (fun s v i => removeProp2 s v i)
    (fun _ i slots => slots.eraseIdx i) (fun _ slots => slots.eraseIdx n) out found defined ?_ ?_
  · intro v o1 start here room t found1
    constructor
    · rintro rfl rfl
      exact removeProp2_at found1 (by omega)
    · intro other
      exact removeProp2_at found1 (i := start + n) (by omega)
  · intro v old start foundOld offset
    have erased := (out.laid foundOld).erase (out.graph.ancestors_nodup v) offset (i := n)
      (by rw [LaidOut.width found]; exact inside)
    rwa [LaidOut.width found, ← shorter] at erased

end Edits

end ToastStunt
