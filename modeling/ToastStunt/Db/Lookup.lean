import ToastStunt.Db.Relaying

/-!
The value that `db_find_property` returns for a property, from db_properties.cc, where
clear values are resolved along the parents, and what property.cc does to clear a value.
-/

namespace ToastStunt

open FirstVisit Blocks

variable {V : Type}

/-- What a pointer into `propval` points to. -/
def slotAt (o : Object V) (position : Int) : Except Crash (Pval V) :=
  if position < 0 then .error .outOfBounds
  else
    match o.propval[position.toNat]? with
    | some pval => .ok pval
    | none => .error .outOfBounds

/-- `o->propval + 0` is null where there are no slots. -/
def PropHandle.isNull (o : Object V) : PropHandle → Bool
  | .builtIn _ => false
  | .slot _ position => position = 0 && o.propval.isEmpty

def dbFindHandle (s : Db V) (obj : ObjVar) (o : Object V) (name : CString) : Option PropHandle :=
  (dbFindProperty s obj name).filter (!·.isNull o)

def checkedOffset (s : Db V) (target this : ObjVar) : Except Crash (Option Nat) :=
  if target = this then .ok (some 0)
  else do
    let _ ← s.dereference this
    return propertiesOffset s target this

/-- The loop over the parents leaves the last one, and -1, where no parent has the definer; an
empty list leaves `parent` as it was declared. -/
def parentWithOffset (s : Db V) (definer : ObjVar) : List Int → Except Crash (Int × Int)
  | [] => .error .nullDereference
  | parent :: rest => do
      match ← checkedOffset s definer (.obj parent) with
      | some offset => return (parent, offset)
      | none => if rest = [] then return (parent, -1) else parentWithOffset s definer rest

/-- The loop `while (prop->var.type == TYPE_CLEAR)`. For an object without parents nothing changes
in a turn, so that it does not end. -/
def resolveClear (s : Db V) (definer : Int) (i : Nat) :
    Nat → Object V → Pval V → Except Crash V
  | 0, _, _ => .error .unbounded
  | fuel + 1, o, prop =>
      match prop.var with
      | .value v => .ok v
      | .clear =>
          if o.parents = .obj NOTHING then resolveClear s definer i fuel o prop
          else do
            let (parent, offset) ← parentWithOffset s (.obj definer) (enlistVar o.parents)
            let o ← s.dereference (.obj parent)
            resolveClear s definer i fuel o (← slotAt o (offset + i))

/-- The built-in properties are fields of the object; `getBiValue` says which value each has. -/
def dbFindPropertyValue (getBiValue : Object V → Nat → V) (s : Db V) (obj : ObjVar)
    (name : CString) : Except Crash (Option (PropHandle × V)) := do
  let o ← s.dereference obj
  match dbFindHandle s obj o name with
  | none => return none
  | some (.builtIn index) => return some (.builtIn index, getBiValue o index)
  | some (.slot definer position) =>
      let d ← s.dereference definer
      let i := d.propdefs.findIdx fun p => p.named name (strHash name)
      let prop ← slotAt o position
      let value ← resolveClear s d.id i (traversalDepth s) o prop
      return some (.slot definer position, value)

def dbSetPropertyValue (s : Db V) (obj : ObjVar) (position : Nat) (var : PropVar V) :
    Except Crash (Db V) :=
  s.modify obj fun o => { o with propval := o.propval.modify position ({ · with var := var }) }

def dbPropertyWritable (s : Db V) (pval : Pval V) (progr : Int) : Bool :=
  pval.perms.testBit 1 || progr = pval.owner || isWizard s progr

def bfClearProp (s : Db V) (progr : Int) (obj : ObjVar) (pname : CString) :
    Except Crash (Outcome × Db V) := do
  match s.object obj with
  | none => return (.error .E_INVARG, s)
  | some o =>
      match dbFindHandle s obj o pname with
      | none => return (.error .E_PROPNF, s)
      | some (.builtIn _) => return (.error .E_PERM, s)
      | some (.slot definer position) =>
          let pval ← slotAt o position
          if !dbPropertyWritable s pval progr then
            return (.error .E_PERM, s)
          if definer = obj then
            return (.error .E_INVARG, s)
          return (.done, ← dbSetPropertyValue s obj position .clear)

section Purpose

def IsBuiltin (name : CString) : Prop :=
  ∃ builtin ∈ builtinProperties, strHash builtin = strHash name ∧ strcasecmp name builtin = 0

def DefinesAt (s : Db V) (a : ObjVar) (name : CString) (i : Nat) : Prop :=
  ∃ o, s.object a = some o ∧ o.propdefs.findIdx? (fun p => p.named name (strHash name)) = some i

def FirstParentWith (s : Db V) (definer v p : ObjVar) : Prop :=
  (parentsOf s v).find? (fun p => definer ∈ dbAncestors s p true) = some p

/-- The first value that is not clear on the way up from `v`, for the definition with number `i`
of `definer`. -/
inductive Resolves (s : Db V) (definer : ObjVar) (i : Nat) : ObjVar → V → Prop
  | own {v : ObjVar} {pval : Pval V} {x : V} : (slotsFor s v definer)[i]? = some pval →
      pval.var = .value x → Resolves s definer i v x
  | inherited {v p : ObjVar} {pval : Pval V} {x : V} : (slotsFor s v definer)[i]? = some pval →
      pval.var = .clear → FirstParentWith s definer v p → Resolves s definer i p x →
      Resolves s definer i v x

structure LooksUp (getBiValue : Object V → Nat → V) (s : Db V) (v : ObjVar) (name : CString) :
    Prop where
  returns : ∃ found, dbFindPropertyValue getBiValue s v name = .ok found
  found : (∃ h x, dbFindPropertyValue getBiValue s v name = .ok (some (h, x))) ↔
    IsBuiltin name ∨ ∃ a ∈ dbAncestors s v true, ∃ i, DefinesAt s a name i
  slot : ∀ definer position x,
    dbFindPropertyValue getBiValue s v name = .ok (some (.slot definer position, x)) →
    ∃ i start o, definer ∈ dbAncestors s v true ∧ DefinesAt s definer name i ∧
      s.object v = some o ∧ propertiesOffset s definer v = some start ∧ position = start + i ∧
      (slotsFor s v definer)[i]? = o.propval[position]? ∧ Resolves s definer i v x

structure Valued (s : Db V) : Prop where
  out : LaidOut s
  own : ∀ v, ∀ pval ∈ slotsFor s v v, pval.var ≠ .clear

end Purpose

section Finding

variable {s : Db V} {name : CString}

theorem propertiesOffset_self (s : Db V) (v : ObjVar) : propertiesOffset s v v = some 0 := by
  simp [propertiesOffset, offsetIn, dbAncestors, Blocks.offset]

theorem slotsFor_self {v : ObjVar} {o : Object V} (found : s.object v = some o) :
    slotsFor s v v = o.propval.take o.propdefs.length := by
  simp only [slotsFor, found, propertiesOffset_self, List.drop_zero, propdefsLength]

theorem DefinesAt.lt {a : ObjVar} {i : Nat} (defines : DefinesAt s a name i) :
    i < propdefsLength s a := by
  obtain ⟨o, found, position⟩ := defines
  rw [propdefsLength, found]
  exact (List.findIdx?_eq_some_iff_findIdx_eq.mp position).1

theorem findSlot_skips {order : List ObjVar} {n : Nat} :
    findSlot s name (strHash name) order n = none ↔
      ∀ a ∈ order, ∀ i, ¬DefinesAt s a name i := by
  induction order generalizing n with
  | nil => simp [findSlot]
  | cons a rest ih =>
      rw [findSlot, List.forall_mem_cons]
      cases found : s.object a with
      | none =>
          have never : ∀ i, ¬DefinesAt s a name i := by
            rintro i ⟨o, there, -⟩
            rw [found] at there
            cases there
          simp only [ih, never, not_false_eq_true, implies_true, true_and]
      | some o =>
          cases position : o.propdefs.findIdx? fun p => p.named name (strHash name) with
          | none =>
              have never : ∀ i, ¬DefinesAt s a name i := by
                rintro i ⟨o', there, here⟩
                rw [found] at there
                cases there
                rw [position] at here
                cases here
              simp only [position, ih, never, not_false_eq_true, implies_true, true_and]
          | some i =>
              simp only [position, reduceCtorEq, false_iff]
              exact fun never => never.1 i ⟨o, found, position⟩

theorem findSlot_finds {order : List ObjVar} {n : Nat} {h : PropHandle}
    (ran : findSlot s name (strHash name) order n = some h) :
    ∃ definer i start, h = .slot definer (n + start + i) ∧ DefinesAt s definer name i ∧
      Blocks.offset (propdefsLength s) definer order = some start := by
  induction order generalizing n with
  | nil => cases ran
  | cons a rest ih =>
      have later (width : Nat) (wide : propdefsLength s a = width)
          (never : ∀ i, ¬DefinesAt s a name i)
          (ran : findSlot s name (strHash name) rest (n + width) = some h) :
          ∃ definer i start, h = .slot definer (n + start + i) ∧ DefinesAt s definer name i ∧
            Blocks.offset (propdefsLength s) definer (a :: rest) = some start := by
        obtain ⟨definer, i, start, rfl, defines, offset⟩ := ih ran
        refine ⟨definer, i, width + start, by rw [Nat.add_assoc n], defines, ?_⟩
        rw [Blocks.offset, if_neg, offset, Option.map_some, wide]
        rintro rfl
        exact never i defines
      rw [findSlot] at ran
      cases found : s.object a with
      | none =>
          simp only [found] at ran
          refine later 0 ?_ ?_ ran
          · simp only [propdefsLength, found]
          · rintro i ⟨o, there, -⟩
            rw [found] at there
            cases there
      | some o =>
          cases position : o.propdefs.findIdx? fun p => p.named name (strHash name) with
          | none =>
              simp only [found, position] at ran
              refine later _ ?_ ?_ ran
              · simp only [propdefsLength, found]
              · rintro i ⟨o', there, here⟩
                rw [found] at there
                cases there
                rw [position] at here
                cases here
          | some i =>
              simp only [found, position, Option.some.injEq] at ran
              exact ⟨a, i, 0, ran.symm, ⟨o, found, position⟩, by rw [Blocks.offset, if_pos rfl]⟩

theorem ancestors_searched (graph : WellFormed s) (v : ObjVar) :
    v :: (dbAncestors s v false).filter (isValid s ·) = dbAncestors s v true := by
  have every : ∀ a ∈ dbAncestors s v false, isValid s a = true := by
    intro a member
    obtain ⟨u, edge, path⟩ := graph.mem_proper_ancestors.mp member
    rcases Relation.ReflTransGen.cases_tail path with same | ⟨_, -, above⟩
    · obtain ⟨p, rfl, valid⟩ := WellFormed.parent_is_obj (same ▸ edge)
      exact valid
    · obtain ⟨p, rfl, valid⟩ := WellFormed.parent_is_obj above
      exact valid
  rw [List.filter_eq_self.mpr every]
  simp [dbAncestors]

end Finding

section Resolving

variable {s : Db V} {v : ObjVar} {o : Object V}

theorem slot_inside (out : LaidOut s) (found : s.object v = some o) {a : ObjVar} {start i : Nat}
    (offset : propertiesOffset s a v = some start) (inside : i < propdefsLength s a) :
    ∃ pval, o.propval[start + i]? = some pval ∧ (slotsFor s v a)[i]? = some pval := by
  obtain ⟨bound, -⟩ := (out.laid found).slice offset
  have within : start + i < o.propval.length := by omega
  refine ⟨o.propval[start + i], List.getElem?_eq_getElem within, ?_⟩
  simp only [slotsFor, found, offset]
  rw [List.getElem?_take_of_lt inside, List.getElem?_drop, List.getElem?_eq_getElem within]

theorem slotAt_of_get {pval : Pval V} {position : Nat}
    (found : o.propval[position]? = some pval) : slotAt o position = .ok pval := by
  have nonneg : ¬(position : Int) < 0 := by omega
  rw [slotAt, if_neg nonneg, Int.toNat_natCast, found]

theorem checkedOffset_valid {p : Int} (valid : s.valid p = true) (a : ObjVar) :
    checkedOffset s a (.obj p) = .ok (propertiesOffset s a (.obj p)) := by
  obtain ⟨o, found⟩ := Db.valid_iff.mp valid
  unfold checkedOffset
  split
  · rename_i same
    rw [same, propertiesOffset_self]
  · rw [Failing.bind_of_ok (Db.dereference_ok.mpr found)]
    rfl

theorem parentWithOffset_first {a : ObjVar} {parents : List Int}
    (valid : ∀ p ∈ parents, s.valid p = true)
    (inherited : ∃ p ∈ parents, a ∈ dbAncestors s (.obj p) true) :
    ∃ (p : Int) (start : Nat), parentWithOffset s a parents = .ok (p, (start : Int)) ∧
      p ∈ parents ∧
      (parents.map ObjVar.obj).find? (fun p => a ∈ dbAncestors s p true) = some (.obj p) ∧
      propertiesOffset s a (.obj p) = some start := by
  induction parents with
  | nil =>
      obtain ⟨p, member, -⟩ := inherited
      cases member
  | cons parent rest ih =>
      rw [parentWithOffset, Failing.bind_of_ok
        (checkedOffset_valid (valid parent List.mem_cons_self) a)]
      cases offset : propertiesOffset s a (.obj parent) with
      | some start =>
          have above : a ∈ dbAncestors s (.obj parent) true := mem_of_offset offset
          refine ⟨parent, start, rfl, List.mem_cons_self, ?_, offset⟩
          rw [List.map_cons, List.find?_cons_of_pos]
          simpa using above
      | none =>
          have absent : a ∉ dbAncestors s (.obj parent) true := offset_none.mp offset
          have later : ∃ p ∈ rest, a ∈ dbAncestors s (.obj p) true := by
            obtain ⟨p, member, above⟩ := inherited
            rcases List.mem_cons.mp member with rfl | inside
            · exact absurd above absent
            · exact ⟨p, inside, above⟩
          have more : rest ≠ [] := by
            rintro rfl
            obtain ⟨p, member, -⟩ := later
            cases member
          obtain ⟨p, start, ran, member, first, offset⟩ :=
            ih (fun p member => valid p (List.mem_cons_of_mem _ member)) later
          refine ⟨p, start, ?_, List.mem_cons_of_mem _ member, ?_, offset⟩
          · simp only [if_neg more]
            exact ran
          · rw [List.map_cons, List.find?_cons_of_neg]
            · exact first
            · simpa using absent

theorem enlisted_parents (graph : WellFormed s) (found : s.object v = some o)
    (parented : o.parents ≠ .obj NOTHING) :
    (∀ p ∈ enlistVar o.parents, s.valid p = true) ∧
      parentsOf s v = (enlistVar o.parents).map .obj := by
  have same : enlistVar o.parents = o.parents.named := by
    cases parents : o.parents with
    | list oids => rfl
    | obj p =>
        have real : p ≠ NOTHING := by
          rintro rfl
          exact parented parents
        simp [enlistVar, ObjOrList.named, real]
  have valid : ∀ p ∈ enlistVar o.parents, s.valid p = true := fun p member =>
    graph.parentsValid v o.node (node_some.mpr ⟨o, found, rfl⟩) p (same ▸ member)
  refine ⟨valid, ?_⟩
  rw [parentsOf, found]
  simp only [List.filter_eq_self.mpr valid]

theorem resolveClear_resolves (valued : Valued s) {definer : Int} {i : Nat}
    (inside : i < propdefsLength s (.obj definer)) {rank : ObjVar → Nat}
    (ranked : Ranked (parentsOf s) rank) {fuel : Nat} (enough : rank v < fuel)
    (found : s.object v = some o) (above : .obj definer ∈ dbAncestors s v true) {pval : Pval V}
    (slot : (slotsFor s v (.obj definer))[i]? = some pval) :
    ∃ x, resolveClear s definer i fuel o pval = .ok x ∧ Resolves s (.obj definer) i v x := by
  have graph := valued.out.graph
  induction fuel generalizing v o pval with
  | zero => cases enough
  | succ fuel ih =>
      rw [resolveClear]
      cases value : pval.var with
      | value x => exact ⟨x, rfl, .own slot value⟩
      | clear =>
          rcases Relation.ReflTransGen.cases_head (graph.mem_ancestors.mp above) with
            rfl | ⟨u, edge, path⟩
          · exact absurd value (valued.own _ pval (List.mem_of_getElem? slot))
          · have parented : o.parents ≠ .obj NOTHING := by
              intro orphan
              obtain ⟨o', p, found', member, valid, -⟩ := mem_parentsOf.mp edge
              rw [found] at found'
              cases found'
              have nothing : p = NOTHING := by simpa [orphan, enlistVar] using member
              exact graph.not_nothing valid nothing
            obtain ⟨valid, parents⟩ := enlisted_parents graph found parented
            have inherited : ∃ p ∈ enlistVar o.parents,
                .obj definer ∈ dbAncestors s (.obj p) true := by
              rw [parents] at edge
              obtain ⟨p, member, rfl⟩ := List.mem_map.mp edge
              exact ⟨p, member, graph.mem_ancestors.mpr path⟩
            obtain ⟨p, start, ran, member, first, offset⟩ :=
              parentWithOffset_first valid inherited
            have up : .obj p ∈ parentsOf s v := parents ▸ List.mem_map_of_mem member
            have lower := ranked v _ up
            obtain ⟨op, foundP⟩ := Db.valid_iff.mp (valid p member)
            obtain ⟨next, here, slotP⟩ := slot_inside valued.out foundP offset inside
            obtain ⟨x, resolved, resolves⟩ :=
              ih (by omega) foundP (mem_of_offset offset) slotP
            rw [← parents] at first
            refine ⟨x, ?_, .inherited slot value first resolves⟩
            simp only [if_neg parented]
            rw [Failing.bind_of_ok ran]
            simp only
            rw [Failing.bind_of_ok (Db.dereference_ok.mpr foundP),
              ← Int.natCast_add start i, Failing.bind_of_ok (slotAt_of_get here)]
            exact resolved

theorem Valued.definer_obj (valued : Valued s) {definer : ObjVar} {name : CString} {i : Nat}
    (defines : DefinesAt s definer name i) : ∃ p d, definer = .obj p ∧ s.object definer = some d ∧
      d.id = p ∧ d.propdefs.findIdx (fun p => p.named name (strHash name)) = i := by
  cases definer with
  | anon a =>
      have inside := defines.lt
      rw [valued.out.bare a] at inside
      cases inside
  | obj p =>
      obtain ⟨d, found, position⟩ := defines
      have node := node_some.mpr ⟨d, found, rfl⟩
      exact ⟨p, d, rfl, found, (valued.out.graph.numbered p d.node node).2.2,
        (List.findIdx?_eq_some_iff_findIdx_eq.mp position).2⟩

/-- In a state with laid out slots and values at the definers, lookups are right. -/
theorem Valued.looksUp (valued : Valued s) (getBiValue : Object V → Nat → V)
    (found : s.object v = some o) (name : CString) : LooksUp getBiValue s v name := by
  have graph := valued.out.graph
  obtain ⟨rank, ranked, bounded⟩ := graph.bounded_rank
  have searched : dbFindPropertyValue getBiValue s v name = (do
      match dbFindHandle s v o name with
      | none => return none
      | some (.builtIn index) => return some (.builtIn index, getBiValue o index)
      | some (.slot definer position) =>
          let d ← s.dereference definer
          let i := d.propdefs.findIdx fun p => p.named name (strHash name)
          let prop ← slotAt o position
          let value ← resolveClear s d.id i (traversalDepth s) o prop
          return some (.slot definer position, value)) :=
    Failing.bind_of_ok (Db.dereference_ok.mpr found) _
  cases builtin : builtinProperties.findIdx? fun builtin =>
      strHash builtin = strHash name && strcasecmp name builtin = 0 with
  | some index =>
      have known : IsBuiltin name := by
        obtain ⟨inside, holds, -⟩ := List.findIdx?_eq_some_iff_getElem.mp builtin
        simp only [Bool.and_eq_true, decide_eq_true_eq] at holds
        exact ⟨_, List.getElem_mem inside, holds⟩
      have handle : dbFindProperty s v name = some (.builtIn index) := by
        rw [dbFindProperty, builtin]
      have given : dbFindHandle s v o name = some (.builtIn index) := by
        rw [dbFindHandle, handle]
        rfl
      simp only [given] at searched
      refine ⟨⟨_, searched⟩, ⟨fun _ => Or.inl known, fun _ => ⟨_, _, searched⟩⟩, ?_⟩
      intro definer position x ran
      rw [searched] at ran
      cases ran
  | none =>
      have unknown : ¬IsBuiltin name := by
        rintro ⟨entry, member, hash, same⟩
        have never := List.findIdx?_eq_none_iff.mp builtin entry member
        simp [hash, same] at never
      have handle : dbFindProperty s v name =
          findSlot s name (strHash name) (dbAncestors s v true) 0 := by
        rw [dbFindProperty, builtin, ancestors_searched graph]
      cases slot : findSlot s name (strHash name) (dbAncestors s v true) 0 with
      | none =>
          have nowhere := findSlot_skips.mp slot
          have given : dbFindHandle s v o name = none := by
            rw [dbFindHandle, handle, slot]
            rfl
          simp only [given] at searched
          refine ⟨⟨_, searched⟩, ⟨?_, ?_⟩, ?_⟩
          · rintro ⟨h, x, ran⟩
            rw [searched] at ran
            cases ran
          · rintro (known | ⟨a, member, i, defines⟩)
            · exact absurd known unknown
            · exact absurd defines (nowhere a member i)
          · intro definer position x ran
            rw [searched] at ran
            cases ran
      | some h =>
          obtain ⟨definer, i, start, rfl, defines, offset⟩ := findSlot_finds slot
          rw [Nat.zero_add] at slot
          obtain ⟨p, d, rfl, foundD, rfl, index⟩ := valued.definer_obj defines
          have above := mem_of_offset offset
          obtain ⟨pval, here, there⟩ := slot_inside valued.out found offset defines.lt
          obtain ⟨x, resolved, resolves⟩ :=
            resolveClear_resolves valued defines.lt ranked (bounded v) found above there
          have given : dbFindHandle s v o name = some (.slot (.obj d.id) (start + i)) := by
            rw [dbFindHandle, handle, slot, Option.filter_some, if_pos]
            have within := (List.getElem?_eq_some_iff.mp here).1
            simp only [PropHandle.isNull, Bool.not_eq_true', Bool.and_eq_false_iff,
              decide_eq_false_iff_not, List.isEmpty_eq_false_iff]
            exact .inr (List.ne_nil_of_length_pos (by omega))
          simp only [given] at searched
          rw [Failing.bind_of_ok (Db.dereference_ok.mpr foundD),
            Failing.bind_of_ok (slotAt_of_get here), index,
            Failing.bind_of_ok resolved] at searched
          refine ⟨⟨_, searched⟩, ⟨fun _ => Or.inr ⟨_, above, i, defines⟩,
            fun _ => ⟨_, _, searched⟩⟩, ?_⟩
          intro definer position x' ran
          rw [searched] at ran
          cases ran
          exact ⟨i, start, o, above, defines, found, offset, rfl, there.trans here.symm, resolves⟩

end Resolving

end ToastStunt
