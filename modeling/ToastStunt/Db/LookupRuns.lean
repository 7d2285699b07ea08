import ToastStunt.Db.CacheRuns
import ToastStunt.Db.Settling

/-!
Runs in which every lookup of a property finds its slot, and the first value that is not
clear on the way up.
-/

namespace ToastStunt

open FirstVisit Blocks Runs

variable {V : Type}

section Calls

/-- The calls that change what lookups see. `assign` is what an assignment to a property does
once it has found the slot, for any slot. -/
inductive LookupCall (V : Type) where
  | call (call : Call V)
  | resetMaxObject (progr : Int)
  | clearProperty (progr : Int) (obj : ObjVar) (pname : CString)
  | assign (obj : ObjVar) (position : Nat) (value : V)

def LookupCall.run (call : LookupCall V) (s : Db V) : Except Crash (Outcome × Db V) :=
  match call with
  | .call call => call.run s
  | .resetMaxObject progr => bfResetMaxObject s progr
  | .clearProperty progr obj pname => bfClearProp s progr obj pname
  | .assign obj position value => do
      return (.done, ← dbSetPropertyValue s obj position (.value value))

/-- What the server does to objects between two calls. It may change anything but relations,
the properties that are defined and the values of slots. -/
structure Unvalued (s s' : Db V) : Prop where
  view : ∀ v, (s'.object v).map (fun o => (o.node, o.defined)) =
    (s.object v).map fun o => (o.node, o.defined)
  numObjects : s'.numObjects = s.numObjects
  nextAnon : s'.nextAnon = s.nextAnon
  index : ∀ p, (s'.anonymousObjects p).Perm (s.anonymousObjects p)

def LookupStep (allowed : LookupCall V → Db V → Prop) (s s' : Db V) : Prop :=
  (∃ call outcome, allowed call s ∧ call.run s = .ok (outcome, s')) ∨ Unvalued s s'

def LookupReachable (allowed : LookupCall V → Db V → Prop) : Db V → Prop :=
  Reachable Db.empty (LookupStep allowed)

def LookupCall.namesOnce (call : LookupCall V) (s : Db V) : Prop :=
  ∀ progr oid, call = .call (.renumber progr oid) → leastFree s oid ≠ none → NamedOnce s oid

end Calls

section Steps

variable {s s' : Db V}

theorem Unvalued.unrelated (change : Unvalued s s') : Unrelated s s' where
  view v := by
    have same := congrArg (Option.map fun look : Node × List Propdef × List (PropVar V) =>
      (look.1.id, look.1.parents, look.1.children, look.2.1, look.2.2.length)) (change.view v)
    rw [Option.map_map, Option.map_map] at same
    have skeleton (o : Object V) : o.skeleton = (o.node.id, o.node.parents, o.node.children,
        o.defined.1, o.defined.2.length) := by
      simp [Object.skeleton, Object.node, Object.defined]
    simp only [funext skeleton]
    exact same
  numObjects := change.numObjects
  nextAnon := change.nextAnon
  index := change.index

theorem Valued.of_defined (valued : Valued s) (out' : LaidOut s') (same : SameDefined s s') :
    Valued s' := by
  refine ⟨out', fun v pval member => ?_⟩
  cases after : s'.object v with
  | none => simp only [slotsFor, after, List.not_mem_nil] at member
  | some q' =>
      have look := same v
      rw [after, Option.map_some, eq_comm, Option.map_eq_some_iff] at look
      obtain ⟨q, before, look⟩ := look
      rw [slotsFor_self after] at member
      have inside : pval.var ∈ (q.propval.take q.propdefs.length).map Pval.var := by
        have defs : q.propdefs = q'.propdefs := congrArg Prod.fst look
        have values : q.propval.map Pval.var = q'.propval.map Pval.var := congrArg Prod.snd look
        rw [List.map_take, values, defs, ← List.map_take]
        exact List.mem_map_of_mem member
      obtain ⟨old, inside, var⟩ := List.mem_map.mp inside
      rw [← var]
      exact valued.own v old (by rwa [slotsFor_self before])

theorem Unvalued.valued (change : Unvalued s s') (valued : Valued s) : Valued s' := by
  refine valued.of_defined (change.unrelated.laidOut valued.out) fun v => ?_
  have same := congrArg (Option.map Prod.snd) (change.view v)
  rwa [Option.map_map, Option.map_map] at same

theorem dbSetPropertyValue_valued (valued : Valued s) {v : ObjVar} {position : Nat}
    {var : PropVar V} (allowed : var ≠ .clear ∨ propdefsLength s v ≤ position)
    (ran : dbSetPropertyValue s v position var = .ok s') : Valued s' := by
  have unrelated : Unrelated s s' := by
    obtain ⟨o, found, rfl⟩ := Db.modify_ok ran
    refine ⟨fun w => ?_, rfl, rfl, fun p => List.Perm.refl _⟩
    by_cases self : w = v
    · subst self
      simp [found, Object.skeleton]
    · simp [self]
  refine ⟨unrelated.laidOut valued.out, fun w pval member => ?_⟩
  obtain ⟨o, found, rfl⟩ := Db.modify_ok ran
  by_cases self : w = v
  · subst self
    have after : (s.setObject w (some { o with
        propval := o.propval.modify position ({ · with var := var }) })).object w = some { o with
          propval := o.propval.modify position ({ · with var := var }) } := by simp
    rw [slotsFor_self after] at member
    have own := valued.own w
    rw [slotsFor_self found] at own
    obtain ⟨j, here⟩ := List.mem_iff_getElem?.mp member
    rw [List.getElem?_take, Option.ite_none_right_eq_some, List.getElem?_modify] at here
    obtain ⟨inside, here⟩ := here
    obtain ⟨old, before, rfl⟩ := Option.map_eq_some_iff.mp here
    split
    · rename_i same
      rcases allowed with set | beyond
      · exact set
      · rw [propdefsLength, found] at beyond
        simp only at beyond inside
        omega
    · refine own old (List.mem_iff_getElem?.mpr ⟨j, ?_⟩)
      rw [List.getElem?_take, if_pos inside, before]
  · have same : slotsFor (s.setObject v (some { o with
        propval := o.propval.modify position ({ · with var := var }) })) w w = slotsFor s w w := by
      simp only [slotsFor, propertiesOffset_self, propdefsLength, Db.setObject_object, if_neg self]
    exact valued.own w pval (same ▸ member)

theorem definer_first {s : Db V} {v definer : ObjVar} {start : Nat} (other : definer ≠ v)
    (offset : propertiesOffset s definer v = some start) : propdefsLength s v ≤ start := by
  simp only [propertiesOffset, offsetIn, dbAncestors, if_true, List.singleton_append,
    Blocks.offset, if_neg other, Option.map_eq_some_iff] at offset
  obtain ⟨inner, -, rfl⟩ := offset
  omega

theorem bfClearProp_valued (valued : Valued s) {progr : Int} {v : ObjVar} {pname : CString}
    {outcome : Outcome} (ran : bfClearProp s progr v pname = .ok (outcome, s')) : Valued s' := by
  unfold bfClearProp at ran
  split at ran
  · cases ran
    exact valued
  · split at ran
    · cases ran
      exact valued
    · cases ran
      exact valued
    · rename_i definer position handle
      obtain ⟨pval, -, ran⟩ := Failing.bind_ok ran
      split at ran
      · cases ran
        exact valued
      · split at ran
        · cases ran
          exact valued
        · rename_i other
          obtain ⟨s1, cleared, ran⟩ := Failing.bind_ok ran
          cases ran
          refine dbSetPropertyValue_valued valued (Or.inr ?_) cleared
          rw [dbFindHandle, Option.filter_eq_some_iff] at handle
          obtain ⟨handle, -⟩ := handle
          unfold dbFindProperty at handle
          split at handle
          · cases handle
          · rw [ancestors_searched valued.out.graph] at handle
            obtain ⟨_, i, start, same, -, offset⟩ := findSlot_finds handle
            cases same
            have first := definer_first other offset
            omega

theorem bfResetMaxObject_valued (valued : Valued s) {progr : Int} {outcome : Outcome}
    (ran : bfResetMaxObject s progr = .ok (outcome, s')) : Valued s' := by
  unfold bfResetMaxObject at ran
  split at ran
  · cases ran
    exact valued
  · obtain ⟨s1, reset, ran⟩ := Failing.bind_ok ran
    cases ran
    obtain ⟨n, rfl, last, kept⟩ := resetLastUsed_ok reset
    have graph := valued.out.graph
    have graph' : WellFormed { s with numObjects := n } := by
      have bounds := graph.valid_bounds last
      exact wellFormed_resize graph (by omega)
        fun p valid => kept p valid (graph.valid_bounds valid).2
    have order (v : ObjVar) : dbAncestors { s with numObjects := n } v true =
        dbAncestors s v true := ancestors_congr graph graph' fun _ _ => rfl
    have out' : LaidOut { s with numObjects := n } := by
      refine ⟨graph', valued.out.bare, fun v o found => ?_⟩
      rw [order]
      exact valued.out.fit v o found
    exact valued.of_defined out' fun _ => rfl

theorem redefined_absent {oid : Int} {f : List Propdef → List Propdef}
    (redefined : Redefined s s' oid f) (v : ObjVar) (absent : s.object v = none) :
    s'.object v = none := by
  have look := redefined.sameGraph.view v
  rw [absent, Option.map_none, Option.map_eq_none_iff] at look
  exact look

theorem born_or_quiet_valued (valued : Valued s) (graph' : WellFormed s') {parents : ObjOrList}
    (made : Quiet s s' ∨ ∃ v, Born s s' v parents) : Valued s' := by
  rcases made with quiet | ⟨v, born⟩
  · exact quiet.valued valued graph'
  · exact born.valued valued

theorem bfAddProp_valued (valued : Valued s) {progr oid owner : Int} {pname : CString} {value : V}
    {flags : Nat} {outcome : Outcome}
    (ran : bfAddProp s progr oid pname value owner flags = .ok (outcome, s')) : Valued s' := by
  unfold bfAddProp at ran
  split at ran
  · cases ran
    exact valued
  · obtain ⟨allows, -, ran⟩ := Failing.bind_ok ran
    split at ran
    · cases ran
      exact valued
    · obtain ⟨⟨added, s1⟩, defined, ran⟩ := Failing.bind_ok ran
      have same : s' = s1 := by cases added <;> cases ran <;> rfl
      subst same
      obtain ⟨-, result⟩ := dbAddPropdef_kept valued.out oid pname value owner flags
      rcases result _ defined with ⟨rfl, rfl⟩ | ⟨rfl, out', kept⟩
      · exact valued
      · rcases dbAddPropdef_ok defined with ⟨failed, -⟩ | ⟨-, -, -, redefined⟩
        · cases failed
        · refine KeptBy.valued kept valued out' (redefined_absent redefined) ?_
          intro v slots set pval member
          split at member
          · rename_i self
            rcases List.mem_append.mp member with old | new
            · exact set pval old
            · rw [List.mem_singleton.mp new, addedSlot, if_pos self]
              unfold Pval.ownedBy
              split <;> rintro ⟨⟩
          · exact set pval member

theorem bfDeleteProp_valued (valued : Valued s) {progr oid : Int} {pname : CString}
    {outcome : Outcome} (ran : bfDeleteProp s progr oid pname = .ok (outcome, s')) :
    Valued s' := by
  unfold bfDeleteProp at ran
  split at ran
  · cases ran
    exact valued
  · obtain ⟨allows, -, ran⟩ := Failing.bind_ok ran
    split at ran
    · cases ran
      exact valued
    · obtain ⟨⟨deleted, s1⟩, undefined, ran⟩ := Failing.bind_ok ran
      have same : s' = s1 := by cases deleted <;> cases ran <;> rfl
      subst same
      obtain ⟨-, result⟩ := dbDeletePropdef_kept valued.out oid pname
      rcases result _ undefined with ⟨rfl, rfl⟩ | ⟨rfl, out', o, i, -, -, kept⟩
      · exact valued
      · rcases dbDeletePropdef_ok undefined with ⟨failed, -⟩ | ⟨-, _, redefined⟩
        · cases failed
        · refine KeptBy.valued kept valued out' (redefined_absent redefined) ?_
          intro v slots set pval member
          split at member
          · exact set pval (List.mem_of_mem_eraseIdx member)
          · exact set pval member

theorem renameProp_valued (valued : Valued s) {oid : Int} {old new : CString} {outcome : Outcome}
    (ran : renameProp s oid old new = .ok (outcome, s')) : Valued s' := by
  unfold renameProp at ran
  split at ran
  · cases ran
    exact valued
  · obtain ⟨⟨done, s1⟩, taken, ran⟩ := Failing.bind_ok ran
    have same : s' = s1 := by cases done <;> cases ran <;> rfl
    subst same
    obtain ⟨out', kept⟩ := dbRenamePropdef_kept valued.out taken
    rcases dbRenamePropdef_ok taken with ⟨-, rfl⟩ | ⟨-, o, i, -, -, -, defined⟩
    · exact valued
    · have redefined : Redefined s s' oid (·.set i (dbprivNewPropdef new)) :=
        ⟨s', defined, SameUpTo.refl s'⟩
      exact kept.valued valued out' (redefined_absent redefined)

theorem bfRenumber_valued (valued : Valued s) {progr oid : Int} {outcome : Outcome}
    (once : leastFree s oid ≠ none → NamedOnce s oid)
    (ran : bfRenumber s progr oid = .ok (outcome, s')) : Valued s' := by
  unfold bfRenumber at ran
  split at ran
  · cases ran
    exact valued
  · rename_i valid
    split at ran
    · cases ran
      exact valued
    · obtain ⟨⟨new, s1⟩, renumbered, ran⟩ := Failing.bind_ok ran
      cases ran
      exact renumber_valued valued (by simpa using valid) once renumbered

theorem call_valued (valued : Valued s) {call : LookupCall V} {outcome : Outcome}
    (once : call.namesOnce s) (ran : call.run s = .ok (outcome, s')) : Valued s' := by
  have graph := valued.out.graph
  cases call with
  | resetMaxObject progr => exact bfResetMaxObject_valued valued ran
  | clearProperty progr obj pname => exact bfClearProp_valued valued ran
  | assign obj position value =>
      obtain ⟨s1, assigned, ran⟩ := Failing.bind_ok ran
      cases ran
      have set : PropVar.value value ≠ .clear := nofun
      exact dbSetPropertyValue_valued valued (Or.inl set) assigned
  | call call =>
      cases call with
      | create progr parents owner anonymous =>
          obtain ⟨graph', made⟩ := bfCreate_ok graph ran
          exact born_or_quiet_valued valued graph' made
      | recreate progr old parent owner =>
          obtain ⟨graph', made⟩ := bfRecreate_ok graph ran
          exact born_or_quiet_valued valued graph' made
      | chparents progr obj what =>
          obtain ⟨-, same | ⟨⟨s2, change⟩, newValid, apart⟩⟩ := bfChparentChparents_ok graph ran
          · exact same ▸ valued
          · exact change.valued valued newValid apart
      | recycle progr obj =>
          obtain ⟨graph', ⟨-, rfl⟩ | ⟨oid, -, recycled⟩ | ⟨a, -, gone⟩⟩ := bfRecycle_ok graph ran
          · exact valued
          · exact recycled.valued valued graph'
          · exact gone.valued valued graph'
      | addProperty progr oid pname value owner flags => exact bfAddProp_valued valued ran
      | deleteProperty progr oid pname => exact bfDeleteProp_valued valued ran
      | renameProperty oid old new => exact renameProp_valued valued ran
      | renumber progr oid => exact bfRenumber_valued valued (once progr oid rfl) ran

end Steps

section Runs

variable {s : Db V}

theorem reachable_valued (reachable : LookupReachable LookupCall.namesOnce s) : Valued s := by
  have empty : Valued (Db.empty : Db V) := ⟨empty_laidOut, fun v pval member => by
    simp [slotsFor, Db.empty] at member⟩
  refine reachable.invariant Valued empty ?_
  rintro before after valued (⟨call, outcome, once, ran⟩ | change)
  · exact call_valued valued once ran
  · exact change.valued valued

/-- In every state of such runs every lookup on an object ends and is right. -/
theorem property_lookup_resolves (getBiValue : Object V → Nat → V)
    (reachable : LookupReachable LookupCall.namesOnce s) {v : ObjVar} {o : Object V}
    (found : s.object v = some o) (name : CString) : LooksUp getBiValue s v name :=
  (reachable_valued reachable).looksUp getBiValue found name

theorem crowned_unvalued (s : Db V) : Unvalued s (crowned s) where
  view v := by
    unfold crowned
    simp only
    split
    · rw [Option.map_map]
      rfl
    · rfl
  numObjects := rfl
  nextAnon := rfl
  index _ := List.Perm.refl _

def crownedLookups (calls : List (LookupCall Nat)) : Except Crash (Db Nat) := do
  let s ← runAll [.create (-1) (.obj (-1)) (-1) false] Db.empty
  calls.foldlM (fun s call => do return (← call.run s).2) (crowned s)

theorem crownedLookups_reachable {allowed : LookupCall Nat → Db Nat → Prop}
    {calls : List (LookupCall Nat)} {s : Db Nat}
    (start : ∀ s, allowed (.call (.create (-1) (.obj (-1)) (-1) false)) s)
    (every : ∀ call ∈ calls, ∀ s, allowed call s) (ran : crownedLookups calls = .ok s) :
    LookupReachable allowed s := by
  obtain ⟨s1, first, ran⟩ := Failing.bind_ok ran
  have reached : LookupReachable allowed s1 := by
    obtain ⟨s2, made, rest⟩ := Failing.foldlM_cons_ok first
    cases rest
    obtain ⟨⟨outcome, next⟩, called, rest⟩ := Failing.bind_ok made
    cases rest
    exact .step .start (Or.inl ⟨_, outcome, start _, called⟩)
  refine Failing.foldlM_invariant (LookupReachable allowed) ?_
    (.step reached (Or.inr (crowned_unvalued s1))) ran
  intro call member before after reached step
  obtain ⟨⟨outcome, next⟩, called, rest⟩ := Failing.bind_ok step
  cases rest
  exact .step reached (Or.inl ⟨call, outcome, every call member before, called⟩)

def clearedRun : List (LookupCall Nat) :=
  [.call (.create 0 (.obj (-1)) 0 false), .call (.create 0 (.obj 1) 0 false),
    .call (.create 0 (.list [0, 2]) 0 false), .call (.addProperty 0 1 [112] 5 0 0),
    .assign (.obj 2) 0 7, .assign (.obj 3) 0 8, .clearProperty 0 (.obj 3) [112]]

theorem namesOnce_of_clearedRun : ∀ call ∈ clearedRun, ∀ s, call.namesOnce s := by
  intro call member s progr oid renumbers
  subst renumbers
  simp [clearedRun] at member

theorem cleared_value_found : ∃ s : Db Nat, crownedLookups clearedRun = .ok s ∧
    dbFindPropertyValue (fun _ _ => 0) s (.obj 3) [112] = .ok (some (.slot (.obj 1) 0, 7)) ∧
    LooksUp (fun _ _ => 0) s (.obj 3) [112] := by
  have checked : Failing.okAnd (crownedLookups clearedRun) (fun s =>
      (s.object (.obj 3)).isSome &&
        Failing.okAnd (dbFindPropertyValue (fun _ _ => 0) s (.obj 3) [112])
          (· = some (.slot (.obj 1) 0, 7))) = true := by decide +kernel
  obtain ⟨s, ran, shape⟩ := Failing.of_okAnd checked
  obtain ⟨present, value⟩ := Bool.and_eq_true_iff.mp shape
  obtain ⟨result, looked, same⟩ := Failing.of_okAnd value
  obtain ⟨o, found⟩ := Option.isSome_iff_exists.mp present
  have start (s : Db Nat) :
      (LookupCall.call (.create (-1) (.obj (-1)) (-1) false)).namesOnce s := nofun
  have reachable := crownedLookups_reachable start namesOnce_of_clearedRun ran
  refine ⟨s, ran, ?_, property_lookup_resolves _ reachable found [112]⟩
  rw [looked, of_decide_eq_true same]

/-- `#3` names `#2` twice, and its second name of it outlives the renumbering. -/
def staleParentRun : List (LookupCall Nat) :=
  [.call (.create 0 (.obj (-1)) 0 false), .call (.create 0 (.obj (-1)) 0 false),
    .call (.create 0 (.list [0, 2, 2]) 0 false), .call (.recycle 0 (.obj 1)),
    .call (.renumber 0 2), .call (.recreate 0 2 (-1) 0),
    .call (.addProperty 0 2 [112] 5 0 0)]

theorem stale_parent_not_found : ∃ s : Db Nat, LookupReachable (fun _ _ => True) s ∧
    (s.object (.obj 3)).isSome = true ∧
    dbFindPropertyValue (fun _ _ => 0) s (.obj 3) [112] = .ok none ∧
    ¬LooksUp (fun _ _ => 0) s (.obj 3) [112] := by
  have checked : Failing.okAnd (crownedLookups staleParentRun) (fun s =>
      (s.object (.obj 3)).isSome &&
        Failing.okAnd (dbFindPropertyValue (fun _ _ => 0) s (.obj 3) [112]) (· = none) &&
        (dbAncestors s (.obj 3) true).contains (.obj 2) &&
        (s.object (.obj 2)).any fun o =>
          o.propdefs.findIdx? (fun p => p.named [112] (strHash [112])) = some 0) = true := by
    decide +kernel
  obtain ⟨s, ran, shape⟩ := Failing.of_okAnd checked
  simp only [Bool.and_eq_true] at shape
  obtain ⟨⟨⟨present, answer⟩, above⟩, defines⟩ := shape
  obtain ⟨result, looked, same⟩ := Failing.of_okAnd answer
  obtain ⟨d, found, position⟩ := (Option.any_eq_true _ _).mp defines
  have missed : dbFindPropertyValue (fun _ _ => 0) s (.obj 3) [112] = .ok none := by
    rw [looked, of_decide_eq_true same]
  have reachable := crownedLookups_reachable (fun _ => trivial) (fun _ _ _ => trivial) ran
  refine ⟨s, reachable, present, missed, fun right => ?_⟩
  obtain ⟨h, x, ran⟩ := right.found.mpr
    (.inr ⟨.obj 2, List.contains_iff_mem.mp above, 0, d, found, of_decide_eq_true position⟩)
  rw [missed] at ran
  cases ran

end Runs

end ToastStunt
