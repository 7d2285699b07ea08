import ToastStunt.Db.Tables
import ToastStunt.Db.Verbs

/-!
`bf_create` in full, up to the call of `initialize`: how its arguments are read, what
it leaves behind when it makes an anonymous object or fails, and when that is nothing.
-/

namespace ToastStunt

open FirstVisit Runs

variable {V : Type}

section Model

inductive CreateArg (V : Type) where
  | obj (oid : Int)
  | int (n : Int)
  | list (values : List V)
  | other
deriving DecidableEq, Repr

structure CreateOptions (V : Type) where
  owner : Int
  anonymous : Option Int
  init : Option (List V)
deriving DecidableEq, Repr

def CreateOptions.flag (options : CreateOptions V) : Bool :=
  match options.anonymous with
  | none => false
  | some n => n ≠ 0

def laterOption (options : CreateOptions V) : CreateArg V → Option (CreateOptions V)
  | .int n =>
      if options.anonymous.isSome then none else some { options with anonymous := some n }
  | .list values =>
      if options.init.isSome then none else some { options with init := some values }
  | .obj _ => none
  | .other => none

def createOptions (progr : Int) : List (CreateArg V) → Option (CreateOptions V)
  | .obj owner :: rest => rest.foldlM laterOption ⟨owner, none, none⟩
  | rest => rest.foldlM laterOption ⟨progr, none, none⟩

inductive CallError where
  | E_MAXREC | E_INVIND | E_VERBNF
deriving DecidableEq, Repr

/-- `call_verb` up to `push_activation`, which fails when the stack is full. E_NONE is `none`. -/
def callVerb (s : Db V) (stackFull : Bool) (recv : Int) (this : ObjVar) (vname : CString) :
    Except Crash (Option CallError) := do
  let target := match this with
    | .anon a => if isValid s (.anon a) then some (.anon a)
        else if s.valid recv then some (.obj recv) else none
    | .obj _ => if s.valid recv then some (.obj recv) else none
  match target with
  | none => return some .E_INVIND
  | some start =>
      match ← findCallableVerbdef s start ⟨vname, none⟩ with
      | none => return some .E_VERBNF
      | some _ => return if stackFull then some .E_MAXREC else none

def initializeName : CString := [105, 110, 105, 116, 105, 97, 108, 105, 122, 101]

/-- The call has returned, or goes on with a call of `initialize` on the new object. -/
inductive CreateReply (V : Type) where
  | answered (outcome : Outcome)
  | calling (v : ObjVar) (args : List V)
deriving DecidableEq, Repr

structure CreateCall (V : Type) where
  progr : Int
  parents : Option ObjOrList
  rest : List (CreateArg V)
  stackFull : Bool
deriving DecidableEq, Repr

def CreateCall.run (call : CreateCall V) (s : Db V) : Except Crash (CreateReply V × Db V) :=
  match call.parents, createOptions call.progr call.rest with
  | some parents, some options => do
      match ← bfCreate s call.progr parents options.owner options.flag with
      | (.object v, s') =>
          match ← callVerb s' call.stackFull s.numObjects v initializeName with
          | none => return (.calling v (options.init.getD []), s')
          | some .E_MAXREC => return (.answered (.error .E_MAXREC), s')
          | some _ => return (.answered (.object v), s')
      | (outcome, s') => return (.answered outcome, s')
  | _, _ => return (.answered (.error .E_TYPE), s)

end Model

section Meaning

/-- The replies after which nothing permanent may have changed. -/
def CreateReply.temporary : CreateReply V → Prop
  | .answered (.error _) => True
  | .answered (.object (.anon _)) => True
  | .calling (.anon _) _ => True
  | _ => False

def Object.kept (o : Object V) : ObjOrList × List Int × List Int × List Propdef × List (Pval V) :=
  (o.parents, o.children, o.contents, o.propdefs, o.propval)

structure Untouched (s s' : Db V) : Prop where
  maxObject : dbLastUsedObjid s' = dbLastUsedObjid s
  valid : s'.valid = s.valid
  kept : ∀ oid, (s'.object (.obj oid)).map Object.kept = (s.object (.obj oid)).map Object.kept

def Offered (s : Db V) (verb : CString) (parents : List Int) : Prop :=
  ∃ p ∈ parents, s.valid p = true ∧ ∃ u, Ancestor s (.obj p) u ∧ callableAt s verb u ≠ none

def changeParentsChecks (s : Db V) (v : ObjVar) (parents : ObjOrList) : Except Crash Bool := do
  if !checkForDuplicates parents then
    return false
  if !(← checkChildrenOfObject s v (gatheredKids s v [])) then
    return false
  dbprivCheckPropertiesForChparent s v parents (gatheredKids s v [])

def takesParents (s : Db V) (owner : Int) (parents : ObjOrList) : Except Crash Bool := do
  let fresh ← freshOrphan s owner false
  changeParentsChecks fresh (.obj s.numObjects) parents

/-- The calls after which a temporary object has left nothing behind. Those that are refused
before an object is made; those that make one and take it back, unless the number below it is
unused; and those that keep it, unless `initialize` is there and the stack is full. -/
def CreateCall.Harmless (call : CreateCall V) (s : Db V) : Prop :=
  match call.parents, createOptions call.progr call.rest with
  | some parents, some options =>
      createChecks s call.progr parents options.owner options.flag ≠ .ok none ∨
        if options.flag = true ∨ takesParents s options.owner parents = .ok false then
          s.valid (dbLastUsedObjid s) = true
        else ¬(call.stackFull = true ∧ Offered s initializeName (enlistVar parents))
  | _, _ => True

end Meaning

section TakingBack

variable {s s' s1 s2 : Db V}

theorem changeParentsChecks_ok {v : ObjVar} {parents : ObjOrList} {changed : Bool}
    (ran : dbChangeParents s v parents [] = .ok (changed, s')) :
    changeParentsChecks s v parents = .ok changed := by
  unfold dbChangeParents at ran
  unfold changeParentsChecks
  cases duplicates : checkForDuplicates parents with
  | false =>
      rw [duplicates] at ran
      cases ran
      rfl
  | true =>
      rw [duplicates] at ran
      simp only [Bool.not_true, Bool.false_eq_true, if_false] at ran ⊢
      obtain ⟨kidsOk, kids, ran⟩ := Failing.bind_ok ran
      rw [Failing.bind_of_ok kids]
      cases kidsOk with
      | false =>
          cases ran
          rfl
      | true =>
          simp only [Bool.not_true, Bool.false_eq_true, if_false] at ran ⊢
          obtain ⟨propertiesOk, properties, ran⟩ := Failing.bind_ok ran
          rw [properties]
          cases propertiesOk with
          | false =>
              cases ran
              rfl
          | true =>
              simp only [Bool.not_true, Bool.false_eq_true, if_false] at ran
              obtain ⟨o, -, ran⟩ := Failing.bind_ok ran
              obtain ⟨s1, -, ran⟩ := Failing.bind_ok ran
              obtain ⟨s2, -, ran⟩ := Failing.bind_ok ran
              obtain ⟨s3, -, ran⟩ := Failing.bind_ok ran
              cases ran
              rfl

theorem freshOrphan_ok {owner : Int} {anonymous : Bool}
    (born : freshOrphan s owner anonymous = .ok s1) :
    ∃ o : Object V, o.parents = .obj NOTHING ∧ o.children = [] ∧ o.verbdefs = [] ∧
      s1.object = (s.setObject (freshVar s anonymous) (some o)).object ∧
      s1.numObjects = s.numObjects + 1 ∧ s1.anonymousObjects = s.anonymousObjects := by
  have appended : (-1 : Int) ≤ 0 ∨ s.numObjects ≤ -1 := Or.inl (by omega)
  obtain ⟨o, found, rfl⟩ := Db.modify_ok born
  have orphan : o = dbInitObject s.numObjects := by
    cases anonymous <;> simpa [dbCreateObject, freshVar, eq_comm] using found
  refine ⟨{ o with owner := if s.valid owner = true then owner else s.numObjects },
    ?_, ?_, ?_, ?_, ?_, ?_⟩
  · rw [orphan]
    rfl
  · rw [orphan]
    rfl
  · rw [orphan]
    rfl
  · funext w
    cases anonymous <;> simp only [dbCreateObject, freshVar, Db.setObject] <;> split <;> simp_all
  · cases anonymous <;> simp [dbCreateObject]
  · cases anonymous <;> simp [dbCreateObject]

/-- The object is gone again, and with it one number too many if the one below is unused. -/
structure TakenBack (s s' : Db V) : Prop where
  object : ∀ oid, s'.object (.obj oid) = s.object (.obj oid)
  numObjects : s'.numObjects =
    if s.valid (dbLastUsedObjid s) then s.numObjects else s.numObjects - 1

theorem TakenBack.untouched_iff (back : TakenBack s s') :
    Untouched s s' ↔ s.valid (dbLastUsedObjid s) = true := by
  have length := back.numObjects
  constructor
  · intro untouched
    by_contra unused
    rw [if_neg unused] at length
    have same := untouched.maxObject
    simp only [dbLastUsedObjid] at same
    omega
  · intro used
    rw [if_pos used] at length
    refine ⟨by rw [dbLastUsedObjid, dbLastUsedObjid, length], ?_, fun oid => by rw [back.object]⟩
    funext oid
    rw [Db.valid, Db.valid, back.object]

theorem setLastUsed_takenBack {t : Db V} (object : ∀ oid, t.object (.obj oid) = s.object (.obj oid))
    (numObjects : t.numObjects = s.numObjects + 1) (tabled : Tabled s) :
    TakenBack s (dbSetLastUsedObjid t (dbLastUsedObjid s)) := by
  have valid (oid : Int) : t.valid oid = s.valid oid := by rw [Db.valid, Db.valid, object]
  have unused : s.valid s.numObjects = false := by
    by_contra used
    have bound := tabled s.numObjects (by simpa using used)
    omega
  obtain ⟨n, same, -⟩ := setLastUsed_spec t (dbLastUsedObjid s)
  refine ⟨fun oid => by rw [same, object], ?_⟩
  have turns : (t.numObjects - dbLastUsedObjid s).toNat = 2 := by
    rw [numObjects, dbLastUsedObjid]
    omega
  have first : t.numObjects - 1 = s.numObjects := by omega
  have above : s.numObjects > dbLastUsedObjid s := by
    rw [dbLastUsedObjid]
    omega
  have above' : t.numObjects > dbLastUsedObjid s := by omega
  unfold dbSetLastUsedObjid
  rw [turns]
  simp only [List.range_succ, List.range_zero, List.nil_append, List.cons_append, List.foldl_cons,
    List.foldl_nil, first, valid, unused, above', Bool.not_false, Bool.true_and, decide_true, if_true]
  have last : s.numObjects - 1 = dbLastUsedObjid s := rfl
  have usedAt (m : Int) : Db.valid { t with numObjects := m } (dbLastUsedObjid s) =
      s.valid (dbLastUsedObjid s) := valid _
  simp only [last, usedAt, above, decide_true, Bool.and_true]
  by_cases used : s.valid (dbLastUsedObjid s) = true
  · simp [used]
  · simp [used]

theorem Tabled.unused (tabled : Tabled s) : s.object (.obj s.numObjects) = none := by
  cases found : s.object (.obj s.numObjects) with
  | none => rfl
  | some o =>
      have bound := tabled s.numObjects (Db.valid_iff.mpr ⟨o, found⟩)
      omega

theorem refused_takenBack (tabled : Tabled s) {owner : Int} {anonymous : Bool} {outcome : Outcome}
    (born : freshOrphan s owner anonymous = .ok s1)
    (settled : Settled s s1 s' anonymous false outcome) : TakenBack s s' := by
  obtain ⟨o, -, -, -, object, numObjects, -⟩ := freshOrphan_ok born
  cases anonymous with
  | false =>
      obtain ⟨-, s3, destroyed, rfl⟩ := settled
      obtain ⟨users, rfl⟩ := dbDestroyObject_eq destroyed
      refine setLastUsed_takenBack (fun oid => ?_) numObjects tabled
      by_cases same : oid = s.numObjects
      · rw [same, tabled.unused]
        simp
      · simp [same, object, freshVar]
  | true =>
      obtain ⟨-, s3, destroyed, rfl⟩ := settled
      obtain ⟨index, rfl⟩ := dbDestroyAnonymousObject_eq destroyed
      refine setLastUsed_takenBack (fun oid => ?_) numObjects tabled
      simp [object, freshVar]

theorem anonymous_reparented {address : Nat} {o : Object V} {parents : ObjOrList}
    (found : s.object (.anon address) = some o) (childless : o.children = [])
    (ran : dbChangeParents s (.anon address) parents [] = .ok (true, s')) :
    (∀ oid, s'.object (.obj oid) = s.object (.obj oid)) ∧ s'.numObjects = s.numObjects := by
  rcases dbChangeParents_ok ran with ⟨impossible, -⟩ | ⟨-, s2, change⟩
  · cases impossible
  · obtain ⟨o', s1, -, relinked, assigned⟩ := change.relinked
    cases relinked
    have same := Db.unindexed_fields (relinkAnon_unindexed s address o'.parents parents)
    obtain ⟨o2, found2, rfl⟩ := Db.modify_ok assigned
    rw [same.1, found] at found2
    cases found2
    obtain ⟨me, foundMe, fixed⟩ := Failing.bind_ok change.fixed
    rw [Db.dereference_ok, Db.setObject_object, if_pos rfl] at foundMe
    cases foundMe
    split at fixed
    · cases fixed
    · obtain ⟨slots, -, fixed⟩ := Failing.bind_ok fixed
      obtain ⟨s3, filled, fixed⟩ := Failing.bind_ok fixed
      simp only [childless, gatheredKids, List.isEmpty_nil, if_true, List.map_nil, List.append_nil,
        List.foldlM_nil, pure, Except.pure, Except.ok.injEq] at fixed
      subst fixed
      obtain ⟨o3, -, rfl⟩ := Db.modify_ok filled
      exact ⟨fun oid => by simp [same.1], by simp [same.2.1]⟩

theorem anonymous_takenBack (tabled : Tabled s) {owner : Int} {parents : ObjOrList}
    {outcome : Outcome} (born : freshOrphan s owner true = .ok s1)
    (reparented : dbChangeParents s1 (.anon s.nextAnon) parents [] = .ok (true, s2))
    (settled : Settled s s2 s' true true outcome) : TakenBack s s' := by
  obtain ⟨o, -, childless, -, object, numObjects, -⟩ := freshOrphan_ok born
  have found : s1.object (.anon s.nextAnon) = some o := by simp [object, freshVar]
  have kept := anonymous_reparented found childless reparented
  have back : TakenBack s (dbSetLastUsedObjid s2 (dbLastUsedObjid s)) := by
    refine setLastUsed_takenBack (fun oid => ?_) (kept.2.trans numObjects) tabled
    rw [kept.1, object]
    simp [freshVar]
  obtain ⟨o', -, rfl⟩ := Db.modify_ok settled.2
  exact ⟨fun oid => by simpa using back.object oid, back.numObjects⟩

end TakingBack

section Searching

variable {s s' : Db V} {verb : CString}

theorem foldlM_answers {ε ι β : Type} {step : Option β → ι → Except ε (Option β)} {items : List ι}
    (Gives : ι → Prop) (skip : ∀ item b, step (some b) item = .ok (some b))
    (look : ∀ item ∈ items, ∀ r, step none item = .ok r → (r.isSome = true ↔ Gives item))
    {start final : Option β} (ran : items.foldlM step start = .ok final) :
    final.isSome = true ↔ start.isSome = true ∨ ∃ item ∈ items, Gives item := by
  induction items generalizing start with
  | nil =>
      cases ran
      simp
  | cons item rest ih =>
      obtain ⟨middle, first, later⟩ := Failing.foldlM_cons_ok ran
      rw [ih (fun other member => look other (by simp [member])) later]
      cases start with
      | some b =>
          rw [skip] at first
          cases first
          simp
      | none =>
          rw [look item (by simp) middle first]
          simp

theorem offered_above {p : Int} {o : Object V} (found : s.object (.obj p) = some o) :
    (∃ u, Ancestor s (.obj p) u ∧ callableAt s verb u ≠ none) ↔
      callableAt s verb (.obj p) ≠ none ∨ Offered s verb (enlistVar o.parents) := by
  constructor
  · rintro ⟨u, path, callable⟩
    rcases Relation.ReflTransGen.cases_head path with rfl | ⟨w, edge, later⟩
    · exact Or.inl callable
    · obtain ⟨o', q, found', member, valid, rfl⟩ := mem_parentsOf.mp edge
      rw [found] at found'
      cases found'
      exact Or.inr ⟨q, member, valid, u, later, callable⟩
  · rintro (callable | ⟨q, member, valid, u, later, callable⟩)
    · exact ⟨_, Ancestor.self s _, callable⟩
    · exact ⟨u, Ancestor.above (mem_parentsOf.mpr ⟨o, q, found, member, valid, rfl⟩) later, callable⟩

theorem searchParents_answers {fuel : Nat} {stack : List Int} {answer : Option (ObjVar × Nat)}
    (ran : searchParents s ⟨verb, none⟩ fuel stack = .ok answer) :
    answer.isSome = true ↔ Offered s verb stack := by
  induction fuel generalizing stack answer with
  | zero => cases ran
  | succ fuel ih =>
      have answers := foldlM_answers (fun p => s.valid p = true ∧
        ∃ u, Ancestor s (.obj p) u ∧ callableAt s verb u ≠ none) (fun _ _ => rfl)
        (fun p _ r looked => ?_) ran
      · simpa [Offered] using answers
      · cases found : s.object (.obj p) with
        | none =>
            simp only [found, Except.ok.injEq] at looked
            simp [← looked, Db.valid, found]
        | some o =>
            have valid : s.valid p = true := Db.valid_iff.mpr ⟨o, found⟩
            simp only [found] at looked
            rw [offered_above found]
            have literal : findVerbdefByName o ⟨verb, none⟩ true = o.firstCallable verb :=
              findVerbdefByName_plain (o.namedPlainly_of_plain rfl)
            simp only [valid, true_and, callableAt, found]
            rw [literal] at looked
            cases own : o.firstCallable verb with
            | some i =>
                simp only [own, Except.ok.injEq] at looked
                simp [← looked]
            | none =>
                simp only [own] at looked
                simpa using ih looked

theorem findCallableVerbdef_answers {start : ObjVar} {o : Object V} {answer : Option (ObjVar × Nat)}
    (found : s.object start = some o) (verbless : o.verbdefs = [])
    (ran : findCallableVerbdef s start ⟨verb, none⟩ = .ok answer) :
    answer.isSome = true ↔ Offered s verb (enlistVar o.parents) := by
  rw [findCallableVerbdef, Failing.bind_of_ok (Db.dereference_ok.mpr found)] at ran
  simp only [findVerbdefByName, verbless, List.findIdx?_nil] at ran
  exact searchParents_answers ran

structure Grown (s s' : Db V) (oid : Int) (parents : ObjOrList) : Prop where
  unused : s.object (.obj oid) = none
  elsewhere : ∀ v, v ≠ .obj oid →
    (s'.object v).map Object.searched = (s.object v).map Object.searched
  here : ∃ o, s'.object (.obj oid) = some o ∧ o.parents = parents ∧ o.verbdefs = []

namespace Grown

variable {oid : Int} {parents : ObjOrList}

theorem valid (grown : Grown s s' oid parents) {p : Int} (other : p ≠ oid) :
    s'.valid p = s.valid p := by
  have view := congrArg Option.isSome (grown.elsewhere (.obj p) (by simpa using other))
  rwa [Option.isSome_map, Option.isSome_map] at view

theorem callableAt (grown : Grown s s' oid parents) (v : ObjVar) :
    callableAt s' verb v = callableAt s verb v := by
  by_cases same : v = .obj oid
  · obtain ⟨o, found, -, verbless⟩ := grown.here
    subst same
    simp [ToastStunt.callableAt, found, grown.unused, Object.firstCallable, verbless]
  · refine callableAt_congr ?_ verb
    have view := congrArg (Option.map Prod.snd) (grown.elsewhere v same)
    rwa [Option.map_map, Option.map_map] at view

theorem edge_iff (grown : Grown s s' oid parents) {v : ObjVar} (other : v ≠ .obj oid) {p : Int}
    (notNew : p ≠ oid) : .obj p ∈ parentsOf s' v ↔ .obj p ∈ parentsOf s v := by
  have view := congrArg (Option.map Prod.fst) (grown.elsewhere v other)
  rw [Option.map_map, Option.map_map] at view
  unfold parentsOf
  cases found : s.object v with
  | none =>
      rw [found, Option.map_none, Option.map_eq_none_iff] at view
      rw [view]
  | some o =>
      rw [found, Option.map_some, Option.map_eq_some_iff] at view
      obtain ⟨o', found', same⟩ := view
      have sameParents : o'.parents = o.parents := same
      simp [found', sameParents, grown.valid notNew]

theorem path_forth (grown : Grown s s' oid parents) {v u : ObjVar} (path : Ancestor s v u) :
    Ancestor s' v u := by
  induction path using Relation.ReflTransGen.head_induction_on with
  | refl => exact Ancestor.self s' u
  | head edge path ih =>
      obtain ⟨o, p, found, member, valid, rfl⟩ := mem_parentsOf.mp edge
      refine Ancestor.above ((grown.edge_iff ?_ ?_).mpr edge) ih
      · rintro rfl
        rw [grown.unused] at found
        cases found
      · rintro rfl
        rw [Db.valid, grown.unused] at valid
        cases valid

theorem path_back (grown : Grown s s' oid parents) {v u : ObjVar} (path : Ancestor s' v u)
    (callable : ToastStunt.callableAt s verb u ≠ none) :
    Offered s verb (enlistVar parents) ∨ v ≠ .obj oid ∧ Ancestor s v u := by
  induction path using Relation.ReflTransGen.head_induction_on with
  | refl =>
      refine Or.inr ⟨?_, Ancestor.self s u⟩
      rintro rfl
      simp [ToastStunt.callableAt, grown.unused] at callable
  | @head w next edge path ih =>
      rcases ih with offered | ⟨notNew, path⟩
      · exact Or.inl offered
      · obtain ⟨o, p, found, member, valid, rfl⟩ := mem_parentsOf.mp edge
        have other : p ≠ oid := fun same => notNew (by rw [same])
        by_cases here : w = .obj oid
        · obtain ⟨o', found', sameParents, -⟩ := grown.here
          rw [here, found'] at found
          cases found
          rw [sameParents] at member
          rw [grown.valid other] at valid
          exact Or.inl ⟨p, member, valid, u, path, callable⟩
        · exact Or.inr ⟨here, Ancestor.above ((grown.edge_iff here other).mp edge) path⟩

theorem offered_iff (grown : Grown s s' oid parents) :
    Offered s' verb (enlistVar parents) ↔ Offered s verb (enlistVar parents) := by
  constructor
  · rintro ⟨p, member, valid, u, path, callable⟩
    rw [grown.callableAt] at callable
    rcases grown.path_back path callable with offered | ⟨notNew, before⟩
    · exact offered
    · rw [grown.valid (fun same => notNew (by rw [same]))] at valid
      exact ⟨p, member, valid, u, before, callable⟩
  · rintro ⟨p, member, valid, u, path, callable⟩
    have other : p ≠ oid := by
      rintro rfl
      rw [Db.valid, grown.unused] at valid
      cases valid
    refine ⟨p, member, by rwa [grown.valid other], u, grown.path_forth path, ?_⟩
    rwa [grown.callableAt]

end Grown

theorem relinkChildren_searched {oid : Int} {old new : ObjOrList}
    (ran : relinkChildren s oid old new = .ok s') : SameUpTo Object.searched s s' := by
  obtain ⟨s1, removed, added⟩ := Failing.bind_ok ran
  refine Failing.foldlM_invariant (SameUpTo Object.searched s) ?_
    (Failing.foldlM_invariant (SameUpTo Object.searched s) ?_ (SameUpTo.refl s) removed) added
  · intro parent _ before after same step
    exact same.trans (SameUpTo.of_modify (by intros; rfl) step)
  · intro parent _ before after same step
    exact same.trans (SameUpTo.of_modify (by intros; rfl) step)

theorem permanent_grown {s1 s2 : Db V} (tabled : Tabled s) {owner : Int} {parents : ObjOrList}
    (born : freshOrphan s owner false = .ok s1)
    (reparented : dbChangeParents s1 (.obj s.numObjects) parents [] = .ok (true, s2)) :
    Grown s s2 s.numObjects parents ∧ s2.numObjects = s.numObjects + 1 := by
  obtain ⟨o, -, -, verbless, object, numObjects, -⟩ := freshOrphan_ok born
  rcases dbChangeParents_ok reparented with ⟨impossible, -⟩ | ⟨-, s4, change⟩
  · cases impossible
  · obtain ⟨before, s3, found, relinked, assigned⟩ := change.relinked
    have same3 := relinkChildren_searched relinked
    have same2 : SameUpTo Object.searched _ s2 := (fix_unslotted change.fixed).coarser
      fun o o' sameLook => by
        have searched : o'.unslotted.searched = o.unslotted.searched :=
          congrArg Object.searched sameLook
        exact searched
    have newVar : freshVar s false = .obj s.numObjects := rfl
    rw [newVar] at object
    obtain ⟨o3, found3, rfl⟩ := Db.modify_ok assigned
    refine ⟨⟨tabled.unused, fun v other => ?_, ?_⟩, ?_⟩
    · have here := same2.view v
      rw [Db.setObject_object, if_neg other, same3.view, object, Db.setObject_object, if_neg other]
        at here
      exact here
    · have here := same2.view (.obj s.numObjects)
      have there := same3.view (.obj s.numObjects)
      rw [found3, object] at there
      rw [Db.setObject_object, if_pos rfl, Option.map_some, Option.map_eq_some_iff] at here
      obtain ⟨o2, found2, same⟩ := here
      simp [Object.searched] at there
      simp only [Object.searched, Prod.mk.injEq] at same
      refine ⟨o2, found2, same.1, ?_⟩
      rw [← callables_nil, same.2]
      exact there.2.trans (callables_nil.mpr verbless)
    · rw [same2.numObjects, ← numObjects, ← same3.numObjects]
      rfl

theorem Grown.callVerb_full {parents : ObjOrList} (grown : Grown s s' s.numObjects parents)
    {stackFull : Bool} {answer : Option CallError}
    (ran : callVerb s' stackFull s.numObjects (.obj s.numObjects) verb = .ok answer) :
    answer = some .E_MAXREC ↔ stackFull = true ∧ Offered s verb (enlistVar parents) := by
  obtain ⟨o, found, sameParents, verbless⟩ := grown.here
  have valid : s'.valid s.numObjects = true := Db.valid_iff.mpr ⟨o, found⟩
  simp only [callVerb, valid, if_true] at ran
  obtain ⟨verbFound, searched, ran⟩ := Failing.bind_ok ran
  have answers := findCallableVerbdef_answers found verbless searched
  rw [sameParents, grown.offered_iff] at answers
  rw [← answers]
  cases verbFound with
  | none =>
      cases ran
      simp
  | some h =>
      cases stackFull <;> cases ran <;> simp

end Searching

section Claims

variable {s s' : Db V}

theorem kept_not_untouched (longer : s'.numObjects = s.numObjects + 1) : ¬Untouched s s' := by
  intro untouched
  have same := untouched.maxObject
  rw [dbLastUsedObjid, dbLastUsedObjid, longer] at same
  omega

theorem Untouched.refl (s : Db V) : Untouched s s := ⟨rfl, rfl, fun _ => rfl⟩

theorem CreateCall.run_eq {call : CreateCall V} {parents : ObjOrList} {options : CreateOptions V}
    (isParents : call.parents = some parents)
    (isOptions : createOptions call.progr call.rest = some options) {reply : CreateReply V}
    (ran : call.run s = .ok (reply, s')) :
    ∃ outcome, bfCreate s call.progr parents options.owner options.flag = .ok (outcome, s') ∧
      ((∀ v, outcome ≠ .object v) ∧ reply = .answered outcome ∨
        ∃ v answer, outcome = .object v ∧
          callVerb s' call.stackFull s.numObjects v initializeName = .ok answer ∧
          reply = match answer with
            | none => .calling v (options.init.getD [])
            | some .E_MAXREC => .answered (.error .E_MAXREC)
            | some _ => .answered (.object v)) := by
  unfold CreateCall.run at ran
  rw [isParents, isOptions] at ran
  obtain ⟨⟨outcome, t⟩, created, ran⟩ := Failing.bind_ok ran
  cases outcome with
  | done =>
      cases ran
      exact ⟨_, created, Or.inl ⟨nofun, rfl⟩⟩
  | error e =>
      cases ran
      exact ⟨_, created, Or.inl ⟨nofun, rfl⟩⟩
  | object v =>
      obtain ⟨answer, called, ran⟩ := Failing.bind_ok ran
      cases answer with
      | none =>
          cases ran
          exact ⟨_, created, Or.inr ⟨v, none, rfl, called, rfl⟩⟩
      | some e => cases e <;> cases ran <;> exact ⟨_, created, Or.inr ⟨v, _, rfl, called, rfl⟩⟩

/-- Once it has got past its tests, a run either takes the object back, or the object is
permanent and the answer of `call_verb` decides what is returned. -/
theorem create_built (tabled : Tabled s) {call : CreateCall V} {parents : ObjOrList}
    {options : CreateOptions V} {reply : CreateReply V} (isParents : call.parents = some parents)
    (isOptions : createOptions call.progr call.rest = some options)
    (checked : createChecks s call.progr parents options.owner options.flag = .ok none)
    (ran : call.run s = .ok (reply, s')) :
    (options.flag = true ∨ takesParents s options.owner parents = .ok false) ∧
        reply.temporary ∧ TakenBack s s' ∨
      ¬(options.flag = true ∨ takesParents s options.owner parents = .ok false) ∧
        s'.numObjects = s.numObjects + 1 ∧
          (reply.temporary ↔ call.stackFull = true ∧ Offered s initializeName (enlistVar parents)) := by
  obtain ⟨outcome, created, replied⟩ := CreateCall.run_eq isParents isOptions ran
  rcases bfCreate_cases created with ⟨e, refused, -⟩ | ⟨-, s1, s2, changed, born, reparented, settled⟩
  · rw [checked] at refused
    cases refused
  generalize isFlag : options.flag = anonymous at *
  cases changed with
  | false =>
      obtain ⟨-, rfl⟩ : false = false ∧ s2 = s1 := by
        rcases dbChangeParents_ok reparented with same | ⟨impossible, -⟩
        · exact same
        · cases impossible
      have isError : outcome = .error .E_INVARG := by
        cases anonymous <;> exact settled.1
      have temporary : reply.temporary := by
        rcases replied with ⟨-, rfl⟩ | ⟨v, answer, isObject, -⟩
        · rw [isError]
          trivial
        · rw [isError] at isObject
          cases isObject
      refine Or.inl ⟨?_, temporary, refused_takenBack tabled born settled⟩
      cases anonymous with
      | true => exact Or.inl rfl
      | false =>
          right
          rw [takesParents, Failing.bind_of_ok born]
          exact changeParentsChecks_ok reparented
  | true =>
      cases anonymous with
      | true =>
          refine Or.inl ⟨Or.inl rfl, ?_, anonymous_takenBack tabled born reparented settled⟩
          have isObject := settled.1
          rcases replied with ⟨notObject, -⟩ | ⟨v, answer, isObject', -, rfl⟩
          · exact absurd isObject (notObject _)
          · rw [isObject] at isObject'
            cases isObject'
            rcases answer with - | (- | - | -) <;> trivial
      | false =>
          obtain ⟨isObject, rfl⟩ := settled
          obtain ⟨grown, longer⟩ := permanent_grown tabled born reparented
          have taken : takesParents s options.owner parents = .ok true := by
            rw [takesParents, Failing.bind_of_ok born]
            exact changeParentsChecks_ok reparented
          refine Or.inr ⟨by simp [taken], longer, ?_⟩
          rcases replied with ⟨notObject, -⟩ | ⟨v, answer, isObject', called, rfl⟩
          · exact absurd isObject (notObject _)
          · rw [isObject] at isObject'
            cases isObject'
            rw [← grown.callVerb_full called]
            rcases answer with - | (- | - | -) <;> simp [CreateReply.temporary]

/-- Exactly the harmless calls leave the permanent objects as they were when they make an
anonymous object or fail. -/
theorem create_leaves_table (reachable : TableReachable s) {call : CreateCall V}
    {reply : CreateReply V} (ran : call.run s = .ok (reply, s')) :
    (reply.temporary → Untouched s s') ↔ call.Harmless s := by
  have tabled := reachable_tabled reachable
  have noObject (stays : s' = s) (harmless : call.Harmless s) :
      (reply.temporary → Untouched s s') ↔ call.Harmless s :=
    ⟨fun _ => harmless, fun _ _ => stays ▸ Untouched.refl s⟩
  unfold CreateCall.Harmless at noObject ⊢
  cases isParents : call.parents with
  | none =>
      simp only [CreateCall.run, isParents] at ran noObject ⊢
      cases ran
      exact noObject rfl trivial
  | some parents =>
      cases isOptions : createOptions call.progr call.rest with
      | none =>
          simp only [CreateCall.run, isParents, isOptions] at ran noObject ⊢
          cases ran
          exact noObject rfl trivial
      | some options =>
          simp only [isParents, isOptions] at noObject ⊢
          by_cases checked :
              createChecks s call.progr parents options.owner options.flag = .ok none
          · rcases create_built tabled isParents isOptions checked ran with
              ⟨backs, temporary, back⟩ | ⟨keeps, longer, temporary⟩
            · rw [if_pos backs, ← back.untouched_iff]
              tauto
            · have touched := kept_not_untouched longer
              rw [if_neg keeps, ← temporary]
              tauto
          · obtain ⟨outcome, created, -⟩ := CreateCall.run_eq isParents isOptions ran
            rcases bfCreate_cases created with ⟨e, -, -, rfl⟩ | ⟨passed, -⟩
            · exact noObject rfl (Or.inl checked)
            · exact absurd passed checked

def recycledLast : List (Call Unit) :=
  [.create (-1) (.obj (-1)) (-1) false, .create (-1) (.obj (-1)) (-1) false, .recycle 1 (.obj 1)]

theorem runAll_tableReachable {calls : List (Call V)} (ran : runAll calls Db.empty = .ok s) :
    TableReachable s :=
  Reachable.mono (fun _ _ => Or.inl) (runAll_reachable .start (fun _ _ _ => trivial) ran :
    ReachableBy (fun _ _ => True) s)

def createAnonymous : CreateCall Unit := ⟨0, some (.list []), [.int 1], false⟩

theorem createAnonymous_ran : ∃ s s' : Db Unit, TableReachable s ∧
    createAnonymous.run s = .ok (.answered (.object (.anon 0)), s') ∧
    s.numObjects = 2 ∧ s'.numObjects = 1 := by
  have checked : Failing.okAnd (runAll recycledLast Db.empty) (fun s =>
      Failing.okAnd (createAnonymous.run s) (fun r =>
        r.1 = .answered (.object (.anon 0)) && r.2.numObjects = 1) &&
      s.numObjects = 2) = true := by decide +kernel
  obtain ⟨s, ran, shape⟩ := Failing.of_okAnd checked
  rw [Bool.and_eq_true, decide_eq_true_eq] at shape
  obtain ⟨⟨reply, s'⟩, created, answered⟩ := Failing.of_okAnd shape.1
  simp only [Bool.and_eq_true, decide_eq_true_eq] at answered
  exact ⟨s, s', runAll_tableReachable ran, answered.1 ▸ created, shape.2, answered.2⟩

theorem create_leaves_table_recycled : ∃ s : Db Unit, ¬createAnonymous.Harmless s := by
  obtain ⟨s, s', reachable, ran, before, after⟩ := createAnonymous_ran
  refine ⟨s, fun harmless => ?_⟩
  have same := ((create_leaves_table reachable ran).mpr harmless trivial).maxObject
  rw [dbLastUsedObjid, dbLastUsedObjid, before, after] at same
  omega

/-- The number of the object that was recycled last is forgotten when an anonymous object is
made, and the next object takes it again. -/
theorem create_shrinks_table : ∃ (s s' : Db Unit) (reply : CreateReply Unit), TableReachable s ∧
    createAnonymous.run s = .ok (reply, s') ∧ reply.temporary ∧ ¬Untouched s s' := by
  obtain ⟨s, s', reachable, ran, before, after⟩ := createAnonymous_ran
  refine ⟨s, s', _, reachable, ran, trivial, fun untouched => ?_⟩
  have same := untouched.maxObject
  rw [dbLastUsedObjid, dbLastUsedObjid, before, after] at same
  omega

end Claims

end ToastStunt
