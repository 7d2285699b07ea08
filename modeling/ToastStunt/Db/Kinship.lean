import ToastStunt.Db.LookupRuns
import ToastStunt.Db.Moving

/-!
Who descends from whom: `db_object_isa` of db_objects.cc, which searches the parents without
marking what it has seen, and the built-ins isa and occupants of objects.cc over it.
-/

namespace ToastStunt

open FirstVisit

variable {V : Type}

def isaLoop (s : Db V) (parent : ObjVar) : Nat → List Int → Except Crash Bool
  | _, [] => .ok false
  | 0, _ :: _ => .error .unbounded
  | fuel + 1, ancestor :: ancestors =>
      if ancestor = NOTHING then isaLoop s parent fuel ancestors
      else if .obj ancestor = parent then .ok true
      else do
        let t ← s.dereference (.obj ancestor)
        isaLoop s parent fuel (ancestors ++ enlistVar t.parents)

def dbObjectIsa (s : Db V) (turns : Nat) (object parent : ObjVar) : Except Crash Bool := do
  if object = parent then
    return true
  let o ← s.dereference object
  isaLoop s parent turns (enlistVar o.parents)

def multiParentIsa (s : Db V) (turns : Nat) (object : ObjVar) (parents : List Int) :
    Except Crash Bool :=
  parents.anyM fun parent => dbObjectIsa s turns object (.obj parent)

/-- The parent that `return_object` asks for. -/
def firstParent (s : Db V) (turns : Nat) (object : ObjVar) : List Int → Except Crash (Option Int)
  | [] => .ok none
  | parent :: parents => do
      if ← dbObjectIsa s turns object (.obj parent) then
        return some parent
      firstParent s turns object parents

def bfIsa (s : Db V) (turns : Nat) (object : ObjVar) (parent : ObjOrList) :
    Except Crash (Option Int) :=
  if !isValid s object then .ok none else firstParent s turns object (enlistVar parent)

inductive OccupantsError where
  | E_INVARG
deriving DecidableEq, Repr

/-- The arguments that `occupants_callback` reads: the parents, if any are given, the test of the
player flag and the inversion of the test of the parents. -/
structure Wanted where
  parents : Option (List Int)
  checkPlayerFlag : Bool
  inverseMatch : Bool
deriving DecidableEq, Repr

def occupant (s : Db V) (turns : Nat) (wanted : Wanted) (oid : Int) : Except Crash Bool := do
  let parentMatches ← match wanted.parents with
    | none => pure true
    | some parents => do
        let isa ← multiParentIsa s turns (.obj oid) parents
        pure (if wanted.inverseMatch then !isa else isa)
  return parentMatches && (!wanted.checkPlayerFlag || isUser s oid)

def occupantsLoop (s : Db V) (turns : Nat) (wanted : Wanted) : List Int → Except Crash (List Int)
  | [] => .ok []
  | oid :: contents => do
      let matching ← if s.valid oid then occupant s turns wanted oid else pure false
      let tmp ← occupantsLoop s turns wanted contents
      return if matching then oid :: tmp else tmp

def bfOccupants (s : Db V) (turns : Nat) (contents : List Int) (wanted : Wanted) :
    Except Crash (Except OccupantsError (List Int)) := do
  if !contents.all s.valid then
    return .error .E_INVARG
  return .ok (← occupantsLoop s turns wanted contents)

section Search

variable {s : Db V} {weight : ObjVar → Nat}

def listedParents (s : Db V) (v : ObjVar) : List ObjVar :=
  match s.object v with
  | none => []
  | some o => (enlistVar o.parents).map .obj

def Weighs (s : Db V) (weight : ObjVar → Nat) : Prop :=
  ∀ v, ((listedParents s v).map weight).sum < weight v

theorem WellFormed.weighs (graph : WellFormed s) : ∃ weight, Weighs s weight := by
  obtain ⟨rank, ranked⟩ := graph.acyclic
  let height (v : ObjVar) : Nat := if (s.object v).isSome then rank v + 1 else 0
  suffices falls : Ranked (listedParents s) height by exact falls.weight
  intro v u listed
  unfold listedParents at listed
  cases found : s.object v with
  | none => simp [found] at listed
  | some o =>
      rw [found] at listed
      obtain ⟨oid, named, rfl⟩ := List.mem_map.mp listed
      have here : height v = rank v + 1 := by simp [height, found]
      rw [here]
      by_cases valid : s.valid oid = true
      · have edge : .obj oid ∈ parentsOf s v := mem_parentsOf.mpr ⟨o, oid, found, named, valid, rfl⟩
        have below := ranked v _ edge
        have there : height (.obj oid) = rank (.obj oid) + 1 := if_pos valid
        omega
      · have there : height (.obj oid) = 0 := if_neg valid
        omega

def Known (s : Db V) (oids : List Int) : Prop :=
  ∀ oid ∈ oids, oid = NOTHING ∨ s.valid oid = true

theorem WellFormed.known_parents (graph : WellFormed s) {v : ObjVar} {o : Object V}
    (found : s.object v = some o) : Known s (enlistVar o.parents) := by
  rcases graph.parents_valid found with none | valid
  · intro oid listed
    rw [none] at listed
    exact Or.inl (List.mem_singleton.mp listed)
  · intro oid listed
    exact Or.inr (valid oid listed)

def AnyAncestor (s : Db V) (oids : List Int) (parent : ObjVar) : Prop :=
  ∃ oid ∈ oids, s.valid oid = true ∧ Ancestor s (.obj oid) parent

theorem ancestor_iff {v parent : ObjVar} {o : Object V} (found : s.object v = some o) :
    Ancestor s v parent ↔ v = parent ∨ AnyAncestor s (enlistVar o.parents) parent := by
  constructor
  · intro path
    rcases Relation.ReflTransGen.cases_head path with same | ⟨middle, edge, rest⟩
    · exact Or.inl same
    · obtain ⟨o', oid, found', listed, valid, rfl⟩ := mem_parentsOf.mp edge
      rw [found] at found'
      cases found'
      exact Or.inr ⟨oid, listed, valid, rest⟩
  · rintro (rfl | ⟨oid, listed, valid, path⟩)
    · exact Ancestor.self s v
    · exact Ancestor.above (mem_parentsOf.mpr ⟨o, oid, found, listed, valid, rfl⟩) path

/-- The search of the source ends, with turns enough for every path upwards, and finds the parent
if and only if one of the entries descends from it. -/
theorem isaLoop_spec (graph : WellFormed s) (heavy : Weighs s weight) (parent : ObjVar)
    {fuel : Nat} {todo : List Int} (known : Known s todo)
    (enough : (todo.map fun oid => weight (.obj oid)).sum ≤ fuel) :
    ∃ found, isaLoop s parent fuel todo = .ok found ∧
      (found = true ↔ AnyAncestor s todo parent) := by
  induction fuel generalizing todo with
  | zero =>
      cases todo with
      | nil => exact ⟨false, rfl, by simp [AnyAncestor]⟩
      | cons oid rest =>
          have positive := heavy (.obj oid)
          rw [List.map_cons, List.sum_cons] at enough
          omega
  | succ fuel ih =>
      cases todo with
      | nil => exact ⟨false, rfl, by simp [AnyAncestor]⟩
      | cons oid rest =>
          have positive := heavy (.obj oid)
          rw [List.map_cons, List.sum_cons] at enough
          have knownRest : Known s rest := fun other inside => known other (List.mem_cons_of_mem _ inside)
          rw [isaLoop]
          by_cases nothing : oid = NOTHING
          · rw [if_pos nothing]
            obtain ⟨found, ran, exact⟩ := ih knownRest (by omega)
            refine ⟨found, ran, exact.trans ?_⟩
            have invalid : ¬s.valid oid = true := fun valid => graph.not_nothing valid nothing
            simp [AnyAncestor, invalid]
          · rw [if_neg nothing]
            have valid : s.valid oid = true := (known oid (List.mem_cons_self ..)).resolve_left nothing
            obtain ⟨o, here⟩ := Db.valid_iff.mp valid
            by_cases same : .obj oid = parent
            · rw [if_pos same]
              refine ⟨true, rfl, ?_⟩
              rw [← same]
              simp only [true_iff]
              exact ⟨oid, List.mem_cons_self .., valid, Ancestor.self s _⟩
            · rw [if_neg same]
              have listed : listedParents s (.obj oid) = (enlistVar o.parents).map .obj := by
                rw [listedParents, here]
              rw [listed, List.map_map] at positive
              have fewer : ((rest ++ enlistVar o.parents).map fun oid => weight (.obj oid)).sum ≤ fuel := by
                rw [List.map_append, List.sum_append]
                have same : ((enlistVar o.parents).map (weight ∘ ObjVar.obj)).sum =
                  ((enlistVar o.parents).map fun oid => weight (.obj oid)).sum := rfl
                omega
              have knownAll : Known s (rest ++ enlistVar o.parents) := by
                intro other inside
                rcases List.mem_append.mp inside with old | new
                · exact knownRest other old
                · exact graph.known_parents here other new
              obtain ⟨found, ran, exact⟩ := ih knownAll fewer
              refine ⟨found, ?_, exact.trans ?_⟩
              · rw [Db.dereference_ok.mpr here]
                exact ran
              · have upward : Ancestor s (.obj oid) parent ↔ _ := ancestor_iff here
                simp only [same, false_or] at upward
                constructor
                · rintro ⟨other, inside, validOther, path⟩
                  rcases List.mem_append.mp inside with old | new
                  · exact ⟨other, List.mem_cons_of_mem _ old, validOther, path⟩
                  · exact ⟨oid, List.mem_cons_self .., valid, upward.mpr ⟨other, new, validOther, path⟩⟩
                · rintro ⟨other, inside, validOther, path⟩
                  rcases List.mem_cons.mp inside with rfl | old
                  · obtain ⟨above, new, validAbove, rest⟩ := upward.mp path
                    exact ⟨above, List.mem_append_right _ new, validAbove, rest⟩
                  · exact ⟨other, List.mem_append_left _ old, validOther, path⟩

end Search

section Built

variable {s : Db V} {weight : ObjVar → Nat}

theorem dbObjectIsa_spec (graph : WellFormed s) (heavy : Weighs s weight) {v : ObjVar}
    (here : (s.object v).isSome = true) {turns : Nat} (enough : weight v ≤ turns) (parent : ObjVar) :
    dbObjectIsa s turns v parent = .ok (decide (parent ∈ dbAncestors s v true)) := by
  obtain ⟨o, found⟩ := Option.isSome_iff_exists.mp here
  have member := (graph.mem_ancestors (v := v) (w := parent)).trans (ancestor_iff found)
  unfold dbObjectIsa
  by_cases same : v = parent
  · have inside : parent ∈ dbAncestors s v true := member.mpr (Or.inl same)
    rw [if_pos same, decide_eq_true inside]
    rfl
  · rw [if_neg same, Db.dereference_ok.mpr found]
    have positive := heavy v
    rw [listedParents, found] at positive
    simp only [List.map_map] at positive
    obtain ⟨searched, ran, exact⟩ := isaLoop_spec graph heavy parent
      (graph.known_parents found) (Nat.le_trans (Nat.le_of_lt positive) enough)
    show isaLoop s parent turns (enlistVar o.parents) = _
    rw [ran]
    congr 1
    rw [Bool.eq_iff_iff, exact, decide_eq_true_iff, member]
    simp [same]

theorem firstParent_spec (graph : WellFormed s) (heavy : Weighs s weight) {v : ObjVar}
    (here : (s.object v).isSome = true) {turns : Nat} (enough : weight v ≤ turns)
    (parents : List Int) : firstParent s turns v parents =
      .ok (parents.find? fun parent => .obj parent ∈ dbAncestors s v true) := by
  induction parents with
  | nil => rfl
  | cons parent rest ih =>
      rw [firstParent, dbObjectIsa_spec graph heavy here enough, List.find?_cons]
      by_cases inside : .obj parent ∈ dbAncestors s v true
      · simp only [decide_eq_true inside]
        rfl
      · simp only [decide_eq_false inside]
        exact ih

def matchesWanted (s : Db V) (wanted : Wanted) (oid : Int) : Bool :=
  (match wanted.parents with
    | none => true
    | some parents =>
        (parents.any fun parent => .obj parent ∈ dbAncestors s (.obj oid) true) != wanted.inverseMatch) &&
    (!wanted.checkPlayerFlag || isUser s oid)

theorem occupant_spec (graph : WellFormed s) (heavy : Weighs s weight) {oid : Int}
    (valid : s.valid oid = true) {turns : Nat} (enough : weight (.obj oid) ≤ turns) (wanted : Wanted) :
    occupant s turns wanted oid = .ok (matchesWanted s wanted oid) := by
  unfold occupant matchesWanted
  cases wanted.parents with
  | none => rfl
  | some parents =>
      have every : multiParentIsa s turns (.obj oid) parents = .ok
          (parents.any fun parent => .obj parent ∈ dbAncestors s (.obj oid) true) :=
        Failing.anyM_ok fun parent _ => dbObjectIsa_spec graph heavy valid enough (.obj parent)
      simp only [every]
      cases wanted.inverseMatch <;> simp

theorem occupantsLoop_spec (graph : WellFormed s) (heavy : Weighs s weight) {turns : Nat}
    {contents : List Int} (valid : ∀ oid ∈ contents, s.valid oid = true)
    (enough : ∀ oid ∈ contents, weight (.obj oid) ≤ turns) (wanted : Wanted) :
    occupantsLoop s turns wanted contents = .ok (contents.filter (matchesWanted s wanted)) := by
  induction contents with
  | nil => rfl
  | cons oid rest ih =>
      have first := occupant_spec graph heavy (valid oid (List.mem_cons_self ..))
        (enough oid (List.mem_cons_self ..)) wanted
      have later := ih (fun other inside => valid other (List.mem_cons_of_mem _ inside))
        fun other inside => enough other (List.mem_cons_of_mem _ inside)
      rw [occupantsLoop, if_pos (valid oid (List.mem_cons_self ..)), first, later, List.filter_cons]
      rfl

end Built

theorem runAll_lookups {calls : List (Call V)} {s : Db V}
    (regraphs : ∀ call ∈ calls, call.regraphs = true) (ran : runAll calls Db.empty = .ok s) :
    LookupReachable LookupCall.namesOnce s := by
  refine Failing.foldlM_invariant (LookupReachable LookupCall.namesOnce) ?_ .start ran
  intro call member before after reached step
  obtain ⟨⟨outcome, next⟩, called, rest⟩ := Failing.bind_ok step
  cases rest
  refine .step reached (Or.inl ⟨.call call, outcome, ?_, called⟩)
  intro progr oid renumbers
  obtain rfl := LookupCall.call.inj renumbers
  cases regraphs _ member

/-- The two listings and the search without marks tell of one relation, upwards and downwards. -/
theorem descent_agrees {s : Db V} (reachable : LookupReachable LookupCall.namesOnce s) :
    (∀ v, (dbAncestors s v true).Nodup) ∧
    (∀ p, (dbDescendants s (.obj p) true).Nodup) ∧
    (∀ c p, .obj p ∈ dbAncestors s (.obj c) true ↔ .obj c ∈ dbDescendants s (.obj p) true) ∧
    (∀ p, s.valid p = true → ∀ v, (s.object v).isSome = true →
      (v ∈ .obj p :: descendantsWithAnons s p ↔ .obj p ∈ dbAncestors s v true)) ∧
    ∀ v, (s.object v).isSome = true → ∃ least, ∀ turns, least ≤ turns → ∀ parent,
      dbObjectIsa s turns v parent = .ok (decide (parent ∈ dbAncestors s v true)) := by
  have graph := (reachable_valued reachable).out.graph
  refine ⟨graph.ancestors_nodup, graph.descendants_nodup, ?_, ?_, ?_⟩
  · intro c p
    rw [graph.mem_ancestors, graph.mem_descendants]
    simp
  · intro p valid v here
    rw [List.mem_cons, (descendantsWithAnons_spec graph valid).2]
    by_cases itself : v = .obj p
    · have self := graph.mem_ancestors.mpr (Ancestor.self s (.obj p))
      simp [itself, self]
    · simp [itself, here]
  · intro v here
    obtain ⟨weight, heavy⟩ := graph.weighs
    refine ⟨weight v, ?_⟩
    intro turns enough parent
    exact dbObjectIsa_spec graph heavy here enough parent

theorem descent_agrees_family : ∃ s : Db Unit, .obj 0 ∈ dbAncestors s (.obj 1) true ∧
    .obj 1 ∈ dbDescendants s (.obj 0) true := by
  obtain ⟨s, ran, shape⟩ := Failing.of_okAnd (x := runAll familyCalls Db.empty)
    (p := fun s => decide (.obj 0 ∈ dbAncestors s (.obj 1) true)) (by decide)
  have regraphs : ∀ call ∈ familyCalls, call.regraphs = true := by decide
  have reachable := runAll_lookups regraphs ran
  have above := of_decide_eq_true shape
  exact ⟨s, above, ((descent_agrees reachable).2.2.1 1 0).mp above⟩

/-- isa answers with the first parent that is an ancestor, and occupants keeps, in their order,
the objects that pass both tests, each told from the ancestors. -/
theorem isa_occupants_exact {s : Db V}
    (reachable : LookupReachable LookupCall.namesOnce s) :
    (∀ v, isValid s v = true → ∃ least, ∀ turns, least ≤ turns → ∀ parent,
      bfIsa s turns v parent =
        .ok ((enlistVar parent).find? fun p => .obj p ∈ dbAncestors s v true)) ∧
    ∀ contents, ∃ least, ∀ turns, least ≤ turns → ∀ wanted,
      bfOccupants s turns contents wanted = .ok (if contents.all s.valid
        then .ok (contents.filter (matchesWanted s wanted)) else .error .E_INVARG) := by
  have graph := (reachable_valued reachable).out.graph
  obtain ⟨weight, heavy⟩ := graph.weighs
  constructor
  · intro v valid
    have here : (s.object v).isSome = true := by
      cases v with
      | obj oid => exact valid
      | anon address =>
          cases found : s.object (.anon address) with
          | none => simp [isValid, found, anonValid] at valid
          | some o => rfl
    refine ⟨weight v, ?_⟩
    intro turns enough parent
    rw [bfIsa, valid]
    exact firstParent_spec graph heavy here enough (enlistVar parent)
  · intro contents
    refine ⟨(contents.map fun oid => weight (.obj oid)).sum, ?_⟩
    intro turns enough wanted
    unfold bfOccupants
    cases valid : contents.all s.valid with
    | false => rfl
    | true =>
        have light : ∀ oid ∈ contents, weight (.obj oid) ≤ turns := by
          intro oid inside
          have part := List.le_sum_of_mem (List.mem_map_of_mem (f := fun oid => weight (.obj oid)) inside)
          omega
        rw [occupantsLoop_spec graph heavy (List.all_eq_true.mp valid) light wanted]
        rfl

theorem isa_occupants_family : ∃ s : Db Unit, ∃ least, ∀ turns, least ≤ turns →
    bfOccupants s turns [0, 1] ⟨some [0], false, false⟩ = .ok (.ok [0, 1]) := by
  obtain ⟨s, ran, shape⟩ := Failing.of_okAnd (x := runAll familyCalls Db.empty)
    (p := fun s => [0, 1].all s.valid && decide (List.filter (matchesWanted s ⟨some [0], false, false⟩)
      [0, 1] = [0, 1])) (by decide)
  have regraphs : ∀ call ∈ familyCalls, call.regraphs = true := by decide
  have reachable := runAll_lookups regraphs ran
  obtain ⟨least, exact⟩ := (isa_occupants_exact reachable).2 [0, 1]
  rw [Bool.and_eq_true, decide_eq_true_iff] at shape
  refine ⟨s, least, ?_⟩
  intro turns enough
  rw [exact turns enough, if_pos shape.1, shape.2]

/-! The places above an object, up to one that descends from `base`. -/

def stopsAt (s : Db V) (turns : Nat) (base : Int) (checkParent : Bool) (loc : Int) :
    Except Crash Bool :=
  if base = 0 then .ok false
  else if checkParent then dbObjectIsa s turns (.obj loc) (.obj base)
  else .ok (loc = base)

def locations (s : Db V) (turns : Nat) (what base : Int) (checkParent : Bool) :
    Except Crash (Option (List Int)) :=
  locationsUntil s (stopsAt s turns base checkParent) what

theorem collectLocations_congr {s : Db V} {stop stop' : Int → Except Crash Bool}
    (same : ∀ loc, s.valid loc = true → stop loc = stop' loc) (fuel : Nat) (locs : List Int)
    (loc : Int) : collectLocations s stop fuel locs loc = collectLocations s stop' fuel locs loc := by
  induction fuel generalizing locs loc with
  | zero => rfl
  | succ fuel ih =>
      rw [collectLocations, collectLocations]
      cases valid : s.valid loc with
      | false => rfl
      | true => simp only [same loc valid, ih]

/-- Where no parent is stale the test is for being among the ancestors. -/
theorem locations_ancestors {s : Db V} (reachable : LookupReachable LookupCall.namesOnce s) :
    ∃ least : Int → Nat, ∀ turns, (∀ loc, s.valid loc = true → least loc ≤ turns) →
      ∀ what base checkParent, locations s turns what base checkParent = bfLocations s
        (fun loc base => decide (.obj base ∈ dbAncestors s (.obj loc) true)) what base checkParent := by
  have graph := (reachable_valued reachable).out.graph
  obtain ⟨weight, heavy⟩ := graph.weighs
  refine ⟨fun loc => weight (.obj loc), fun turns enough what base checkParent => ?_⟩
  rw [locations, bfLocations, locationsUntil, locationsUntil]
  have same (loc : Int) (valid : s.valid loc = true) : stopsAt s turns base checkParent loc =
      .ok (base ≠ 0 && if checkParent then decide (.obj base ∈ dbAncestors s (.obj loc) true)
        else loc = base) := by
    have isa := dbObjectIsa_spec graph heavy valid (enough loc valid) (.obj base)
    rw [stopsAt, isa]
    by_cases zero : base = 0
    · simp [zero]
    · cases checkParent <;> simp [zero]
  simp only [collectLocations_congr same]

/-- The search for `base` follows a stale parent to nothing. -/
theorem locations_stale {s : Db V} {turns : Nat} {what base first : Int} {crash : Crash}
    (valid : s.valid what = true) (located : dbObjectLocation s what = .ok first)
    (there : s.valid first = true) (real : base ≠ 0)
    (stale : dbObjectIsa s turns (.obj first) (.obj base) = .error crash) :
    locations s turns what base true = .error crash := by
  have stops : stopsAt s turns base true first = .error crash := by
    rw [stopsAt, if_neg real, if_pos rfl, stale]
  rw [locations, locationsUntil, valid, Bool.not_true, if_neg Bool.false_ne_true,
    Failing.bind_of_ok located, locationTurns, collectLocations, there, stops]
  rfl

end ToastStunt
