import ToastStunt.Db.CachedCalls
import ToastStunt.Db.Runs

/-!
Runs of the server with its caches. As long as no object is renumbered that another
names twice among its parents, the ancestors are looked up as if there was no cache,
and verbs too if none is looked up under its own string without matching it.
-/

namespace ToastStunt

open FirstVisit Following Runs

variable {V : Type}

section Calls

/-- A creation comes with the address that the allocator gives it, as do the names of a verb. -/
inductive CachedCall where
  | create (progr : Int) (parents : ObjOrList) (owner : Int) (anonymous : Bool) (pointer : Nat)
  | recreate (progr old parent owner : Int) (pointer : Nat)
  | chparents (progr : Int) (obj : ObjVar) (what : ObjOrList)
  | recycle (progr : Int) (obj : ObjVar)
  | renumber (progr oid : Int)
  | resetMaxObject (progr : Int)
  | addVerb (progr oid owner : Int) (flags : Nat) (names : CString) (copy : Nat) (dobj : ArgSpec)
      (prep : Int) (iobj : ArgSpec)
  | deleteVerb (progr oid : Int) (desc : VerbDesc)
  | setVerbInfo (progr oid : Int) (desc : VerbDesc) (owner : Int) (flags : Nat) (names : CString)
      (copy : Nat)
  | setVerbArgs (progr oid : Int) (desc : VerbDesc) (dobj : ArgSpec) (prep : Int) (iobj : ArgSpec)
  | ancestors (obj : ObjVar) (full : Bool)
  | findCallableVerb (recv : ObjVar) (verb : Word)

inductive Reply where
  | outcome (outcome : Outcome)
  | ancestors (list : List ObjVar)
  | verb (h : Option VerbHandle)

def answering (m : Cached (Outcome × Db V)) : Cached (Reply × Db V) := do
  let (outcome, s) ← m
  return (.outcome outcome, s)

def CachedCall.run (call : CachedCall) (s : Db V) : Cached (Reply × Db V) :=
  match call with
  | .create progr parents owner anonymous pointer =>
      answering (Cached.bfCreate s progr parents owner anonymous pointer)
  | .recreate progr old parent owner pointer =>
      answering (Cached.bfRecreate s progr old parent owner pointer)
  | .chparents progr obj what => answering (Cached.bfChparentChparents s progr obj what)
  | .recycle progr obj => answering (Cached.bfRecycle s progr obj)
  | .renumber progr oid => answering (Cached.bfRenumber s progr oid)
  | .resetMaxObject progr => answering (Cached.bfResetMaxObject s progr)
  | .addVerb progr oid owner flags names copy dobj prep iobj =>
      answering (Cached.bfAddVerb s progr oid owner flags names copy dobj prep iobj)
  | .deleteVerb progr oid desc => answering (Cached.bfDeleteVerb s progr oid desc)
  | .setVerbInfo progr oid desc owner flags names copy =>
      answering (Cached.bfSetVerbInfo s progr oid desc owner flags names copy)
  | .setVerbArgs progr oid desc dobj prep iobj =>
      answering (Cached.bfSetVerbArgs s progr oid desc dobj prep iobj)
  | .ancestors obj full => do return (.ancestors (← Cached.dbAncestors s obj full), s)
  | .findCallableVerb recv verb => do return (.verb (← Cached.dbFindCallableVerb s recv verb), s)

def CachedCall.pointer : CachedCall → Option Nat
  | .create _ _ _ _ pointer => some pointer
  | .recreate _ _ _ _ pointer => some pointer
  | _ => none

def occupied (s : Db V) (c : Caches) (pointer : Nat) : Bool :=
  ((List.range s.numObjects.toNat).any fun i : Nat =>
    s.valid i && c.address (.obj i) = pointer) ||
  (List.range s.nextAnon).any fun a =>
    (s.object (.anon a)).isSome && c.address (.anon a) = pointer

def CachedCall.allocated (call : CachedCall) (s : Db V) (c : Caches) : Bool :=
  call.pointer.all fun pointer => !occupied s c pointer

/-- What the server does to objects between two calls. It may change anything but the relations
of an object, the names of its verbs and whether they can be called. -/
structure Unsearched (s s' : Db V) : Prop where
  view : ∀ v, (s'.object v).map (fun o => (o.node, o.callables)) =
    (s.object v).map fun o => (o.node, o.callables)
  numObjects : s'.numObjects = s.numObjects
  nextAnon : s'.nextAnon = s.nextAnon
  index : ∀ p, (s'.anonymousObjects p).Perm (s.anonymousObjects p)

def CachedStep (allowed : CachedCall → Db V → Prop) (before after : Db V × Caches) : Prop :=
  (∃ call reply, allowed call before.1 ∧ call.allocated before.1 before.2 = true ∧
    (call.run before.1).run before.2 = .ok ((reply, after.1), after.2)) ∨
  Unsearched before.1 after.1 ∧ after.2 = before.2

def CachedReachable (allowed : CachedCall → Db V → Prop) : Db V × Caches → Prop :=
  Reachable (Db.empty, Caches.empty) (CachedStep allowed)

def CachedCall.namesOnce (call : CachedCall) (s : Db V) : Prop :=
  ∀ progr oid, call = .renumber progr oid → leastFree s oid ≠ none → NamedOnce s oid

def CachedCall.namesPlainly (call : CachedCall) (s : Db V) : Prop :=
  ∀ recv verb, call = .findCallableVerb recv verb → NamedPlainly s recv verb

end Calls

section Coherence

variable {plainly : Prop} {s s' : Db V} {c c' : Caches}

theorem empty_coherent : Coherent plainly (Db.empty : Db V) Caches.empty where
  graph := empty_wellFormed
  verbless _ _ found := by cases found
  apart _ _ present := by cases present
  ancestors _ _ known := by cases known
  verbs _ _ _ member := by cases member

theorem Unsearched.coherent (change : Unsearched s s') (coherent : Coherent plainly s c) :
    Coherent plainly s' c := by
  have nodes (v : ObjVar) : s'.node v = s.node v := by
    have same := congrArg (Option.map Prod.fst) (change.view v)
    rw [Option.map_map, Option.map_map] at same
    exact same
  have graph' : WellFormed s' := by
    refine SameLinks.wellFormed ⟨fun v => by rw [nodes], fun oid n found => ?_, change.numObjects,
      change.nextAnon, change.index⟩ coherent.graph
    exact (coherent.graph.numbered oid n (nodes _ ▸ found)).2.2
  refine coherent.sameSearch (fun v => ?_) graph'
  have same := congrArg (Option.map fun look => (look.1.parents, look.2)) (change.view v)
  rw [Option.map_map, Option.map_map] at same
  exact same

theorem free_of_allocated (graph : WellFormed s) {pointer : Nat}
    (unoccupied : occupied s c pointer = false) : Free s pointer c := by
  intro v present same
  simp only [occupied, Bool.or_eq_false_iff, List.any_eq_false, List.mem_range] at unoccupied
  cases v with
  | obj p =>
      have bounds := graph.valid_bounds present
      have number : ((p.toNat : Nat) : Int) = p := Int.toNat_of_nonneg bounds.1
      refine unoccupied.1 p.toNat (by omega) ?_
      have valid : s.valid p = true := present
      simp [number, same, valid]
  | anon a =>
      have below : a < s.nextAnon := by
        by_contra above
        have absent := graph.allocated a (by omega)
        rw [Db.node, Option.map_eq_none_iff] at absent
        rw [absent] at present
        cases present
      exact unoccupied.2 a below (by simp [present, same])

theorem answering_follows {m : Cached (Outcome × Db V)} {x : Except Crash (Outcome × Db V)}
    {Before : Caches → Prop} (follows : Follows Before m x fun r => Coherent plainly r.2) {reply : Reply}
    (before : Before c) (ran : (answering m).run c = .ok ((reply, s'), c')) : Coherent plainly s' c' := by
  obtain ⟨⟨outcome, s1⟩, c1, ran, rest⟩ := bind_ok ran
  cases rest
  exact (follows c _ c' before ran).2

theorem call_coherent (coherent : Coherent plainly s c) {call : CachedCall} (once : call.namesOnce s)
    (plain : plainly → call.namesPlainly s) (allocated : call.allocated s c = true) {reply : Reply}
    (ran : (call.run s).run c = .ok ((reply, s'), c')) : Coherent plainly s' c' := by
  have graph := coherent.graph
  have free {pointer : Nat} (own : call.pointer = some pointer) : Free s pointer c := by
    rw [CachedCall.allocated, own] at allocated
    exact free_of_allocated graph (by simpa using allocated)
  cases call with
  | create progr parents owner anonymous pointer =>
      exact answering_follows (bfCreate_follows graph progr parents owner anonymous pointer)
        ⟨coherent, free rfl⟩ ran
  | recreate progr old parent owner pointer =>
      exact answering_follows (bfRecreate_follows graph progr old parent owner pointer)
        ⟨coherent, free rfl⟩ ran
  | chparents progr obj what =>
      exact answering_follows (bfChparentChparents_follows graph progr obj what) coherent ran
  | recycle progr obj => exact answering_follows (bfRecycle_follows graph progr obj) coherent ran
  | renumber progr oid =>
      exact answering_follows (bfRenumber_follows graph progr oid (once progr oid rfl)) coherent ran
  | resetMaxObject progr =>
      exact answering_follows (bfResetMaxObject_follows graph progr) coherent ran
  | addVerb progr oid owner flags names copy dobj prep iobj =>
      exact answering_follows (bfAddVerb_follows progr oid owner flags names copy dobj prep iobj) coherent
        ran
  | deleteVerb progr oid desc =>
      exact answering_follows (bfDeleteVerb_follows progr oid desc) coherent ran
  | setVerbInfo progr oid desc owner flags names copy =>
      exact answering_follows (bfSetVerbInfo_follows progr oid desc owner flags names copy) coherent ran
  | setVerbArgs progr oid desc dobj prep iobj =>
      exact answering_follows (bfSetVerbArgs_follows progr oid desc dobj prep iobj) coherent ran
  | ancestors obj full =>
      obtain ⟨list, c1, queried, rest⟩ := bind_ok ran
      cases rest
      exact (dbAncestors_follows obj full c list c' coherent queried).2
  | findCallableVerb recv verb =>
      obtain ⟨h, c1, looked, rest⟩ := bind_ok ran
      cases rest
      by_cases said : plainly
      · obtain rfl : plainly = True := eq_true said
        obtain ⟨c2, ran2, coherent2, -⟩ := dbFindCallableVerb_run graph (plain said recv verb rfl) c
          coherent
        rw [looked] at ran2
        cases ran2
        exact coherent2
      · obtain rfl : plainly = False := eq_false said
        obtain ⟨address, ancestors⟩ := searchStack_table looked
        exact coherent.retabled address ancestors

theorem reachable_coherent {allowed : CachedCall → Db V → Prop}
    (once : ∀ call s, allowed call s → call.namesOnce s)
    (plain : plainly → ∀ call s, allowed call s → call.namesPlainly s) {state : Db V × Caches}
    (reachable : CachedReachable allowed state) : Coherent plainly state.1 state.2 := by
  refine reachable.invariant (fun state => Coherent plainly state.1 state.2) empty_coherent ?_
  rintro ⟨s, c⟩ ⟨s', c'⟩ coherent (⟨call, reply, may, allocated, ran⟩ | ⟨change, same⟩)
  · exact call_coherent coherent (once call s may) (fun said => plain said call s may) allocated ran
  · rw [show c' = c from same]
    exact change.coherent coherent

theorem dbAncestors_walk (graph : WellFormed s) {v : ObjVar} {depth : Nat}
    (enough : traversalDepth s ≤ depth) :
    dbAncestors s v true = addAll [] (walk (parentsOf s) depth v) := by
  obtain ⟨rank, ranked, bounded⟩ := graph.bounded_rank
  have bound := bounded v
  rw [graph.ancestors_preorder ranked depth (by omega), preorder_walk ranked (by omega)]

theorem ancestor_cache_coherent {state : Db V × Caches}
    (reachable : CachedReachable CachedCall.namesOnce state) {v : ObjVar}
    (present : (state.1.object v).isSome) (full : Bool) :
    ∃ rest after, (Cached.dbAncestors state.1 v full).run state.2 =
        .ok ((if full then [v] else []) ++ rest, after) ∧
      rest.Nodup ∧ (∀ w, w ∈ rest ↔ ∃ u ∈ parentsOf state.1 v, Ancestor state.1 u w) ∧
      ∀ depth, traversalDepth state.1 ≤ depth →
        v :: rest = addAll [] (walk (parentsOf state.1) depth v) := by
  have coherent : Coherent False state.1 state.2 :=
    reachable_coherent (fun _ _ => id) False.elim reachable
  have graph := coherent.graph
  obtain ⟨after, ran, -⟩ := dbAncestors_run coherent present full
  have whole {depth : Nat} (enough : traversalDepth state.1 ≤ depth) :
      v :: dbAncestors state.1 v false = addAll [] (walk (parentsOf state.1) depth v) := by
    rw [← dbAncestors_head, dbAncestors_walk graph enough]
  refine ⟨dbAncestors state.1 v false, after, ?_, ?_, fun w => graph.mem_proper_ancestors,
    fun depth => whole⟩
  · rw [ran]
    cases full with
    | false => rfl
    | true => rw [dbAncestors_head, if_pos rfl, List.singleton_append]
  · have distinct := addAll_nodup (walk (parentsOf state.1) (traversalDepth state.1) v) List.nodup_nil
    rw [← whole (Nat.le_refl _)] at distinct
    exact (List.nodup_cons.mp distinct).2

theorem verb_cache_coherent {state : Db V × Caches}
    (reachable : CachedReachable (fun call s => call.namesOnce s ∧ call.namesPlainly s) state)
    {recv : ObjVar} {verb : Word} (plain : NamedPlainly state.1 recv verb) :
    ∃ found after, (Cached.dbFindCallableVerb state.1 recv verb).run state.2 =
        .ok (found.map state.2.handle, after) ∧
      ∀ depth, traversalDepth state.1 ≤ depth → found = if isValid state.1 recv then
        (walk (parentsOf state.1) depth recv).findSome? (callableAt state.1 verb.text) else none := by
  have coherent : Coherent True state.1 state.2 :=
    reachable_coherent (fun _ _ => And.left) (fun _ _ _ => And.right) reachable
  obtain ⟨after, ran, -⟩ := dbFindCallableVerb_run coherent.graph plain state.2 coherent
  refine ⟨_, after, ran, fun depth enough => ?_⟩
  rw [callableVerb, dbAncestors_walk coherent.graph enough, findSome_addAll, List.nil_append]

end Coherence

section Renaming

def crowned (s : Db V) : Db V :=
  { s with object := fun v =>
      if v = .obj 0 then (s.object v).map fun o => { o with flags := insert .wizard o.flags }
      else s.object v }

theorem crowned_unsearched (s : Db V) : Unsearched s (crowned s) where
  view v := by
    unfold crowned
    simp only
    split
    · rw [Option.map_map]
      rfl
    · rfl
  numObjects := rfl
  nextAnon := rfl
  index _ := List.Perm.refl _

def runCached (calls : List CachedCall) (state : Db V × Caches) :
    Except Crash (Db V × Caches) :=
  calls.foldlM (fun state call => do
    if call.allocated state.1 state.2 then
      let r ← (call.run state.1).run state.2
      return (r.1.2, r.2)
    else throw .panic) state

theorem runCached_reachable {allowed : CachedCall → Db V → Prop} {calls : List CachedCall}
    {state final : Db V × Caches} (reachable : CachedReachable allowed state)
    (every : ∀ call ∈ calls, ∀ s, allowed call s) (ran : runCached calls state = .ok final) :
    CachedReachable allowed final := by
  unfold runCached at ran
  refine Failing.foldlM_invariant (CachedReachable allowed) ?_ reachable ran
  intro call member before after reached step
  split at step
  · rename_i allocated
    obtain ⟨⟨⟨reply, s⟩, c⟩, called, rest⟩ := Failing.bind_ok step
    cases rest
    exact .step reached (Or.inl ⟨call, reply, every call member before.1, allocated, called⟩)
  · cases step

def crownedRun (calls : List CachedCall) : Except Crash (Db Unit × Caches) := do
  let first ← runCached [.create (-1) (.obj (-1)) (-1) false 100] (Db.empty, Caches.empty)
  runCached calls (crowned first.1, first.2)

theorem crownedRun_reachable {allowed : CachedCall → Db Unit → Prop} {calls : List CachedCall}
    {final : Db Unit × Caches}
    (start : ∀ s, allowed (.create (-1) (.obj (-1)) (-1) false 100) s)
    (every : ∀ call ∈ calls, ∀ s, allowed call s) (ran : crownedRun calls = .ok final) :
    CachedReachable allowed final := by
  obtain ⟨first, created, ran⟩ := Failing.bind_ok ran
  have reached : CachedReachable allowed first :=
    runCached_reachable .start (by simpa using start) created
  have crown : CachedReachable allowed (crowned first.1, first.2) :=
    .step reached (Or.inr ⟨crowned_unsearched first.1, rfl⟩)
  exact runCached_reachable crown every ran

def CachedCall.tame : CachedCall → Bool
  | .renumber .. => false
  | .findCallableVerb _ verb => verb.plain
  | _ => true

theorem namesOnce_of_tame {call : CachedCall} (tame : call.tame = true) (s : Db V) :
    call.namesOnce s := by
  rintro progr oid rfl
  cases tame

theorem namesPlainly_of_tame {call : CachedCall} (tame : call.tame = true) (s : Db V) :
    call.namesPlainly s := by
  rintro recv verb rfl
  exact namedPlainly_of_plain tame s recv

/-- A child of `#1` and `#2`, asked for its ancestors, is given a verb and the parents `#0` and
`#1` instead. The verb is looked up in another case, and under the string of its names. -/
def familyRun : List CachedCall :=
  [.create 0 (.obj 0) 0 false 101, .create 0 (.list []) 0 false 102,
    .create 0 (.list [1, 2]) 0 false 103, .ancestors (.obj 3) true,
    .addVerb 0 1 0 4 [118] 201 .none (-1) .none, .findCallableVerb (.obj 3) ⟨[86], none⟩,
    .findCallableVerb (.obj 3) ⟨[118], some 201⟩, .chparents 0 (.obj 3) (.list [1, 0])]

theorem familyRun_reachable (allowed : CachedCall → Db Unit → Prop)
    (may : ∀ call, call.tame = true → ∀ s, allowed call s) : ∃ state : Db Unit × Caches,
    CachedReachable allowed state ∧ (state.1.object (.obj 3)).isSome ∧
      parentsOf state.1 (.obj 3) = [.obj 1, .obj 0] ∧ isValid state.1 (.obj 3) = true := by
  have checked : Failing.okAnd (crownedRun familyRun) (fun state =>
      (state.1.object (.obj 3)).isSome && parentsOf state.1 (.obj 3) = [.obj 1, .obj 0] &&
        isValid state.1 (.obj 3)) = true := by decide +kernel
  obtain ⟨state, ran, shape⟩ := Failing.of_okAnd checked
  simp only [Bool.and_eq_true, decide_eq_true_eq] at shape
  have every : ∀ call ∈ familyRun, call.tame = true := by decide
  exact ⟨state, crownedRun_reachable (may _ rfl) (fun call member => may call (every call member)) ran, shape.1.1, shape.1.2, shape.2⟩

theorem ancestor_cache_family : ∃ (state : Db Unit × Caches) (rest : List ObjVar) (after : Caches),
    (Cached.dbAncestors state.1 (.obj 3) true).run state.2 = .ok (.obj 3 :: rest, after) ∧
      rest.Nodup := by
  obtain ⟨state, reachable, present, -⟩ :=
    familyRun_reachable CachedCall.namesOnce fun _ => namesOnce_of_tame
  obtain ⟨rest, after, ran, nodup, -⟩ := ancestor_cache_coherent reachable present true
  exact ⟨state, rest, after, ran, nodup⟩

theorem verb_cache_family : ∃ (state : Db Unit × Caches) (found : Option (ObjVar × Nat))
    (after : Caches), (Cached.dbFindCallableVerb state.1 (.obj 3) ⟨[118], some 201⟩).run state.2 =
      .ok (found.map state.2.handle, after) := by
  obtain ⟨state, reachable, -⟩ :=
    familyRun_reachable (fun call s => call.namesOnce s ∧ call.namesPlainly s)
      fun _ tame s => ⟨namesOnce_of_tame tame s, namesPlainly_of_tame tame s⟩
  have plain : NamedPlainly state.1 (.obj 3) ⟨[118], some 201⟩ :=
    namedPlainly_of_plain (by decide) state.1 (.obj 3)
  obtain ⟨found, after, ran, -⟩ := verb_cache_coherent reachable plain
  exact ⟨state, found, after, ran⟩

/-- `#3` names `#2` twice; when `#2` becomes `#1`, one of the two places keeps the old number,
which a new object takes. -/
def staleAncestors : List CachedCall :=
  [.create 0 (.list []) 0 false 101, .create 0 (.list []) 0 false 102,
    .create 0 (.list [0, 2, 2]) 0 false 103, .recycle 0 (.obj 1), .renumber 0 2,
    .ancestors (.obj 3) false, .recreate 0 2 (-1) 0 104]

theorem ancestor_cache_stale : ∃ (state : Db Unit × Caches) (after : Caches),
    CachedReachable (fun _ _ => True) state ∧
    (Cached.dbAncestors state.1 (.obj 3) false).run state.2 = .ok ([.obj 0, .obj 1], after) ∧
    dbAncestors state.1 (.obj 3) false = [.obj 0, .obj 1, .obj 2] := by
  have checked : Failing.okAnd (crownedRun staleAncestors) (fun state =>
      Failing.okAnd ((Cached.dbAncestors state.1 (.obj 3) false).run state.2)
        (fun r => r.1 = [.obj 0, .obj 1]) &&
      dbAncestors state.1 (.obj 3) false = [.obj 0, .obj 1, .obj 2]) = true := by decide +kernel
  obtain ⟨state, ran, shape⟩ := Failing.of_okAnd checked
  rw [Bool.and_eq_true, decide_eq_true_eq] at shape
  obtain ⟨⟨list, after⟩, answered, stale⟩ := Failing.of_okAnd shape.1
  cases of_decide_eq_true stale
  exact ⟨state, after, crownedRun_reachable (fun _ => trivial) (fun _ _ _ => trivial) ran, answered,
    shape.2⟩

/-- `#3` names `#4` twice, and has a verb and a negative entry for `v`; when `#4` becomes `#1`, the
child of `#2` that takes the free number has the verb `v`. -/
def staleVerb : List CachedCall :=
  [.create 0 (.list []) 0 false 101, .create 0 (.list []) 0 false 102,
    .create 0 (.list []) 0 false 103, .create 0 (.list []) 0 false 104,
    .addVerb 0 2 0 4 [118] 201 .none (-1) .none, .addVerb 0 3 0 4 [119] 202 .none (-1) .none,
    .chparents 0 (.obj 3) (.list [0, 4, 4]), .recycle 0 (.obj 1),
    .findCallableVerb (.obj 3) ⟨[118], none⟩, .renumber 0 4, .create 0 (.list [0]) 0 true 105,
    .create 0 (.list [2]) 0 false 106]

def ownName : List CachedCall :=
  [.addVerb 0 0 0 4 [97, 42, 98] 201 .none (-1) .none,
    .findCallableVerb (.obj 0) ⟨[97, 42, 98], some 201⟩]

def lookedUp (calls : List CachedCall) (recv : ObjVar) (verb : CString)
    (answers : Option VerbHandle → Option (ObjVar × Nat) → Bool) : Bool :=
  Failing.okAnd (crownedRun calls) fun state =>
    Failing.okAnd ((Cached.dbFindCallableVerb state.1 recv ⟨verb, none⟩).run state.2) fun r =>
      answers r.1 (callableVerb state.1 recv verb)

theorem lookedUp_reachable {calls : List CachedCall} {recv : ObjVar} {verb : CString}
    {answers : Option VerbHandle → Option (ObjVar × Nat) → Bool}
    (checked : lookedUp calls recv verb answers = true) :
    ∃ (state : Db Unit × Caches) (h : Option VerbHandle) (after : Caches),
      CachedReachable (fun _ _ => True) state ∧
      (Cached.dbFindCallableVerb state.1 recv ⟨verb, none⟩).run state.2 = .ok (h, after) ∧
      answers h (callableVerb state.1 recv verb) = true := by
  obtain ⟨state, ran, looked⟩ := Failing.of_okAnd checked
  obtain ⟨⟨h, after⟩, answered, shape⟩ := Failing.of_okAnd looked
  exact ⟨state, h, after, crownedRun_reachable (fun _ => trivial) (fun _ _ _ => trivial) ran,
    answered, shape⟩

theorem verb_cache_stale :
    (∃ (state : Db Unit × Caches) (after : Caches), CachedReachable (fun _ _ => True) state ∧
      (Cached.dbFindCallableVerb state.1 (.obj 3) ⟨[118], none⟩).run state.2 = .ok (none, after) ∧
      callableVerb state.1 (.obj 3) [118] = some (.obj 2, 0)) ∧
    ∃ (state : Db Unit × Caches) (h : VerbHandle) (after : Caches),
      CachedReachable (fun _ _ => True) state ∧
      (Cached.dbFindCallableVerb state.1 (.obj 0) ⟨[97, 42, 98], none⟩).run state.2 =
        .ok (some h, after) ∧
      callableVerb state.1 (.obj 0) [97, 42, 98] = none := by
  constructor
  · have checked : lookedUp staleVerb (.obj 3) [118] (fun h found =>
        h = none && found = some (.obj 2, 0)) = true := by decide +kernel
    obtain ⟨state, h, after, reached, answered, shape⟩ := lookedUp_reachable checked
    rw [Bool.and_eq_true, decide_eq_true_eq, decide_eq_true_eq] at shape
    exact ⟨state, after, reached, shape.1 ▸ answered, shape.2⟩
  · have checked : lookedUp ownName (.obj 0) [97, 42, 98] (fun h found =>
        h.isSome && found = none) = true := by decide +kernel
    obtain ⟨state, h, after, reached, answered, shape⟩ := lookedUp_reachable checked
    rw [Bool.and_eq_true, decide_eq_true_eq] at shape
    obtain ⟨handle, rfl⟩ := Option.isSome_iff_exists.mp shape.1
    exact ⟨state, handle, after, reached, answered, shape.2⟩

end Renaming

end ToastStunt
