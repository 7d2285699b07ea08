import ToastStunt.Db.Caches
import ToastStunt.Db.SlotRenaming
import ToastStunt.Library.Following

/-!
What the caches must hold to be invisible, and that lookups keep it: an entry of the
ancestor cache is what a traversal would find now, an entry of the verb cache is what
a search from its object would find now.
-/

namespace ToastStunt

open FirstVisit Following

variable {V : Type}

section Searches

theorem cmap_eq_of_fold {b b' : UInt8} {w w' : CString} (same : caseFold (b :: w) = caseFold (b' :: w')) :
    cmap b = cmap b' ∧ caseFold w = caseFold w' := by
  simpa [caseFold] using same

theorem matchName_fold (v : CString) (star : Star) {word word' : CString}
    (same : caseFold word = caseFold word') :
    (matchName v word star).1 = (matchName v word' star).1 ∧
      nameMatches (matchName v word star) = nameMatches (matchName v word' star) := by
  induction word generalizing word' v star with
  | nil =>
      cases word' with
      | nil => exact ⟨rfl, rfl⟩
      | cons b' w' => simp [caseFold] at same
  | cons b w ih =>
      cases word' with
      | nil => simp [caseFold] at same
      | cons b' w' =>
          obtain ⟨first, rest⟩ := cmap_eq_of_fold same
          simp only [matchName]
          split
          · simp [nameMatches]
          · rename_i a v' star' skipped
            rw [first]
            split
            · simp [nameMatches]
            · exact ih _ _ rest

theorem namesMatch_fold {word word' : CString} (same : caseFold word = caseFold word')
    (names : CString) : namesMatch names word = namesMatch names word' := by
  unfold namesMatch
  generalize names.length = turns
  induction turns generalizing names with
  | zero => rfl
  | succ turns ih =>
      obtain ⟨rest, answer⟩ := matchName_fold names .none same
      simp only [verbcasecmpFrom, answer, rest, ih]

theorem callableAt_fold (s : Db V) {word word' : CString} (same : caseFold word = caseFold word') :
    callableAt s word = callableAt s word' := by
  funext v
  unfold callableAt Object.firstCallable
  simp only [namesMatch_fold same]

def Object.callables (o : Object V) : List (Word × Bool) :=
  o.verbdefs.map fun v => (v.name, v.exec)

theorem callables_nil {o : Object V} : o.callables = [] ↔ o.verbdefs = [] := List.map_eq_nil_iff

theorem firstCallable_eq (o : Object V) (verb : CString) :
    o.firstCallable verb =
      o.callables.findIdx? fun seen => namesMatch seen.1.text verb && seen.2 := by
  rw [Object.firstCallable, Object.callables, List.findIdx?_map]
  rfl

def calledFrom (s : Db V) (v : ObjVar) (verb : CString) : Option (ObjVar × Nat) :=
  (dbAncestors s v true).findSome? (callableAt s verb)

theorem callableAt_verbless {s : Db V} {v : ObjVar} {o : Object V} (found : s.object v = some o)
    (verbless : o.verbdefs = []) (verb : CString) : callableAt s verb v = none := by
  simp [callableAt, found, Object.firstCallable, verbless]

theorem callableAt_congr {s s' : Db V} {v : ObjVar}
    (same : (s'.object v).map Object.callables = (s.object v).map Object.callables) (verb : CString) :
    callableAt s' verb v = callableAt s verb v := by
  unfold callableAt
  cases found : s.object v with
  | none =>
      rw [found, Option.map_none, Option.map_eq_none_iff] at same
      rw [same]
  | some o =>
      rw [found, Option.map_some, Option.map_eq_some_iff] at same
      obtain ⟨o', found', equal⟩ := same
      simp only [found', firstCallable_eq, equal]

theorem callableAt_definer {s : Db V} {v : ObjVar} {verb : CString} {found : ObjVar × Nat}
    (answered : callableAt s verb v = some found) : found.1 = v := by
  unfold callableAt at answered
  split at answered
  · cases answered
  · obtain ⟨i, -, rfl⟩ := Option.map_eq_some_iff.mp answered
    rfl

theorem dbAncestors_tail (s : Db V) (v : ObjVar) :
    dbAncestors s v false = (dbAncestors s v true).tail := by
  simp [dbAncestors]

theorem dbAncestors_head (s : Db V) (v : ObjVar) :
    dbAncestors s v true = v :: dbAncestors s v false := by
  simp [dbAncestors]

theorem calledFrom_congr {s s' : Db V} (graph : WellFormed s) {v : ObjVar} {verb : CString}
    (order : dbAncestors s' v true = dbAncestors s v true)
    (verbs : ∀ u, Ancestor s v u → callableAt s' verb u = callableAt s verb u) :
    calledFrom s' v verb = calledFrom s v verb := by
  rw [calledFrom, order]
  exact findSome_congr fun u member => verbs u (graph.mem_ancestors.mp member)

theorem calledFrom_verbless {s : Db V} (graph : WellFormed s) {v : ObjVar} {o : Object V}
    (found : s.object v = some o) (verbless : o.verbdefs = []) (verb : CString) :
    calledFrom s v verb = (parentsOf s v).findSome? fun u => calledFrom s u verb := by
  obtain ⟨rank, ranked, bounded⟩ := graph.bounded_rank
  have parents : dbAncestors s v false = addAll [] ((parentsOf s v).flatMap fun u =>
      dbAncestors s u true) := by
    rw [dbAncestors, if_neg Bool.false_ne_true, List.nil_append,
      visit_eq ranked (fun u _ => bounded u) (ClosedFrom.nil _)]
    congr 1
    refine List.flatMap_congr fun u _ => ?_
    have above := visit_next ranked (bounded u)
    simpa [dbAncestors] using above.symm
  rw [calledFrom, dbAncestors_head, List.findSome?_cons, callableAt_verbless found verbless, parents,
    findSome_addAll, List.nil_append, findSome_flatMap]
  rfl

end Searches

theorem Caches.placed_address (c : Caches) (v : ObjVar) : c.placed v (c.address v) = c := by
  unfold Caches.placed
  congr 1
  funext w
  split
  · rename_i same
    rw [same]
  · rfl

/-- The entry is about an object with verbs, and holds what a search from it finds. -/
def EntryCoherent (s : Db V) (c : Caches) (vc : VcEntry) : Prop :=
  ∃ v o, s.object v = some o ∧ o.verbdefs ≠ [] ∧ c.address v = vc.object ∧
    vc.h = (calledFrom s v vc.verbname).map c.handle

structure Coherent (plainly : Prop) (s : Db V) (c : Caches) : Prop where
  graph : WellFormed s
  verbless : ∀ a o, s.object (.anon a) = some o → o.verbdefs = []
  apart : ∀ v w, (s.object v).isSome → (s.object w).isSome → c.address v = c.address w → v = w
  ancestors : ∀ oid list, c.ancestorCache oid = some list → list = dbAncestors s (.obj oid) false
  verbs : plainly → ∀ bucket, ∀ vc ∈ c.vcTable bucket, EntryCoherent s c vc

namespace Coherent

variable {plainly : Prop} {s : Db V} {c : Caches}

theorem remember (coherent : Coherent plainly s c) (oid : Int) :
    Coherent plainly s (c.remember oid (dbAncestors s (.obj oid) false)) where
  graph := coherent.graph
  verbless := coherent.verbless
  apart := coherent.apart
  ancestors p list known := by
    simp only [Caches.remember] at known
    split at known
    · rename_i same
      rw [same]
      exact (Option.some.inj known).symm
    · exact coherent.ancestors p list known
  verbs := coherent.verbs

theorem insert (coherent : Coherent plainly s c) {vc : VcEntry} (entry : EntryCoherent s c vc) :
    Coherent plainly s (c.insert vc) where
  graph := coherent.graph
  verbless := coherent.verbless
  apart := coherent.apart
  ancestors := coherent.ancestors
  verbs plain bucket other member := by
    simp only [Caches.insert] at member
    split at member
    · rcases List.mem_cons.mp member with rfl | old
      · exact entry
      · exact coherent.verbs plain bucket other old
    · exact coherent.verbs plain bucket other member

theorem withoutAncestors (coherent : Coherent plainly s c) : Coherent plainly s c.withoutAncestors where
  graph := coherent.graph
  verbless := coherent.verbless
  apart := coherent.apart
  ancestors _ _ known := by cases known
  verbs := coherent.verbs

theorem withoutVerbs (coherent : Coherent plainly s c) : Coherent plainly s c.withoutVerbs where
  graph := coherent.graph
  verbless := coherent.verbless
  apart := coherent.apart
  ancestors := coherent.ancestors
  verbs _ _ _ member := by cases member

end Coherent

section Lookups

variable {plainly : Prop} {s : Db V}

theorem rememberedAncestors_run {c : Caches} (coherent : Coherent plainly s c) (oid : Int) :
    ∃ c', (Cached.rememberedAncestors s (.obj oid) oid).run c =
      .ok (dbAncestors s (.obj oid) false, c') ∧ Coherent plainly s c' ∧ c'.address = c.address ∧
        c'.vcTable = c.vcTable := by
  cases known : c.ancestorCache oid with
  | some list =>
      refine ⟨c, ?_, coherent, rfl, rfl⟩
      rw [← coherent.ancestors oid list known]
      simp only [Cached.rememberedAncestors, StateT.run_bind, StateT.run_get, pure_bind, known]
      rfl
  | none =>
      refine ⟨c.remember oid (dbAncestors s (.obj oid) false), ?_, coherent.remember oid, rfl, rfl⟩
      simp only [Cached.rememberedAncestors, StateT.run_bind, StateT.run_get, pure_bind, known]
      rfl

/-- A query of the ancestors of an object is answered as if there was no cache. -/
theorem dbAncestors_run {c : Caches} (coherent : Coherent plainly s c) {v : ObjVar}
    (found : (s.object v).isSome) (full : Bool) :
    ∃ c', (Cached.dbAncestors s v full).run c = .ok (dbAncestors s v full, c') ∧ Coherent plainly s c' ∧
      c'.address = c.address ∧ c'.vcTable = c.vcTable := by
  obtain ⟨o, present⟩ := Option.isSome_iff_exists.mp found
  rw [Cached.dbAncestors, run_lift (Db.dereference_ok.mpr present)]
  cases v with
  | anon a => exact ⟨c, rfl, coherent, rfl, rfl⟩
  | obj oid =>
      simp only
      split
      · exact ⟨c, rfl, coherent, rfl, rfl⟩
      · have id : o.id = oid :=
          (coherent.graph.numbered oid o.node (node_some.mpr ⟨o, present, rfl⟩)).2.2
        rw [id]
        obtain ⟨c', ran, after⟩ := rememberedAncestors_run coherent oid
        refine ⟨c', ?_, after⟩
        rw [run_bind ran]
        cases full with
        | false => rfl
        | true =>
            rw [dbAncestors_head]
            rfl

theorem lookup_some {c : Caches} {object : Nat} {verb : CString} {vc : VcEntry}
    (known : c.lookup object verb = some vc) : ∃ bucket, vc ∈ c.vcTable bucket ∧
      vc.object = object ∧ caseFold vc.verbname = caseFold verb := by
  have fits := List.find?_some known
  simp only [VcEntry.isFor, Bool.and_eq_true, decide_eq_true_eq, strcasecmp_eq_zero] at fits
  exact ⟨_, List.mem_of_find?_eq_some known, fits.1.2.symm, fits.2.symm⟩

theorem cachedVerbdef_run {c : Caches} (coherent : Coherent True s c) {v : ObjVar} {o : Object V}
    (found : s.object v = some o) (verbs : o.verbdefs ≠ []) {verb : Word}
    (plain : NamedPlainly s v verb) :
    ∃ c', (Cached.cachedVerbdef s verb v).run c = .ok ((calledFrom s v verb.text).map c.handle, c') ∧
      Coherent True s c' ∧ c'.address = c.address := by
  simp only [Cached.cachedVerbdef, StateT.run_bind, StateT.run_get, pure_bind]
  cases known : c.lookup (c.address v) verb.text with
  | some vc =>
      obtain ⟨bucket, member, object, name⟩ := lookup_some known
      obtain ⟨w, ow, foundW, -, address, answer⟩ := coherent.verbs trivial bucket vc member
      have same : w = v := coherent.apart w v (by simp [foundW]) (by simp [found])
        (address.trans object)
      subst same
      have current : vc.h = (calledFrom s w verb.text).map c.handle := by
        rw [answer, calledFrom, calledFrom, callableAt_fold s name]
      exact ⟨c, by rw [← current]; rfl, coherent, rfl⟩
  | none =>
      refine ⟨c.insert ⟨vcHash verb.text (c.address v), c.address v, verb.text,
        (calledFrom s v verb.text).map c.handle⟩,
        ?_, coherent.insert ⟨v, o, found, verbs, rfl, rfl⟩, rfl⟩
      rw [run_lift (findCallableVerbdef_eq coherent.graph found plain)]
      rfl

def calledFromStack (s : Db V) (stack : List ObjVar) (verb : CString) : Option (ObjVar × Nat) :=
  stack.findSome? fun v => if isValid s v then calledFrom s v verb else none

theorem calledFromStack_parents (s : Db V) (parents : List Int) (verb : CString) :
    calledFromStack s (parents.map .obj) verb =
      ((parents.filter s.valid).map ObjVar.obj).findSome? fun v => calledFrom s v verb := by
  rw [findSome_valid, calledFromStack, List.findSome?_map]
  rfl

/-- The computation finds `answer`, as a handle, and leaves the caches coherent. -/
def Answers (s : Db V) (m : Cached (Option VerbHandle)) (answer : Option (ObjVar × Nat)) : Prop :=
  ∀ c, Coherent True s c → ∃ c', m.run c = .ok (answer.map c.handle, c') ∧ Coherent True s c' ∧
    c'.address = c.address

theorem Answers.none : Answers s (return none) none := fun c coherent => ⟨c, rfl, coherent, rfl⟩

theorem Answers.first {step : Option VerbHandle → ObjVar → Cached (Option VerbHandle)}
    {answer : ObjVar → Option (ObjVar × Nat)} {stack : List ObjVar}
    (found : ∀ h v, step (some h) v = return some h)
    (look : ∀ v ∈ stack, Answers s (step Option.none v) (answer v)) :
    Answers s (stack.foldlM step Option.none) (stack.findSome? answer) := by
  induction stack with
  | nil => exact Answers.none
  | cons v rest ih =>
      intro c coherent
      obtain ⟨c1, ran, coherent1, address⟩ := look v (by simp) c coherent
      rw [List.foldlM_cons, run_bind ran, List.findSome?_cons]
      cases known : answer v with
      | none =>
          obtain ⟨c2, ran2, coherent2, address2⟩ :=
            ih (fun w member => look w (by simp [member])) c1 coherent1
          have handles : c1.handle = c.handle := by
            funext pair
            rw [Caches.handle, Caches.handle, address]
          rw [handles] at ran2
          exact ⟨c2, ran2, coherent2, address2.trans address⟩
      | some pair =>
          refine ⟨c1, ?_, coherent1, address⟩
          have stopped : rest.foldlM step (some (c.handle pair)) = return some (c.handle pair) := by
            clear look ih
            induction rest with
            | nil => rfl
            | cons w rest ih =>
                rw [List.foldlM_cons, found, pure_bind]
                exact ih
          simp only [Option.map_some]
          rw [stopped]
          rfl

theorem searchStack_answers (graph : WellFormed s) {rank : ObjVar → Nat}
    (ranked : Ranked (parentsOf s) rank) {verb : Word} {fuel : Nat} {stack : List ObjVar}
    (plain : ∀ v ∈ stack, isValid s v = true → NamedPlainly s v verb)
    (enough : ∀ v ∈ stack, isValid s v = true → rank v < fuel) :
    Answers s (Cached.searchStack s verb (fuel + 1) stack) (calledFromStack s stack verb.text) := by
  induction fuel generalizing stack with
  | zero =>
      refine Answers.first (fun _ _ => rfl) fun v member => ?_
      have invalid : isValid s v = false := by
        by_contra valid
        exact Nat.not_lt_zero _ (enough v member (by simpa using valid))
      simp only [invalid, Bool.false_eq_true, if_false]
      exact Answers.none
  | succ fuel ih =>
      refine Answers.first (fun _ _ => rfl) fun v member => ?_
      cases valid : isValid s v with
      | false =>
          simp only [Bool.false_eq_true, if_false]
          exact Answers.none
      | true =>
          simp only [if_true]
          have present : (s.object v).isSome := by
            cases v with
            | obj p => exact valid
            | anon a =>
                simp only [isValid, anonValid] at valid
                split at valid
                · cases valid
                · rename_i o found
                  simp [found]
          obtain ⟨o, found⟩ := Option.isSome_iff_exists.mp present
          intro c coherent
          rw [run_lift (Db.dereference_ok.mpr found)]
          by_cases verbless : o.verbdefs = []
          · rw [if_pos verbless, calledFrom_verbless graph found verbless]
            have parents : parentsOf s v = ((enlistVar o.parents).filter s.valid).map .obj := by
              simp only [parentsOf, found]
            rw [parents, ← calledFromStack_parents]
            have edge (u : ObjVar) (listed : u ∈ (enlistVar o.parents).map ObjVar.obj)
                (validU : isValid s u = true) : u ∈ parentsOf s v := by
              obtain ⟨p, parent, rfl⟩ := List.mem_map.mp listed
              exact mem_parentsOf.mpr ⟨o, p, found, parent, validU, rfl⟩
            refine ih (fun u listed validU => (plain v member valid).above (edge u listed validU))
              (fun u listed validU => ?_) c coherent
            have below := ranked _ _ (edge u listed validU)
            have bound := enough v member valid
            omega
          · rw [if_neg verbless]
            exact cachedVerbdef_run coherent found verbless (plain v member valid)

/-- With coherent caches, `db_find_callable_verb` finds what the search in the current state
finds. -/
theorem dbFindCallableVerb_run (graph : WellFormed s) {recv : ObjVar} {verb : Word}
    (plain : NamedPlainly s recv verb) :
    Answers s (Cached.dbFindCallableVerb s recv verb) (callableVerb s recv verb.text) := by
  obtain ⟨rank, ranked, bounded⟩ := graph.bounded_rank
  have answer : callableVerb s recv verb.text = calledFromStack s [recv] verb.text := by
    rw [calledFromStack, List.findSome?_cons, List.findSome?_nil]
    have same : (if isValid s recv = true then calledFrom s recv verb.text else none) =
        callableVerb s recv verb.text := rfl
    rw [same]
    cases callableVerb s recv verb.text <;> rfl
  rw [answer]
  refine searchStack_answers graph ranked (fun v member _ => ?_) fun v _ _ => bounded v
  rwa [List.mem_singleton.mp member]

theorem searchStack_table {verb : Word} {fuel : Nat} {stack : List ObjVar} {c : Caches}
    {r : Option VerbHandle × Caches} (ran : (Cached.searchStack s verb fuel stack).run c = .ok r) :
    r.2.address = c.address ∧ r.2.ancestorCache = c.ancestorCache := by
  induction fuel generalizing stack c r with
  | zero => cases ran
  | succ fuel ih =>
      rw [Cached.searchStack, run_foldlM] at ran
      refine Failing.foldlM_invariant (fun pair : Option VerbHandle × Caches =>
        pair.2.address = c.address ∧ pair.2.ancestorCache = c.ancestorCache) ?_ ⟨rfl, rfl⟩ ran
      rintro top - ⟨found, before⟩ after kept ran
      cases found with
      | some h =>
          cases ran
          exact kept
      | none =>
          simp only at ran
          split at ran
          · obtain ⟨o, -, ran⟩ := lift_ok ran
            split at ran
            · obtain ⟨address, ancestors⟩ := ih ran
              exact ⟨address.trans kept.1, ancestors.trans kept.2⟩
            · simp only [Cached.cachedVerbdef, StateT.run_bind, StateT.run_get, pure_bind] at ran
              split at ran
              · cases ran
                exact kept
              · obtain ⟨found, -, ran⟩ := lift_ok ran
                cases ran
                exact kept
          · cases ran
            exact kept

theorem Coherent.retabled {c c' : Caches} (coherent : Coherent False s c)
    (address : c'.address = c.address) (ancestors : c'.ancestorCache = c.ancestorCache) :
    Coherent False s c' where
  graph := coherent.graph
  verbless := coherent.verbless
  apart := address ▸ coherent.apart
  ancestors := ancestors ▸ coherent.ancestors
  verbs := False.elim

end Lookups

end ToastStunt
