import ToastStunt.Db.CachedCalls
import ToastStunt.Db.Lookup
import ToastStunt.Db.SlotRuns

/-!
The steps of the built-ins leave slots laid out and every definer with a value of its own. A
re-parenting does so whatever the branches below the object: where the given old ancestors are
wrong it fails, or takes values from the wrong slots.
-/

namespace ToastStunt

open FirstVisit Blocks

variable {V : Type}

section OwnSlots

variable {s s' : Db V}

theorem KeptBy.valued {edit : ObjVar → ObjVar → List (Pval V) → List (Pval V)}
    (kept : KeptBy edit s s') (valued : Valued s) (out' : LaidOut s')
    (old : ∀ v, s.object v = none → s'.object v = none)
    (edits : ∀ v, ∀ slots : List (Pval V), (∀ pval ∈ slots, pval.var ≠ .clear) →
      ∀ pval ∈ edit v v slots, pval.var ≠ .clear) : Valued s' := by
  refine ⟨out', fun v pval member => ?_⟩
  cases found' : s'.object v with
  | none =>
      simp only [slotsFor, found', List.not_mem_nil] at member
  | some o' =>
      have present : (s.object v).isSome = true := by
        by_contra absent
        rw [old v (by simpa using absent)] at found'
        cases found'
      have self (t : Db V) : v ∈ dbAncestors t v true := by simp [dbAncestors]
      have inherits : Inherits s' v v := ⟨by rw [found']; rfl, self s'⟩
      rw [(kept v v inherits).1 ⟨present, self s⟩] at member
      exact edits v _ (valued.own v) pval member

theorem Kept.valued (kept : Kept s s') (valued : Valued s) (out' : LaidOut s')
    (old : ∀ v, s.object v = none → s'.object v = none) : Valued s' :=
  KeptBy.valued kept valued out' old fun _ _ set => set

theorem Quiet.valued (quiet : Quiet s s') (valued : Valued s) (graph' : WellFormed s') :
    Valued s' := by
  obtain ⟨out', kept⟩ := quiet.kept valued.out graph'
  exact kept.valued valued out' fun v none => by simpa [none] using quiet.view v

theorem Gone.valued {v : ObjVar} (gone : Gone s s' v) (valued : Valued s)
    (graph' : WellFormed s') : Valued s' := by
  obtain ⟨out', kept⟩ := gone.kept valued.out graph'
  refine kept.valued valued out' fun w none => ?_
  by_cases self : w = v
  · rw [self, gone.absent]
  · rw [gone.elsewhere w self, none]

theorem Blank.valued {v : ObjVar} (blank : Blank s s' v) (valued : Valued s)
    (graph' : WellFormed s') : Valued s' := by
  obtain ⟨out', -⟩ := blank.kept valued.out graph'
  obtain ⟨fresh, found, bare⟩ := blank.present
  simp only [Object.inheritance, Prod.mk.injEq] at bare
  refine ⟨out', fun w pval member => ?_⟩
  by_cases self : w = v
  · rw [self, slotsFor_self found, bare.2.2.2, List.take_nil] at member
    cases member
  · refine valued.own w pval ?_
    have same : slotsFor s' w w = slotsFor s w w := by
      simp only [slotsFor, propertiesOffset_self, propdefsLength, blank.elsewhere w self]
    rwa [same] at member

theorem fixupOwners_valued (valued : Valued s) (oid : Int) : Valued (dbFixupOwners s oid) := by
  obtain ⟨out', kept⟩ := fixupOwners_kept valued.out oid
  refine KeptBy.valued kept valued out' (fun v none => ?_) fun v slots set pval member => ?_
  · cases v with
    | obj p => simp [dbFixupOwners, none]
    | anon a => simp [dbFixupOwners, none]
  · obtain ⟨before, inside, rfl⟩ := List.mem_map.mp member
    exact set before inside

end OwnSlots

section Fixing

variable {s s2 t t' : Db V} {w u : ObjVar}

def FitsIn (s2 t : Db V) (u : ObjVar) : Prop :=
  ∀ o, t.object u = some o → o.propval.length = countSlots s2 (dbAncestors s2 u true)

def OwnSet (t : Db V) (u : ObjVar) : Prop := ∀ pval ∈ slotsFor t u u, pval.var ≠ .clear

theorem slotsAt_ok {slots given : List (Pval V)} {start count : Nat}
    (ran : slotsAt slots start count = .ok given) :
    given.length = count ∧ given = (slots.drop start).take count := by
  unfold slotsAt at ran
  split at ran
  · rename_i fits
    cases ran
    refine ⟨?_, rfl⟩
    rw [List.length_take, List.length_drop]
    omega
  · cases ran

theorem slotsOf_length {me : Object V} {old : List ObjVar} {a : ObjVar} {slots : List (Pval V)}
    (ran : slotsOf t me old a = .ok slots) : slots.length = propdefsLength t a := by
  simp only [slotsOf] at ran
  split at ran
  · exact (slotsAt_ok ran).1
  · split at ran
    · rename_i none
      cases ran
      exact none.symm
    · split at ran
      · cases ran
      · obtain ⟨op, -, ran⟩ := Failing.bind_ok ran
        obtain ⟨inherited, cut, ran⟩ := Failing.bind_ok ran
        cases ran
        rw [List.length_map]
        exact (slotsAt_ok cut).1

theorem slotsOf_total {me : Object V} {old new : List ObjVar} {slots : List (List (Pval V))}
    (ran : new.mapM (slotsOf t me old) = .ok slots) :
    slots.flatten.length = countSlots t new := by
  induction new generalizing slots with
  | nil =>
      cases ran
      rfl
  | cons a rest ih =>
      obtain ⟨first, others, here, later, rfl⟩ := Failing.mapM_cons_ok ran
      rw [List.flatten_cons, List.length_append, slotsOf_length here, ih later, countSlots,
        countSlots, total_cons]

theorem slotsOf_own {me : Object V} {old new : List ObjVar} {slots : List (List (Pval V))}
    (found : t.object w = some me) (ran : (w :: new).mapM (slotsOf t me (w :: old)) = .ok slots) :
    slots.flatten.take me.propdefs.length = me.propval.take me.propdefs.length := by
  obtain ⟨first, others, here, -, rfl⟩ := Failing.mapM_cons_ok ran
  have width : propdefsLength t w = me.propdefs.length := by rw [propdefsLength, found]
  have start : offsetIn t w (w :: old) = some 0 := by simp [offsetIn, Blocks.offset]
  simp only [slotsOf, start, width] at here
  obtain ⟨length, same⟩ := slotsAt_ok here
  rw [List.flatten_cons, ← length, List.take_left, length, same, List.drop_zero]

/-- What the visits do that end: everything below fits, and nothing that fits is spoilt. -/
structure LaidBelow (s2 t t' : Db V) (w : ObjVar) : Prop where
  same : SameUpTo Object.unslotted t t'
  below : ∀ u, Ancestor s2 u w → FitsIn s2 t' u
  fits : ∀ u, FitsIn s2 t u → FitsIn s2 t' u
  own : ∀ u, OwnSet t u → OwnSet t' u

theorem ownSet_iff {o : Object V} (found : t.object u = some o) :
    OwnSet t u ↔ ∀ pval ∈ o.propval.take o.propdefs.length, pval.var ≠ .clear := by
  rw [OwnSet, slotsFor_self found]

theorem pass_settles {me : Object V} (found : t.object w = some me) {slots : List (Pval V)}
    (length : slots.length = countSlots s2 (dbAncestors s2 w true))
    (own : slots.take me.propdefs.length = me.propval.take me.propdefs.length)
    (assigned : t.modify w (fun o => { o with propval := slots }) = .ok t') :
    FitsIn s2 t' w ∧ (∀ u, FitsIn s2 t u → FitsIn s2 t' u) ∧ ∀ u, OwnSet t u → OwnSet t' u := by
  obtain ⟨o, found', rfl⟩ := Db.modify_ok assigned
  rw [found] at found'
  cases found'
  have here : (t.setObject w (some { me with propval := slots })).object w =
      some { me with propval := slots } := by simp
  have elsewhere {u : ObjVar} (other : u ≠ w) :
      (t.setObject w (some { me with propval := slots })).object u = t.object u := by
    simp [other]
  have fits : FitsIn s2 (t.setObject w (some { me with propval := slots })) w := by
    intro o found'
    rw [here] at found'
    cases found'
    exact length
  refine ⟨fits, fun u before => ?_, fun u set => ?_⟩
  · by_cases self : u = w
    · exact self ▸ fits
    · intro o found'
      exact before o (elsewhere self ▸ found')
  · by_cases self : u = w
    · subst self
      rw [ownSet_iff here]
      rw [ownSet_iff found] at set
      rwa [own]
    · cases there : t.object u with
      | none =>
          intro pval member
          simp only [slotsFor, elsewhere self, there, List.not_mem_nil] at member
      | some o =>
          rw [ownSet_iff there] at set
          rwa [ownSet_iff ((elsewhere self).trans there)]

theorem loop_settles {step : Db V → ObjVar → Except Crash (Db V)} {children : List ObjVar}
    (visits : ∀ c ∈ children, ∀ before after, SameUpTo Object.unslotted s2 before →
      step before c = .ok after → LaidBelow s2 before after c)
    (same : SameUpTo Object.unslotted s2 t) (ran : children.foldlM step t = .ok t') :
    SameUpTo Object.unslotted t t' ∧
      (∀ c ∈ children, ∀ u, Ancestor s2 u c → FitsIn s2 t' u) ∧
      (∀ u, FitsIn s2 t u → FitsIn s2 t' u) ∧ ∀ u, OwnSet t u → OwnSet t' u := by
  induction children generalizing t with
  | nil =>
      cases ran
      exact ⟨SameUpTo.refl _, nofun, fun _ fits => fits, fun _ set => set⟩
  | cons c rest ih =>
      obtain ⟨middle, first, later⟩ := Failing.foldlM_cons_ok ran
      have visit := visits c List.mem_cons_self _ _ same first
      obtain ⟨same', below, fits, own⟩ :=
        ih (fun b member => visits b (List.mem_cons_of_mem _ member)) (same.trans visit.same) later
      refine ⟨visit.same.trans same', fun b member u path => ?_,
        fun u before => fits u (visit.fits u before), fun u set => own u (visit.own u set)⟩
      rcases List.mem_cons.mp member with rfl | inside
      · exact fits u (visit.below u path)
      · exact below b inside u path

theorem fix_settles (graph : WellFormed s2) {fuel : Nat} {old : List ObjVar} {kids : List Nat}
    (kidsOk : kids = kidsOf s2 w) (same : SameUpTo Object.unslotted s2 t)
    (ran : dbprivFixPropertiesAfterChparent fuel w (w :: old) (dbAncestors s2 w true) kids t =
      .ok t') : LaidBelow s2 t t' w := by
  subst kidsOk
  induction fuel generalizing w old t t' with
  | zero => cases ran
  | succ fuel ih =>
      obtain ⟨me, found, ran⟩ := Failing.bind_ok ran
      rw [Db.dereference_ok] at found
      split at ran
      · cases ran
      · obtain ⟨slots, laid, ran⟩ := Failing.bind_ok ran
        obtain ⟨t1, assigned, ran⟩ := Failing.bind_ok ran
        have graphT := same.graph.wellFormed graph
        have widths := same.widths
        have length : slots.flatten.length = countSlots s2 (dbAncestors s2 w true) := by
          rw [slotsOf_total laid, countSlots, countSlots, widths]
        have order : ∃ new, dbAncestors s2 w true = w :: new := ⟨_, by simp [dbAncestors]; rfl⟩
        have own : slots.flatten.take me.propdefs.length =
            me.propval.take me.propdefs.length := by
          obtain ⟨new, order⟩ := order
          rw [order] at laid
          exact slotsOf_own found laid
        obtain ⟨here, fits, set⟩ := pass_settles found length own assigned
        have same1 : SameUpTo Object.unslotted t t1 :=
          SameUpTo.of_modify (by intros; rfl) assigned
        have kids : kidsOf s2 w = kidsOf t w := by
          cases w with
          | obj p => exact (congrFun same.index p).symm
          | anon a => rfl
        rw [kids] at ran
        have visits : ∀ c ∈ me.children.map ObjVar.obj ++ (kidsOf t w).map ObjVar.anon,
            ∀ before after, SameUpTo Object.unslotted s2 before →
              fixChild fuel w (w :: old) (dbAncestors s2 w true) before c = .ok after →
              LaidBelow s2 before after c := by
          intro c member before after sameB ranC
          have edge : w ∈ parentsOf before c := by
            rw [sameB.graph.parentsOf, ← same.graph.parentsOf]
            exact (mem_childrenAndKids graphT found).mp member
          have graphB := sameB.graph.wellFormed graph
          obtain ⟨given, through, known⟩ := ancestorsThrough_ok graphB edge (w :: old)
          have first : ∃ rest, given = c :: rest := by
            rcases known with ⟨-, rfl⟩ | rfl
            · exact ⟨_, rfl⟩
            · exact addAll_starts [c] _
          obtain ⟨rest, rfl⟩ := first
          rw [sameB.graph.dbAncestors] at through
          rw [fixChild, Failing.bind_of_ok through] at ranC
          have kidsC : childAnonKids before c = kidsOf s2 c := by
            cases c with
            | obj p =>
                show addAll [] (before.anonymousObjects p) = s2.anonymousObjects p
                rw [sameB.index, addAll_of_nodup (graph.indexNodup p)]
            | anon a => rfl
          simp only [kidsC] at ranC
          exact ih sameB ranC
        obtain ⟨same', below, fits', set'⟩ := loop_settles visits (same.trans same1) ran
        refine ⟨same1.trans same', fun u path => ?_, fun u before => fits' u (fits u before),
          fun u before => set' u (set u before)⟩
        rcases Relation.ReflTransGen.cases_tail path with rfl | ⟨c, path, edge⟩
        · exact fits' _ here
        · refine below c ?_ u path
          rw [mem_childrenAndKids graphT found, same.graph.parentsOf]
          exact edge

end Fixing

section Changing

variable {s s' s2 : Db V} {v : ObjVar} {new : ObjOrList}

theorem valued_iff : Valued s ↔ WellFormed s ∧ (∀ a, propdefsLength s (.anon a) = 0) ∧
    (∀ u, FitsIn s s u) ∧ ∀ u, OwnSet s u :=
  ⟨fun valued => ⟨valued.out.graph, valued.out.bare, valued.out.fit, valued.own⟩,
    fun ⟨graph, bare, fit, own⟩ => ⟨⟨graph, bare, fit⟩, own⟩⟩

theorem ChangedParents.valued (change : ChangedParents s s' v new (gatheredKids s v []) s2)
    (valued : Valued s) (newValid : ∀ p ∈ new.named, s.valid p = true)
    (apart : ∀ p ∈ new.named, ¬Ancestor s (.obj p) v) : Valued s' := by
  obtain ⟨o, s1, found, relinked, assigned⟩ := change.relinked
  have reparent := ToastStunt.reparented valued.out.graph found relinked assigned
  have moved := reparent.moved valued.out found newValid apart
  have kidsSame : gatheredKids s v [] = kidsOf s2 v := by
    obtain ⟨_, -, rfl⟩ := Db.modify_ok assigned
    cases v with
    | anon a => rfl
    | obj p =>
        obtain ⟨-, rfl⟩ := relinkChildren_ok relinked
        rfl
  obtain ⟨old, order⟩ : ∃ old, dbAncestors s v true = v :: old := ⟨_, by simp [dbAncestors]; rfl⟩
  have fixed := change.fixed
  rw [order] at fixed
  have settled := fix_settles moved.graph kidsSame (SameUpTo.refl s2) fixed
  have widths2 : propdefsLength s' = propdefsLength s2 := settled.same.widths
  have graph' := settled.same.graph.wellFormed moved.graph
  refine valued_iff.mpr ⟨graph', fun a => ?_, fun u o' found' => ?_, fun u => ?_⟩
  · rw [widths2, moved.widths]
    exact valued.out.bare a
  · have fits : FitsIn s2 s' u := by
      by_cases below : Ancestor s2 u v
      · exact settled.below u below
      · refine settled.fits u fun o2 found2 => ?_
        have slots := moved.slots u
        rw [found2, Option.map_some, eq_comm, Option.map_eq_some_iff] at slots
        obtain ⟨before, foundBefore, same⟩ := slots
        rw [← same, valued.out.fit u before foundBefore, moved.outside below, countSlots,
          countSlots, moved.widths]
    rw [fits o' found', settled.same.graph.dbAncestors, countSlots, countSlots, widths2]
  · refine settled.own u ?_
    have same : slotsFor s2 u u = slotsFor s u u := by
      have slots := moved.slots u
      have width := congrFun moved.widths u
      cases before : s.object u with
      | none =>
          have absent := reparent.absent u before
          simp only [slotsFor, before, absent]
      | some o =>
          obtain ⟨children, after, -⟩ := reparent.object u o before
          rw [slotsFor_self before, slotsFor_self after]
    rw [OwnSet, same]
    exact valued.own u

theorem Born.valued {parents : ObjOrList} (born : Born s s' v parents) (valued : Valued s) :
    Valued s' := by
  obtain ⟨s1, s2, s3, blank, graph1, change, newValid, graph3, quiet, graph'⟩ := born
  have valued1 := blank.valued valued graph1
  have apart : ∀ p ∈ parents.named, ¬Ancestor s1 (.obj p) v := by
    intro p named path
    have same := blank.only valued.out.graph graph1 path
    subst same
    exact change.not_own_parent graph1 named
  exact quiet.valued (change.valued valued1 newValid apart) graph'

theorem Spliced.valued {oid : Int} (turn : Spliced oid s s') (valued : Valued s) : Valued s' := by
  obtain ⟨graph, child, c, o, s2, next, foundChild, found, change⟩ := turn
  have edge := dbNextChild_ok graph next
  have ancestors := spliced_ancestors graph edge foundChild found
  exact change.valued valued (fun p named => (ancestors p named).1)
    (spliced_apart graph edge foundChild found)

theorem Recycled.valued {oid : Int} {outcome : Outcome} (recycled : Recycled s s' oid outcome)
    (valued : Valued s) (graph' : WellFormed s') : Valued s' := by
  obtain ⟨s1, s2, quiet, graph1, turns, graph2, rest⟩ := recycled.steps
  have valued1 := quiet.valued valued graph1
  have valued2 : Valued s2 := by
    clear rest graph2
    induction turns with
    | refl => exact valued1
    | tail _ turn ih => exact turn.valued ih
  rcases rest with ⟨-, rfl⟩ | ⟨-, s3, detached, graph3, gone⟩
  · exact valued2
  · have valued3 : Valued s3 := by
      rcases detached with rfl | ⟨m, change⟩
      · exact valued2
      · have orphan : (ObjOrList.obj NOTHING).named = [] := by simp [ObjOrList.named]
        exact change.valued valued2 (by simp [orphan]) (by simp [orphan])
    exact gone.valued (fixupOwners_valued valued3 oid) graph'

end Changing

section Renumbering

variable {s s' : Db V} {old new : Int}

def Object.defined (o : Object V) : List Propdef × List (PropVar V) :=
  (o.propdefs, o.propval.map Pval.var)

def SameDefined (s s' : Db V) : Prop :=
  ∀ v, (s'.object v).map Object.defined = (s.object v).map Object.defined

theorem SameDefined.of_modify {v : ObjVar} {f : Object V → Object V}
    (unseen : ∀ o, (f o).defined = o.defined) (ran : s.modify v f = .ok s') : SameDefined s s' := by
  obtain ⟨o, found, rfl⟩ := Db.modify_ok ran
  intro w
  by_cases self : w = v
  · subst self
    simp [found, unseen]
  · simp [self]

theorem SameDefined.trans {s1 s2 s3 : Db V} (first : SameDefined s1 s2)
    (second : SameDefined s2 s3) : SameDefined s1 s3 :=
  fun v => (second v).trans (first v)

theorem SameDefined.foldlM {ι : Type} {step : Db V → ι → Except Crash (Db V)} {items : List ι}
    (steps : ∀ item before after, step before item = .ok after → SameDefined before after)
    (ran : items.foldlM step s = .ok s') : SameDefined s s' := by
  refine Failing.foldlM_invariant (SameDefined s) ?_ (fun _ => rfl) ran
  exact fun item _ before after same taken => same.trans (steps item before after taken)

theorem fixRelatives_defined {o : Object V} (ran : fixRelatives s old new o = .ok s') :
    SameDefined s s' := by
  obtain ⟨s1, above, ran⟩ := Failing.bind_ok ran
  obtain ⟨o1, -, ran⟩ := Failing.bind_ok ran
  obtain ⟨s2, below, ran⟩ := Failing.bind_ok ran
  obtain ⟨s3, around, ran⟩ := Failing.bind_ok ran
  obtain ⟨o3, -, ran⟩ := Failing.bind_ok ran
  obtain ⟨s4, inside, ran⟩ := Failing.bind_ok ran
  have contents {p : Int} {t t' : Db V} (ran : fixContents old new t p = .ok t') :
      SameDefined t t' := by
    obtain ⟨_, -, ran⟩ := Failing.bind_ok ran
    obtain ⟨_, -, ran⟩ := Failing.bind_ok ran
    exact SameDefined.of_modify (by intros; rfl) ran
  have aboveD : SameDefined s s1 := SameDefined.foldlM (fun p before after ran => by
    obtain ⟨_, -, ran⟩ := Failing.bind_ok ran
    obtain ⟨_, -, ran⟩ := Failing.bind_ok ran
    exact SameDefined.of_modify (by intros; rfl) ran) above
  have belowD : SameDefined s1 s2 := SameDefined.foldlM (fun c before after ran => by
    obtain ⟨_, -, ran⟩ := Failing.bind_ok ran
    split at ran
    · obtain ⟨_, -, ran⟩ := Failing.bind_ok ran
      exact SameDefined.of_modify (by intros; rfl) ran
    · exact SameDefined.of_modify (by intros; rfl) ran) below
  have aroundD : SameDefined s2 s3 := by
    unfold fixPlace at around
    split at around
    · cases around
      exact fun _ => rfl
    · exact contents around
  have insideD : SameDefined s3 s4 := SameDefined.foldlM (fun thing before after ran =>
    SameDefined.of_modify (by intros; rfl) ran) inside
  have kidsD : SameDefined s4 s' := SameDefined.foldlM (fun a before after ran =>
    SameDefined.of_modify (by intros; rfl) ran) ran
  exact (((aboveD.trans belowD).trans aroundD).trans insideD).trans kidsD

theorem renumber_defined (ran : dbRenumberObject s old = .ok (new, s')) :
    new = old ∧ s' = s ∨ ∃ o, s.object (.obj old) = some o ∧
      SameDefined (changeIdentity s old new o) s' := by
  unfold dbRenumberObject at ran
  split at ran
  · cases ran
    exact Or.inl ⟨rfl, rfl⟩
  · rename_i free least
    obtain ⟨o, found, ran⟩ := Failing.bind_ok ran
    obtain ⟨s1, relatives, ran⟩ := Failing.bind_ok ran
    obtain ⟨s2, anons, ran⟩ := Failing.bind_ok ran
    cases ran
    refine Or.inr ⟨o, Db.dereference_ok.mp found, ?_⟩
    have index (t : Db V) (old new : Int) : SameDefined t (moveAnonIndex t old new) := by
      intro v
      unfold moveAnonIndex
      split <;> rfl
    have users (t : Db V) (old new : Int) : SameDefined t (fixUsers t old new) := by
      intro v
      unfold fixUsers
      split
      · split <;> rfl
      · rfl
    have owners (t : Db V) : SameDefined t (fixNumberedOwners t old free) := by
      intro v
      cases v with
      | obj p =>
          simp only [fixNumberedOwners, Option.map_map]
          congr 1
          funext o
          simp [Object.defined, renumberOwners, Function.comp_def]
      | anon a => rfl
    have anonsD : SameDefined _ s' := SameDefined.foldlM (fun a before after ran =>
      SameDefined.of_modify (fun o => by
        simp [Object.defined, renumberAnonOwners, Function.comp_def]) ran) anons
    exact (fixRelatives_defined relatives).trans
      ((((index _ _ _).trans (users _ _ _)).trans (owners _)).trans anonsD)

theorem changeIdentity_defined {o : Object V} (moving : Moving s.bare old new o.bare)
    (found : s.object (.obj old) = some o) {v : ObjVar} {q : Object V}
    (there : s.object v = some q) : ∃ q', (changeIdentity s old new o).object
      (renameVar old new v) = some q' ∧ q'.defined = q.defined := by
  have other := moving.other
  have notNew := moving.found_not_new (bare_object there)
  by_cases self : v = .obj old
  · subst self
    rw [found] at there
    cases there
    refine ⟨{ o with id := new }, ?_, rfl⟩
    simp [changeIdentity, renameVar, renameId, Ne.symm other]
  · have stays : renameVar old new v = v := by
      cases v with
      | anon a => rfl
      | obj p =>
          have apart : p ≠ old := fun same => self (same ▸ rfl)
          simp [renameVar, renameId, apart]
    refine ⟨q, ?_, rfl⟩
    rw [stays]
    simp [changeIdentity, self, notNew, there]

theorem renumber_valued (valued : Valued s) (valid : s.valid old = true)
    (once : leastFree s old ≠ none → NamedOnce s old)
    (ran : dbRenumberObject s old = .ok (new, s')) : Valued s' := by
  have graph := valued.out.graph
  rcases renumber_bare graph valid once ran with ⟨-, rfl⟩ | ⟨b, moving, renamedBare⟩
  · exact valued
  · rcases renumber_defined ran with ⟨rfl, -⟩ | ⟨o, found, defined⟩
    · exact absurd rfl moving.other
    · have same : b = o.bare := by
        have there := moving.found
        rw [bare_object found, Option.some.injEq] at there
        exact there.symm
      subst same
      have graph' : WellFormed s' := graph_of_bare (renamedBare ▸ moving.renamed_wellFormed)
      have forth {v : ObjVar} {q : Object V} (there : s.object v = some q) :
          ∃ q', s'.object (renameVar old new v) = some q' ∧ q'.defined = q.defined := by
        obtain ⟨m, middle, same⟩ := changeIdentity_defined moving found there
        have look := defined (renameVar old new v)
        rw [middle, Option.map_some, Option.map_eq_some_iff] at look
        obtain ⟨q', after, same'⟩ := look
        exact ⟨q', after, same'.trans same⟩
      have back {v' : ObjVar} {q' : Object V} (after : s'.object v' = some q') :
          ∃ v q, s.object v = some q ∧ v' = renameVar old new v ∧ q'.defined = q.defined := by
        have bare := bare_object after
        rw [renamedBare] at bare
        obtain ⟨v, _, there, rfl, -⟩ := moving.renamed_object.mp bare
        obtain ⟨q, there, -⟩ := bare_back there
        obtain ⟨q'', after', same⟩ := forth there
        rw [after] at after'
        cases after'
        exact ⟨v, q, there, rfl, same⟩
      have notNew {v : ObjVar} {q : Object V} (there : s.object v = some q) : v ≠ .obj new :=
        moving.found_not_new (bare_object there)
      have width {v : ObjVar} (apart : v ≠ .obj new) :
          propdefsLength s' (renameVar old new v) = propdefsLength s v := by
        cases there : s.object v with
        | some q =>
            obtain ⟨q', after, same⟩ := forth there
            have defs : q'.propdefs = q.propdefs := congrArg Prod.fst same
            simp only [propdefsLength, there, after, defs]
        | none =>
            cases after : s'.object (renameVar old new v) with
            | none => simp only [propdefsLength, there, after]
            | some q' =>
                obtain ⟨w, q, foundW, same, -⟩ := back after
                rw [(renameVar_inj apart (notNew foundW)).mp same, foundW] at there
                cases there
      refine valued_iff.mpr ⟨graph', fun a => ?_, fun v' q' after => ?_, fun v' pval member => ?_⟩
      · have stays := width (v := .anon a) (by rintro ⟨⟩)
        exact stays.trans (valued.out.bare a)
      · obtain ⟨v, q, there, rfl, same⟩ := back after
        have slots : q'.propval.length = q.propval.length := by
          have values : q'.propval.map Pval.var = q.propval.map Pval.var := congrArg Prod.snd same
          simpa using congrArg List.length values
        have order : dbAncestors s' (renameVar old new v) true =
            (dbAncestors s v true).map (renameVar old new) := by
          rw [← (bare_graph s').dbAncestors, renamedBare, moving.renamed_ancestors (notNew there),
            (bare_graph s).dbAncestors]
        have widths : (dbAncestors s v true).map (propdefsLength s' ∘ renameVar old new) =
            (dbAncestors s v true).map (propdefsLength s) := by
          refine List.map_congr_left fun a above => width ?_
          refine moving.ancestor_not_new (notNew there) ?_
          have path := graph.mem_ancestors.mp above
          rwa [Ancestor, ← (bare_graph s).parentsOf] at path
        rw [slots, valued.out.fit v q there, order, countSlots, countSlots, total, total,
          List.map_map, widths]
      · cases after : s'.object v' with
        | none => simp only [slotsFor, after, List.not_mem_nil] at member
        | some q' =>
            obtain ⟨v, q, there, rfl, same⟩ := back after
            have defs : q'.propdefs = q.propdefs := congrArg Prod.fst same
            have values : q'.propval.map Pval.var = q.propval.map Pval.var := congrArg Prod.snd same
            rw [slotsFor_self after] at member
            have inside : pval.var ∈ (q.propval.take q.propdefs.length).map Pval.var := by
              rw [List.map_take, ← values, ← List.map_take, ← defs]
              exact List.mem_map_of_mem member
            obtain ⟨before, inside, var⟩ := List.mem_map.mp inside
            rw [← var]
            exact valued.own v before (by rwa [slotsFor_self there])

end Renumbering

end ToastStunt
