import ToastStunt.Db.Ancestors
import ToastStunt.Db.Containment

/-!
`db_all_locations` and `db_all_contents`, the traversals that `DEFUNC` of db_objects.cc generates
for places, and what they have to do with each other, with the check of move() and with
locations().
-/

namespace ToastStunt

open Containment FirstVisit

variable {V : Type}

/-- `FOR_EACH(tmp, enlist_var(o->location))` with the test `valid(tmp.v.obj)`. -/
def locationsOf (s : Db V) (oid : Int) : List Int :=
  match s.object (.obj oid) with
  | none => []
  | some o => [o.location].filter s.valid

def contentsOf (s : Db V) (oid : Int) : List Int :=
  match s.object (.obj oid) with
  | none => []
  | some o => o.contents.filter s.valid

def dbAllLocations (s : Db V) (oid : Int) (full : Bool) : List Int :=
  (if full then [oid] else []) ++ visit (locationsOf s) (traversalDepth s) (locationsOf s oid) []

def dbAllContents (s : Db V) (oid : Int) (full : Bool) : List Int :=
  (if full then [oid] else []) ++ visit (contentsOf s) (traversalDepth s) (contentsOf s oid) []

namespace Housed

variable {s : Db V}

theorem locationsOf_eq (housed : Housed s) : locationsOf s = (places s).above := by
  funext oid
  unfold locationsOf Places.above
  cases found : s.object (.obj oid) with
  | none => simp [places, found]
  | some o =>
      have here := (places_object found).1
      rw [here]
      by_cases nowhere : o.location = NOTHING
      · have invalid : s.valid NOTHING = false := by rw [Db.valid, housed.nothing]; rfl
        simp [nowhere, placeOf, invalid]
      · rw [placeOf_real nowhere] at here ⊢
        simp [housed.location_valid here]

theorem contentsOf_eq (housed : Housed s) : contentsOf s = (places s).contents := by
  funext oid
  unfold contentsOf
  cases found : s.object (.obj oid) with
  | none => simp [places, found]
  | some o =>
      rw [(places_object found).2]
      apply List.filter_eq_self.mpr
      intro thing inside
      rw [← (places_object found).2] at inside
      exact thing_valid (housed.placed.contained inside)

theorem shallow (housed : Housed s) (thing : Int) (path : List Int)
    (climbs : Climbs (places s).location thing path) : path.length < traversalDepth s := by
  cases valid : s.valid thing with
  | true =>
      obtain ⟨walked, walks, short⟩ := housed.walk_known (Or.inr valid)
      rw [placeOf_real (housed.real valid)] at walks
      obtain ⟨above, rfl, climbs'⟩ := walks
      rw [climbs.unique climbs']
      rw [List.length_cons] at short
      show above.length < locationTurns s
      omega
  | false =>
      cases climbs with
      | top => exact Nat.succ_pos _
      | up found _ =>
          rw [thing_valid found] at valid
          cases valid

theorem allLocations_climb (housed : Housed s) {thing : Int} {path : List Int}
    (climbs : Climbs (places s).location thing path) :
    dbAllLocations s thing true = thing :: path := by
  obtain ⟨rank, ranked, heights⟩ := housed.placed.ranked_above
  have bounded : rank thing < traversalDepth s := by
    rw [heights thing path climbs]
    exact housed.shallow thing path climbs
  simp only [dbAllLocations, if_true, List.singleton_append]
  rw [housed.locationsOf_eq, visit_next ranked bounded, climbs.preorder (housed.shallow _ _ climbs)]

theorem mem_allContents (housed : Housed s) {place thing : Int} :
    thing ∈ dbAllContents s place true ↔ Reach (places s).contents place thing := by
  obtain ⟨rank, ranked, bounded⟩ := housed.placed.ranked housed.shallow
  simp only [dbAllContents, if_true, List.singleton_append]
  rw [housed.contentsOf_eq, visit_next ranked (bounded place), mem_preorder ranked (bounded place)]

theorem allContents_nodup (housed : Housed s) (place : Int) : (dbAllContents s place true).Nodup := by
  obtain ⟨rank, ranked, bounded⟩ := housed.placed.ranked housed.shallow
  simp only [dbAllContents, if_true, List.singleton_append]
  rw [housed.contentsOf_eq, visit_next ranked (bounded place)]
  exact preorder_nodup ranked (bounded place)

theorem mem_allLocations (housed : Housed s) {place thing : Int} :
    place ∈ dbAllLocations s thing true ↔ thing ∈ dbAllContents s place true := by
  obtain ⟨path, climbs⟩ := housed.placed.grounded thing
  rw [housed.allLocations_climb climbs, housed.mem_allContents, housed.placed.reach_contents,
    climbs.reach]

end Housed

/-- The way up and everything below tell of one relation; move() refuses a place for being inside
what is moved exactly when it is, and locations() is the way up until it is stopped. -/
theorem whereabouts_agree {s : Db V} (reachable : PlaceReachable s) :
    (∀ thing place, place ∈ dbAllLocations s thing true ↔ thing ∈ dbAllContents s place true) ∧
    (∀ oid, (dbAllLocations s oid true).Nodup ∧ (dbAllContents s oid true).Nodup) ∧
    (∀ what place, s.valid place = true → violatesHierarchy s what (locationTurns s) place =
      .ok (decide (place ∈ dbAllContents s what true))) ∧
    ∀ isa what base checkParent, s.valid what = true →
      bfLocations s isa what base checkParent = .ok (some ((dbAllLocations s what false).takeWhile
        fun loc => !(base ≠ 0 && if checkParent then isa loc base else loc = base))) := by
  have housed := placeReachable_housed reachable
  refine ⟨fun thing place => housed.mem_allLocations, ?_, ?_, ?_⟩
  · intro oid
    obtain ⟨path, climbs⟩ := housed.placed.grounded oid
    constructor
    · rw [housed.allLocations_climb climbs]
      exact climbs.nodup
    · exact housed.allContents_nodup oid
  · intro what place valid
    obtain ⟨walked, walks, short⟩ := housed.walk_known (Or.inr valid)
    rw [violatesHierarchy_walks housed what (Or.inr valid) walks short]
    rw [placeOf_real (housed.real valid)] at walks
    obtain ⟨above, rfl, climbs⟩ := walks
    congr 1
    rw [decide_eq_decide, ← housed.mem_allLocations, housed.allLocations_climb climbs]
  · intro isa what base checkParent valid
    obtain ⟨all, walks, -⟩ := housed.walk_known (Or.inr valid)
    obtain ⟨first, above, whole, moves, known, upward⟩ := housed.walk_up valid walks
    obtain ⟨walked, walks', short⟩ := housed.walk_known known
    rw [placeOf_real (housed.real valid)] at walks
    obtain ⟨path, same, climbs⟩ := walks
    rw [whole, List.cons_inj_right] at same
    subst same
    have here : walked = above := by
      cases spot : placeOf first with
      | none =>
          rw [spot] at walks' upward
          rw [show walked = [] from walks', show above = [] from upward]
      | some place =>
          rw [spot] at walks' upward
          obtain ⟨more, rfl, further⟩ := walks'
          obtain ⟨more', rfl, further'⟩ := upward
          rw [further.unique further']
    have listed : dbAllLocations s what false = above := by
      have full := housed.allLocations_climb climbs
      rw [dbAllLocations, if_pos rfl, List.singleton_append, List.cons_inj_right] at full
      rw [dbAllLocations, if_neg Bool.false_ne_true, List.nil_append, full]
    have distinct : ([] ++ walked).Nodup := by
      rw [List.nil_append, here]
      exact (List.nodup_cons.mp climbs.nodup).2
    rw [bfLocations, locationsUntil, valid, Bool.not_true, if_neg Bool.false_ne_true, Failing.bind_of_ok moves,
      Failing.bind_of_ok (collectLocations_walks housed _ known walks' short distinct), listed, here]
    rfl

theorem whereabouts_taken : ∃ s : Db Unit, PlaceReachable s ∧ 0 ∈ dbAllLocations s 1 true ∧
    1 ∈ dbAllContents s 0 true := by
  obtain ⟨s, ran, holds⟩ := Failing.of_okAnd (x := takeThing)
    (p := fun s => decide (0 ∈ dbAllLocations s 1 true)) (by decide +kernel)
  have reachable := takeThing_placeReachable ran
  have above := of_decide_eq_true holds
  exact ⟨s, reachable, above, ((whereabouts_agree reachable).1 1 0).mp above⟩

end ToastStunt
