import ToastStunt.Gc.Collecting

/-!
When a collection does what it should. The pass that restores white values goes on into
live values below them, so the collection is sound just when there are no such values
that matter.
-/

namespace ToastStunt.Gc

open FirstVisit Painting

variable {A : Type} [DecidableEq A] [Fintype A] {values : Values A} {checked : Bool}
  {h₀ h h' : Heap A}

section Graph

omit [DecidableEq A] [Fintype A] in
theorem Candidate.below {a b : A} (candidate : Candidate values h a)
    (path : Reach (kids values h) a b) : Candidate values h b := by
  obtain ⟨r, root, purple, above⟩ := candidate
  exact ⟨r, root, purple, above.trans path⟩

theorem Live.candidate {a : A} (live : Live values h a) : Candidate values h a := by
  obtain ⟨m, candidate, -, path⟩ := live
  exact candidate.below path

theorem Below.candidate {a : A} (below : Below values h a) : Candidate values h a := by
  obtain ⟨v, garbage, path⟩ := below
  exact garbage.1.below path

theorem Garbage.below {a : A} (garbage : Garbage values h a) : Below values h a :=
  ⟨a, garbage, Relation.ReflTransGen.refl⟩

open Classical in
noncomputable def shared (values : Values A) (h : Heap A) : Finset A :=
  Finset.univ.filter fun a => Below values h a ∧ Live values h a

theorem mem_shared {a : A} : a ∈ shared values h ↔ Below values h a ∧ Live values h a := by
  simp [shared]

theorem Ready.garbage_counted (ready : Ready values h₀) {a : A} (garbage : Garbage values h₀ a) :
    h₀.marks.tally a ≠ 0 := by
  intro zero
  obtain ⟨r, root, purple, path⟩ := garbage.1
  rcases Relation.ReflTransGen.cases_tail path with rfl | ⟨u, -, edge⟩
  · exact ready.referenced _ root purple zero
  · exact ready.unreferenced zero u edge

theorem Ready.garbage_not_queued (ready : Ready values h₀) {a : A} (garbage : Garbage values h₀ a) :
    a ∉ h₀.queue := by
  intro queued
  refine garbage.2 ⟨a, garbage.1, ?_, Relation.ReflTransGen.refl⟩
  have bound := edges_le ready (candidates values h₀) a
  have waiting := List.count_pos_iff.mpr queued
  rw [HeldOutside]
  omega

/-- With nothing that matters below garbage, restoring stops after one step at the latest. -/
theorem Separated.below (separated : Separated values h₀ checked) {a : A}
    (below : Below values h₀ a) :
    Garbage values h₀ a ∨ Live values h₀ a ∧ values.type a ≠ .anon ∧ kids values h₀ a = [] := by
  obtain ⟨v, garbage, path⟩ := below
  induction path with
  | refl => exact Or.inl garbage
  | @tail b c above edge ih =>
      rcases ih with isGarbage | ⟨-, -, leaf⟩
      · by_cases goesOn : Garbage values h₀ c
        · exact Or.inl goesOn
        · have candidate : Candidate values h₀ c :=
            isGarbage.1.below (Relation.ReflTransGen.single edge)
          have live : Live values h₀ c := by
            by_contra notLive
            exact goesOn ⟨candidate, notLive⟩
          exact Or.inr ⟨live, separated.apart b isGarbage c edge goesOn⟩
      · rw [leaf] at edge
        cases edge

theorem Separated.shared_edges (separated : Separated values h₀ checked) (a : A) :
    edges (kids values h₀) (shared values h₀) a = 0 := by
  rw [edges_eq_zero]
  intro u member
  obtain ⟨below, live⟩ := mem_shared.mp member
  rcases separated.below below with garbage | ⟨-, -, leaf⟩
  · exact absurd live garbage.2
  · simp [leaf]

end Graph

section Run

/-- What a collection that ends has done. -/
structure Ran (values : Values A) (checked : Bool) (h₀ h' : Heap A) (l : List A) : Prop where
  queue : h'.queue = l ++ h₀.queue
  nodup : l.Nodup
  anons : ∀ a, a ∈ l ↔ Below values h₀ a ∧ values.type a = .anon
  tally : ∀ a, h'.marks.tally a =
    h₀.marks.tally a + edges (kids values h₀) (shared values h₀) a • 1 + l.count a • 1
  colors : ∀ a, (h'.marks.color a).idle
  roots : h'.roots = []
  buffered : ∀ a, h'.buffered a = false
  freed : ∀ r ∈ h₀.roots, ¬Misfreed values checked h₀ r
  clean : checked = true → ∀ a ∈ l, values.recycled a = false ∧ values.invalid a = false

def Broken (values : Values A) (checked : Bool) (h₀ : Heap A) : Prop :=
  (∃ r ∈ h₀.roots, Misfreed values checked h₀ r) ∨
    checked = true ∧ ∃ a, Below values h₀ a ∧ values.type a = .anon ∧
      ¬(h₀.marks.tally a + edges (kids values h₀) (shared values h₀) a • 1 ≠ 0 ∧
        values.recycled a = false ∧ values.invalid a = false ∧ a ∉ h₀.queue)

theorem rootless_ran (ready : Ready values h₀) (none : h₀.roots = []) :
    Ran values checked h₀ h₀ [] := by
  have noCandidate (a : A) : ¬Candidate values h₀ a := by
    rintro ⟨r, root, -⟩
    rw [none] at root
    cases root
  have noShared : shared values h₀ = ∅ := by
    rw [Finset.eq_empty_iff_forall_notMem]
    exact fun a member => noCandidate a (mem_shared.mp member).1.candidate
  refine ⟨rfl, List.nodup_nil, fun a => ?_, fun a => ?_, ready.colors, none, fun a => ?_, ?_, by simp⟩
  · simpa using fun below : Below values h₀ a => absurd below.candidate (noCandidate a)
  · simp [noShared]
  · have buffered := ready.buffered a
    rw [none] at buffered
    simpa using buffered
  · simp [none]

theorem Restored.tally_eq {P : Finset A} (restored : Restored values h₀ h P) (a : A) :
    h.marks.tally a = h₀.marks.tally a + edges (kids values h₀) (shared values h₀) a • 1 := by
  obtain ⟨L, live, tally⟩ := restored.tally a
  have same : P ∩ L = shared values h₀ := by
    ext b
    rw [Finset.mem_inter, restored.below, live, mem_shared]
  rw [tally, same]

theorem Restored.waits {P : Finset A} (restored : Restored values h₀ h P) (a : A) :
    Waits h.unbuffered a ↔ a ∈ P := by
  have color : h.unbuffered.marks.color a = h.marks.color a := rfl
  constructor
  · rintro ⟨pink, -⟩
    by_contra outside
    exact (restored.idle a outside).2.2 (color ▸ pink)
  · exact fun member => ⟨restored.pink a member, rfl⟩

theorem Restored.collected {P N : Finset A} {l : List A} (restored : Restored values h₀ h P)
    (handed : Handed values checked h₀ h.unbuffered h.roots N l)
    (freed : ∀ r ∈ h₀.roots, ¬Misfreed values checked h₀ r) :
    Ran values checked h₀ (h.unbuffered.handed N l) l := by
  have all : N = P := by
    refine Finset.Subset.antisymm (fun u member => (restored.waits u).mp (handed.waited u member)) ?_
    intro a member
    obtain ⟨r, root, inside, path⟩ := restored.reached a member
    have start := handed.started r root ((restored.waits r).mpr inside)
    clear member
    induction path with
    | refl => exact start
    | tail above edge ih =>
        have pink := closed_reach _ restored.closed inside (Relation.ReflTransGen.tail above edge)
        exact handed.closed _ ih _ edge ((restored.waits _).mpr pink)
  subst all
  refine ⟨?_, handed.nodup, fun a => ?_, fun a => ?_, fun a => ?_, rfl, fun a => rfl, freed, ?_⟩
  · rw [← restored.queue]
    rfl
  · rw [handed.anons, restored.below]
  · rw [← restored.tally_eq]
    rfl
  · by_cases member : a ∈ N
    · simp [Heap.handed, Canvas.painted, member, Color.idle]
    · have idle := restored.idle a member
      simpa [Heap.handed, Canvas.painted, member, Heap.unbuffered] using idle
  · exact fun isChecked a member =>
      have fine := handed.queueable isChecked a member
      ⟨fine.2.1, fine.2.2.1⟩

theorem gcCollect_run (ready : Ready values h₀) :
    (∃ h' l, gcCollect values checked h₀ = .ok h' ∧ Ran values checked h₀ h' l) ∨
      gcCollect values checked h₀ = .error .assertion ∧ Broken values checked h₀ := by
  by_cases none : h₀.roots = []
  · exact Or.inl ⟨h₀, [], by rw [gcCollect, if_pos none], rootless_ran ready none⟩
  · rw [gcCollect, if_neg none]
    rcases markRoots_grayed ready checked with ⟨h1, marked, grayed, freed⟩ | ⟨failed, wrong⟩
    · rw [Failing.bind_of_ok marked]
      obtain ⟨s, L, W, scanned, split⟩ := scanRoots_split ready grayed
      rw [Failing.bind_of_ok scanned]
      obtain ⟨t, P, ran, restored⟩ := restoreWhite_restored ready grayed split
      rw [Failing.bind_of_ok ran]
      generalize { h1 with marks := t } = h3 at restored ⊢
      rcases collectRoots_spec checked h3 restored.shows restored.nodup
        restored.buffered with ⟨N, l, collected, handed⟩ | ⟨failed, isChecked, a, pink, anon, fails⟩
      · exact Or.inl ⟨_, l, collected, restored.collected handed freed⟩
      · refine Or.inr ⟨failed, Or.inr ⟨isChecked, a, ?_, anon, ?_⟩⟩
        · rw [← restored.below]
          by_contra outside
          exact (restored.idle a outside).2.2 pink
        · rwa [← restored.tally_eq, ← restored.queue]
    · rw [failed]
      exact Or.inr ⟨rfl, Or.inl wrong⟩

end Run

section Claims

theorem Separated.unbroken (separated : Separated values h checked) (ready : Ready values h) :
    ¬Broken values checked h := by
  rintro (⟨r, root, isChecked, black, zero, anon, valid⟩ | ⟨isChecked, a, below, anon, fails⟩)
  · rw [separated.freedInvalid isChecked r root black zero anon] at valid
    cases valid
  · rcases separated.below below with garbage | ⟨-, notAnon, -⟩
    · obtain ⟨recycled, invalid⟩ := separated.unrecycled isChecked a garbage anon
      refine fails ⟨?_, recycled, invalid, ready.garbage_not_queued garbage⟩
      rw [separated.shared_edges, zero_nsmul, add_zero]
      exact ready.garbage_counted garbage
    · exact notAnon anon

theorem Separated.collects {l : List A} (separated : Separated values h checked)
    (ran : Ran values checked h h' l) : Collects values h h' l where
  queue := ran.queue
  nodup := ran.nodup
  garbage a := by
    rw [ran.anons]
    constructor
    · rintro ⟨below, anon⟩
      rcases separated.below below with garbage | ⟨-, notAnon, -⟩
      · exact ⟨anon, garbage⟩
      · exact absurd anon notAnon
    · exact fun ⟨anon, garbage⟩ => ⟨garbage.below, anon⟩
  refcount a := by
    rw [ran.tally, separated.shared_edges, zero_nsmul, add_zero, nsmul_eq_mul, mul_one]
  colors := ran.colors
  roots := ran.roots
  buffered := ran.buffered

theorem Collects.separated {l : List A} (collects : Collects values h h' l) (ready : Ready values h)
    (ran : Ran values checked h h' l) : Separated values h checked where
  apart g garbage v edge goesOn := by
    have path : Reach (kids values h) g v := Relation.ReflTransGen.single edge
    have below : Below values h v := ⟨g, garbage, path⟩
    have live : Live values h v := by
      by_contra notLive
      exact goesOn ⟨below.candidate, notLive⟩
    constructor
    · intro anon
      exact goesOn ((collects.garbage v).mp ((ran.anons v).mpr ⟨below, anon⟩)).2
    · rw [List.eq_nil_iff_forall_not_mem]
      intro c child
      have bound := edges_le ready (shared values h) c
      have twice : edges (kids values h) (shared values h) c = 0 := by
        rw [← counted_twice (h.marks.tally c) (by omega)]
        have same := (ran.tally c).symm.trans (collects.refcount c)
        rw [nsmul_eq_mul (l.count c), mul_one] at same
        exact add_right_cancel same
      exact (edges_eq_zero _).mp twice v (mem_shared.mpr ⟨below, live⟩) child
  unrecycled isChecked g garbage anon :=
    ran.clean isChecked g ((ran.anons g).mpr ⟨garbage.below, anon⟩)
  freedInvalid isChecked r root black zero anon := by
    by_contra valid
    exact ran.freed r root ⟨isChecked, black, zero, anon, by simpa using valid⟩

/-- A collection is sound on the heaps whose garbage is separated from what is live. -/
theorem gcCollect_sound (ready : Ready values h) (checked : Bool) :
    (∃ h' handed, gcCollect values checked h = .ok h' ∧ Collects values h h' handed) ↔
      Separated values h checked := by
  constructor
  · rintro ⟨h', handed, collected, collects⟩
    rcases gcCollect_run ready with ⟨h'', l, ran, whole⟩ | ⟨failed, -⟩
    · rw [collected] at ran
      cases ran
      have same : l = handed := List.append_cancel_right (whole.queue.symm.trans collects.queue)
      exact collects.separated ready (same ▸ whole)
    · rw [collected] at failed
      cases failed
  · intro separated
    rcases gcCollect_run ready with ⟨h', l, ran, whole⟩ | ⟨-, broken⟩
    · exact ⟨h', l, ran, separated.collects whole⟩
    · exact absurd broken (separated.unbroken ready)

end Claims

section Instances

def pairAndThird : Values (Fin 3) where
  type _ := .anon
  contents a := if a = 0 then [1] else if a = 1 then [0, 2] else []
  recycled _ := false
  invalid _ := false

def abandoned (third : BitVec 32) : Heap (Fin 3) where
  marks := ⟨fun a => if a = 0 then .purple else .black, fun a => if a = 2 then third else 1⟩
  buffered a := a = 0
  roots := [0]
  queue := []
  freed := []

theorem abandoned_ready (third : BitVec 32) (counted : 0 < third.toNat) :
    Ready pairAndThird (abandoned third) where
  colors a := by
    simp only [abandoned]
    split <;> simp [Color.idle]
  rootsNodup := by simp [abandoned]
  buffered a := by simp [abandoned]
  referenced r root _ := by
    rw [List.mem_singleton.mp root]
    simp [abandoned]
  counted a := by
    have each (b : Fin 3) : edges pairAndThird.contents Finset.univ b = 1 := by
      revert b
      decide
    rw [each]
    simp only [abandoned]
    split
    · simpa [Nat.one_le_iff_ne_zero, Nat.pos_iff_ne_zero] using counted
    · simp

theorem gcCollect_sound_pair :
    (∃ h' handed, gcCollect pairAndThird true (abandoned 1) = .ok h' ∧
      Collects pairAndThird (abandoned 1) h' handed) ↔ Separated pairAndThird (abandoned 1) true :=
  gcCollect_sound (abandoned_ready 1 (by decide)) true

/-- The third object is held by a variable, and is queued all the same. -/
theorem gcCollect_queues_live : Ready pairAndThird (abandoned 2) ∧
    Live pairAndThird (abandoned 2) 2 ∧
    ∃ h', gcCollect pairAndThird true (abandoned 2) = .ok h' ∧ 2 ∈ h'.queue ∧
      ¬∃ handed, Collects pairAndThird (abandoned 2) h' handed := by
  have ready := abandoned_ready 2 (by decide)
  have live : Live pairAndThird (abandoned 2) 2 := by
    have path : Reach (kids pairAndThird (abandoned 2)) 0 2 :=
      Relation.ReflTransGen.tail
        (Relation.ReflTransGen.single (by decide : (1 : Fin 3) ∈ kids pairAndThird (abandoned 2) 0))
        (by decide)
    refine ⟨2, ⟨0, by simp [abandoned], rfl, path⟩, ?_, Relation.ReflTransGen.refl⟩
    have one : edges (kids pairAndThird (abandoned 2)) Finset.univ 2 = 1 := by decide
    have fewer := edges_mono (kids pairAndThird (abandoned 2))
      (Finset.subset_univ (candidates pairAndThird (abandoned 2))) 2
    have two : ((abandoned 2).marks.tally 2).toNat = 2 := rfl
    rw [HeldOutside]
    omega
  have checked : Failing.okAnd (gcCollect pairAndThird true (abandoned 2))
      (fun h' => h'.queue = [0, 1, 2]) = true := by decide +kernel
  obtain ⟨h', ran, queued⟩ := Failing.of_okAnd checked
  rw [decide_eq_true_eq] at queued
  refine ⟨ready, live, h', ran, by simp [queued], ?_⟩
  rintro ⟨handed, collects⟩
  have queue := collects.queue
  rw [queued] at queue
  have member : 2 ∈ handed := by
    have none : (abandoned 2).queue = [] := rfl
    rw [none, List.append_nil] at queue
    simp [← queue]
  exact ((collects.garbage 2).mp member).2.2 live

end Instances

end ToastStunt.Gc
