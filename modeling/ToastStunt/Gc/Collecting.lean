import ToastStunt.Gc.Restoring

/-!
The last phase of a collection, which hands the pink anonymous objects to the queue,
and what a whole collection does.
-/

namespace ToastStunt.Gc

open FirstVisit Painting

variable {A : Type} [DecidableEq A] {values : Values A} {checked : Bool} {h₀ h : Heap A}

section Handing

def Heap.handed (h : Heap A) (N : Finset A) (l : List A) : Heap A :=
  { h with marks := h.marks.painted .black 1 N fun a => l.count a, queue := l ++ h.queue }

theorem handed_handed (h : Heap A) (N N' : Finset A) (l l' : List A) :
    (h.handed N l).handed N' l' = h.handed (N ∪ N') (l' ++ l) := by
  simp only [Heap.handed, painted_painted, List.append_assoc, Heap.mk.injEq, and_self, and_true]
  congr 1
  funext a
  rw [List.count_append, Nat.add_comm]

def Waits (h : Heap A) (a : A) : Prop := h.marks.color a = .pink ∧ h.buffered a = false

def Queueable (values : Values A) (h : Heap A) (a : A) : Prop :=
  h.marks.tally a ≠ 0 ∧ values.recycled a = false ∧ values.invalid a = false ∧ a ∉ h.queue

/-- What collecting from `starts` has made black and queued. -/
structure Handed (values : Values A) (checked : Bool) (h₀ h : Heap A) (starts : List A)
    (N : Finset A) (l : List A) : Prop where
  waited : ∀ u ∈ N, Waits h u
  started : ∀ v ∈ starts, Waits h v → v ∈ N
  closed : ∀ u ∈ N, ∀ c ∈ kids values h₀ u, Waits h c → c ∈ N
  nodup : l.Nodup
  anons : ∀ a, a ∈ l ↔ a ∈ N ∧ values.type a = .anon
  queueable : checked = true → ∀ a ∈ l, Queueable values h a

def Unqueueable (values : Values A) (checked : Bool) (h : Heap A) : Prop :=
  checked = true ∧ ∃ a, h.marks.color a = .pink ∧ values.type a = .anon ∧ ¬Queueable values h a

variable {N N' : Finset A} {l l' starts more : List A}

theorem waits_handed {a : A} : Waits (h.handed N l) a ↔ Waits h a ∧ a ∉ N := by
  simp only [Waits, Heap.handed, Canvas.painted]
  split <;> simp [*]

theorem queueable_handed {a : A} (other : a ∉ l) :
    Queueable values (h.handed N l) a ↔ Queueable values h a := by
  simp [Queueable, Heap.handed, Canvas.painted, other, List.count_eq_zero_of_not_mem]

namespace Handed

omit [DecidableEq A] in
theorem nothing (done : ∀ v ∈ starts, ¬Waits h v) : Handed values checked h₀ h starts ∅ [] :=
  ⟨by simp, fun v start waits => absurd waits (done v start), by simp, by simp, by simp, by simp⟩

theorem trans (first : Handed values checked h₀ h starts N l)
    (later : Handed values checked h₀ (h.handed N l) more N' l') :
    Handed values checked h₀ h (starts ++ more) (N ∪ N') (l' ++ l) where
  waited u member := by
    rcases Finset.mem_union.mp member with old | new
    · exact first.waited u old
    · exact (waits_handed.mp (later.waited u new)).1
  started v start waits := by
    rw [Finset.mem_union]
    by_cases old : v ∈ N
    · exact Or.inl old
    · rcases List.mem_append.mp start with early | late
      · exact Or.inl (first.started v early waits)
      · exact Or.inr (later.started v late (waits_handed.mpr ⟨waits, old⟩))
  closed u member c edge waits := by
    rw [Finset.mem_union]
    by_cases old : c ∈ N
    · exact Or.inl old
    · rcases Finset.mem_union.mp member with early | late
      · exact Or.inl (first.closed u early c edge waits)
      · exact Or.inr (later.closed u late c edge (waits_handed.mpr ⟨waits, old⟩))
  nodup := by
    refine List.nodup_append.mpr ⟨later.nodup, first.nodup, ?_⟩
    rintro a new b old rfl
    have waited := later.waited a ((later.anons a).mp new).1
    exact (waits_handed.mp waited).2 ((first.anons a).mp old).1
  anons a := by
    rw [List.mem_append, later.anons, first.anons, Finset.mem_union]
    tauto
  queueable isChecked a member := by
    by_cases old : a ∈ l
    · exact first.queueable isChecked a old
    · have new := (List.mem_append.mp member).resolve_right old
      exact (queueable_handed old).mp (later.queueable isChecked a new)

theorem enter {v : A} (waits : Waits h v)
    (below : Handed values checked h₀ (h.handed {v} []) (kids values h₀ v) N l)
    (queueable : checked = true → values.type v = .anon → Queueable values h v) :
    Handed values checked h₀ h [v] (insert v N)
      (if values.type v = .anon then v :: l else l) := by
  have outside : v ∉ N := fun member => (waits_handed.mp (below.waited v member)).2 (by simp)
  have notIn : v ∉ l := fun member => outside ((below.anons v).mp member).1
  have isWaiting {a : A} (waitsA : Waits h a) (other : a ≠ v) : Waits (h.handed {v} []) a :=
    waits_handed.mpr ⟨waitsA, by simpa using other⟩
  refine ⟨?_, ?_, ?_, ?_, ?_, ?_⟩
  · intro u member
    rcases Finset.mem_insert.mp member with rfl | old
    · exact waits
    · exact (waits_handed.mp (below.waited u old)).1
  · intro u start _
    rw [List.mem_singleton.mp start]
    exact Finset.mem_insert_self v N
  · intro u member c edge waitsC
    by_cases same : c = v
    · rw [same]
      exact Finset.mem_insert_self v N
    · refine Finset.mem_insert_of_mem ?_
      rcases Finset.mem_insert.mp member with rfl | old
      · exact below.started c edge (isWaiting waitsC same)
      · exact below.closed u old c edge (isWaiting waitsC same)
  · split
    · exact List.nodup_cons.mpr ⟨notIn, below.nodup⟩
    · exact below.nodup
  · intro a
    have members := below.anons a
    rw [Finset.mem_insert]
    by_cases same : a = v
    · subst same
      split <;> simp_all
    · split <;> simp_all
  · intro isChecked a member
    by_cases same : a = v
    · subst same
      split at member
      · rename_i anon
        exact queueable isChecked anon
      · exact absurd member notIn
    · have old : a ∈ l := by
        split at member
        · exact (List.mem_cons.mp member).resolve_left same
        · exact member
      exact (queueable_handed (by simp)).mp (below.queueable isChecked a old)

end Handed

theorem Unqueueable.before (wrong : Unqueueable values checked (h.handed N l))
    (anons : ∀ a ∈ l, a ∈ N) : Unqueueable values checked h := by
  obtain ⟨isChecked, a, pink, anon, fails⟩ := wrong
  have outside : a ∉ N := by
    intro member
    simp [Heap.handed, Canvas.painted, member] at pink
  refine ⟨isChecked, a, ?_, anon, mt (queueable_handed (mt (anons a) outside)).mpr fails⟩
  simpa [Heap.handed, Canvas.painted, outside] using pink

theorem Handed.shows (handed : Handed values checked h₀ h starts N l)
    (shows : Shows (shown h₀) .green h.marks) : Shows (shown h₀) .green (h.handed N l).marks := by
  refine shows.painted (by decide) (fun u member => ?_) _ _
  by_contra hidden
  have green := (shows u).mpr (by simpa using hidden)
  rw [(handed.waited u member).1] at green
  cases green

end Handing

section Collecting

variable [Fintype A]

def pinks (h : Heap A) : Finset A := Finset.univ.filter fun a => h.marks.color a = .pink

theorem pinks_handed (h : Heap A) (N : Finset A) (l : List A) : pinks (h.handed N l) ⊆ pinks h := by
  intro a member
  have pink := (Finset.mem_filter.mp member).2
  simp only [Heap.handed, Canvas.painted] at pink
  split at pink
  · cases pink
  · exact Finset.mem_filter.mpr ⟨Finset.mem_univ a, pink⟩

/-- Either some objects have been handed over, or an assertion has failed. -/
def Hands (values : Values A) (checked : Bool) (h₀ h : Heap A) (starts : List A)
    (run : Except Crash (Heap A)) : Prop :=
  (∃ N l, run = .ok (h.handed N l) ∧ Handed values checked h₀ h starts N l) ∨
    run = .error .assertion ∧ Unqueueable values checked h

omit [Fintype A] in
theorem queue_hands {v : A} {starts : List A} (isAnon : values.type v = .anon) {N : Finset A}
    {l : List A} (waits : Waits h v) (outside : v ∉ l)
    (handed : (checked = true → values.type v = .anon → Queueable values h v) →
      Handed values checked h₀ h starts (insert v N) (v :: l)) :
    Hands values checked h₀ h starts (do
      assertThat checked ((h.handed (insert v N) l).marks.tally v ≠ 0)
      queueAnonymousObject values checked v (h.handed (insert v N) l)) := by
  have same : Queueable values (h.handed (insert v N) l) v ↔ Queueable values h v :=
    queueable_handed outside
  by_cases fine : checked = true → Queueable values h v
  · refine Or.inl ⟨insert v N, v :: l, ?_, handed fun isChecked _ => fine isChecked⟩
    have passes (isChecked : checked = true) := same.mpr (fine isChecked)
    have counted : assertThat checked ((h.handed (insert v N) l).marks.tally v ≠ 0) = .ok () :=
      assertThat_holds fun isChecked => decide_eq_true (passes isChecked).1
    have clean : assertThat checked (!values.recycled v && !values.invalid v &&
        v ∉ (h.handed (insert v N) l).queue) = .ok () := by
      refine assertThat_holds fun isChecked => ?_
      obtain ⟨-, recycled, invalid, absent⟩ := passes isChecked
      simp [recycled, invalid, absent]
    rw [Failing.bind_of_ok counted, queueAnonymousObject, Failing.bind_of_ok clean]
    refine congrArg Except.ok ?_
    simp only [Heap.handed, Canvas.set, Canvas.add, Canvas.painted, List.cons_append]
    congr 2
    · funext a
      by_cases here : a = v <;> simp [here]
    · funext a
      by_cases here : a = v
      · subst here
        simp only [if_true, List.count_cons_self, add_nsmul, one_nsmul, add_assoc]
      · simp [here, List.count_cons_of_ne (Ne.symm here)]
  · rw [Classical.not_imp] at fine
    refine Or.inr ⟨?_, fine.1, v, waits.1, isAnon, fine.2⟩
    obtain ⟨rfl, wrong⟩ := fine
    have fails := mt same.mp wrong
    by_cases counted : (h.handed (insert v N) l).marks.tally v = 0
    · rw [assertThat_fails (by simpa using counted)]
      rfl
    · have passes : assertThat true ((h.handed (insert v N) l).marks.tally v ≠ 0) = .ok () :=
        assertThat_holds fun _ => decide_eq_true counted
      rw [Failing.bind_of_ok passes, queueAnonymousObject, assertThat_fails]
      · rfl
      · by_contra clean
        simp only [Bool.not_eq_false, Bool.and_eq_true, Bool.not_eq_true', decide_eq_true_eq] at clean
        exact fails ⟨counted, clean.1.1, clean.1.2, clean.2⟩

theorem collect_children {fuel : Nat}
    (each : ∀ v (h : Heap A), Shows (shown h₀) .green h.marks → (pinks h).card < fuel →
      Hands values checked h₀ h [v] (collectWhite values checked fuel v h))
    (items : List A) (h : Heap A) (shows : Shows (shown h₀) .green h.marks)
    (enough : (pinks h).card < fuel) :
    Hands values checked h₀ h (items.filter (shown h₀))
      (forVisible (fun h : Heap A => h.marks.color) .green (collectWhite values checked fuel) items
        h) := by
  induction items generalizing h with
  | nil =>
      refine Or.inl ⟨∅, [], ?_, Handed.nothing (by simp)⟩
      simp [forVisible, Heap.handed, painted_nothing, pure, Except.pure]
  | cons c rest ih =>
      rw [forVisible, List.foldlM_cons]
      cases isShown : shown h₀ c with
      | false =>
          rw [if_pos ((shows c).mpr isShown), List.filter_cons_of_neg (by simp [isShown])]
          exact ih h shows enough
      | true =>
          have present : h.marks.color c ≠ .green := fun same => by
            rw [(shows c).mp same] at isShown
            cases isShown
          rw [if_neg present, List.filter_cons_of_pos isShown]
          rcases each c h shows enough with ⟨N, l, ran, handed⟩ | ⟨ran, wrong⟩
          · rw [Failing.bind_of_ok ran]
            have fewer := Nat.lt_of_le_of_lt (Finset.card_le_card (pinks_handed h N l)) enough
            rcases ih _ (handed.shows shows) fewer with ⟨N', l', ranRest, later⟩ | ⟨ranRest, wrong⟩
            · refine Or.inl ⟨N ∪ N', l' ++ l, ranRest.trans ?_, handed.trans later⟩
              rw [handed_handed]
            · exact Or.inr ⟨ranRest, wrong.before fun a member => ((handed.anons a).mp member).1⟩
          · rw [ran]
            exact Or.inr ⟨rfl, wrong⟩

theorem collectWhite_spec {fuel : Nat} (v : A) (h : Heap A) (shows : Shows (shown h₀) .green h.marks)
    (enough : (pinks h).card < fuel) :
    Hands values checked h₀ h [v] (collectWhite values checked fuel v h) := by
  induction fuel generalizing v h with
  | zero => omega
  | succ fuel ih =>
      rw [collectWhite]
      by_cases waits : Waits h v
      · rw [if_pos (show h.marks.color v = .pink ∧ h.buffered v = false from waits)]
        have entered : { h with marks := h.marks.set v .black } = h.handed {v} [] := by
          rw [set_eq h.marks v .black 1]
          simp [Heap.handed]
        rw [entered]
        have shows' : Shows (shown h₀) .green (h.handed {v} []).marks := by
          refine shows.painted (by decide) (fun u member => ?_) _ _
          rw [Finset.mem_singleton.mp member]
          by_contra hidden
          have green := (shows v).mpr (by simpa using hidden)
          rw [waits.1] at green
          cases green
        have fewer : (pinks (h.handed {v} [])).card < fuel := by
          have strict : (pinks (h.handed {v} [])).card < (pinks h).card := by
            refine Finset.card_lt_card ⟨pinks_handed h _ _, fun subset => ?_⟩
            have inside := @subset v (by simp [pinks, waits.1])
            simp [pinks, Heap.handed, Canvas.painted] at inside
          omega
        rcases collect_children ih (values.contents v) _ shows' fewer with
          ⟨N, l, ran, handed⟩ | ⟨ran, wrong⟩
        · rw [Failing.bind_of_ok ran, handed_handed]
          have outside : v ∉ l := fun member =>
            (waits_handed.mp (handed.waited v ((handed.anons v).mp member).1)).2 (by simp)
          have whole := handed.enter waits
          rw [List.append_nil, ← Finset.insert_eq]
          by_cases anon : values.type v = .anon
          · rw [if_pos anon] at whole ⊢
            exact queue_hands anon waits outside whole
          · rw [if_neg anon] at whole ⊢
            exact Or.inl ⟨insert v N, l, rfl, whole fun _ isAnon => absurd isAnon anon⟩
        · rw [ran]
          exact Or.inr ⟨rfl, wrong.before (by simp)⟩
      · rw [if_neg (show ¬(h.marks.color v = .pink ∧ h.buffered v = false) from waits)]
        refine Or.inl ⟨∅, [], ?_, Handed.nothing ?_⟩
        · simp [Heap.handed, painted_nothing]
        · simpa using waits

def Heap.unbuffered (h : Heap A) : Heap A := { h with buffered := fun _ => false, roots := [] }

/-- Collecting the roots that are left hands over everything below them that is pink. -/
theorem collectRoots_spec (checked : Bool) {rest : List A} (h : Heap A) (shows : Shows (shown h₀) .green h.marks)
    (nodup : rest.Nodup) (buffered : ∀ a, h.buffered a = true ↔ a ∈ rest) :
    (∃ N l, collectRoots values checked rest h = .ok (h.unbuffered.handed N l) ∧
        Handed values checked h₀ h.unbuffered rest N l) ∨
      collectRoots values checked rest h = .error .assertion ∧ Unqueueable values checked h := by
  induction rest generalizing h with
  | nil =>
      have none : h.buffered = fun _ => false := by
        funext a
        simpa using buffered a
      refine Or.inl ⟨∅, [], ?_, Handed.nothing (by simp)⟩
      simp [collectRoots, Heap.unbuffered, Heap.handed, painted_nothing, none]
  | cons v rest ih =>
      rw [collectRoots]
      have apart := List.nodup_cons.mp nodup
      generalize cleared : { h with roots := rest }.clearBuffered v = h1
      have marks : h1.marks = h.marks := by rw [← cleared]; rfl
      have queue : h1.queue = h.queue := by rw [← cleared]; rfl
      have freed : h1.freed = h.freed := by rw [← cleared]; rfl
      have same : h1.unbuffered = h.unbuffered := by
        simp only [Heap.unbuffered, marks, queue, freed]
      have buffered1 (a : A) : h1.buffered a = true ↔ a ∈ rest := by
        rw [← cleared]
        simp only [Heap.clearBuffered]
        by_cases here : a = v
        · simpa [here] using apart.1
        · simp [here, buffered a]
      have queueable (a : A) : Queueable values h1 a ↔ Queueable values h a := by
        simp only [Queueable, marks, queue]
      have unqueueable : Unqueueable values checked h1 → Unqueueable values checked h := by
        rintro ⟨isChecked, a, pink, anon, fails⟩
        exact ⟨isChecked, a, by rwa [← marks], anon, mt (queueable a).mpr fails⟩
      have enough : (pinks h1).card < depth A := Nat.lt_succ_of_le (Finset.card_le_univ _)
      rcases collectWhite_spec v h1 (by rwa [marks]) enough with ⟨N, l, ran, handed⟩ | ⟨ran, wrong⟩
      · rw [Failing.bind_of_ok ran]
        rcases ih (h1.handed N l) (handed.shows (by rwa [marks])) apart.2 buffered1 with
          ⟨N', l', ranRest, later⟩ | ⟨ranRest, wrong⟩
        · have commutes : (h1.handed N l).unbuffered = h.unbuffered.handed N l := by
            rw [← same]
            rfl
          rw [commutes] at ranRest later
          refine Or.inl ⟨N ∪ N', l' ++ l, by rw [ranRest, handed_handed], ?_⟩
          have waits (a : A) : Waits h.unbuffered a ↔ h1.marks.color a = .pink := by
            simp [Waits, Heap.unbuffered, marks]
          have early (a : A) (pink : h1.marks.color a = .pink) (outside : a ∉ N)
              (bufferedA : h1.buffered a = true) : a ∈ N' := by
            refine later.started a ((buffered1 a).mp bufferedA) ?_
            exact waits_handed.mpr ⟨(waits a).mpr pink, outside⟩
          have waited (a : A) (waitsA : Waits h.unbuffered a)
              (direct : Waits h1 a → a ∈ N) : a ∈ N ∪ N' := by
            have pink := (waits a).mp waitsA
            rw [Finset.mem_union]
            by_cases inside : a ∈ N
            · exact Or.inl inside
            · cases isBuffered : h1.buffered a with
              | false => exact Or.inl (direct ⟨pink, isBuffered⟩)
              | true => exact Or.inr (early a pink inside isBuffered)
          refine ⟨?_, ?_, ?_, ?_, ?_, ?_⟩
          · intro u member
            rcases Finset.mem_union.mp member with old | new
            · exact (waits u).mpr (handed.waited u old).1
            · exact (waits_handed.mp (later.waited u new)).1
          · intro u start waitsU
            rcases List.mem_cons.mp start with rfl | inRest
            · exact waited u waitsU (handed.started u (List.mem_singleton_self u))
            · by_cases inside : u ∈ N
              · exact Finset.mem_union_left _ inside
              · exact Finset.mem_union_right _
                  (later.started u inRest (waits_handed.mpr ⟨waitsU, inside⟩))
          · intro u member c edge waitsC
            rcases Finset.mem_union.mp member with old | new
            · exact waited c waitsC (handed.closed u old c edge)
            · by_cases inside : c ∈ N
              · exact Finset.mem_union_left _ inside
              · exact Finset.mem_union_right _
                  (later.closed u new c edge (waits_handed.mpr ⟨waitsC, inside⟩))
          · refine List.nodup_append.mpr ⟨later.nodup, handed.nodup, ?_⟩
            rintro a new b old rfl
            exact (waits_handed.mp (later.waited a ((later.anons a).mp new).1)).2
              ((handed.anons a).mp old).1
          · intro a
            rw [List.mem_append, later.anons, handed.anons, Finset.mem_union]
            tauto
          · intro isChecked a member
            have here : Queueable values h.unbuffered a ↔ Queueable values h1 a := by
              simp [Queueable, Heap.unbuffered, marks, queue]
            by_cases old : a ∈ l
            · exact here.mpr (handed.queueable isChecked a old)
            · have new := (List.mem_append.mp member).resolve_right old
              exact (queueable_handed old).mp (later.queueable isChecked a new)
        · exact Or.inr ⟨ranRest, unqueueable
            (wrong.before fun a member => ((handed.anons a).mp member).1)⟩
      · rw [ran]
        exact Or.inr ⟨rfl, unqueueable wrong⟩

end Collecting

end ToastStunt.Gc
