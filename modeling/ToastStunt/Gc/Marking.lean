import ToastStunt.Gc.Heap

/-!
The first two phases of a collection. Marking makes the subgraph below the purple roots
gray and takes its inner references off the counts; scanning splits it into what is held
from outside and garbage, and puts the references of the former back.
-/

namespace ToastStunt.Gc

open FirstVisit Painting

variable {A : Type} [DecidableEq A]

section Marking

variable {values : Values A} {checked : Bool} {h₀ h : Heap A}

theorem Ready.noGray [Fintype A] (ready : Ready values h₀) (a : A) : h₀.marks.color a ≠ .gray :=
  (ready.colors a).1

omit [DecidableEq A] in
theorem shows_start (h : Heap A) : Shows (shown h) .green h.marks := by
  intro a
  simp [shown]

omit [DecidableEq A] in
theorem card_unpainted [Fintype A] (ink : Color) (s : Marks A) : (unpainted ink s).card ≤ depth A :=
  Nat.le_succ_of_le (Finset.card_le_univ _)

/-- The heap while the roots are marked: `M` is what is below the roots that have been kept. -/
structure Marked (values : Values A) (h₀ : Heap A) (before rest : List A) (h : Heap A)
    (M : Finset A) : Prop where
  marks : h.marks = h₀.marks.painted .gray (-1) M (edges (kids values h₀) M)
  inside : ∀ u ∈ M, shown h₀ u = true
  closed : ∀ u ∈ M, ∀ c ∈ kids values h₀ u, c ∈ M
  reached : ∀ u ∈ M, ∃ r ∈ before, Reach (kids values h₀) r u
  kept : ∀ r ∈ before, r ∈ M ∧ h₀.marks.color r = .purple
  nodup : (before ++ rest).Nodup
  buffered : ∀ a, h.buffered a = true ↔ a ∈ before ∨ a ∈ rest
  queue : h.queue = h₀.queue

def Misfreed (values : Values A) (checked : Bool) (h₀ : Heap A) (r : A) : Prop :=
  checked = true ∧ h₀.marks.color r = .black ∧ h₀.marks.tally r = 0 ∧ values.type r = .anon ∧
    values.invalid r = false

namespace Marked

variable {before rest : List A} {M : Finset A} {v : A}

theorem color (marked : Marked values h₀ before rest h M) (a : A) :
    h.marks.color a = if a ∈ M then .gray else h₀.marks.color a := by
  rw [marked.marks]
  rfl

theorem shows (marked : Marked values h₀ before rest h M) : Shows (shown h₀) .green h.marks := by
  rw [marked.marks]
  exact (shows_start h₀).painted (by decide) marked.inside _ _

theorem tally_outside (marked : Marked values h₀ before rest h M) {a : A} (outside : a ∉ M) :
    h.marks.tally a = h₀.marks.tally a := by
  rw [marked.marks]
  simp only [Canvas.painted, edges_outside _ marked.closed outside, zero_nsmul, add_zero]

theorem keep [Fintype A] (marked : Marked values h₀ before (v :: rest) h M)
    (ready : Ready values h₀) (purple : h.marks.color v = .purple) : ∃ s N,
    markGray values v h.marks = .ok s ∧
      Marked values h₀ (v :: before) rest { h with marks := s } (M ∪ N) ∧ v ∈ N := by
  have notGray : h.marks.color v ≠ .gray := by
    rw [purple]
    decide
  have isShown : shown h₀ v = true := by
    by_contra hidden
    rw [Bool.not_eq_true] at hidden
    rw [(marked.shows v).mpr hidden] at purple
    cases purple
  have wasPurple : h₀.marks.color v = .purple := by
    have isPurple := marked.color v
    rw [purple] at isPurple
    split at isPurple
    · cases isPurple
    · exact isPurple.symm
  obtain ⟨N, ran, inside, covers⟩ := paint_spec values.contents (-1) Crash.unbounded
    (by decide) v h.marks marked.shows isShown notGray (card_unpainted _ _)
  have isGray (a : A) : h.marks.color a = .gray ↔ a ∈ M := by
    rw [marked.color]
    split
    · simp [*]
    · simp [*, ready.noGray]
  refine ⟨_, N, by rw [markGray, if_pos notGray]; exact ran, ?_, ?_⟩
  · have disjoint : Disjoint M N := by
      rw [Finset.disjoint_right]
      exact fun u member => mt (isGray u).mpr (covers.fresh u member)
    refine ⟨?_, ?_, ?_, ?_, ?_, ?_, ?_, marked.queue⟩
    · rw [marked.marks, painted_painted]
      exact congrArg (h₀.marks.painted .gray (-1) (M ∪ N))
        (funext fun a => (edges_union _ disjoint a).symm)
    · intro u member
      rcases Finset.mem_union.mp member with old | new
      · exact marked.inside u old
      · exact inside u new
    · intro u member c edge
      rcases Finset.mem_union.mp member with old | new
      · exact Finset.mem_union_left _ (marked.closed u old c edge)
      · rcases covers.closed u new c edge with here | gray
        · exact Finset.mem_union_right _ here
        · exact Finset.mem_union_left _ ((isGray c).mp gray)
    · intro u member
      rcases Finset.mem_union.mp member with old | new
      · obtain ⟨r, start, path⟩ := marked.reached u old
        exact ⟨r, List.mem_cons_of_mem v start, path⟩
      · obtain ⟨r, start, path⟩ := covers.reached u new
        rw [List.mem_singleton.mp start] at path
        exact ⟨v, List.mem_cons_self, path⟩
    · intro r member
      rcases List.mem_cons.mp member with rfl | earlier
      · refine ⟨Finset.mem_union_right _ ?_, wasPurple⟩
        exact (covers.started r (List.mem_singleton_self r)).resolve_right notGray
      · have kept := marked.kept r earlier
        exact ⟨Finset.mem_union_left _ kept.1, kept.2⟩
    · exact (List.perm_middle : (before ++ v :: rest).Perm _).nodup_iff.mp marked.nodup
    · intro a
      have buffered := marked.buffered a
      simp only [List.mem_cons] at buffered ⊢
      tauto
  · exact (covers.started v (List.mem_singleton_self v)).resolve_right notGray

theorem drop (marked : Marked values h₀ before (v :: rest) h M) (freed : List A) :
    Marked values h₀ before rest { h.clearBuffered v with freed := freed } M where
  marks := marked.marks
  inside := marked.inside
  closed := marked.closed
  reached := marked.reached
  kept := marked.kept
  nodup := ((List.perm_middle : (before ++ v :: rest).Perm _).nodup_iff.mp marked.nodup).of_cons
  buffered a := by
    have nodup := (List.perm_middle : (before ++ v :: rest).Perm _).nodup_iff.mp marked.nodup
    have apart := (List.nodup_cons.mp nodup).1
    have buffered := marked.buffered a
    simp only [Heap.clearBuffered, List.mem_cons] at buffered ⊢
    by_cases same : a = v
    · simpa [same] using apart
    · simp [same, buffered]
  queue := marked.queue

end Marked

variable [Fintype A]

theorem Ready.unreferenced (ready : Ready values h₀) {r : A} (zero : h₀.marks.tally r = 0) (u : A) :
    r ∉ kids values h₀ u := by
  have counted := ready.counted r
  rw [zero] at counted
  have none : edges values.contents Finset.univ r = 0 := by
    have noCount : (0 : BitVec 32).toNat = 0 := rfl
    omega
  intro edge
  exact (edges_eq_zero _).mp none u (Finset.mem_univ u) (List.mem_of_mem_filter edge)

theorem Marked.freed_iff (ready : Ready values h₀) {before rest : List A} {M : Finset A}
    (marked : Marked values h₀ before rest h M) (v : A) :
    h.marks.color v = .black ∧ h.marks.tally v = 0 ↔
      h₀.marks.color v = .black ∧ h₀.marks.tally v = 0 := by
  by_cases member : v ∈ M
  · rw [marked.color, if_pos member]
    refine iff_of_false (by simp) ?_
    rintro ⟨black, zero⟩
    obtain ⟨r, start, path⟩ := marked.reached v member
    rcases Relation.ReflTransGen.cases_tail path with rfl | ⟨u, -, edge⟩
    · rw [(marked.kept _ start).2] at black
      cases black
    · exact ready.unreferenced zero u edge
  · rw [marked.color, if_neg member, marked.tally_outside member]

theorem markRoots_spec (ready : Ready values h₀) (checked : Bool) {before rest : List A}
    {M : Finset A} (marked : Marked values h₀ before rest h M) :
    (∃ h' kept N, markRoots values checked before rest h = .ok { h' with roots := kept.reverse } ∧
        Marked values h₀ kept [] h' N ∧ M ⊆ N ∧ (∀ r ∈ kept, r ∈ before ∨ r ∈ rest) ∧
        (∀ r ∈ rest, h₀.marks.color r = .purple → r ∈ N) ∧
        ∀ r ∈ rest, ¬Misfreed values checked h₀ r) ∨
      markRoots values checked before rest h = .error .assertion ∧
        ∃ r ∈ rest, Misfreed values checked h₀ r := by
  induction rest generalizing before h M with
  | nil => exact Or.inl ⟨h, before, M, rfl, marked, Finset.Subset.refl M, by simp, by simp, by simp⟩
  | cons v rest ih =>
      rw [markRoots]
      have goOn {next : List A} {h1 : Heap A} {N : Finset A}
          (later : Marked values h₀ next rest h1 N) (subset : M ⊆ N)
          (sourced : ∀ r ∈ next, r ∈ before ∨ r = v)
          (purple : h₀.marks.color v = .purple → v ∈ N) (freed : ¬Misfreed values checked h₀ v) :
          (∃ h' kept N, markRoots values checked next rest h1 = .ok { h' with roots := kept.reverse } ∧
            Marked values h₀ kept [] h' N ∧ M ⊆ N ∧ (∀ r ∈ kept, r ∈ before ∨ r ∈ v :: rest) ∧
            (∀ r ∈ v :: rest, h₀.marks.color r = .purple → r ∈ N) ∧
            ∀ r ∈ v :: rest, ¬Misfreed values checked h₀ r) ∨
          markRoots values checked next rest h1 = .error .assertion ∧
            ∃ r ∈ v :: rest, Misfreed values checked h₀ r := by
        rcases ih later with ⟨h', kept, N', ran, final, grown, sources, roots, fine⟩ |
          ⟨ran, r, member, wrong⟩
        · refine Or.inl ⟨h', kept, N', ran, final, subset.trans grown, ?_, ?_, ?_⟩
          · intro r member
            rw [List.mem_cons, ← or_assoc]
            exact (sources r member).imp_left (sourced r)
          · intro r member isPurple
            rcases List.mem_cons.mp member with rfl | later
            · exact grown (purple isPurple)
            · exact roots r later isPurple
          · intro r member
            rcases List.mem_cons.mp member with rfl | later
            · exact freed
            · exact fine r later
        · exact Or.inr ⟨ran, r, List.mem_cons_of_mem v member, wrong⟩
      by_cases purple : h.marks.color v = .purple
      · obtain ⟨s, N, ran, kept, inside⟩ := marked.keep ready purple
        rw [if_pos purple, Heap.onMarks, Failing.bind_of_ok ran]
        refine goOn kept Finset.subset_union_left ?_ (fun _ => Finset.mem_union_right _ inside) ?_
        · simp
          tauto
        · rintro ⟨-, black, -⟩
          have color := marked.color v
          rw [purple, black] at color
          split at color <;> cases color
      · rw [if_neg purple]
        have wasMarked (isPurple : h₀.marks.color v = .purple) : v ∈ M := by
          by_contra outside
          rw [marked.color, if_neg outside] at purple
          exact purple isPurple
        by_cases freed : h.marks.color v = .black ∧ h.marks.tally v = 0
        · rw [if_pos freed]
          have before' := (marked.freed_iff ready v).mp freed
          by_cases wrong : Misfreed values checked h₀ v
          · refine Or.inr ⟨?_, v, List.mem_cons_self, wrong⟩
            obtain ⟨rfl, -, -, isAnon, valid⟩ := wrong
            rw [auxFree, assertThat_fails (by simp [isAnon, valid])]
            rfl
          · have passes : assertThat checked (values.type v ≠ .anon || values.invalid v) = .ok () := by
              refine assertThat_holds fun isChecked => ?_
              by_contra valid
              simp only [ne_eq, Bool.or_eq_true, decide_eq_true_eq, not_or, not_not,
                Bool.not_eq_true] at valid
              exact wrong ⟨isChecked, before'.1, before'.2, valid.1, valid.2⟩
            rw [auxFree, Failing.bind_of_ok passes]
            exact goOn (marked.drop _) (Finset.Subset.refl M) (fun r => Or.inl) wasMarked wrong
        · rw [if_neg freed]
          refine goOn (marked.drop h.freed) (Finset.Subset.refl M) (fun r => Or.inl) wasMarked ?_
          rintro ⟨-, black, zero, -⟩
          exact freed ((marked.freed_iff ready v).mpr ⟨black, zero⟩)

omit [DecidableEq A] in
theorem mem_candidates {a : A} : a ∈ candidates values h ↔ Candidate values h a := by
  simp [candidates]

structure Grayed (values : Values A) (h₀ h : Heap A) : Prop where
  marks : h.marks =
    h₀.marks.painted .gray (-1) (candidates values h₀) (edges (kids values h₀) (candidates values h₀))
  inside : ∀ u ∈ candidates values h₀, shown h₀ u = true
  closed : ∀ u ∈ candidates values h₀, ∀ c ∈ kids values h₀ u, c ∈ candidates values h₀
  reached : ∀ u ∈ candidates values h₀, ∃ r ∈ h.roots, Reach (kids values h₀) r u
  roots : ∀ r ∈ h.roots, r ∈ candidates values h₀
  nodup : h.roots.Nodup
  buffered : ∀ a, h.buffered a = true ↔ a ∈ h.roots
  queue : h.queue = h₀.queue

theorem markRoots_grayed (ready : Ready values h₀) (checked : Bool) :
    (∃ h, markRoots values checked [] h₀.roots h₀ = .ok h ∧ Grayed values h₀ h ∧
        ∀ r ∈ h₀.roots, ¬Misfreed values checked h₀ r) ∨
      markRoots values checked [] h₀.roots h₀ = .error .assertion ∧
        ∃ r ∈ h₀.roots, Misfreed values checked h₀ r := by
  have start : Marked values h₀ [] h₀.roots h₀ ∅ := by
    refine ⟨?_, by simp, by simp, by simp, by simp, by simpa using ready.rootsNodup, ?_, rfl⟩
    · have none : edges (kids values h₀) ∅ = fun _ => 0 := funext (edges_empty _)
      rw [none, painted_nothing]
    · simpa using ready.buffered
  rcases markRoots_spec ready checked start with ⟨h, kept, N, ran, marked, -, sources, roots, fine⟩ |
    wrong
  · refine Or.inl ⟨_, ran, ?_, fine⟩
    have same : N = candidates values h₀ := by
      ext a
      rw [mem_candidates]
      constructor
      · intro member
        obtain ⟨r, isKept, path⟩ := marked.reached a member
        exact ⟨r, by simpa using sources r isKept, (marked.kept r isKept).2, path⟩
      · rintro ⟨r, root, purple, path⟩
        exact closed_reach _ marked.closed (roots r root purple) path
    subst same
    refine ⟨marked.marks, marked.inside, marked.closed, ?_, ?_, ?_, ?_, marked.queue⟩
    · intro u member
      obtain ⟨r, isKept, path⟩ := marked.reached u member
      exact ⟨r, by simpa using isKept, path⟩
    · intro r member
      exact (marked.kept r (by simpa using member)).1
    · simpa using marked.nodup
    · simpa using marked.buffered
  · exact Or.inr wrong

end Marking

section Scanning

variable {values : Values A} {h₀ : Heap A} {G B W : Finset A} {g s : Marks A}

/-- The marks while the roots are scanned: `B` is what has been found to be held from outside, and
`W` has been white, outside `B` is so still. `g` are the marks before, when `G` was gray. -/
structure Scanned (values : Values A) (h₀ : Heap A) (G : Finset A) (g : Marks A) (B W : Finset A)
    (s : Marks A) : Prop where
  marks : s = (g.painted .white 1 W fun _ => 0).painted .black 1 B (edges (kids values h₀) B)
  black : B ⊆ G
  closed : ∀ b ∈ B, ∀ c ∈ kids values h₀ b, c ∈ B
  held : ∀ b ∈ B, ∃ m ∈ G, g.tally m ≠ 0 ∧ Reach (kids values h₀) m b
  white : W ⊆ G
  zero : ∀ w ∈ W, g.tally w = 0

structure GrayGraph (values : Values A) (h₀ : Heap A) (G : Finset A) (g : Marks A) : Prop where
  shows : Shows (shown h₀) .green g
  gray : ∀ a ∈ G, g.color a = .gray
  inside : ∀ a ∈ G, shown h₀ a = true
  closed : ∀ u ∈ G, ∀ c ∈ kids values h₀ u, c ∈ G

namespace Scanned

theorem color (scanned : Scanned values h₀ G g B W s) (graph : GrayGraph values h₀ G g) {a : A}
    (member : a ∈ G) : s.color a = if a ∈ B then .black else if a ∈ W then .white else .gray := by
  rw [scanned.marks]
  simp [Canvas.painted, graph.gray a member]

theorem shows (scanned : Scanned values h₀ G g B W s) (graph : GrayGraph values h₀ G g) :
    Shows (shown h₀) .green s := by
  rw [scanned.marks]
  exact (graph.shows.painted (by decide) (fun u member => graph.inside u (scanned.white member))
    _ _).painted (by decide) (fun u member => graph.inside u (scanned.black member)) _ _

theorem tally_outside (scanned : Scanned values h₀ G g B W s) {a : A} (outside : a ∉ B) :
    s.tally a = g.tally a := by
  rw [scanned.marks]
  simp [Canvas.painted, edges_outside _ scanned.closed outside]

theorem blacken [Fintype A] (scanned : Scanned values h₀ G g B W s)
    (graph : GrayGraph values h₀ G g) {v : A} (member : v ∈ G) (notBlack : v ∉ B)
    (count : s.tally v ≠ 0) : ∃ s' N, scanBlack values v s = .ok s' ∧
      Scanned values h₀ G g (B ∪ N) W s' ∧ v ∈ N := by
  have isBlack {a : A} (inside : a ∈ G) : s.color a = .black ↔ a ∈ B := by
    rw [scanned.color graph inside]
    split
    · simp [*]
    · split <;> simp [*]
  have fresh : s.color v ≠ .black := mt (isBlack member).mp notBlack
  obtain ⟨N, ran, -, covers⟩ := paint_spec values.contents 1 Crash.unbounded (by decide) v s
    (scanned.shows graph) (graph.inside v member) fresh (card_unpainted _ _)
  have inG : N ⊆ G := by
    intro u inside
    obtain ⟨r, start, path⟩ := covers.reached u inside
    rw [List.mem_singleton.mp start] at path
    exact closed_reach _ graph.closed member path
  have disjoint : Disjoint B N := by
    rw [Finset.disjoint_right]
    exact fun u inside old => covers.fresh u inside ((isBlack (inG inside)).mpr old)
  refine ⟨_, N, ran, ⟨?_, Finset.union_subset scanned.black inG, ?_, ?_, scanned.white,
    scanned.zero⟩, (covers.started v (List.mem_singleton_self v)).resolve_right fresh⟩
  · rw [scanned.marks, painted_painted]
    exact congrArg ((g.painted .white 1 W fun _ => 0).painted .black 1 (B ∪ N))
      (funext fun a => (edges_union _ disjoint a).symm)
  · intro u inside c edge
    rcases Finset.mem_union.mp inside with old | new
    · exact Finset.mem_union_left _ (scanned.closed u old c edge)
    · rcases covers.closed u new c edge with here | black
      · exact Finset.mem_union_right _ here
      · exact Finset.mem_union_left _ ((isBlack (graph.closed u (inG new) c edge)).mp black)
  · intro u inside
    rcases Finset.mem_union.mp inside with old | new
    · exact scanned.held u old
    · obtain ⟨r, start, path⟩ := covers.reached u new
      rw [List.mem_singleton.mp start] at path
      exact ⟨v, member, scanned.tally_outside notBlack ▸ count, path⟩

theorem whiten (scanned : Scanned values h₀ G g B W s) {v : A} (member : v ∈ G)
    (notBlack : v ∉ B) (zero : s.tally v = 0) :
    Scanned values h₀ G g B (insert v W) (s.set v .white) where
  marks := by
    rw [scanned.marks]
    simp only [Canvas.set, Canvas.painted, Canvas.mk.injEq, and_true]
    funext a
    by_cases same : a = v
    · simp [same, notBlack]
    · simp [same]
  black := scanned.black
  closed := scanned.closed
  held := scanned.held
  white := Finset.insert_subset member scanned.white
  zero w inside := by
    rcases Finset.mem_insert.mp inside with rfl | old
    · rw [← scanned.tally_outside notBlack, zero]
    · exact scanned.zero w old

end Scanned

structure ScannedMore (values : Values A) (h₀ : Heap A) (G : Finset A) (g : Marks A)
    (B W : Finset A) (starts : List A) (B' W' : Finset A) (s' : Marks A) : Prop where
  scanned : Scanned values h₀ G g B' W' s'
  blacker : B ⊆ B'
  whiter : W ⊆ W'
  started : ∀ v ∈ starts, v ∈ B' ∨ v ∈ W'
  followed : ∀ w ∈ W', w ∉ W → ∀ c ∈ kids values h₀ w, c ∈ B' ∨ c ∈ W'

theorem ScannedMore.nothing (scanned : Scanned values h₀ G g B W s) :
    ScannedMore values h₀ G g B W [] B W s :=
  ⟨scanned, Finset.Subset.refl B, Finset.Subset.refl W, by simp,
    fun _ inside outside => absurd inside outside⟩

theorem ScannedMore.trans {starts more : List A} {B' W' B'' W'' : Finset A} {s' s'' : Marks A}
    (first : ScannedMore values h₀ G g B W starts B' W' s')
    (later : ScannedMore values h₀ G g B' W' more B'' W'' s'') :
    ScannedMore values h₀ G g B W (starts ++ more) B'' W'' s'' where
  scanned := later.scanned
  blacker := first.blacker.trans later.blacker
  whiter := first.whiter.trans later.whiter
  started v start := by
    rcases List.mem_append.mp start with early | late
    · exact (first.started v early).imp (@later.blacker v) (@later.whiter v)
    · exact later.started v late
  followed w inside outside c edge := by
    by_cases old : w ∈ W'
    · exact (first.followed w old outside c edge).imp (@later.blacker c) (@later.whiter c)
    · exact later.followed w inside old c edge

variable [Fintype A]

theorem scan_children (graph : GrayGraph values h₀ G g) {fuel : Nat}
    (each : ∀ v s B W, Scanned values h₀ G g B W s → v ∈ G → (G \ (B ∪ W)).card < fuel →
      ∃ s' B' W', scan values fuel v s = .ok s' ∧
        ScannedMore values h₀ G g B W [v] B' W' s')
    (items : List A) (inG : ∀ c ∈ items.filter (shown h₀), c ∈ G) (s : Marks A) (B W : Finset A)
    (scanned : Scanned values h₀ G g B W s) (enough : (G \ (B ∪ W)).card < fuel) :
    ∃ s' B' W', forVisible Canvas.color .green (scan values fuel) items s = .ok s' ∧
      ScannedMore values h₀ G g B W (items.filter (shown h₀)) B' W' s' := by
  induction items generalizing s B W with
  | nil => exact ⟨s, B, W, rfl, ScannedMore.nothing scanned⟩
  | cons c rest ih =>
      rw [forVisible, List.foldlM_cons]
      cases isShown : shown h₀ c with
      | false =>
          rw [if_pos ((scanned.shows graph c).mpr isShown)]
          rw [List.filter_cons_of_neg (by simp [isShown])] at inG ⊢
          exact ih inG s B W scanned enough
      | true =>
          have present : s.color c ≠ .green := fun same => by
            rw [(scanned.shows graph c).mp same] at isShown
            cases isShown
          rw [List.filter_cons_of_pos isShown] at inG ⊢
          rw [if_neg present]
          obtain ⟨s1, B1, W1, ran, more⟩ := each c s B W scanned (inG c List.mem_cons_self) enough
          have fewer : (G \ (B1 ∪ W1)).card < fuel :=
            Nat.lt_of_le_of_lt (Finset.card_le_card (Finset.sdiff_subset_sdiff
              (Finset.Subset.refl G) (Finset.union_subset_union more.blacker more.whiter))) enough
          obtain ⟨s2, B2, W2, ranRest, moreRest⟩ := ih
            (fun item member => inG item (List.mem_cons_of_mem c member)) s1 B1 W1 more.scanned fewer
          exact ⟨s2, B2, W2, by rw [Failing.bind_of_ok ran]; exact ranRest, more.trans moreRest⟩

theorem scan_spec (graph : GrayGraph values h₀ G g) {fuel : Nat} (v : A) (s : Marks A)
    (B W : Finset A) (scanned : Scanned values h₀ G g B W s) (member : v ∈ G)
    (enough : (G \ (B ∪ W)).card < fuel) :
    ∃ s' B' W', scan values fuel v s = .ok s' ∧ ScannedMore values h₀ G g B W [v] B' W' s' := by
  induction fuel generalizing v s B W with
  | zero => omega
  | succ fuel ih =>
      have color := scanned.color graph member
      rw [scan]
      by_cases notBlack : v ∈ B
      · rw [if_pos notBlack] at color
        rw [if_neg (by simp [color])]
        have more := ScannedMore.nothing scanned
        exact ⟨s, B, W, rfl, scanned, more.blacker, more.whiter, by simp [notBlack], more.followed⟩
      · by_cases notWhite : v ∈ W
        · rw [if_neg notBlack, if_pos notWhite] at color
          rw [if_neg (by simp [color])]
          have more := ScannedMore.nothing scanned
          exact ⟨s, B, W, rfl, scanned, more.blacker, more.whiter, by simp [notWhite], more.followed⟩
        · rw [if_neg notBlack, if_neg notWhite] at color
          rw [if_pos color]
          by_cases count : s.tally v = 0
          · rw [if_neg (by simpa using count)]
            have white := scanned.whiten member notBlack count
            have fewer : (G \ (B ∪ insert v W)).card < fuel := by
              have strict : (G \ (B ∪ insert v W)).card < (G \ (B ∪ W)).card := by
                refine Finset.card_lt_card ⟨fun a inside => ?_, fun subset => ?_⟩
                · simp only [Finset.mem_sdiff, Finset.mem_union, Finset.mem_insert] at inside ⊢
                  tauto
                · have inside := @subset v (by simp [member, notBlack, notWhite])
                  simp at inside
              omega
            obtain ⟨s', B', W', ran, more⟩ := scan_children graph ih (values.contents v)
              (graph.closed v member) _ B (insert v W) white fewer
            refine ⟨s', B', W', ran, more.scanned, more.blacker,
              (Finset.subset_insert v W).trans more.whiter, ?_, ?_⟩
            · simpa using Or.inr (more.whiter (Finset.mem_insert_self v W))
            · intro w inside outside c edge
              by_cases same : w = v
              · rw [same] at edge
                exact more.started c edge
              · exact more.followed w inside (by simp [same, outside]) c edge
          · rw [if_pos (by simpa using count)]
            obtain ⟨s', N, ran, black, inside⟩ := scanned.blacken graph member notBlack count
            exact ⟨s', B ∪ N, W, ran, black, Finset.subset_union_left, Finset.Subset.refl W,
              by simp [inside], fun w old new => absurd old new⟩

end Scanning

end ToastStunt.Gc
