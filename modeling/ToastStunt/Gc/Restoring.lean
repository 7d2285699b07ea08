import Mathlib.Tactic.Ring
import ToastStunt.Gc.Marking

/-!
What the roots look like when they have been scanned, and the pass that puts the
references of white values back. It does not stop at black values: those below
garbage get pink as well, and their references are put back a second time.
-/

namespace ToastStunt.Gc

open FirstVisit Painting

variable {A : Type} [DecidableEq A] [Fintype A] {values : Values A} {h₀ h : Heap A}

section Counts

theorem edges_le (ready : Ready values h₀) (M : Finset A) (a : A) :
    edges (kids values h₀) M a + h₀.queue.count a ≤ (h₀.marks.tally a).toNat := by
  have fewer : edges (kids values h₀) M a ≤ edges values.contents Finset.univ a :=
    Nat.le_trans (edges_mono _ (Finset.subset_univ M) a)
      (Finset.sum_le_sum fun u _ => List.filter_sublist.count_le a)
  have counted := ready.counted a
  omega

theorem taken_off (x : BitVec 32) {n : Nat} (bound : n ≤ x.toNat) :
    x + n • (-1) = 0 ↔ n = x.toNat := by
  have small := x.isLt
  rw [nsmul_eq_mul, mul_neg_one, ← sub_eq_add_neg, sub_eq_zero, ← BitVec.toNat_inj]
  have cast : (n : BitVec 32).toNat = n := by
    rw [BitVec.natCast_eq_ofNat, BitVec.toNat_ofNat]
    exact Nat.mod_eq_of_lt (by omega)
  rw [cast]
  exact eq_comm

theorem counted_twice (x : BitVec 32) {n : Nat} (bound : n ≤ x.toNat) :
    x + n • 1 = x ↔ n = 0 := by
  have small := x.isLt
  rw [nsmul_eq_mul, mul_one, add_eq_left, ← BitVec.toNat_inj, BitVec.natCast_eq_ofNat,
    BitVec.toNat_ofNat, Nat.mod_eq_of_lt (by omega)]
  rfl

end Counts

section Scanned

namespace Grayed

theorem graph (grayed : Grayed values h₀ h) :
    GrayGraph values h₀ (candidates values h₀) h.marks where
  shows := by
    rw [grayed.marks]
    exact (shows_start h₀).painted (by decide) grayed.inside _ _
  gray a member := by
    rw [grayed.marks]
    simp [Canvas.painted, member]
  inside := grayed.inside
  closed := grayed.closed

theorem held_iff (ready : Ready values h₀) (grayed : Grayed values h₀ h) (m : A) :
    h.marks.tally m ≠ 0 ↔ HeldOutside values h₀ m := by
  have bound := edges_le ready (candidates values h₀) m
  have gone := taken_off (h₀.marks.tally m)
    (by omega : edges (kids values h₀) (candidates values h₀) m ≤ _)
  rw [grayed.marks, HeldOutside]
  simp only [Canvas.painted, ne_eq, gone]
  omega

end Grayed

/-- The marks when all roots have been scanned: `L` is what is live, and has become black. -/
structure Split (values : Values A) (h₀ : Heap A) (g : Marks A) (L W : Finset A) (s : Marks A) :
    Prop where
  marks : s = (g.painted .white 1 W fun _ => 0).painted .black 1 L (edges (kids values h₀) L)
  live : ∀ a, a ∈ L ↔ Live values h₀ a
  inside : L ⊆ candidates values h₀
  closed : ∀ b ∈ L, ∀ c ∈ kids values h₀ b, c ∈ L
  white : W ⊆ candidates values h₀
  covers : candidates values h₀ ⊆ L ∪ W

theorem scan_roots {G : Finset A} {g : Marks A} (graph : GrayGraph values h₀ G g)
    {roots : List A} (inG : ∀ r ∈ roots, r ∈ G) {s : Marks A} {B W : Finset A}
    (scanned : Scanned values h₀ G g B W s) : ∃ s' B' W',
      roots.foldlM (fun s v => scan values (depth A) v s) s = .ok s' ∧
        ScannedMore values h₀ G g B W roots B' W' s' := by
  induction roots generalizing s B W with
  | nil => exact ⟨s, B, W, rfl, ScannedMore.nothing scanned⟩
  | cons v rest ih =>
      have enough : (G \ (B ∪ W)).card < depth A := Nat.lt_succ_of_le (Finset.card_le_univ _)
      obtain ⟨s1, B1, W1, ran, more⟩ := scan_spec graph v s B W scanned (inG v List.mem_cons_self)
        enough
      obtain ⟨s2, B2, W2, ranRest, moreRest⟩ := ih
        (fun r member => inG r (List.mem_cons_of_mem v member)) more.scanned
      refine ⟨s2, B2, W2, ?_, more.trans moreRest⟩
      rw [List.foldlM_cons, Failing.bind_of_ok ran]
      exact ranRest

theorem scanRoots_split (ready : Ready values h₀) (grayed : Grayed values h₀ h) :
    ∃ s L W, scanRoots values h = .ok { h with marks := s } ∧ Split values h₀ h.marks L W s := by
  have graph := grayed.graph
  have start : Scanned values h₀ (candidates values h₀) h.marks ∅ ∅ h.marks := by
    refine ⟨?_, by simp, by simp, by simp, by simp, by simp⟩
    have none : edges (kids values h₀) ∅ = fun _ => 0 := funext (edges_empty _)
    rw [none, painted_nothing, painted_nothing]
  obtain ⟨s, L, W, ran, more⟩ := scan_roots graph grayed.roots start
  have scanned := more.scanned
  have closed : ∀ u ∈ L ∪ W, ∀ c ∈ kids values h₀ u, c ∈ L ∪ W := by
    intro u member c edge
    rw [Finset.mem_union] at member ⊢
    rcases member with black | white
    · exact Or.inl (scanned.closed u black c edge)
    · exact more.followed u white (Finset.notMem_empty u) c edge
  have covers : candidates values h₀ ⊆ L ∪ W := by
    intro a member
    obtain ⟨r, root, path⟩ := grayed.reached a member
    exact closed_reach _ closed (Finset.mem_union.mpr (more.started r root)) path
  refine ⟨s, L, W, by rw [scanRoots, Heap.onMarks, Failing.bind_of_ok ran]; rfl, scanned.marks,
    fun a => ⟨fun member => ?_, ?_⟩, scanned.black, scanned.closed, scanned.white, covers⟩
  · obtain ⟨m, inside, count, path⟩ := scanned.held a member
    exact ⟨m, mem_candidates.mp inside, (grayed.held_iff ready m).mp count, path⟩
  · rintro ⟨m, candidate, held, path⟩
    have inside := mem_candidates.mpr candidate
    have black : m ∈ L := by
      refine (Finset.mem_union.mp (covers inside)).resolve_right fun white => ?_
      exact (grayed.held_iff ready m).mpr held (scanned.zero m white)
    exact closed_reach _ scanned.closed black path

end Scanned

section Restored

variable {g s s' : Marks A} {L W P : Finset A}

theorem Split.color (split : Split values h₀ g L W s) {a : A} (member : a ∈ candidates values h₀) :
    s.color a = if a ∈ L then .black else .white := by
  rw [split.marks]
  have covered := split.covers member
  rw [Finset.mem_union] at covered
  simp only [Canvas.painted]
  split
  · rfl
  · rename_i notBlack
    rw [if_pos (covered.resolve_left notBlack)]

theorem Split.outside (split : Split values h₀ g L W s) {a : A}
    (outside : a ∉ candidates values h₀) : s.color a = g.color a := by
  rw [split.marks]
  simp [Canvas.painted, mt (@split.inside a) outside, mt (@split.white a) outside]

def Below (values : Values A) (h₀ : Heap A) (a : A) : Prop :=
  ∃ g, Garbage values h₀ g ∧ Reach (kids values h₀) g a

structure Pinked (values : Values A) (h₀ : Heap A) (s : Marks A) (P : Finset A) (s' : Marks A) :
    Prop where
  marks : s' = s.painted .pink 1 P (edges (kids values h₀) P)
  inside : ∀ u ∈ P, shown h₀ u = true
  closed : ∀ u ∈ P, ∀ c ∈ kids values h₀ u, c ∈ P
  below : ∀ u ∈ P, Below values h₀ u

theorem restore_roots (ready : Ready values h₀) (grayed : Grayed values h₀ h)
    (split : Split values h₀ h.marks L W s) {roots : List A}
    (inside : ∀ r ∈ roots, r ∈ candidates values h₀) (pinked : Pinked values h₀ s P s') :
    ∃ s'' Q, roots.foldlM (fun s v => if s.color v = .white then scanWhite values v s else .ok s) s'
        = .ok s'' ∧ Pinked values h₀ s Q s'' ∧ P ⊆ Q ∧
      ∀ r ∈ roots, Garbage values h₀ r → r ∈ Q := by
  induction roots generalizing s' P with
  | nil => exact ⟨s', P, rfl, pinked, Finset.Subset.refl P, by simp⟩
  | cons v rest ih =>
      rw [List.foldlM_cons]
      have member := inside v List.mem_cons_self
      have color : s'.color v = if v ∈ P then .pink else if v ∈ L then .black else .white := by
        rw [pinked.marks, ← split.color member]
        rfl
      have goOn {t : Marks A} {N : Finset A} (later : Pinked values h₀ s N t) (grown : P ⊆ N)
          (done : Garbage values h₀ v → v ∈ N) : ∃ s'' Q,
          rest.foldlM (fun s v => if s.color v = .white then scanWhite values v s else .ok s) t
            = .ok s'' ∧ Pinked values h₀ s Q s'' ∧ P ⊆ Q ∧
          ∀ r ∈ v :: rest, Garbage values h₀ r → r ∈ Q := by
        obtain ⟨s'', Q, ran, final, more, garbage⟩ := ih
          (fun r inRest => inside r (List.mem_cons_of_mem v inRest)) later
        refine ⟨s'', Q, ran, final, grown.trans more, fun r inRoots isGarbage => ?_⟩
        rcases List.mem_cons.mp inRoots with rfl | inRest
        · exact more (done isGarbage)
        · exact garbage r inRest isGarbage
      by_cases white : s'.color v = .white
      · rw [if_pos white]
        have notPink : v ∉ P := fun pink => by
          rw [if_pos pink, white] at color
          cases color
        have notLive : v ∉ L := fun live => by
          rw [if_neg notPink, if_pos live, white] at color
          cases color
        have garbage : Garbage values h₀ v :=
          ⟨mem_candidates.mp member, fun live => notLive ((split.live v).mpr live)⟩
        have shows : Shows (shown h₀) .green s' := by
          have graph := grayed.graph
          rw [pinked.marks, split.marks]
          exact ((graph.shows.painted (by decide)
            (fun u inW => graph.inside u (split.white inW)) _ _).painted (by decide)
            (fun u inL => graph.inside u (split.inside inL)) _ _).painted (by decide)
            pinked.inside _ _
        have isPink (a : A) : s'.color a = .pink ↔ a ∈ P := by
          rw [pinked.marks]
          simp only [Canvas.painted]
          split
          · simp [*]
          · refine iff_of_false (fun pink => ?_) (by assumption)
            by_cases candidate : a ∈ candidates values h₀
            · rw [split.color candidate] at pink
              split at pink <;> cases pink
            · rw [split.outside candidate, grayed.marks] at pink
              simp only [Canvas.painted, if_neg candidate] at pink
              exact (ready.colors a).2.2 pink
        have fresh : s'.color v ≠ .pink := mt (isPink v).mp notPink
        obtain ⟨N, ran, shownN, covers⟩ := paint_spec values.contents 1 Crash.unbounded
          (by decide) v s' shows (grayed.inside v member) fresh (card_unpainted _ _)
        have disjoint : Disjoint P N := by
          rw [Finset.disjoint_right]
          exact fun u new => mt (isPink u).mpr (covers.fresh u new)
        rw [scanWhite, Failing.bind_of_ok ran]
        refine goOn ⟨?_, ?_, ?_, ?_⟩ (Finset.subset_union_left : P ⊆ P ∪ N) fun _ =>
          Finset.mem_union_right _
            ((covers.started v (List.mem_singleton_self v)).resolve_right fresh)
        · rw [pinked.marks, painted_painted]
          exact congrArg (s.painted .pink 1 (P ∪ N))
            (funext fun a => (edges_union _ disjoint a).symm)
        · intro u inUnion
          rcases Finset.mem_union.mp inUnion with old | new
          · exact pinked.inside u old
          · exact shownN u new
        · intro u inUnion c edge
          rcases Finset.mem_union.mp inUnion with old | new
          · exact Finset.mem_union_left _ (pinked.closed u old c edge)
          · rcases covers.closed u new c edge with here | pink
            · exact Finset.mem_union_right _ here
            · exact Finset.mem_union_left _ ((isPink c).mp pink)
        · intro u inUnion
          rcases Finset.mem_union.mp inUnion with old | new
          · exact pinked.below u old
          · obtain ⟨r, start, path⟩ := covers.reached u new
            rw [List.mem_singleton.mp start] at path
            exact ⟨v, garbage, path⟩
      · rw [if_neg white]
        refine goOn pinked (Finset.Subset.refl P) fun garbage => ?_
        by_contra notPink
        rw [if_neg notPink, if_neg fun live => garbage.2 ((split.live v).mp live)] at color
        exact white color

/-- The heap before the roots are collected: all that is below garbage is pink, and the references
of the live part of it count twice. -/
structure Restored (values : Values A) (h₀ h : Heap A) (P : Finset A) : Prop where
  pink : ∀ a ∈ P, h.marks.color a = .pink
  idle : ∀ a, a ∉ P → (h.marks.color a).idle
  shows : Shows (shown h₀) .green h.marks
  below : ∀ a, a ∈ P ↔ Below values h₀ a
  reached : ∀ a ∈ P, ∃ r ∈ h.roots, r ∈ P ∧ Reach (kids values h₀) r a
  closed : ∀ u ∈ P, ∀ c ∈ kids values h₀ u, c ∈ P
  tally : ∀ a, ∃ L : Finset A, (∀ u, u ∈ L ↔ Live values h₀ u) ∧
    h.marks.tally a = h₀.marks.tally a + edges (kids values h₀) (P ∩ L) a • 1
  nodup : h.roots.Nodup
  buffered : ∀ a, h.buffered a = true ↔ a ∈ h.roots
  queue : h.queue = h₀.queue

theorem garbage_root (grayed : Grayed values h₀ h) {a : A} (garbage : Garbage values h₀ a) :
    ∃ r ∈ h.roots, Garbage values h₀ r ∧ Reach (kids values h₀) r a := by
  obtain ⟨r, root, path⟩ := grayed.reached a (mem_candidates.mpr garbage.1)
  refine ⟨r, root, ⟨mem_candidates.mp (grayed.roots r root), ?_⟩, path⟩
  rintro ⟨m, candidate, held, above⟩
  exact garbage.2 ⟨m, candidate, held, above.trans path⟩

theorem restoreWhite_restored (ready : Ready values h₀) (grayed : Grayed values h₀ h)
    (split : Split values h₀ h.marks L W s) : ∃ t P,
    restoreWhite values { h with marks := s } = .ok { h with marks := t } ∧
      Restored values h₀ { h with marks := t } P := by
  have start : Pinked values h₀ s ∅ s := by
    refine ⟨?_, by simp, by simp, by simp⟩
    have none : edges (kids values h₀) ∅ = fun _ => 0 := funext (edges_empty _)
    rw [none, painted_nothing]
  obtain ⟨t, P, ran, pinked, -, roots⟩ := restore_roots ready grayed split grayed.roots start
  have reached : ∀ a, Below values h₀ a → ∃ r ∈ h.roots, r ∈ P ∧ Reach (kids values h₀) r a := by
    rintro a ⟨v, garbage, path⟩
    obtain ⟨r, root, isGarbage, above⟩ := garbage_root grayed garbage
    exact ⟨r, root, roots r root isGarbage, above.trans path⟩
  have below (a : A) : a ∈ P ↔ Below values h₀ a := by
    refine ⟨pinked.below a, fun isBelow => ?_⟩
    obtain ⟨r, -, inside, path⟩ := reached a isBelow
    exact closed_reach _ pinked.closed inside path
  have inside : P ⊆ candidates values h₀ := by
    intro a member
    obtain ⟨v, garbage, path⟩ := (below a).mp member
    exact closed_reach _ grayed.closed (mem_candidates.mpr garbage.1) path
  have garbage_pink {a : A} (candidate : a ∈ candidates values h₀) (notLive : a ∉ L) : a ∈ P :=
    (below a).mpr ⟨a, ⟨mem_candidates.mp candidate, mt (split.live a).mpr notLive⟩,
      Relation.ReflTransGen.refl⟩
  refine ⟨t, P, ?_, ?_, ?_, ?_, below, fun a member => reached a ((below a).mp member),
    pinked.closed, fun a => ⟨L, split.live, ?_⟩, grayed.nodup, grayed.buffered, grayed.queue⟩
  · rw [restoreWhite, Heap.onMarks, Failing.bind_of_ok ran]
    rfl
  · intro a member
    rw [pinked.marks]
    simp [Canvas.painted, member]
  · intro a notPink
    rw [pinked.marks]
    simp only [Canvas.painted, if_neg notPink]
    by_cases candidate : a ∈ candidates values h₀
    · have live : a ∈ L := by
        by_contra notLive
        exact notPink (garbage_pink candidate notLive)
      rw [split.color candidate, if_pos live]
      simp [Color.idle]
    · rw [split.outside candidate, grayed.marks]
      simp only [Canvas.painted, if_neg candidate]
      exact ready.colors a
  · have graph := grayed.graph
    rw [pinked.marks, split.marks]
    exact ((graph.shows.painted (by decide)
      (fun u inW => graph.inside u (split.white inW)) _ _).painted (by decide)
      (fun u inL => graph.inside u (split.inside inL)) _ _).painted (by decide) pinked.inside _ _
  · have parts : candidates values h₀ = L ∪ (P \ L) := by
      ext b
      simp only [Finset.mem_union, Finset.mem_sdiff]
      constructor
      · intro candidate
        by_cases live : b ∈ L
        · exact Or.inl live
        · exact Or.inr ⟨garbage_pink candidate live, live⟩
      · rintro (live | ⟨pink, -⟩)
        · exact split.inside live
        · exact inside pink
    have ofG : edges (kids values h₀) (candidates values h₀) a =
        edges (kids values h₀) L a + edges (kids values h₀) (P \ L) a := by
      rw [parts]
      exact edges_union _ Finset.disjoint_sdiff a
    have ofP : edges (kids values h₀) P a =
        edges (kids values h₀) (P \ L) a + edges (kids values h₀) (P ∩ L) a := by
      rw [← edges_union _ (Finset.disjoint_sdiff_inter P L), Finset.sdiff_union_inter]
    rw [pinked.marks, split.marks, grayed.marks]
    simp only [Canvas.painted, ofG, ofP, nsmul_eq_mul, Nat.cast_add, Nat.cast_zero]
    ring

end Restored

end ToastStunt.Gc
