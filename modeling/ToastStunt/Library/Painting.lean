import Mathlib.Algebra.BigOperators.Group.Finset.Basic
import Mathlib.Algebra.BigOperators.Group.Finset.Piecewise
import Mathlib.Algebra.Order.BigOperators.Group.Finset
import Mathlib.Data.Fintype.Card
import ToastStunt.Library.Failing
import ToastStunt.Library.FirstVisit

/-!
Painting a graph depth first, with a tally that changes at the end of every edge
that is followed. What is painted, and what has become of the tallies, depends on
the graph and on what was painted before, not on the order of the visits.
-/

namespace Painting

open FirstVisit

variable {α κ ρ ε : Type}

structure Canvas (α κ ρ : Type) where
  color : α → κ
  tally : α → ρ

section Operations

variable [DecidableEq α] [DecidableEq κ] [AddCommGroup ρ]

namespace Canvas

def set (s : Canvas α κ ρ) (v : α) (ink : κ) : Canvas α κ ρ :=
  { s with color := fun a => if a = v then ink else s.color a }

def add (s : Canvas α κ ρ) (v : α) (d : ρ) : Canvas α κ ρ :=
  { s with tally := fun a => if a = v then s.tally a + d else s.tally a }

end Canvas

/-- Runs `f` on the items that are not `hidden` when their turn comes. -/
def forVisible {σ : Type} (color : σ → α → κ) (hidden : κ) (f : α → σ → Except ε σ)
    (items : List α) (s : σ) : Except ε σ :=
  items.foldlM (fun s item => if color s item = hidden then .ok s else f item s) s

/-- Paints `v` and what is below it. Every edge that is followed adds `d` at its end, where the
painting goes on unless it has been there. -/
def paint (next : α → List α) (hidden ink : κ) (d : ρ) (exhausted : ε) :
    Nat → α → Canvas α κ ρ → Except ε (Canvas α κ ρ)
  | 0, _, _ => .error exhausted
  | fuel + 1, v, s =>
      forVisible Canvas.color hidden (fun c s =>
        if (s.add c d).color c ≠ ink then paint next hidden ink d exhausted fuel c (s.add c d)
        else .ok (s.add c d)) (next v) (s.set v ink)

end Operations

section Edges

variable [DecidableEq α] (kids : α → List α)

def edges (M : Finset α) (a : α) : Nat := ∑ u ∈ M, (kids u).count a

@[simp] theorem edges_empty (a : α) : edges kids ∅ a = 0 := Finset.sum_empty

theorem edges_insert {M : Finset α} {v : α} (outside : v ∉ M) (a : α) :
    edges kids (insert v M) a = (kids v).count a + edges kids M a :=
  Finset.sum_insert outside

theorem edges_union {M N : Finset α} (disjoint : Disjoint M N) (a : α) :
    edges kids (M ∪ N) a = edges kids M a + edges kids N a :=
  Finset.sum_union disjoint

theorem edges_mono {M N : Finset α} (subset : M ⊆ N) (a : α) :
    edges kids M a ≤ edges kids N a :=
  Finset.sum_le_sum_of_subset subset

theorem edges_eq_zero {M : Finset α} {a : α} : edges kids M a = 0 ↔ ∀ u ∈ M, a ∉ kids u := by
  simp [edges, Finset.sum_eq_zero_iff, List.count_eq_zero]

theorem edges_outside {M : Finset α} (closed : ∀ u ∈ M, ∀ c ∈ kids u, c ∈ M) {a : α}
    (outside : a ∉ M) : edges kids M a = 0 :=
  (edges_eq_zero kids).mpr fun u member edge => outside (closed u member a edge)

omit [DecidableEq α] in
theorem closed_reach {M : Finset α} (closed : ∀ u ∈ M, ∀ c ∈ kids u, c ∈ M) {v u : α}
    (member : v ∈ M) (path : Reach kids v u) : u ∈ M := by
  induction path with
  | refl => exact member
  | tail _ edge ih => exact closed _ ih _ edge

end Edges

section Painted

variable [DecidableEq α] [AddCommGroup ρ] {kids : α → List α} {ink hidden : κ} {d : ρ}

def Canvas.painted (s : Canvas α κ ρ) (ink : κ) (d : ρ) (M : Finset α) (count : α → Nat) :
    Canvas α κ ρ where
  color a := if a ∈ M then ink else s.color a
  tally a := s.tally a + count a • d

theorem painted_painted (s : Canvas α κ ρ) (M N : Finset α) (count more : α → Nat) :
    (s.painted ink d M count).painted ink d N more =
      s.painted ink d (M ∪ N) fun a => count a + more a := by
  simp only [Canvas.painted, Canvas.mk.injEq]
  constructor
  · funext a
    by_cases first : a ∈ M <;> by_cases second : a ∈ N <;> simp [first, second]
  · funext a
    rw [add_nsmul, add_assoc]

theorem painted_nothing (s : Canvas α κ ρ) (ink : κ) (d : ρ) :
    s.painted ink d ∅ (fun _ => 0) = s := by
  simp [Canvas.painted]

theorem set_eq (s : Canvas α κ ρ) (v : α) (ink : κ) (d : ρ) :
    s.set v ink = s.painted ink d {v} fun _ => 0 := by
  simp [Canvas.set, Canvas.painted]

theorem add_eq (s : Canvas α κ ρ) (v : α) (ink : κ) (d : ρ) :
    s.add v d = s.painted ink d ∅ fun a => if a = v then 1 else 0 := by
  simp only [Canvas.add, Canvas.painted, Finset.notMem_empty, if_false, Canvas.mk.injEq, true_and]
  funext a
  split
  · rw [one_nsmul]
  · rw [zero_nsmul, add_zero]

def Shows (shown : α → Bool) (hidden : κ) (s : Canvas α κ ρ) : Prop :=
  ∀ a, s.color a = hidden ↔ shown a = false

theorem Shows.painted {shown : α → Bool} {s : Canvas α κ ρ} (shows : Shows shown hidden s)
    (visible : ink ≠ hidden) {M : Finset α} (inside : ∀ u ∈ M, shown u = true) (d : ρ)
    (count : α → Nat) : Shows shown hidden (s.painted ink d M count) := by
  intro a
  simp only [Canvas.painted]
  split
  · rename_i member
    simp [visible, inside a member]
  · exact shows a

/-- `M` is what painting from `starts` adds: it is reached from them, and there is no way on from
it to what has not been painted. -/
structure Covers (kids : α → List α) (ink : κ) (s : Canvas α κ ρ) (starts : List α)
    (M : Finset α) : Prop where
  fresh : ∀ u ∈ M, s.color u ≠ ink
  reached : ∀ u ∈ M, ∃ v ∈ starts, Reach kids v u
  started : ∀ v ∈ starts, v ∈ M ∨ s.color v = ink
  closed : ∀ u ∈ M, ∀ c ∈ kids u, c ∈ M ∨ s.color c = ink

namespace Covers

variable {s : Canvas α κ ρ} {starts more : List α} {M N : Finset α} {count : α → Nat}

omit [DecidableEq α] [AddCommGroup ρ] in
theorem nothing (done : ∀ v ∈ starts, s.color v = ink) : Covers kids ink s starts ∅ :=
  ⟨by simp, by simp, fun v start => Or.inr (done v start), by simp⟩

theorem painted_iff {v : α} :
    (s.painted ink d M count).color v = ink ↔ v ∈ M ∨ s.color v = ink := by
  simp only [Canvas.painted]
  split <;> simp_all

theorem disjoint (later : Covers kids ink (s.painted ink d M count) more N) : Disjoint M N := by
  rw [Finset.disjoint_right]
  intro u member painted
  exact later.fresh u member (painted_iff.mpr (Or.inl painted))

theorem trans (first : Covers kids ink s starts M)
    (later : Covers kids ink (s.painted ink d M count) more N) :
    Covers kids ink s (starts ++ more) (M ∪ N) where
  fresh u member := by
    rcases Finset.mem_union.mp member with inside | inside
    · exact first.fresh u inside
    · exact fun same => later.fresh u inside (painted_iff.mpr (Or.inr same))
  reached u member := by
    rcases Finset.mem_union.mp member with inside | inside
    · obtain ⟨v, start, path⟩ := first.reached u inside
      exact ⟨v, List.mem_append_left _ start, path⟩
    · obtain ⟨v, start, path⟩ := later.reached u inside
      exact ⟨v, List.mem_append_right _ start, path⟩
  started v start := by
    rw [Finset.mem_union, or_assoc]
    rcases List.mem_append.mp start with early | late
    · rcases first.started v early with inside | painted
      · exact Or.inl inside
      · exact Or.inr (Or.inr painted)
    · have done := later.started v late
      rw [painted_iff] at done
      tauto
  closed u member c edge := by
    rw [Finset.mem_union, or_assoc]
    rcases Finset.mem_union.mp member with inside | inside
    · have done := first.closed u inside c edge
      tauto
    · have done := later.closed u inside c edge
      rw [painted_iff] at done
      tauto

theorem enter {v : α} (fresh : s.color v ≠ ink)
    (below : Covers kids ink (s.painted ink d {v} count) (kids v) M) :
    Covers kids ink s [v] (insert v M) where
  fresh u member := by
    rcases Finset.mem_insert.mp member with rfl | inside
    · exact fresh
    · exact fun same => below.fresh u inside (painted_iff.mpr (Or.inr same))
  reached u member := by
    refine ⟨v, List.mem_singleton_self v, ?_⟩
    rcases Finset.mem_insert.mp member with rfl | inside
    · exact Relation.ReflTransGen.refl
    · obtain ⟨c, edge, path⟩ := below.reached u inside
      exact Relation.ReflTransGen.head edge path
  started u start := by
    rw [List.mem_singleton.mp start]
    exact Or.inl (Finset.mem_insert_self v M)
  closed u member c edge := by
    have done : c ∈ M ∨ c ∈ ({v} : Finset α) ∨ s.color c = ink := by
      rcases Finset.mem_insert.mp member with rfl | inside
      · have done := below.started c edge
        rwa [painted_iff] at done
      · have done := below.closed u inside c edge
        rwa [painted_iff] at done
    rw [Finset.mem_insert]
    rw [Finset.mem_singleton] at done
    tauto

end Covers

end Painted

section Paint

variable [DecidableEq α] [DecidableEq κ] [AddCommGroup ρ] [Fintype α] (next : α → List α)
  {shown : α → Bool} {hidden ink : κ} (d : ρ) (exhausted : ε)

def unpainted (ink : κ) (s : Canvas α κ ρ) : Finset α := Finset.univ.filter fun a => s.color a ≠ ink

theorem unpainted_painted {d : ρ} (s : Canvas α κ ρ) (M : Finset α) (count : α → Nat) :
    unpainted ink (s.painted ink d M count) ⊆ unpainted ink s := by
  intro a
  simp only [unpainted, Finset.mem_filter, Finset.mem_univ, true_and]
  exact fun other same => other (Covers.painted_iff.mpr (Or.inr same))

theorem unpainted_enter {d : ρ} {s : Canvas α κ ρ} {v : α} (fresh : s.color v ≠ ink) (count : α → Nat) :
    (unpainted ink (s.painted ink d {v} count)).card < (unpainted ink s).card := by
  refine Finset.card_lt_card ⟨unpainted_painted s _ _, fun subset => ?_⟩
  have member := subset (Finset.mem_filter.mpr ⟨Finset.mem_univ v, fresh⟩)
  simp [unpainted, Canvas.painted] at member

def visible (next : α → List α) (shown : α → Bool) (v : α) : List α := (next v).filter shown

theorem paint_children {fuel : Nat} (isVisible : ink ≠ hidden)
    (each : ∀ v s, Shows shown hidden s → shown v = true → s.color v ≠ ink →
      (unpainted ink s).card ≤ fuel → ∃ M,
        paint next hidden ink d exhausted fuel v s =
          .ok (s.painted ink d M (edges (visible next shown) M)) ∧
        (∀ u ∈ M, shown u = true) ∧ Covers (visible next shown) ink s [v] M)
    (items : List α) (s : Canvas α κ ρ) (shows : Shows shown hidden s)
    (enough : (unpainted ink s).card ≤ fuel) : ∃ M,
      forVisible Canvas.color hidden (fun c s =>
        if (s.add c d).color c ≠ ink then paint next hidden ink d exhausted fuel c (s.add c d)
        else .ok (s.add c d)) items s =
        .ok (s.painted ink d M fun a =>
          (items.filter shown).count a + edges (visible next shown) M a) ∧
      (∀ u ∈ M, shown u = true) ∧ Covers (visible next shown) ink s (items.filter shown) M := by
  induction items generalizing s with
  | nil =>
      refine ⟨∅, ?_, by simp, Covers.nothing (by simp)⟩
      simp [forVisible, painted_nothing, pure, Except.pure]
  | cons c rest ih =>
      rw [forVisible, List.foldlM_cons]
      cases isShown : shown c with
      | false =>
          rw [if_pos ((shows c).mpr isShown), List.filter_cons_of_neg (by simp [isShown])]
          exact ih s shows enough
      | true =>
          have present : s.color c ≠ hidden := fun same => by
            rw [(shows c).mp same] at isShown
            cases isShown
          rw [if_neg present, List.filter_cons_of_pos isShown, add_eq s c ink d]
          generalize isOne : (fun a => if a = c then 1 else 0 : α → Nat) = one
          have addShows := shows.painted (M := ∅) isVisible (by simp) d one
          obtain ⟨M, ran, inside, covers⟩ : ∃ M,
              (if (s.painted ink d ∅ one).color c ≠ ink then
                paint next hidden ink d exhausted fuel c (s.painted ink d ∅ one)
              else .ok (s.painted ink d ∅ one)) =
                .ok (s.painted ink d M fun a => one a + edges (visible next shown) M a) ∧
              (∀ u ∈ M, shown u = true) ∧ Covers (visible next shown) ink s [c] M := by
            by_cases painted : s.color c = ink
            · refine ⟨∅, ?_, by simp, Covers.nothing (by simpa using painted)⟩
              rw [if_neg (by simpa [Canvas.painted] using painted)]
              simp
            · have stays : (s.painted ink d ∅ one).color c ≠ ink := by
                simpa [Canvas.painted] using painted
              obtain ⟨M, ran, inside, covers⟩ := each c _ addShows isShown stays
                (Nat.le_trans (Finset.card_le_card (unpainted_painted s ∅ one)) enough)
              refine ⟨M, ?_, inside, ?_⟩
              · rw [if_pos stays, ran, painted_painted, Finset.empty_union]
              · simpa [Canvas.painted] using
                  (Covers.nothing (by simp) : Covers (visible next shown) ink s [] ∅).trans covers
          rw [Failing.bind_of_ok ran]
          obtain ⟨N, ranN, insideN, coversN⟩ := ih _ (shows.painted isVisible inside d _)
            (Nat.le_trans (Finset.card_le_card (unpainted_painted s M _)) enough)
          refine ⟨M ∪ N, ?_, ?_, covers.trans coversN⟩
          · refine ranN.trans ?_
            rw [painted_painted]
            congr 2
            funext a
            rw [edges_union _ coversN.disjoint, List.count_cons, ← isOne]
            by_cases same : c = a
            · subst same
              simp only [if_true, beq_self_eq_true]
              omega
            · simp only [beq_iff_eq, same, Ne.symm same, if_false]
              omega
          · intro u member
            rcases Finset.mem_union.mp member with first | second
            · exact inside u first
            · exact insideN u second

/-- Painting from an unpainted item, with fuel for everything that is not painted. -/
theorem paint_spec (isVisible : ink ≠ hidden) {fuel : Nat} (v : α) (s : Canvas α κ ρ)
    (shows : Shows shown hidden s) (isShown : shown v = true) (fresh : s.color v ≠ ink)
    (enough : (unpainted ink s).card ≤ fuel) : ∃ M,
      paint next hidden ink d exhausted fuel v s =
        .ok (s.painted ink d M (edges (visible next shown) M)) ∧
      (∀ u ∈ M, shown u = true) ∧ Covers (visible next shown) ink s [v] M := by
  induction fuel generalizing v s with
  | zero =>
      have fewer := unpainted_enter (d := d) fresh fun _ => 0
      omega
  | succ fuel ih =>
      have entered := shows.painted (M := {v}) isVisible (by simpa using isShown) d fun _ => 0
      have fewer := unpainted_enter (d := d) fresh fun _ => 0
      obtain ⟨M, ran, inside, covers⟩ := paint_children next d exhausted isVisible ih (next v) _ entered (by omega)
      refine ⟨insert v M, ?_, ?_, covers.enter fresh⟩
      · rw [paint, set_eq s v ink d, ran, painted_painted]
        congr 2
        funext a
        have outside : v ∉ M := fun member =>
          Finset.disjoint_left.mp covers.disjoint (Finset.mem_singleton_self v) member
        rw [edges_insert _ outside]
        exact Nat.zero_add _
      · intro u member
        rcases Finset.mem_insert.mp member with rfl | below
        · exact isShown
        · exact inside u below

end Paint

end Painting
