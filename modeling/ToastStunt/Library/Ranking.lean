import Mathlib.Data.Finset.Card
import Mathlib.Data.Finset.Image
import Mathlib.Data.Finset.Lattice.Fold
import Mathlib.Data.Finset.Dedup
import ToastStunt.Library.FirstVisit

/-!
Graphs without cycles, shown by a rank that falls along every edge: what is left of them when
edges go, when one item gets other successors, and how small the ranks can be.
-/

namespace FirstVisit

variable {α : Type} {next next' : α → List α} {rank : α → Nat}

theorem Ranked.mono (ranked : Ranked next rank) (fewer : ∀ item, next' item ⊆ next item) :
    Ranked next' rank := fun item _ member => ranked item _ (fewer item member)

theorem Reach.mono (fewer : ∀ item, next' item ⊆ next item) {first last : α}
    (path : Reach next' first last) : Reach next first last := by
  induction path with
  | refl => exact .refl
  | tail _ edge ih => exact .tail ih (fewer _ edge)

theorem Ranked.no_return (ranked : Ranked next rank) {item successor : α}
    (member : successor ∈ next item) : ¬Reach next successor item := by
  intro back
  have below := ranked item successor member
  have lower := Reach.rank_le ranked back
  omega

theorem Reach.before {item first : α} (same : ∀ other, other ≠ item → next' other ⊆ next other)
    (path : Reach next' first item) : Reach next first item := by
  induction path using Relation.ReflTransGen.head_induction_on with
  | refl => exact .refl
  | @head other middle edge _ ih =>
      by_cases there : other = item
      · rw [there]
        exact .refl
      · exact .head (same other there edge) ih

/-- An item may get successors from which there is no way back to it. -/
theorem Ranked.redirect (ranked : Ranked next rank) {item : α}
    (same : ∀ other, other ≠ item → next' other ⊆ next other)
    (away : ∀ successor ∈ next' item, ¬Reach next successor item) : ∃ rank', Ranked next' rank' := by
  classical
  obtain ⟨bound, above⟩ : ∃ bound, ∀ successor ∈ next' item, rank successor < bound := by
    refine ⟨(next' item).toFinset.sup rank + 1, fun successor member => Nat.lt_succ_of_le ?_⟩
    exact Finset.le_sup (f := rank) (List.mem_toFinset.mpr member)
  refine ⟨fun other => if Reach next' other item then rank other + bound else rank other, ?_⟩
  intro other successor member
  by_cases here : other = item
  · subst here
    have astray : ¬Reach next' successor other := fun path =>
      away successor member (Reach.before same path)
    have self : Reach next' other other := .refl
    have below := above successor member
    simp only [if_neg astray, if_pos self]
    omega
  · have below := ranked other successor (same other here member)
    by_cases leads : Reach next' successor item
    · have self : Reach next' other item := .head member leads
      simp only [if_pos leads, if_pos self]
      omega
    · simp only [if_neg leads]
      split <;> omega

/-- Over finitely many items no rank need reach their number. -/
theorem Ranked.bounded (ranked : Ranked next rank) {items : Finset α}
    (inside : ∀ item, ∀ successor ∈ next item, successor ∈ items) :
    ∃ rank', Ranked next rank' ∧ ∀ item ∈ items, rank' item < items.card := by
  classical
  refine ⟨fun item => ((items.image rank).filter (· < rank item)).card,
    fun item successor member => ?_, fun item member => ?_⟩
  · refine Finset.card_lt_card (Finset.ssubset_iff_of_subset ?_ |>.mpr ⟨rank successor, ?_, ?_⟩)
    · intro value smaller
      have below := ranked item successor member
      rw [Finset.mem_filter] at smaller ⊢
      exact ⟨smaller.1, by omega⟩
    · rw [Finset.mem_filter]
      exact ⟨Finset.mem_image_of_mem rank (inside item successor member),
        ranked item successor member⟩
    · rw [Finset.mem_filter]
      exact fun own => Nat.lt_irrefl _ own.2
  · refine Nat.lt_of_lt_of_le (Finset.card_lt_card ?_) (Finset.card_image_le (f := rank))
    refine Finset.filter_ssubset.mpr ⟨rank item, Finset.mem_image_of_mem rank member, ?_⟩
    exact Nat.lt_irrefl _

end FirstVisit
