import Mathlib.Data.Finset.Card
import Mathlib.Data.Finset.Filter
import ToastStunt.Library.FirstVisit

/-!
What the traversals visit in a graph that may have cycles.
-/

namespace FirstVisit

variable {α : Type} [DecidableEq α]

section Bounded

variable {next : α → List α} {nodes : Finset α}

def unseen (nodes : Finset α) (seen : List α) : Finset α := nodes.filter (· ∉ seen)

theorem unseen_subset {seen later : List α} (grown : seen ⊆ later) :
    unseen nodes later ⊆ unseen nodes seen := by
  intro item member
  simp only [unseen, Finset.mem_filter] at member ⊢
  exact ⟨member.1, fun old => member.2 (grown old)⟩

theorem unseen_enter {seen : List α} {item : α} (inside : item ∈ nodes) (new : item ∉ seen) :
    (unseen nodes (seen ++ [item])).card < (unseen nodes seen).card := by
  refine Finset.card_lt_card ⟨unseen_subset (List.subset_append_left _ _), fun back => ?_⟩
  have here := back (Finset.mem_filter.mpr ⟨inside, new⟩)
  exact (Finset.mem_filter.mp here).2 (by simp)

theorem subset_visit (fuel : Nat) (todo seen : List α) : seen ⊆ visit next fuel todo seen := by
  induction fuel generalizing todo seen with
  | zero => exact List.Subset.refl _
  | succ fuel ih =>
      simp only [visit]
      induction todo generalizing seen with
      | nil => exact List.Subset.refl _
      | cons item rest ihTodo =>
          refine List.Subset.trans ?_ (ihTodo _)
          beta_reduce
          split
          · exact List.Subset.refl _
          · exact List.Subset.trans (List.subset_append_left _ _) (ih _ _)

/-- With enough fuel everything in `todo` is visited, and with a node its successors. -/
theorem visit_complete (closed : ∀ item ∈ nodes, ∀ successor ∈ next item, successor ∈ nodes)
    {fuel : Nat} {todo seen : List α} (enough : (unseen nodes seen).card < fuel)
    (inside : ∀ item ∈ todo, item ∈ nodes) :
    todo ⊆ visit next fuel todo seen ∧
      ∀ item ∈ visit next fuel todo seen, item ∉ seen → next item ⊆ visit next fuel todo seen := by
  induction fuel generalizing todo seen with
  | zero => exact absurd enough (Nat.not_lt_zero _)
  | succ fuel ih =>
      simp only [visit]
      induction todo generalizing seen with
      | nil => exact ⟨List.nil_subset _, fun item member new => absurd member new⟩
      | cons first rest ihTodo =>
          have firstInside := inside first (by simp)
          rw [List.foldl_cons]
          generalize entered : (if first ∈ seen then seen
            else visit next fuel (next first) (seen ++ [first])) = seen'
          have grown : seen ⊆ seen' := by
            rw [← entered]
            split
            · exact List.Subset.refl _
            · exact List.Subset.trans (List.subset_append_left _ _) (subset_visit _ _ _)
          have fuelLeft : (unseen nodes seen').card < fuel + 1 :=
            Nat.lt_of_le_of_lt (Finset.card_le_card (unseen_subset grown)) enough
          obtain ⟨visited, successors⟩ :=
            ihTodo fuelLeft fun item member => inside item (by simp [member])
          have kept : seen' ⊆ visit next (fuel + 1) rest seen' := subset_visit _ _ _
          have here : first ∈ seen' ∧ ∀ item ∈ seen', item ∉ seen → next item ⊆ seen' := by
            by_cases known : first ∈ seen
            · rw [if_pos known] at entered
              exact ⟨entered ▸ known, fun item member new => absurd (entered ▸ member) new⟩
            · rw [if_neg known] at entered
              have lower := unseen_enter firstInside known
              have entering := ih (Nat.lt_of_lt_of_le lower (Nat.le_of_lt_succ enough))
                (closed first firstInside)
              rw [entered] at entering
              obtain ⟨below, closedBelow⟩ := entering
              have firstSeen : first ∈ seen' := by
                rw [← entered]
                exact subset_visit _ _ _ (by simp)
              refine ⟨firstSeen, fun item member new => ?_⟩
              by_cases isFirst : item = first
              · exact isFirst ▸ below
              · exact closedBelow item member (by simp [new, isFirst])
          refine ⟨List.cons_subset.mpr ⟨kept here.1, visited⟩, fun item member new => ?_⟩
          by_cases early : item ∈ seen'
          · exact List.Subset.trans (here.2 item early new) kept
          · exact successors item member early

theorem visit_reaches (closed : ∀ item ∈ nodes, ∀ successor ∈ next item, successor ∈ nodes)
    {fuel : Nat} {todo : List α} (enough : nodes.card < fuel)
    (inside : ∀ item ∈ todo, item ∈ nodes) {other : α} :
    other ∈ visit next fuel todo [] ↔ ∃ item ∈ todo, Reach next item other := by
  constructor
  · let Inside : α → Prop := fun other => ∃ item ∈ todo, Reach next item other
    have further : ∀ item, Inside item → ∀ successor ∈ next item, Inside successor := by
      rintro item ⟨start, member, path⟩ successor edge
      exact ⟨start, member, path.tail edge⟩
    exact visit_within further (fun item member => ⟨item, member, Relation.ReflTransGen.refl⟩)
      (by simp) other
  · rintro ⟨item, member, path⟩
    have bound : (unseen nodes []).card < fuel :=
      Nat.lt_of_le_of_lt (Finset.card_le_card (Finset.filter_subset _ _)) enough
    obtain ⟨visited, successors⟩ := visit_complete closed bound inside
    induction path with
    | refl => exact visited member
    | tail _ edge ih => exact successors _ ih (by simp) edge

end Bounded

end FirstVisit
