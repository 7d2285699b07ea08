import Mathlib.Algebra.Order.Ring.Int
import Mathlib.Data.List.Basic

/-!
Parts of a sequence at their positions, and sequences whose places are filled in later.
-/

namespace Placing

variable {α : Type} {whole part more : List α} {pos : Nat} {x : α}

/-- The elements of `whole` from `pos` on begin with `part`. -/
def Placed (whole : List α) (pos : Nat) (part : List α) : Prop :=
  ∃ before after, whole = before ++ (part ++ after) ∧ before.length = pos

theorem placed_after (before part after : List α) :
    Placed (before ++ (part ++ after)) before.length part :=
  ⟨before, after, rfl, rfl⟩

theorem Placed.left (placed : Placed whole pos (part ++ more)) : Placed whole pos part := by
  obtain ⟨before, after, rfl, rfl⟩ := placed
  exact ⟨before, more ++ after, by simp, rfl⟩

theorem Placed.right (placed : Placed whole pos (part ++ more)) :
    Placed whole (pos + part.length) more := by
  obtain ⟨before, after, rfl, rfl⟩ := placed
  exact ⟨before ++ part, after, by simp, by simp⟩

theorem Placed.tail (placed : Placed whole pos (x :: part)) : Placed whole (pos + 1) part :=
  @Placed.right _ _ [x] _ _ placed

theorem Placed.head (placed : Placed whole pos (x :: part)) : whole[pos]? = some x := by
  obtain ⟨before, after, rfl, rfl⟩ := placed
  simp

theorem set_placed (before after : List α) (x y : α) :
    (before ++ x :: after).set before.length y = before ++ y :: after := by
  simp

end Placing
