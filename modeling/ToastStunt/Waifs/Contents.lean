import ToastStunt.Library.Ranking
import ToastStunt.Waifs.Loading

/-!
The waifs that the values of a waif contain, as far as `count_waif_propvals` counts them, and
the search of `refers_to` through them.
-/

namespace ToastStunt.Waifs

open Packing FirstVisit

variable {C : Type}

mutual

def leaves : Value C → List (Value C)
  | .list items => leavesOf items
  | .map items => leavesOf items
  | value => [value]

def leavesOf : List (Value C) → List (Value C)
  | [] => []
  | value :: rest => leaves value ++ leavesOf rest

end

theorem mem_leavesOf {leaf : Value C} {items : List (Value C)} :
    leaf ∈ leavesOf items ↔ ∃ value ∈ items, leaf ∈ leaves value := by
  induction items with
  | nil => simp [leavesOf]
  | cons value rest ih => simp [leavesOf, ih]

def Value.reference : Value C → Option Address
  | .waif w => some w
  | _ => none

def waifsIn (items : List (Value C)) : List Address := (leavesOf items).filterMap Value.reference

theorem Value.reference_eq {value : Value C} {w : Address} :
    value.reference = some w ↔ value = .waif w := by
  cases value <;> simp [Value.reference]

theorem mem_waifsIn {items : List (Value C)} {w : Address} :
    w ∈ waifsIn items ↔ .waif w ∈ leavesOf items := by
  simp [waifsIn, Value.reference_eq]

theorem leavesOf_append (items more : List (Value C)) :
    leavesOf (items ++ more) = leavesOf items ++ leavesOf more := by
  induction items with
  | nil => rfl
  | cons value rest ih => rw [List.cons_append, leavesOf, ih, leavesOf, List.append_assoc]

theorem waifsIn_append (items more : List (Value C)) :
    waifsIn (items ++ more) = waifsIn items ++ waifsIn more := by
  rw [waifsIn, leavesOf_append, List.filterMap_append]
  rfl

def heldBy (m : Memory C) (waif : Waif C) : List (Value C) :=
  (waif.propvals.getD []).take (countWaifPropvals m waif)

def containedIn (m : Memory C) (waif : Waif C) : List Address := waifsIn (heldBy m waif)

def contained (m : Memory C) (w : Address) : List Address := (m.waif w).elim [] (containedIn m)

/-- The array of a waif is as long as its bitmap and its definitions say, or longer. -/
structure Stocked (m : Memory C) (waif : Waif C) : Prop where
  clean : Clean waif.map
  used : ∀ p, waif.propdefs = some p → p < m.nextPropdefs
  enough : countWaifPropvals m waif ≤ (waif.propvals.getD []).length

structure Sound (m : Memory C) : Prop where
  cached : ∀ c p, m.waifPropdefs c = some p → p < m.nextPropdefs
  stocked : ∀ w waif, m.waif w = some waif → Stocked m waif
  live : ∀ w, ∀ u ∈ contained m w, (m.waif u).isSome = true

theorem dereference_ok {m : Memory C} {w : Address} {waif : Waif C}
    (found : m.dereference w = .ok waif) : m.waif w = some waif := by
  rw [Memory.dereference] at found
  split at found
  · cases found
  · rename_i known
    cases found
    exact known

theorem contained_eq {m : Memory C} {w : Address} {waif : Waif C} (found : m.waif w = some waif) :
    contained m w = containedIn m waif := by
  rw [contained, found]
  rfl

theorem contained_none {m : Memory C} {w : Address} (gone : m.waif w = none) :
    contained m w = [] := by
  rw [contained, gone]
  rfl

theorem containedIn_unlinked (m : Memory C) {waif : Waif C} (unlinked : waif.propdefs = none) :
    containedIn m waif = [] := by
  rw [containedIn, heldBy, countWaifPropvals, unlinked]
  rfl

theorem waifsIn_subset {items more : List (Value C)}
    (fewer : ∀ value ∈ items, value = .clear ∨ value ∈ more) : waifsIn items ⊆ waifsIn more := by
  intro w member
  rw [mem_waifsIn, mem_leavesOf] at member ⊢
  obtain ⟨value, inside, leaf⟩ := member
  rcases fewer value inside with rfl | kept
  · simp [leaves] at leaf
  · exact ⟨value, kept, leaf⟩

theorem containedIn_subset (m : Memory C) (waif : Waif C) :
    containedIn m waif ⊆ waifsIn (waif.propvals.getD []) :=
  waifsIn_subset fun _ taken => .inr (List.mem_of_mem_take taken)

theorem containedIn_congr {m m' : Memory C} {waif : Waif C}
    (same : ∀ p, waif.propdefs = some p → (m'.propdefs p).length = (m.propdefs p).length) :
    countWaifPropvals m' waif = countWaifPropvals m waif ∧ containedIn m' waif = containedIn m waif := by
  have count : countWaifPropvals m' waif = countWaifPropvals m waif := by
    rw [countWaifPropvals, countWaifPropvals]
    cases known : waif.propdefs with
    | none => rfl
    | some p => simp only [same p known]
  exact ⟨count, by rw [containedIn, containedIn, heldBy, heldBy, count]⟩

theorem setWaif_apply (m : Memory C) (w : Address) (waif : Waif C) (v : Address) :
    (m.setWaif w waif).waif v = if v = w then some waif else m.waif v := Function.update_apply _ _ _ _

theorem contained_setWaif (m : Memory C) (w : Address) (waif : Waif C) (v : Address) :
    contained (m.setWaif w waif) v = if v = w then containedIn m waif else contained m v := by
  rw [contained, setWaif_apply]
  split <;> rfl

/-! The search. -/

section

variable {waifRefers : Address → Except Crash Bool} {key : Address}

mutual

theorem refersTo_missed : ∀ {value : Value C}, refersTo waifRefers key value = .ok false →
    ∀ u, .waif u ∈ leaves value → u ≠ key ∧ waifRefers u = .ok false
  | .list _, missed => itemsReferTo_missed missed
  | .map _, missed => itemsReferTo_missed missed
  | .waif w, missed => by
      intro u member
      rw [refersTo] at missed
      split at missed
      · cases missed
      · rename_i other
        cases List.mem_singleton.mp member
        exact ⟨other, missed⟩
  | .float _, _ => by simp [leaves]
  | .anon _, _ => by simp [leaves]
  | .clear, _ => by simp [leaves]
  | .other _, _ => by simp [leaves]

theorem itemsReferTo_missed : ∀ {items : List (Value C)},
    itemsReferTo waifRefers key items = .ok false →
    ∀ u, .waif u ∈ leavesOf items → u ≠ key ∧ waifRefers u = .ok false
  | [], _ => by simp [leavesOf]
  | _ :: _, missed => by
      intro u member
      rw [itemsReferTo] at missed
      obtain ⟨found, first, rest⟩ := Failing.bind_ok missed
      cases found with
      | true => cases rest
      | false =>
          rcases List.mem_append.mp member with here | later
          · exact refersTo_missed first u here
          · exact itemsReferTo_missed rest u later

end

mutual

theorem refersTo_ends : ∀ {value : Value C},
    (∀ u, .waif u ∈ leaves value → u ≠ key → ∃ b, waifRefers u = .ok b) →
    ∃ b, refersTo waifRefers key value = .ok b
  | .list _, ends => itemsReferTo_ends ends
  | .map _, ends => itemsReferTo_ends ends
  | .waif u, ends => by
      rw [refersTo]
      split
      · exact ⟨true, rfl⟩
      · rename_i other
        exact ends u List.mem_cons_self other
  | .float _, _ => ⟨_, rfl⟩
  | .anon _, _ => ⟨false, rfl⟩
  | .clear, _ => ⟨false, rfl⟩
  | .other _, _ => ⟨false, rfl⟩

theorem itemsReferTo_ends : ∀ {items : List (Value C)},
    (∀ u, .waif u ∈ leavesOf items → u ≠ key → ∃ b, waifRefers u = .ok b) →
    ∃ b, itemsReferTo waifRefers key items = .ok b
  | [], _ => ⟨false, rfl⟩
  | _ :: _, ends => by
      obtain ⟨found, first⟩ := refersTo_ends fun u member => ends u (List.mem_append_left _ member)
      obtain ⟨more, rest⟩ :=
        itemsReferTo_ends fun u member => ends u (List.mem_append_right _ member)
      rw [itemsReferTo, first]
      cases found with
      | true => exact ⟨true, rfl⟩
      | false => exact ⟨more, rest⟩

end

end

section

variable {m : Memory C} {key : Address} {rank : Address → Nat}

/-- The edges that the search follows: it goes no further where it meets what it looks for. -/
def followed (m : Memory C) (key w : Address) : List Address :=
  if w = key then [] else contained m w

theorem waifRefersTo_eq (sound : Sound m) {w : Address} {waif : Waif C}
    (found : m.waif w = some waif) (fuel : Nat) :
    waifRefersTo m key (fuel + 1) w =
      itemsReferTo (waifRefersTo m key fuel) key (heldBy m waif) := by
  rw [waifRefersTo, Memory.dereference, found]
  simp only [bind, Except.bind, takeValues, if_pos (sound.stocked w waif found).enough,
    List.splitAt_eq]
  rfl

theorem waifRefersTo_missed (sound : Sound m) {fuel : Nat} {w : Address}
    (alive : (m.waif w).isSome = true) (other : w ≠ key)
    (missed : waifRefersTo m key fuel w = .ok false) : ¬Reach (followed m key) w key := by
  induction fuel generalizing w with
  | zero => cases missed
  | succ fuel ih =>
      obtain ⟨waif, found⟩ := Option.isSome_iff_exists.mp alive
      rw [waifRefersTo_eq sound found] at missed
      intro path
      rcases Relation.ReflTransGen.cases_head path with same | ⟨u, edge, rest⟩
      · exact other same
      · rw [followed, if_neg other] at edge
        have inside : u ∈ containedIn m waif := contained_eq found ▸ edge
        obtain ⟨apart, missed'⟩ := itemsReferTo_missed missed u (mem_waifsIn.mp inside)
        exact ih (sound.live w u edge) apart missed' rest

/-- When the search finds nothing there is no way to what it looks for. -/
theorem Sound.missed (sound : Sound m) {fuel : Nat} {items : List (Value C)}
    (alive : ∀ u ∈ waifsIn items, (m.waif u).isSome = true)
    (missed : itemsReferTo (waifRefersTo m key fuel) key items = .ok false) :
    ∀ u ∈ waifsIn items, ¬Reach (followed m key) u key := by
  intro u member
  obtain ⟨apart, missed'⟩ := itemsReferTo_missed missed u (mem_waifsIn.mp member)
  exact waifRefersTo_missed sound (alive u member) apart missed'

theorem waifRefersTo_ends (sound : Sound m) (ranked : Ranked (followed m key) rank) {fuel : Nat}
    {w : Address} (alive : (m.waif w).isSome = true) (other : w ≠ key) (enough : rank w < fuel) :
    ∃ b, waifRefersTo m key fuel w = .ok b := by
  induction fuel generalizing w with
  | zero => omega
  | succ fuel ih =>
      obtain ⟨waif, found⟩ := Option.isSome_iff_exists.mp alive
      rw [waifRefersTo_eq sound found]
      refine itemsReferTo_ends fun u member apart => ?_
      have inside : u ∈ contained m w := contained_eq found ▸ mem_waifsIn.mpr member
      have below := ranked w u (by rwa [followed, if_neg other])
      exact ih (sound.live w u inside) apart (by omega)

/-- The search ends, since it comes to no waif twice on one path. -/
theorem Sound.ends (sound : Sound m) (ranked : Ranked (followed m key) rank) {fuel : Nat}
    {items : List (Value C)} (alive : ∀ u ∈ waifsIn items, (m.waif u).isSome = true)
    (enough : ∀ u ∈ waifsIn items, rank u < fuel) :
    ∃ b, itemsReferTo (waifRefersTo m key fuel) key items = .ok b :=
  itemsReferTo_ends fun u member other =>
    waifRefersTo_ends sound ranked (alive u (mem_waifsIn.mpr member)) other
      (enough u (mem_waifsIn.mpr member))

end

end ToastStunt.Waifs
