import ToastStunt.Library.FirstVisit
import Mathlib.Data.List.Nodup
import Mathlib.Data.List.Perm.Basic
import Mathlib.Data.List.Perm.Subperm
import Mathlib.Logic.Equiv.Basic
import Mathlib.Logic.Function.Basic

/-!
Things in places. Each thing is in at most one place, each place lists what is in it, the two
agree, and the way up from any place ends.
-/

namespace Containment

variable {α : Type}

inductive Climbs (up : α → Option α) : α → List α → Prop
  | top {thing} : up thing = none → Climbs up thing []
  | up {thing place path} : up thing = some place → Climbs up place path →
      Climbs up thing (place :: path)

/-- What is walked from a place, the place itself included. -/
def Walks (up : α → Option α) : Option α → List α → Prop
  | none, path => path = []
  | some place, path => ∃ above, path = place :: above ∧ Climbs up place above

namespace Climbs

variable {up up' : α → Option α} {thing place : α} {path : List α}

theorem unique {path' : List α} (climbs : Climbs up thing path) (climbs' : Climbs up thing path') :
    path = path' := by
  induction climbs generalizing path' with
  | top root =>
      cases climbs' with
      | top => rfl
      | up found => rw [root] at found; cases found
  | up found _ ih =>
      cases climbs' with
      | top root => rw [found] at root; cases root
      | up found' rest =>
          rw [found] at found'
          cases found'
          rw [ih rest]

theorem shorter (climbs : Climbs up thing path) (above : place ∈ path) :
    ∃ rest, Climbs up place rest ∧ rest.length < path.length := by
  induction climbs with
  | top => cases above
  | up found climbs ih =>
      rcases List.mem_cons.mp above with rfl | later
      · exact ⟨_, climbs, Nat.lt_succ_self _⟩
      · obtain ⟨rest, further, less⟩ := ih later
        exact ⟨rest, further, Nat.lt_succ_of_lt less⟩

theorem not_mem (climbs : Climbs up thing path) : thing ∉ path := by
  intro above
  obtain ⟨rest, again, less⟩ := climbs.shorter above
  rw [climbs.unique again] at less
  exact Nat.lt_irrefl _ less

theorem nodup (climbs : Climbs up thing path) : (thing :: path).Nodup := by
  induction climbs with
  | top => exact List.nodup_singleton _
  | up found climbs ih => exact List.nodup_cons.mpr ⟨(Climbs.up found climbs).not_mem, ih⟩

theorem congr (same : ∀ place ∈ thing :: path, up' place = up place)
    (climbs : Climbs up thing path) : Climbs up' thing path := by
  induction climbs with
  | top root => exact .top ((same _ List.mem_cons_self).trans root)
  | up found _ ih =>
      exact .up ((same _ List.mem_cons_self).trans found)
        (ih fun place member => same place (List.mem_cons_of_mem _ member))

theorem place_above (climbs : Climbs up thing path) (above : place ∈ path) :
    ∃ below, up below = some place := by
  induction climbs with
  | top => cases above
  | up found _ ih =>
      rcases List.mem_cons.mp above with rfl | later
      · exact ⟨_, found⟩
      · exact ih later

end Climbs

structure Places (α : Type) where
  location : α → Option α
  contents : α → List α

@[ext] theorem Places.ext {p q : Places α} (location : p.location = q.location)
    (contents : p.contents = q.contents) : p = q := by
  cases p
  cases q
  cases location
  cases contents
  rfl

structure Placed (p : Places α) : Prop where
  located : ∀ {thing place}, p.location thing = some place → thing ∈ p.contents place
  contained : ∀ {thing place}, thing ∈ p.contents place → p.location thing = some place
  nodup : ∀ place, (p.contents place).Nodup
  grounded : ∀ thing, ∃ path, Climbs p.location thing path

namespace Placed

variable {p : Places α}

theorem count [DecidableEq α] (placed : Placed p) (thing place : α) :
    (p.contents place).count thing = if p.location thing = some place then 1 else 0 := by
  split
  · rename_i here
    exact List.count_eq_one_of_mem (placed.nodup place) (placed.located here)
  · rename_i elsewhere
    exact List.count_eq_zero_of_not_mem fun member => elsewhere (placed.contained member)

theorem walks (placed : Placed p) (place : Option α) : ∃ path, Walks p.location place path := by
  cases place with
  | none => exact ⟨[], rfl⟩
  | some place =>
      obtain ⟨above, climbs⟩ := placed.grounded place
      exact ⟨place :: above, above, rfl, climbs⟩

end Placed

section Moving

variable [DecidableEq α]

def Places.relocate (p : Places α) (thing : α) (new : Option α) (position : Nat) : Places α where
  location := Function.update p.location thing new
  contents place :=
    if new = some place then
      ((p.contents place).erase thing).insertIdx
        (min position ((p.contents place).erase thing).length) thing
    else (p.contents place).erase thing

theorem Climbs.redirect {up : α → Option α} {moved thing : α} {new : Option α}
    {path walked : List α} (walks : Walks up new walked) (apart : moved ∉ walked)
    (climbs : Climbs up thing path) : ∃ path', Climbs (Function.update up moved new) thing path' := by
  have here : ∃ path', Climbs (Function.update up moved new) moved path' := by
    cases new with
    | none => exact ⟨[], .top (Function.update_self ..)⟩
    | some place =>
        obtain ⟨above, rfl, beyond⟩ := walks
        refine ⟨place :: above, .up (Function.update_self ..) (beyond.congr fun other member => ?_)⟩
        have distinct : other ≠ moved := by
          rintro rfl
          exact apart member
        exact Function.update_of_ne distinct ..
  induction climbs with
  | @top thing root =>
      by_cases same : thing = moved
      · exact same ▸ here
      · exact ⟨[], .top ((Function.update_of_ne same ..).trans root)⟩
  | @up thing place path found _ ih =>
      by_cases same : thing = moved
      · exact same ▸ here
      · obtain ⟨path', climbs⟩ := ih
        exact ⟨place :: path', .up ((Function.update_of_ne same ..).trans found) climbs⟩

theorem mem_relocate {p : Places α} (placed : Placed p) {thing other place : α} {new : Option α}
    {position : Nat} : other ∈ (p.relocate thing new position).contents place ↔
      (p.relocate thing new position).location other = some place := by
  have kept : other ∈ (p.contents place).erase thing ↔
      other ≠ thing ∧ p.location other = some place := by
    rw [(placed.nodup place).mem_erase_iff]
    exact and_congr_right fun _ => ⟨placed.contained, placed.located⟩
  simp only [Places.relocate]
  by_cases same : other = thing
  · subst same
    rw [Function.update_self]
    split
    · rename_i entered
      rw [List.mem_insertIdx (Nat.min_le_right ..)]
      simp [entered]
    · rename_i entered
      simp [kept, entered]
  · rw [Function.update_of_ne same]
    split
    · rw [List.mem_insertIdx (Nat.min_le_right ..), kept]
      simp [same]
    · rw [kept]
      simp [same]

theorem Placed.relocate {p : Places α} (placed : Placed p) {thing : α} {new : Option α}
    {walked : List α} (walks : Walks p.location new walked) (apart : thing ∉ walked)
    (position : Nat) : Placed (p.relocate thing new position) where
  located := (mem_relocate placed).mpr
  contained := (mem_relocate placed).mp
  nodup place := by
    have rest : ((p.contents place).erase thing).Nodup := (placed.nodup place).erase thing
    simp only [Places.relocate]
    split
    · rw [(List.perm_insertIdx thing _ (Nat.min_le_right ..)).nodup_iff]
      exact List.nodup_cons.mpr ⟨(placed.nodup place).not_mem_erase, rest⟩
    · exact rest
  grounded other := by
    obtain ⟨path, climbs⟩ := placed.grounded other
    exact climbs.redirect walks apart

end Moving

section Renaming

def Places.rename (p : Places α) (name : α ≃ α) : Places α where
  location thing := (p.location (name.symm thing)).map name
  contents place := (p.contents (name.symm place)).map name

theorem Climbs.rename {up : α → Option α} {thing : α} {path : List α} (name : α ≃ α)
    (climbs : Climbs up thing path) :
    Climbs (fun thing => (up (name.symm thing)).map name) (name thing) (path.map name) := by
  induction climbs with
  | top root => exact .top (by rw [Equiv.symm_apply_apply, root, Option.map_none])
  | up found _ ih => exact .up (by rw [Equiv.symm_apply_apply, found, Option.map_some]) ih

theorem Placed.rename {p : Places α} (placed : Placed p) (name : α ≃ α) : Placed (p.rename name) where
  located := by
    intro thing place found
    obtain ⟨place', here, rfl⟩ := Option.map_eq_some_iff.mp found
    refine List.mem_map.mpr ⟨name.symm thing, ?_, Equiv.apply_symm_apply ..⟩
    rw [Equiv.symm_apply_apply]
    exact placed.located here
  contained := by
    intro thing place member
    obtain ⟨thing', here, rfl⟩ := List.mem_map.mp member
    refine Option.map_eq_some_iff.mpr ⟨name.symm place, ?_, Equiv.apply_symm_apply ..⟩
    rw [Equiv.symm_apply_apply]
    exact placed.contained here
  nodup place := (placed.nodup _).map name.injective
  grounded thing := by
    obtain ⟨path, climbs⟩ := placed.grounded (name.symm thing)
    have renamed := climbs.rename name
    rw [Equiv.apply_symm_apply] at renamed
    exact ⟨_, renamed⟩

end Renaming

section Swapping

variable {p : Places α} {old new : α}

theorem Placed.not_inside_itself (placed : Placed p) (thing : α) : thing ∉ p.contents thing := by
  intro member
  obtain ⟨path, climbs⟩ := placed.grounded thing
  cases climbs with
  | top root =>
      rw [placed.contained member] at root
      cases root
  | up further rest =>
      rw [placed.contained member] at further
      cases further
      exact (Climbs.up (placed.contained member) rest).not_mem List.mem_cons_self

theorem Placed.not_at_unused (placed : Placed p) (nothing : p.contents new = []) (thing : α) :
    p.location thing ≠ some new := by
  intro here
  have member := placed.located here
  rw [nothing] at member
  cases member

theorem Placed.unused_not_inside (placed : Placed p) (nowhere : p.location new = none) (place : α) :
    new ∉ p.contents place := by
  intro member
  rw [placed.contained member] at nowhere
  cases nowhere

variable [DecidableEq α]

theorem map_swap_absent {list : List α} (noOld : old ∉ list) (noNew : new ∉ list) :
    list.map (Equiv.swap old new) = list := by
  refine (List.map_congr_left fun thing member => ?_).trans (List.map_id list)
  refine Equiv.swap_apply_of_ne_of_ne ?_ ?_ <;> rintro rfl <;> contradiction

variable (placed : Placed p) (nowhere : p.location new = none) (nothing : p.contents new = [])

include placed nowhere nothing

/-- Where things are after a name is given up for one that was not used. -/
theorem Placed.swap_location (thing : α) :
    (p.rename (Equiv.swap old new)).location thing =
      if thing ∈ p.contents old then some new
      else if thing = old then none
      else if thing = new then p.location old else p.location thing := by
  have kept {thing : α} (outside : thing ∉ p.contents old) :
      (p.location thing).map (Equiv.swap old new) = p.location thing := by
    cases here : p.location thing with
    | none => rfl
    | some place =>
        have notOld : place ≠ old := fun equal => outside (equal ▸ placed.located here)
        have notNew : place ≠ new := fun equal => placed.not_at_unused nothing thing (equal ▸ here)
        rw [Option.map_some, Equiv.swap_apply_of_ne_of_ne notOld notNew]
  have notInside := placed.not_inside_itself old
  simp only [Places.rename, Equiv.symm_swap]
  by_cases member : thing ∈ p.contents old
  · have apartOld : thing ≠ old := fun equal => notInside (equal ▸ member)
    have apartNew : thing ≠ new := fun equal =>
      placed.unused_not_inside nowhere old (equal ▸ member)
    rw [if_pos member, Equiv.swap_apply_of_ne_of_ne apartOld apartNew, placed.contained member,
      Option.map_some, Equiv.swap_apply_left]
  · rw [if_neg member]
    by_cases isOld : thing = old
    · rw [if_pos isOld, isOld, Equiv.swap_apply_left, nowhere]
      rfl
    · by_cases isNew : thing = new
      · rw [if_neg isOld, if_pos isNew, isNew, Equiv.swap_apply_right, kept notInside]
      · rw [if_neg isOld, if_neg isNew, Equiv.swap_apply_of_ne_of_ne isOld isNew, kept member]

theorem Placed.swap_contents (place : α) :
    (p.rename (Equiv.swap old new)).contents place =
      if p.location old = some place then (p.contents place).map (Equiv.swap old new)
      else if place = old then []
      else if place = new then p.contents old else p.contents place := by
  have notInside := placed.not_inside_itself old
  have noNew := placed.unused_not_inside nowhere
  simp only [Places.rename, Equiv.symm_swap]
  by_cases isOld : place = old
  · have apart : p.location old ≠ some old := fun equal => notInside (placed.located equal)
    rw [isOld, if_neg apart, if_pos rfl, Equiv.swap_apply_left, nothing]
    rfl
  · by_cases isNew : place = new
    · have apart := placed.not_at_unused nothing old
      rw [if_neg isOld, isNew, if_neg apart, if_pos rfl, Equiv.swap_apply_right,
        map_swap_absent notInside (noNew old)]
    · rw [if_neg isOld, if_neg isNew, Equiv.swap_apply_of_ne_of_ne isOld isNew]
      split
      · rfl
      · rename_i elsewhere
        rw [map_swap_absent (fun member => elsewhere (placed.contained member)) (noNew place)]

end Swapping

section Traversing

open FirstVisit

variable {p : Places α} {thing place : α} {path : List α}

def Places.above (p : Places α) (thing : α) : List α := (p.location thing).toList

theorem Places.above_top (root : p.location thing = none) : p.above thing = [] := by
  rw [above, root]
  rfl

theorem Places.above_up (found : p.location thing = some place) : p.above thing = [place] := by
  rw [above, found]
  rfl

theorem Climbs.reach (climbs : Climbs p.location thing path) {other : α} :
    Reach p.above thing other ↔ other ∈ thing :: path := by
  induction climbs with
  | top root =>
      constructor
      · intro up
        rcases Relation.ReflTransGen.cases_head up with same | ⟨middle, edge, -⟩
        · exact List.mem_singleton.mpr same.symm
        · rw [Places.above_top root] at edge
          cases edge
      · intro here
        rw [List.mem_singleton.mp here]
        exact Relation.ReflTransGen.refl
  | up found _ ih =>
      constructor
      · intro up
        rcases Relation.ReflTransGen.cases_head up with same | ⟨middle, edge, rest⟩
        · exact List.mem_cons.mpr (Or.inl same.symm)
        · rw [Places.above_up found, List.mem_singleton] at edge
          rw [edge] at rest
          exact List.mem_cons_of_mem _ (ih.mp rest)
      · intro here
        rcases List.mem_cons.mp here with rfl | later
        · exact Relation.ReflTransGen.refl
        · refine Relation.ReflTransGen.head ?_ (ih.mpr later)
          rw [Places.above_up found]
          exact List.mem_singleton_self _

theorem Climbs.preorder [DecidableEq α] (climbs : Climbs p.location thing path) {fuel : Nat}
    (enough : path.length < fuel) : preorder p.above fuel thing = thing :: path := by
  induction climbs generalizing fuel with
  | top root =>
      cases fuel with
      | zero => exact absurd enough (Nat.not_lt_zero _)
      | succ fuel =>
          rw [FirstVisit.preorder, Places.above_top root]
          rfl
  | up found climbs ih =>
      cases fuel with
      | zero => exact absurd enough (Nat.not_lt_zero _)
      | succ fuel =>
          rw [FirstVisit.preorder, Places.above_up found, List.flatMap_cons, List.flatMap_nil, List.append_nil,
            ih (Nat.lt_of_succ_lt_succ enough), addAll_of_nodup climbs.nodup]

theorem Placed.reach_contents (placed : Placed p) :
    Reach p.contents place thing ↔ Reach p.above thing place := by
  have edges (upper lower : α) : lower ∈ p.contents upper ↔ upper ∈ p.above lower := by
    rw [Places.above, Option.mem_toList]
    exact ⟨placed.contained, placed.located⟩
  constructor
  · intro down
    induction down with
    | refl => exact Relation.ReflTransGen.refl
    | tail _ edge ih => exact Relation.ReflTransGen.head ((edges _ _).mp edge) ih
  · intro up
    induction up with
    | refl => exact Relation.ReflTransGen.refl
    | tail _ edge ih => exact Relation.ReflTransGen.head ((edges _ _).mpr edge) ih

theorem Placed.ranked_above (placed : Placed p) : ∃ rank, Ranked p.above rank ∧
    ∀ thing path, Climbs p.location thing path → rank thing = path.length := by
  choose path climbs using placed.grounded
  refine ⟨fun thing => (path thing).length, ?_, ?_⟩
  · intro lower upper edge
    have found : p.location lower = some upper := Option.mem_toList.mp edge
    beta_reduce
    rw [(climbs lower).unique (.up found (climbs upper))]
    exact Nat.lt_succ_self _
  · intro thing other climbs'
    beta_reduce
    rw [(climbs thing).unique climbs']

/-- The number of places above a thing counts down on the way up and so, from any bound, up on the
way down. -/
theorem Placed.ranked (placed : Placed p) {depth : Nat}
    (shallow : ∀ thing path, Climbs p.location thing path → path.length < depth) :
    ∃ rank, Ranked p.contents rank ∧ ∀ thing, rank thing < depth := by
  choose path climbs using placed.grounded
  have short (thing : α) := shallow thing (path thing) (climbs thing)
  refine ⟨fun thing => depth - 1 - (path thing).length, ?_, ?_⟩
  · intro place thing inside
    have further := Climbs.up (placed.contained inside) (climbs place)
    have lengths := congrArg List.length ((climbs thing).unique further)
    rw [List.length_cons] at lengths
    have bound := short thing
    beta_reduce
    omega
  · intro thing
    have bound := short thing
    beta_reduce
    omega

end Traversing

end Containment
