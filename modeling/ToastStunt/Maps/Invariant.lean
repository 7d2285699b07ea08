import ToastStunt.Maps.Operations

/-!
The representation invariant of map.cc over every sequence of its operations.
-/

namespace ToastStunt.Maps

open RedBlack ColorTree OrderedTable

variable {κ ν : Type} {compare : κ → κ → Int}

/-- The maps that a sequence of operations makes from `rbnew`. The ranges are those that
`OP_RANGE_REF` and `EOP_RANGESET` ask for, and a traversal is only begun below 2^31 nodes. -/
inductive Built (compare : κ → κ → Int) : RBTree κ ν → Prop
  | new : Built compare rbnew
  | insert {map map' : RBTree κ ν} {key : κ} {value : ν} (built : Built compare map)
      (absent : ∀ entry ∈ map.bindings, compare entry.1 key ≠ 0)
      (ran : rbinsert compare map key value = some map') : Built compare map'
  | erase {map map' : RBTree κ ν} {key : κ} {found : Bool} (built : Built compare map)
      (ran : rberase compare map key = some (map', found)) : Built compare map'
  | dup {map map' : RBTree κ ν} (built : Built compare map) (small : map.size < 2 ^ 31)
      (ran : mapDup compare map = some map') : Built compare map'
  | range {map map' : RBTree κ ν} {lower upper : κ} {first last : Trav κ ν}
      (built : Built compare map) (small : map.size < 2 ^ 31) (ascending : compare lower upper ≤ 0)
      (atLower : rbseek compare lower map.root [] = some (some first))
      (atUpper : rbseek compare upper map.root [] = some (some last))
      (ran : maprange compare map first last = some map') : Built compare map'
  | rangeset {map value map' : RBTree κ ν} {lower upper : κ} {first last : Trav κ ν}
      (built : Built compare map) (builtValue : Built compare value)
      (small : map.size < 2 ^ 31) (smallValue : value.size < 2 ^ 31)
      (atLower : rbseek compare lower map.root [] = some (some first))
      (atUpper : rbseek compare upper map.root [] = some (some last))
      (ran : maprangeset compare map first last value = some map') : Built compare map'

/-- The traversals that `rbstart` or `rbseek` begin and `rbmove` moves either way. -/
inductive Travels (compare : κ → κ → Int) (map : RBTree κ ν) : Trav κ ν → Prop
  | start {trav : Trav κ ν} {dir : Bool} (ran : rbstart map dir = some trav) :
      Travels compare map trav
  | seek {trav : Trav κ ν} {key : κ} (ran : rbseek compare key map.root [] = some (some trav)) :
      Travels compare map trav
  | move {trav next : Trav κ ν} {dir : Bool} (travels : Travels compare map trav)
      (ran : rbmove trav dir = some next) : Travels compare map next

section

variable (order : TotalPreorder compare fun _ : κ => True) {map : RBTree κ ν}

include order

theorem seek_reaches (well : WellFormed compare map) (small : map.size < 2 ^ 31) {key : κ}
    {trav : Trav κ ν} (ran : rbseek compare key map.root [] = some (some trav)) :
    ∃ item rest, Reached map.root true trav (item :: rest) ∧ compare item.key key = 0 := by
  rcases rbseek_reaches [] (Nat.le_of_lt (well.low small))
    (steered_of_sorted order well.sorted (fun _ _ => trivial) trivial) with
    ⟨trav', item, rest, ran', reached, zero⟩ | ⟨ran', _⟩
  · rw [ancestors, ran, Option.some.injEq, Option.some.injEq] at ran'
    exact ⟨item, rest, ran' ▸ reached, zero⟩
  · rw [ancestors, ran] at ran'
    cases ran'

theorem Built.wellFormed (built : Built compare map) : WellFormed compare map := by
  induction built with
  | new => exact wellFormed_rbnew
  | insert _ absent ran well =>
      obtain ⟨_, ran', well', _⟩ := rbinsert_put order well (fun _ _ => trivial) _ trivial absent
      exact Option.some.inj (ran.symm.trans ran') ▸ well'
  | erase _ ran well =>
      obtain ⟨_, _, ran', well', _⟩ := rberase_remove order well (fun _ _ => trivial) trivial
      exact (Prod.mk.inj (Option.some.inj (ran.symm.trans ran'))).1 ▸ well'
  | dup _ small ran well =>
      obtain ⟨_, ran', well', _⟩ := mapDup_same order well (fun _ _ => trivial) small
      exact Option.some.inj (ran.symm.trans ran') ▸ well'
  | range _ small ascending atLower atUpper ran well =>
      obtain ⟨_, _, reachedLower, isLower⟩ := seek_reaches order well small atLower
      obtain ⟨_, _, reachedUpper, isUpper⟩ := seek_reaches order well small atUpper
      obtain ⟨_, ran', well', _⟩ := maprange_takes order well (fun _ _ => trivial) small trivial
        trivial ascending reachedLower reachedUpper isLower isUpper
      exact Option.some.inj (ran.symm.trans ran') ▸ well'
  | rangeset _ _ small smallValue atLower atUpper ran well wellValue =>
      obtain ⟨_, _, reachedLower, isLower⟩ := seek_reaches order well small atLower
      obtain ⟨_, _, reachedUpper, isUpper⟩ := seek_reaches order well small atUpper
      obtain ⟨_, ran', well', _⟩ := maprangeset_replaces order well wellValue (fun _ _ => trivial)
        (fun _ _ => trivial) small smallValue trivial trivial reachedLower reachedUpper isLower
        isUpper
      exact Option.some.inj (ran.symm.trans ran') ▸ well'

theorem Travels.reached (well : WellFormed compare map) (small : map.size < 2 ^ 31)
    {trav : Trav κ ν} (travels : Travels compare map trav) :
    ∃ items, Reached map.root true trav items := by
  have low := Nat.le_of_lt (well.low small)
  have turned {dir : Bool} {trav : Trav κ ν} {items : List (Node κ ν)}
      (reached : Reached map.root dir trav items) : ∃ items, Reached map.root true trav items := by
    cases items with
    | nil => cases reached with | done off => exact ⟨[], .done off⟩
    | cons item rest =>
        obtain ⟨onward, reached⟩ := reached.turn true
        exact ⟨_, reached⟩
  induction travels with
  | @start trav dir ran =>
      obtain ⟨trav', ran', reached⟩ := rbstart_reaches map (!dir) low
      rw [Bool.not_not, ran, Option.some.injEq] at ran'
      exact turned (ran' ▸ reached)
  | seek ran =>
      obtain ⟨item, rest, reached, _⟩ := seek_reaches order well small ran
      exact ⟨_, reached⟩
  | @move trav next dir _ ran ih =>
      obtain ⟨items, reached⟩ := ih
      cases items with
      | nil =>
          cases reached with
          | done off => simp [rbmove, off] at ran
      | cons item rest =>
          obtain ⟨onward, reached⟩ := reached.turn dir
          obtain ⟨next', ran', reached⟩ := rbmove_reaches well.apart low reached
          rw [ran, Option.some.injEq] at ran'
          exact turned (ran' ▸ reached)

end

structure Operates (compare : κ → κ → Int) (map : RBTree κ ν) : Prop where
  insert : ∀ key value, (∀ entry ∈ map.bindings, compare entry.1 key ≠ 0) →
    ∃ map', rbinsert compare map key value = some map' ∧
      map'.bindings = put compare key value map.bindings
  erase : ∀ key, ∃ map' found, rberase compare map key = some (map', found) ∧
    map'.bindings = remove compare key map.bindings ∧
    (found = true ↔ ∃ entry ∈ map.bindings, compare entry.1 key = 0)
  low : map.size < 2 ^ 31 → map.root.height < heightLimit
  start : map.size < 2 ^ 31 → ∀ dir, ∃ trav, rbstart map dir = some trav
  move : map.size < 2 ^ 31 → ∀ trav, Travels compare map trav → trav.it ≠ nil →
    ∀ dir, ∃ next, rbmove trav dir = some next
  seek : map.size < 2 ^ 31 → ∀ key, ∃ found, rbseek compare key map.root [] = some found ∧
    (found = none ↔ ∀ entry ∈ map.bindings, compare entry.1 key ≠ 0)
  dup : map.size < 2 ^ 31 → ∃ map', mapDup compare map = some map' ∧ map'.bindings = map.bindings
  range : map.size < 2 ^ 31 → ∀ lower upper first last, compare lower upper ≤ 0 →
    rbseek compare lower map.root [] = some (some first) →
    rbseek compare upper map.root [] = some (some last) →
    ∃ map', maprange compare map first last = some map' ∧
      map'.bindings = rangeTaken compare lower upper map.bindings
  rangeset : map.size < 2 ^ 31 → ∀ value, Built compare value → value.size < 2 ^ 31 →
    ∀ lower upper first last,
    rbseek compare lower map.root [] = some (some first) →
    rbseek compare upper map.root [] = some (some last) →
    ∃ map', maprangeset compare map first last value = some map' ∧
      map'.bindings = rangeReplaced compare lower upper value.bindings map.bindings

/-- Every map that the operations make is a red black search tree of its size, and every
operation on it runs without following a null link or overrunning a path. -/
theorem built_redBlack (order : TotalPreorder compare fun _ : κ => True) {map : RBTree κ ν}
    (built : Built compare map) : WellFormed compare map ∧ Operates compare map := by
  have well := built.wellFormed order
  refine ⟨well, ?_, ?_, well.low, ?_, ?_, ?_, ?_, ?_, ?_⟩
  · intro key value absent
    obtain ⟨map', ran, _, bindings⟩ :=
      rbinsert_put order well (fun _ _ => trivial) value trivial absent
    exact ⟨map', ran, bindings⟩
  · intro key
    obtain ⟨map', found, ran, _, bindings, answer⟩ :=
      rberase_remove order well (fun _ _ => trivial) (trivial : (fun _ => True) key)
    exact ⟨map', found, ran, bindings, answer⟩
  · intro small dir
    obtain ⟨trav, ran, _⟩ := rbstart_reaches map (!dir) (Nat.le_of_lt (well.low small))
    exact ⟨trav, by simpa using ran⟩
  · intro small trav travels onNode dir
    obtain ⟨items, reached⟩ := travels.reached order well small
    cases items with
    | nil => cases reached with | done off => exact absurd off onNode
    | cons item rest =>
        obtain ⟨onward, reached⟩ := reached.turn dir
        obtain ⟨next, ran, _⟩ := rbmove_reaches well.apart (Nat.le_of_lt (well.low small)) reached
        exact ⟨next, ran⟩
  · intro small key
    rcases rbseek_reaches [] (Nat.le_of_lt (well.low small))
      (steered_of_sorted order well.sorted (fun _ _ => trivial) (trivial : (fun _ => True) key)) with
      ⟨trav, item, rest, ran, reached, zero⟩ | ⟨ran, absent⟩
    · refine ⟨some trav, ran, by simp, fun absent => ?_⟩
      have member := reached.suffix.subset (List.mem_cons_self ..)
      exact absurd zero (absent _ (mem_bindings member))
    · exact ⟨none, ran, by simpa using absent_bindings.mpr absent⟩
  · intro small
    obtain ⟨map', ran, _, bindings⟩ := mapDup_same order well (fun _ _ => trivial) small
    exact ⟨map', ran, bindings⟩
  · intro small lower upper first last ascending atLower atUpper
    obtain ⟨_, _, reachedLower, isLower⟩ := seek_reaches order well small atLower
    obtain ⟨_, _, reachedUpper, isUpper⟩ := seek_reaches order well small atUpper
    obtain ⟨map', ran, _, bindings⟩ := maprange_takes order well (fun _ _ => trivial) small trivial
      trivial ascending reachedLower reachedUpper isLower isUpper
    exact ⟨map', ran, bindings⟩
  · intro small value builtValue smallValue lower upper first last atLower atUpper
    obtain ⟨_, _, reachedLower, isLower⟩ := seek_reaches order well small atLower
    obtain ⟨_, _, reachedUpper, isUpper⟩ := seek_reaches order well small atUpper
    obtain ⟨map', ran, _, bindings⟩ := maprangeset_replaces order well
      (builtValue.wellFormed order) (fun _ _ => trivial) (fun _ _ => trivial) small smallValue
      trivial trivial reachedLower reachedUpper isLower isUpper
    exact ⟨map', ran, bindings⟩

theorem built_redBlack_pair : WellFormed (fun a b : Int => a - b)
      (⟨node false nil ⟨0, 3, "three"⟩ (node true nil ⟨1, 5, "five"⟩ nil), 2⟩ : RBTree Int String) ∧
    Operates (fun a b : Int => a - b)
      (⟨node false nil ⟨0, 3, "three"⟩ (node true nil ⟨1, 5, "five"⟩ nil), 2⟩ : RBTree Int String) :=
  built_redBlack ⟨fun a b _ _ => by omega, fun a b c _ _ _ _ _ => by omega⟩
    (@Built.insert _ _ _ _ _ 5 "five"
      (@Built.insert _ _ _ _ _ 3 "three" .new nofun rfl) (by decide) (by decide +kernel))

end ToastStunt.Maps
