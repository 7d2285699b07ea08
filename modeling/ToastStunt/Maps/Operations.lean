import ToastStunt.Library.OrderedTable
import ToastStunt.Maps.Deletion
import ToastStunt.Maps.Traversal

/-!
The operations of map.cc as operations on the table of bindings of a tree.
-/

namespace ToastStunt.Maps

open RedBlack ColorTree OrderedTable

variable {κ ν : Type} {compare : κ → κ → Int} {Used : κ → Prop}

def RBTree.bindings (map : RBTree κ ν) : List (κ × ν) := map.root.inorder.map Node.binding

structure WellFormed (compare : κ → κ → Int) (map : RBTree κ ν) : Prop where
  sorted : Sorted compare map.bindings
  black : map.root.isRed = false
  valid : ∃ blacks, map.root.Valid blacks
  size : map.size = map.root.count
  apart : (map.root.inorder.map Node.addr).Nodup

def InUse (Used : κ → Prop) (map : RBTree κ ν) : Prop := ∀ entry ∈ map.bindings, Used entry.1

theorem freshAddr_new (root : ColorTree (Node κ ν)) :
    ∀ item ∈ root.inorder, item.addr < freshAddr root := by
  rw [freshAddr]
  generalize root.inorder = items
  induction items with
  | nil => nofun
  | cons head rest ih =>
      intro item member
      rcases List.mem_cons.mp member with rfl | later
      · simp only [List.foldr_cons]
        omega
      · have := ih item later
        simp only [List.foldr_cons]
        omega

theorem mem_bindings {map : RBTree κ ν} {item : Node κ ν} (member : item ∈ map.root.inorder) :
    item.binding ∈ map.bindings := List.mem_map_of_mem member

theorem steered_of_sorted (order : TotalPreorder compare Used) {map : RBTree κ ν}
    (sorted : Sorted compare map.bindings) (all : InUse Used map) {key : κ} (used : Used key) :
    Steered compare key map.root.inorder := by
  rw [Sorted, RBTree.bindings, List.pairwise_map] at sorted
  refine sorted.imp_of_mem fun {first second} memberFirst memberSecond less atMost => ?_
  exact order.lt_of_lt_of_le (all _ (mem_bindings memberFirst)) (all _ (mem_bindings memberSecond))
    used less atMost

theorem wellFormed_rbnew : WellFormed compare (rbnew : RBTree κ ν) :=
  ⟨List.Pairwise.nil, rfl, ⟨0, by simp [rbnew]⟩, rfl, List.nodup_nil⟩

theorem rbinsert_put (order : TotalPreorder compare Used) {map : RBTree κ ν}
    (well : WellFormed compare map) (all : InUse Used map) {key : κ} (value : ν) (used : Used key)
    (absent : ∀ entry ∈ map.bindings, compare entry.1 key ≠ 0) :
    ∃ map', rbinsert compare map key value = some map' ∧ WellFormed compare map' ∧
      map'.bindings = put compare key value map.bindings := by
  obtain ⟨blacks, valid⟩ := well.valid
  obtain ⟨root, ran, black, ⟨less, more, split, grown, below, beyond⟩, validRoot⟩ :=
    rbinsert_grows map valid well.black value (steered_of_sorted order well.sorted all used)
      (fun old member => absent _ (mem_bindings member)) (order.refl used)
  have bindings : (⟨root, map.size + 1⟩ : RBTree κ ν).bindings =
      put compare key value map.bindings := by
    rw [RBTree.bindings, RBTree.bindings, grown, split, List.map_append, List.map_append,
      List.map_cons, put_between value]
    · rfl
    · simpa [Node.binding] using below
    · intro entry member
      obtain ⟨old, inside, rfl⟩ := List.mem_map.mp member
      have atLeast : 0 ≤ compare old.key key := beyond old inside
      have other := absent _ (mem_bindings (split ▸ List.mem_append_right less inside))
      simp only [Node.binding] at other ⊢
      omega
  refine ⟨_, ran, ⟨?_, black, validRoot, ?_, ?_⟩, bindings⟩
  · rw [bindings]
    exact sorted_put order value used all well.sorted
  · have counted := congrArg List.length grown
    have before := congrArg List.length split
    simp only [inorder_length, List.length_append, List.length_cons] at counted before
    have := well.size
    change map.size + 1 = root.count
    omega
  · have fresh := freshAddr_new map.root
    have apart := well.apart
    rw [split] at fresh apart
    rw [grown, List.map_append, List.map_cons, List.nodup_middle, List.nodup_cons]
    refine ⟨?_, by simpa using apart⟩
    rw [← List.map_append]
    intro member
    obtain ⟨old, inside, same⟩ := List.mem_map.mp member
    exact absurd same (Nat.ne_of_lt (fresh old inside))

theorem absent_bindings {map : RBTree κ ν} {key : κ} :
    (∀ entry ∈ map.bindings, compare entry.1 key ≠ 0) ↔
      ∀ item ∈ map.root.inorder, compare item.key key ≠ 0 := by
  simp [RBTree.bindings, Node.binding]

theorem rberase_remove (order : TotalPreorder compare Used) {map : RBTree κ ν}
    (well : WellFormed compare map) (all : InUse Used map) {key : κ} (used : Used key) :
    ∃ map' found, rberase compare map key = some (map', found) ∧ WellFormed compare map' ∧
      map'.bindings = remove compare key map.bindings ∧
      (found = true ↔ ∃ entry ∈ map.bindings, compare entry.1 key = 0) := by
  obtain ⟨blacks, valid⟩ := well.valid
  have steered := steered_of_sorted order well.sorted all used
  rcases rberase_spec map valid well.black steered well.apart with
    ⟨root, ran, black, same, absent, validRoot⟩ |
    ⟨root, ran, black, ⟨less, item, more, split, zero, shrunk⟩, addresses, validRoot⟩
  · have bindings : (⟨root, map.size⟩ : RBTree κ ν).bindings = map.bindings := by
      rw [RBTree.bindings, RBTree.bindings, same]
    have none := absent_bindings.mpr absent
    refine ⟨_, false, ran, ⟨bindings ▸ well.sorted, black, validRoot, ?_, ?_⟩,
      bindings.trans (remove_absent none).symm, by simpa using none⟩
    · rw [well.size, ← inorder_length, ← inorder_length, same]
    · rw [same]
      exact well.apart
  · have bindings : (⟨root, map.size - 1⟩ : RBTree κ ν).bindings =
        remove compare key map.bindings := by
      have apart := steered
      rw [split, Steered, List.pairwise_append, List.pairwise_cons] at apart
      rw [RBTree.bindings, RBTree.bindings, shrunk, split, List.map_append, List.map_append,
        List.map_cons, remove_between]
      · intro entry member
        obtain ⟨old, inside, rfl⟩ := List.mem_map.mp member
        have := apart.2.2 old inside item (by simp) (by omega)
        simp only [Node.binding]
        omega
      · exact zero
      · intro entry member equal
        obtain ⟨old, inside, rfl⟩ := List.mem_map.mp member
        simp only [Node.binding] at equal
        have := apart.2.1.1 old inside (by omega)
        omega
    refine ⟨_, true, ran, ⟨?_, black, validRoot, ?_, addresses.nodup well.apart⟩, bindings, ?_⟩
    · rw [bindings]
      exact sorted_remove well.sorted
    · have counted := congrArg List.length shrunk
      have before := congrArg List.length split
      simp only [List.length_map, inorder_length, List.length_append, List.length_cons]
        at counted before
      have := well.size
      change map.size - 1 = root.count
      omega
    · exact ⟨fun _ => ⟨item.binding, mem_bindings (split ▸ by simp), zero⟩, fun _ => rfl⟩

theorem replaceNode_put (order : TotalPreorder compare Used) {map : RBTree κ ν}
    (well : WellFormed compare map) (all : InUse Used map) {item : Node κ ν}
    (used : Used item.key) :
    ∃ map', replaceNode compare map item = some map' ∧ WellFormed compare map' ∧
      map'.bindings = put compare item.key item.value map.bindings := by
  obtain ⟨middle, found, erased, wellMiddle, removed, _⟩ := rberase_remove order well all used
  have allMiddle : InUse Used middle := by
    intro entry member
    rw [removed] at member
    exact all entry (List.mem_filter.mp member).1
  obtain ⟨map', inserted, well', grown⟩ := rbinsert_put order wellMiddle allMiddle item.value used
    (by
      intro entry member
      rw [removed] at member
      simpa using (List.mem_filter.mp member).2)
  refine ⟨map', ?_, well', by rw [grown, removed, put_remove]⟩
  simp [replaceNode, erased, inserted]

def putEntry (compare : κ → κ → Int) (table : List (κ × ν)) (entry : κ × ν) : List (κ × ν) :=
  put compare entry.1 entry.2 table

theorem replace_all (order : TotalPreorder compare Used) {map : RBTree κ ν}
    (well : WellFormed compare map) (all : InUse Used map) (items : List (Node κ ν))
    (used : ∀ item ∈ items, Used item.key) :
    ∃ map', items.foldlM (replaceNode compare) map = some map' ∧ WellFormed compare map' ∧
      InUse Used map' ∧
      map'.bindings = (items.map Node.binding).foldl (putEntry compare) map.bindings := by
  induction items generalizing map with
  | nil => exact ⟨map, rfl, well, all, rfl⟩
  | cons item rest ih =>
      obtain ⟨middle, first, wellMiddle, bindings⟩ :=
        replaceNode_put order well all (used item (by simp))
      have allMiddle : InUse Used middle := by
        rw [InUse, bindings]
        exact used_put (used item (by simp)) all
      obtain ⟨map', later, well', all', whole⟩ :=
        ih wellMiddle allMiddle fun other member => used other (by simp [member])
      refine ⟨map', ?_, well', all', ?_⟩
      · rw [List.foldlM_cons, first]
        exact later
      · rw [whole, bindings]
        rfl

theorem copy_all (order : TotalPreorder compare Used) {map : RBTree κ ν}
    (well : WellFormed compare map) (all : InUse Used map) (items : List (Node κ ν))
    (used : ∀ item ∈ items, Used item.key)
    (sorted : Sorted compare (map.bindings ++ items.map Node.binding)) :
    ∃ map', items.foldlM (copyNode compare) map = some map' ∧ WellFormed compare map' ∧
      InUse Used map' ∧ map'.bindings = map.bindings ++ items.map Node.binding := by
  induction items generalizing map with
  | nil => exact ⟨map, rfl, well, all, by simp⟩
  | cons item rest ih =>
      have below : ∀ entry ∈ map.bindings, compare entry.1 item.key < 0 := by
        intro entry member
        exact (List.pairwise_append.mp sorted).2.2 entry member item.binding (by simp)
      obtain ⟨middle, first, wellMiddle, bindings⟩ := rbinsert_put order well all item.value
        (used item (by simp)) fun entry member => by
          have := below entry member
          omega
      have appended : middle.bindings = map.bindings ++ [item.binding] := by
        have whole := put_between item.value below (fun _ member => absurd member List.not_mem_nil)
        rw [List.append_nil] at whole
        rw [bindings, whole]
        rfl
      have allMiddle : InUse Used middle := by
        rw [InUse, bindings]
        exact used_put (used item (by simp)) all
      obtain ⟨map', later, well', all', whole⟩ :=
        ih wellMiddle allMiddle (fun other member => used other (by simp [member]))
          (by simpa [appended] using sorted)
      refine ⟨map', ?_, well', all', ?_⟩
      · rw [List.foldlM_cons, copyNode, first]
        exact later
      · rw [whole, appended]
        simp

theorem WellFormed.low {map : RBTree κ ν} (well : WellFormed compare map)
    (small : map.size < 2 ^ 31) : map.root.height < heightLimit := by
  obtain ⟨blacks, valid⟩ := well.valid
  have high := height_le_of_count valid well.black (well.size ▸ small)
  exact Nat.lt_of_le_of_lt high (by decide)

theorem used_items {map : RBTree κ ν} (all : InUse Used map) :
    ∀ item ∈ map.root.inorder, Used item.key :=
  fun _ member => all _ (mem_bindings member)

theorem mapDup_same (order : TotalPreorder compare Used) {map : RBTree κ ν}
    (well : WellFormed compare map) (all : InUse Used map) (small : map.size < 2 ^ 31) :
    ∃ map', mapDup compare map = some map' ∧ WellFormed compare map' ∧
      map'.bindings = map.bindings := by
  have low := Nat.le_of_lt (well.low small)
  obtain ⟨trav, started, reached⟩ := rbstart_reaches map true low
  obtain ⟨map', ran, well', _, bindings⟩ := copy_all order wellFormed_rbnew
    (by rintro _ ⟨⟩)
    _ (used_items all) (by simpa [RBTree.bindings, rbnew] using well.sorted)
  refine ⟨map', ?_, well', bindings⟩
  have looped := traverse_runs .null [] (map.root.count + 1) well.apart low
    (by simpa [ordered] using reached) nofun nofun
    (by simp [inorder_length]) ran
  simp only [Bool.not_true] at started
  simp [mapDup, rbtfirst, started, looped]

/-- A traversal that has still to visit `item` and `rest` has the rest of the order before it. -/
theorem standing_splits (order : TotalPreorder compare Used) {map : RBTree κ ν}
    (well : WellFormed compare map) (all : InUse Used map) {trav : Trav κ ν} {item : Node κ ν}
    {rest : List (Node κ ν)} (reached : Reached map.root true trav (item :: rest)) {key : κ}
    (used : Used key) (equal : compare item.key key = 0) :
    ∃ earlier, map.root.inorder = earlier ++ item :: rest ∧
      (∀ old ∈ earlier, compare old.key key < 0) ∧ ∀ old ∈ rest, 0 < compare old.key key := by
  obtain ⟨earlier, whole⟩ := reached.suffix
  have steered := steered_of_sorted order well.sorted all used
  rw [← whole, Steered, List.pairwise_append, List.pairwise_cons] at steered
  refine ⟨earlier, whole.symm, fun old member => steered.2.2 old member item (by simp) (by omega),
    fun old member => ?_⟩
  by_contra notBeyond
  have := steered.2.1.1 old member (by omega)
  omega

theorem filter_below {key : κ} {less more : List (Node κ ν)}
    (below : ∀ old ∈ less, compare old.key key < 0)
    (beyond : ∀ old ∈ more, ¬compare old.key key < 0) :
    ((less ++ more).map Node.binding).filter (fun entry => compare entry.1 key < 0) =
      less.map Node.binding := by
  rw [List.map_append, List.filter_append, List.filter_eq_self.mpr, List.filter_eq_nil_iff.mpr,
    List.append_nil]
  · simpa [Node.binding] using beyond
  · simpa [Node.binding] using below

theorem filter_beyond {key : κ} {less more : List (Node κ ν)}
    (below : ∀ old ∈ less, ¬0 < compare old.key key)
    (beyond : ∀ old ∈ more, 0 < compare old.key key) :
    ((less ++ more).map Node.binding).filter (fun entry => 0 < compare entry.1 key) =
      more.map Node.binding := by
  rw [List.map_append, List.filter_append, List.filter_eq_nil_iff.mpr, List.filter_eq_self.mpr,
    List.nil_append]
  · simpa [Node.binding] using beyond
  · simpa [Node.binding] using below

theorem putEntries_used {table entries : List (κ × ν)} (all : ∀ entry ∈ table, Used entry.1)
    (used : ∀ entry ∈ entries, Used entry.1) :
    ∀ entry ∈ entries.foldl (putEntry compare) table, Used entry.1 := by
  induction entries generalizing table with
  | nil => exact all
  | cons first rest ih =>
      exact ih (used_put (used first (by simp)) all) fun other member => used other (by simp [member])

def rangeReplaced (compare : κ → κ → Int) (first last : κ) (value table : List (κ × ν)) :
    List (κ × ν) :=
  (table.filter fun entry => 0 < compare entry.1 last).foldl (putEntry compare)
    (value.foldl (putEntry compare) (table.filter fun entry => compare entry.1 first < 0))

theorem maprangeset_replaces (order : TotalPreorder compare Used) {map value : RBTree κ ν}
    (well : WellFormed compare map) (wellValue : WellFormed compare value) (all : InUse Used map)
    (allValue : InUse Used value) (small : map.size < 2 ^ 31) (smallValue : value.size < 2 ^ 31)
    {lower upper : κ} (usedFrom : Used lower) (usedTo : Used upper) {first last : Trav κ ν}
    {firstItem lastItem : Node κ ν} {firstRest lastRest : List (Node κ ν)}
    (atFirst : Reached map.root true first (firstItem :: firstRest))
    (atLast : Reached map.root true last (lastItem :: lastRest))
    (isFrom : compare firstItem.key lower = 0) (isTo : compare lastItem.key upper = 0) :
    ∃ map', maprangeset compare map first last value = some map' ∧ WellFormed compare map' ∧
      map'.bindings = rangeReplaced compare lower upper value.bindings map.bindings := by
  have low := Nat.le_of_lt (well.low small)
  have lowValue := Nat.le_of_lt (wellValue.low smallValue)
  obtain ⟨less, wholeFirst, below, beyondFirst⟩ :=
    standing_splits order well all atFirst usedFrom isFrom
  obtain ⟨more, wholeLast, belowLast, beyond⟩ := standing_splits order well all atLast usedTo isTo
  have usedItems := used_items all
  obtain ⟨start, started, reached⟩ := rbstart_reaches map true low
  have sorted := well.sorted
  rw [RBTree.bindings, wholeFirst, List.map_append, Sorted, List.pairwise_append] at sorted
  obtain ⟨kept, ranKept, wellKept, allKept, bindingsKept⟩ := copy_all order wellFormed_rbnew
    (by rintro _ ⟨⟩)
    less (fun item member => usedItems item (by simp [wholeFirst, member]))
    (by simpa [RBTree.bindings, rbnew, Sorted] using sorted.1)
  have addresses := well.apart
  rw [wholeFirst, List.map_append, List.map_cons, List.nodup_append] at addresses
  have loopKept := traverse_runs (pointer first.it)
    (firstItem :: firstRest) (map.root.count + 1) well.apart low
    (by simpa [ordered, wholeFirst] using reached)
    (by
      obtain ⟨_, _, _, it⟩ := atFirst.here
      intro item member same
      rw [it, pointer, Pointer.node.injEq] at same
      exact addresses.2.2 _ (List.mem_map_of_mem member) _ (by simp) same)
    (by
      obtain ⟨_, _, _, it⟩ := atFirst.here
      simp [it, pointer])
    (by
      rw [← inorder_length, wholeFirst, List.length_append, List.length_cons]
      omega) ranKept
  obtain ⟨startValue, startedValue, reachedValue⟩ := rbstart_reaches value true lowValue
  obtain ⟨middle, ranMiddle, wellMiddle, allMiddle, bindingsMiddle⟩ :=
    replace_all order wellKept allKept _ (used_items allValue)
  have loopMiddle := traverse_runs .null [] (value.root.count + 1)
    wellValue.apart lowValue (by simpa [ordered] using reachedValue)
      (by rintro _ _ ⟨⟩) (by rintro _ ⟨⟩)
    (by simp [inorder_length]) ranMiddle
  obtain ⟨next, moved, onward⟩ := rbmove_reaches well.apart low atLast
  obtain ⟨map', ran, well', _, bindings⟩ := replace_all order wellMiddle allMiddle
    lastRest fun item member => usedItems item (by simp [wholeLast, member])
  have loop := traverse_runs .null [] (map.root.count + 1)
    well.apart low (by simpa using onward) (by rintro _ _ ⟨⟩) (by rintro _ ⟨⟩)
    (by
      rw [← inorder_length, wholeLast]
      simp
      omega) ran
  refine ⟨map', ?_, well', ?_⟩
  · simp only [Bool.not_true] at started startedValue
    simp [maprangeset, rbtfirst, started, loopKept, startedValue, loopMiddle, rbtnext, moved, loop]
  · have keptIs : map.bindings.filter (fun entry => compare entry.1 lower < 0) =
        less.map Node.binding := by
      rw [RBTree.bindings, wholeFirst]
      refine filter_below below fun old member => ?_
      rcases List.mem_cons.mp member with rfl | later
      · omega
      · have := beyondFirst old later
        omega
    have restIs : map.bindings.filter (fun entry => 0 < compare entry.1 upper) =
        lastRest.map Node.binding := by
      rw [RBTree.bindings, wholeLast, show more ++ lastItem :: lastRest =
        (more ++ [lastItem]) ++ lastRest by simp]
      refine filter_beyond (fun old member => ?_) beyond
      rcases List.mem_append.mp member with earlier | last
      · have := belowLast old earlier
        omega
      · obtain rfl := List.mem_singleton.mp last
        omega
    rw [bindings, bindingsMiddle, bindingsKept, rangeReplaced, keptIs, restIs]
    rfl

theorem rangeLoop_runs (fuel : Nat) {root : ColorTree (Node κ ν)} (apart : (root.inorder.map Node.addr).Nodup)
    (low : root.height ≤ heightLimit) {visited rest : List (Node κ ν)} {last : Node κ ν}
    {trav : Trav κ ν} {new final : RBTree κ ν}
    (reached : Reached root true trav (visited ++ last :: rest))
    (before : ∀ item ∈ visited, item.addr ≠ last.addr) (enough : visited.length < fuel)
    (ran : (visited ++ [last]).foldlM (copyNode compare) new = some final) :
    rangeLoop compare (.node last.addr) fuel trav new = some final := by
  induction visited generalizing fuel trav new with
  | nil =>
      obtain ⟨fuel, rfl⟩ : ∃ less, fuel = less + 1 := ⟨fuel - 1, by simp at enough; omega⟩
      obtain ⟨red, left, right, it⟩ := Reached.here reached
      have copied : rbinsert compare new last.key last.value = some final := by
        simpa [copyNode] using ran
      simp [rangeLoop, it, copied]
  | cons item visited ih =>
      obtain ⟨fuel, rfl⟩ : ∃ less, fuel = less + 1 := ⟨fuel - 1, by simp at enough; omega⟩
      rw [List.cons_append, List.foldlM_cons] at ran
      obtain ⟨middle, first, later⟩ := Option.bind_eq_some_iff.mp ran
      obtain ⟨next, moved, onward⟩ := rbmove_reaches apart low reached
      have looped := ih fuel onward (fun other member => before other (by simp [member]))
        (by simpa using enough) later
      obtain ⟨red, left, right, it⟩ := Reached.here reached
      rw [copyNode] at first
      simp [rangeLoop, it, first, before item (by simp), rbtnext, moved, looped]

def rangeTaken (compare : κ → κ → Int) (first last : κ) (table : List (κ × ν)) :
    List (κ × ν) :=
  table.filter fun entry => 0 ≤ compare entry.1 first ∧ compare entry.1 last ≤ 0

theorem maprange_takes (order : TotalPreorder compare Used) {map : RBTree κ ν}
    (well : WellFormed compare map) (all : InUse Used map) (small : map.size < 2 ^ 31)
    {lower upper : κ} (usedFrom : Used lower) (usedTo : Used upper)
    (ascending : compare lower upper ≤ 0) {first last : Trav κ ν}
    {firstItem lastItem : Node κ ν} {firstRest lastRest : List (Node κ ν)}
    (atFirst : Reached map.root true first (firstItem :: firstRest))
    (atLast : Reached map.root true last (lastItem :: lastRest))
    (isFrom : compare firstItem.key lower = 0) (isTo : compare lastItem.key upper = 0) :
    ∃ map', maprange compare map first last = some map' ∧ WellFormed compare map' ∧
      map'.bindings = rangeTaken compare lower upper map.bindings := by
  have low := Nat.le_of_lt (well.low small)
  obtain ⟨less, wholeFirst, below, beyondFirst⟩ :=
    standing_splits order well all atFirst usedFrom isFrom
  obtain ⟨more, wholeLast, belowLast, beyond⟩ := standing_splits order well all atLast usedTo isTo
  obtain ⟨visited, between⟩ : ∃ visited, firstItem :: firstRest = visited ++ lastItem :: lastRest := by
    have bothSuffixes := List.suffix_or_suffix_of_suffix atFirst.suffix atLast.suffix
    rcases bothSuffixes with ⟨ahead, same⟩ | ⟨ahead, same⟩
    · cases ahead with
      | nil => exact ⟨[], same⟩
      | cons head ahead =>
          obtain ⟨rfl, later⟩ := List.cons.inj (same : head :: (ahead ++ _) = _)
          have beyondUpper := beyond firstItem (by simp [← later])
          have usedFirst := used_items all firstItem (by simp [wholeFirst])
          have := order.trans _ _ _ usedFirst usedFrom usedTo (by omega) ascending
          omega
    · exact ⟨ahead, same.symm⟩
  have whole : map.root.inorder = less ++ (visited ++ lastItem :: lastRest) := by
    rw [wholeFirst, between]
  have earlierIs : more = less ++ visited :=
    List.append_cancel_right (wholeLast.symm.trans (by rw [whole, List.append_assoc]))
  have sorted := well.sorted
  rw [RBTree.bindings, whole, Sorted, List.pairwise_map, List.pairwise_append,
    List.append_cons, List.pairwise_append] at sorted
  obtain ⟨map', ran, well', _, bindings⟩ := copy_all order wellFormed_rbnew
    (by rintro _ ⟨⟩)
    (visited ++ [lastItem])
    (fun item member => used_items all item (by
      rw [whole, List.append_cons]
      simp only [List.mem_append] at member ⊢
      exact .inr (.inl member)))
    (by simpa only [RBTree.bindings, rbnew, inorder_nil, List.map_nil, List.nil_append, Sorted,
      List.pairwise_map] using sorted.2.1.1)
  have addresses := well.apart
  rw [wholeLast, earlierIs, List.map_append, List.map_cons, List.nodup_append] at addresses
  have looped := rangeLoop_runs (map.root.count + 1) well.apart low (between ▸ atFirst)
    (fun item member => addresses.2.2 _ (List.mem_map_of_mem (List.mem_append_right less member)) _
      (by simp))
    (by
      rw [← inorder_length, whole]
      simp
      omega) ran
  refine ⟨map', ?_, well', ?_⟩
  · obtain ⟨_, _, _, it⟩ := atLast.here
    rw [maprange, it]
    exact looped
  · have inside : ∀ old ∈ visited ++ [lastItem], 0 ≤ compare old.key lower ∧
        compare old.key upper ≤ 0 := by
      intro old member
      refine ⟨?_, ?_⟩
      · have later : old ∈ firstItem :: firstRest := by
          rw [between, List.append_cons]
          exact List.mem_append_left _ member
        rcases List.mem_cons.mp later with rfl | later
        · omega
        · have := beyondFirst old later
          omega
      · rcases List.mem_append.mp member with earlier | last
        · have := belowLast old (earlierIs ▸ List.mem_append_right less earlier)
          omega
        · obtain rfl := List.mem_singleton.mp last
          omega
    have listed : map.bindings = less.map Node.binding ++
        ((visited ++ [lastItem]).map Node.binding ++ lastRest.map Node.binding) := by
      rw [RBTree.bindings, whole]
      simp
    rw [bindings, rangeTaken, listed, List.filter_append, List.filter_append,
      List.filter_eq_nil_iff.mpr, List.filter_eq_self.mpr, List.filter_eq_nil_iff.mpr]
    · simp [RBTree.bindings, rbnew]
    · intro entry member taken
      obtain ⟨old, later, rfl⟩ := List.mem_map.mp member
      have atMost : compare old.key upper ≤ 0 := (of_decide_eq_true taken).2
      have := beyond old later
      omega
    · intro entry member
      obtain ⟨old, here, rfl⟩ := List.mem_map.mp member
      exact decide_eq_true (inside old here)
    · intro entry member taken
      obtain ⟨old, earlier, rfl⟩ := List.mem_map.mp member
      have atLeast : 0 ≤ compare old.key lower := (of_decide_eq_true taken).1
      have := below old earlier
      omega

end ToastStunt.Maps
