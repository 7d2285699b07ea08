import Mathlib.Algebra.Order.Ring.Int
import Mathlib.Data.List.Basic
import Mathlib.Data.List.Nodup
import Mathlib.Logic.Function.Basic

/-!
Lists made of consecutive blocks: every item of an order owns as many entries as
its width says, and the entries stand in one list in that order.
-/

namespace Blocks

variable {α β : Type} [DecidableEq α]

def total (width : α → Nat) (order : List α) : Nat := (order.map width).sum

def offset (width : α → Nat) (target : α) : List α → Option Nat
  | [] => none
  | item :: rest =>
      if target = item then some 0 else (offset width target rest).map (width item + ·)

/-- `entries` is made of the blocks of the items of `order`. -/
structure Laid (width : α → Nat) (order : List α) (block : α → List β) (entries : List β) :
    Prop where
  entries_eq : entries = order.flatMap block
  width_eq : ∀ item ∈ order, (block item).length = width item

variable {width : α → Nat} {order : List α} {block : α → List β} {entries : List β}

theorem offset_none {target : α} : offset width target order = none ↔ target ∉ order := by
  induction order with
  | nil => simp [offset]
  | cons item rest ih =>
      by_cases same : target = item
      · simp [offset, same]
      · simp [offset, same, ih]

theorem offset_of_mem (width : α → Nat) {target : α} (member : target ∈ order) :
    ∃ start, offset width target order = some start := by
  cases found : offset width target order with
  | none => exact absurd member (offset_none.mp found)
  | some start => exact ⟨start, rfl⟩

theorem mem_of_offset {target : α} {start : Nat}
    (found : offset width target order = some start) : target ∈ order := by
  by_contra absent
  rw [offset_none.mpr absent] at found
  cases found

theorem offset_congr {width' : α → Nat} {target : α}
    (same : ∀ item ∈ order, item ≠ target → width' item = width item) :
    offset width' target order = offset width target order := by
  induction order with
  | nil => rfl
  | cons item rest ih =>
      simp only [offset]
      by_cases here : target = item
      · rw [if_pos here, if_pos here]
      · rw [if_neg here, if_neg here, same item (by simp) (Ne.symm here),
          ih fun other member => same other (by simp [member])]

theorem offset_map {γ : Type} [DecidableEq γ] {f : α → γ} {width' : γ → Nat} {target : α}
    (injective : ∀ item ∈ order, f target = f item → target = item)
    (same : ∀ item ∈ order, width' (f item) = width item) :
    offset width' (f target) (order.map f) = offset width target order := by
  induction order with
  | nil => rfl
  | cons item rest ih =>
      rw [List.map_cons, offset, offset, same item (by simp),
        ih (fun other member => injective other (by simp [member]))
          fun other member => same other (by simp [member])]
      by_cases here : target = item
      · rw [if_pos here, if_pos (congrArg f here)]
      · rw [if_neg here, if_neg fun image => here (injective item (by simp) image)]

omit [DecidableEq α] in
theorem total_cons (item : α) (rest : List α) :
    total width (item :: rest) = width item + total width rest := by
  simp [total]

namespace Laid

omit [DecidableEq α] in
theorem nil : Laid width [] block [] := ⟨rfl, nofun⟩

omit [DecidableEq α] in
theorem tail {item : α} {rest : List α} (laid : Laid width (item :: rest) block entries) :
    ∃ later, entries = block item ++ later ∧ (block item).length = width item ∧
      Laid width rest block later := by
  refine ⟨rest.flatMap block, ?_, laid.width_eq item (by simp), rfl, ?_⟩
  · rw [laid.entries_eq, List.flatMap_cons]
  · exact fun other member => laid.width_eq other (by simp [member])

omit [DecidableEq α] in
theorem cons {item : α} {rest : List α} (laid : Laid width rest block entries)
    (fits : (block item).length = width item) :
    Laid width (item :: rest) block (block item ++ entries) := by
  refine ⟨by rw [List.flatMap_cons, laid.entries_eq], ?_⟩
  intro other member
  rcases List.mem_cons.mp member with rfl | later
  · exact fits
  · exact laid.width_eq other later

omit [DecidableEq α] in
theorem congr {block' : α → List β} (laid : Laid width order block entries)
    (same : ∀ item ∈ order, block' item = block item) : Laid width order block' entries := by
  refine ⟨?_, ?_⟩
  · rw [laid.entries_eq]
    exact List.flatMap_congr fun item member => (same item member).symm
  · intro item member
    rw [same item member]
    exact laid.width_eq item member

omit [DecidableEq α] in
theorem width_congr {width' : α → Nat} (laid : Laid width order block entries)
    (same : ∀ item ∈ order, width' item = width item) : Laid width' order block entries :=
  ⟨laid.entries_eq, fun item member => (laid.width_eq item member).trans (same item member).symm⟩

omit [DecidableEq α] in
theorem length (laid : Laid width order block entries) : entries.length = total width order := by
  induction order generalizing entries with
  | nil => simp [laid.entries_eq, total]
  | cons item rest ih =>
      obtain ⟨later, rfl, fits, laidRest⟩ := laid.tail
      rw [List.length_append, fits, ih laidRest, total_cons]

omit [DecidableEq α] in
theorem map (laid : Laid width order block entries) {γ : Type} (f : β → γ) :
    Laid width order (fun item => (block item).map f) (entries.map f) := by
  refine ⟨?_, fun item member => ?_⟩
  · rw [laid.entries_eq, List.map_flatMap]
  · rw [List.length_map]
    exact laid.width_eq item member

theorem slice (laid : Laid width order block entries) {target : α} {start : Nat}
    (found : offset width target order = some start) :
    start + width target ≤ entries.length ∧
      (entries.drop start).take (width target) = block target := by
  induction order generalizing entries start with
  | nil => cases found
  | cons item rest ih =>
      obtain ⟨later, rfl, fits, laidRest⟩ := laid.tail
      simp only [offset] at found
      split at found
      · rename_i same
        subst same
        cases found
        constructor
        · simp only [List.length_append]
          omega
        · rw [List.drop_zero, ← fits]
          exact List.take_left
      · rw [Option.map_eq_some_iff] at found
        obtain ⟨inner, found, rfl⟩ := found
        obtain ⟨bound, cut⟩ := ih laidRest found
        constructor
        · simp only [List.length_append]
          omega
        · rw [← fits, List.drop_length_add_append, cut]

theorem unique {block' : α → List β} (laid : Laid width order block entries)
    (laid' : Laid width order block' entries) {item : α} (member : item ∈ order) :
    block' item = block item := by
  obtain ⟨start, found⟩ := offset_of_mem width member
  rw [← (laid'.slice found).2, (laid.slice found).2]

theorem exists_of_length (nodup : order.Nodup) (length : entries.length = total width order) :
    ∃ block, Laid width order block entries := by
  induction order generalizing entries with
  | nil =>
      have none : entries = [] := List.length_eq_zero_iff.mp length
      subst none
      exact ⟨fun _ => [], nil⟩
  | cons item rest ih =>
      rw [total_cons] at length
      have parts := List.nodup_cons.mp nodup
      have fewer : (entries.drop (width item)).length = total width rest := by
        rw [List.length_drop]
        omega
      obtain ⟨block, laid⟩ := ih parts.2 fewer
      let block' := Function.update block item (entries.take (width item))
      have here : block' item = entries.take (width item) := Function.update_self ..
      have elsewhere : ∀ other ∈ rest, block' other = block other := by
        intro other member
        apply Function.update_of_ne
        rintro rfl
        exact parts.1 member
      have fits : (block' item).length = width item := by
        rw [here, List.length_take]
        omega
      have whole := (laid.congr elsewhere).cons fits
      rw [here, List.take_append_drop] at whole
      exact ⟨block', whole⟩

omit [DecidableEq α] in
theorem of_filter (laid : Laid width order block entries) {order' : List α}
    (same : order'.filter (fun item => width item ≠ 0) =
      order.filter fun item => width item ≠ 0) :
    Laid width order' (fun item => if width item = 0 then [] else block item) entries := by
  have drop (items : List α) :
      items.flatMap (fun item => if width item = 0 then [] else block item) =
        (items.filter fun item => width item ≠ 0).flatMap block := by
    induction items with
    | nil => rfl
    | cons item rest ih =>
        rw [List.flatMap_cons, ih, List.filter_cons]
        by_cases narrow : width item = 0 <;> simp [narrow]
  constructor
  · rw [drop, same, ← drop, laid.entries_eq]
    refine List.flatMap_congr fun item member => ?_
    have fits := laid.width_eq item member
    split
    · exact List.length_eq_zero_iff.mp (by omega)
    · rfl
  · intro item member
    by_cases narrow : width item = 0
    · simp [narrow]
    · have wide : item ∈ order'.filter fun item => width item ≠ 0 := by simp [member, narrow]
      rw [same, List.mem_filter] at wide
      rw [if_neg narrow]
      exact laid.width_eq item wide.1

theorem replace (laid : Laid width order block entries) (nodup : order.Nodup) {target : α}
    {start : Nat} (found : offset width target order = some start) (entries' : List β) :
    Laid (Function.update width target entries'.length) order
      (Function.update block target entries')
      (entries.take start ++ entries' ++ entries.drop (start + width target)) := by
  induction order generalizing entries start with
  | nil => cases found
  | cons item rest ih =>
      obtain ⟨later, rfl, fits, laidRest⟩ := laid.tail
      have parts := List.nodup_cons.mp nodup
      simp only [offset] at found
      split at found
      · rename_i same
        subst same
        cases found
        have elsewhere : ∀ other ∈ rest, other ≠ target := by
          rintro other member rfl
          exact parts.1 member
        let block' := Function.update block target entries'
        let width' := Function.update width target entries'.length
        have keptBlocks : Laid width rest block' later :=
          laidRest.congr fun other member => Function.update_of_ne (elsewhere other member) ..
        have kept : Laid width' rest block' later :=
          keptBlocks.width_congr fun other member =>
            Function.update_of_ne (elsewhere other member) ..
        have fits' : (block' target).length = width' target := by simp [block', width']
        have whole := kept.cons fits'
        have here : block' target = entries' := Function.update_self ..
        rw [here] at whole
        rwa [List.take_zero, List.nil_append, Nat.zero_add, ← fits, List.drop_left]
      · rename_i other
        rw [Option.map_eq_some_iff] at found
        obtain ⟨inner, found, rfl⟩ := found
        have later' := ih laidRest parts.2 found
        have kept : Function.update block target entries' item = block item :=
          Function.update_of_ne (Ne.symm other) ..
        have keptWidth : Function.update width target entries'.length item = width item :=
          Function.update_of_ne (Ne.symm other) ..
        have whole := later'.cons (kept.symm ▸ keptWidth.symm ▸ fits)
        rw [kept] at whole
        rw [← fits, List.take_length_add_append, Nat.add_assoc, List.drop_length_add_append]
        simpa only [List.append_assoc] using whole

end Laid

omit [DecidableEq α] in
theorem insertIdx_block (front middle back : List β) (item : β) {i : Nat}
    (inside : i ≤ middle.length) : (front ++ middle ++ back).insertIdx (front.length + i) item =
      front ++ middle.insertIdx i item ++ back := by
  induction front with
  | nil =>
      simp only [List.nil_append, List.length_nil, Nat.zero_add]
      induction middle generalizing i with
      | nil =>
          have first : i = 0 := by simpa using inside
          simp [first]
      | cons head tail ih =>
          cases i with
          | zero => simp
          | succ i =>
              have shorter : i ≤ tail.length := by simpa using inside
              simp [ih shorter]
  | cons head tail ih =>
      rw [List.length_cons, Nat.add_right_comm]
      simpa using ih

omit [DecidableEq α] in
theorem eraseIdx_block (front middle back : List β) {i : Nat} (inside : i < middle.length) :
    (front ++ middle ++ back).eraseIdx (front.length + i) =
      front ++ middle.eraseIdx i ++ back := by
  have before : front.length + i < (front ++ middle).length := by
    rw [List.length_append]
    omega
  rw [List.eraseIdx_append_of_lt_length before,
    List.eraseIdx_append_of_length_le (Nat.le_add_right ..), Nat.add_sub_cancel_left]

theorem Laid.around (laid : Laid width order block entries) {target : α} {start : Nat}
    (found : offset width target order = some start) :
    entries = entries.take start ++ block target ++ entries.drop (start + width target) ∧
      (entries.take start).length = start := by
  obtain ⟨bound, cut⟩ := laid.slice found
  constructor
  · rw [← cut, ← List.drop_drop, List.append_assoc, List.take_append_drop,
      List.take_append_drop]
  · rw [List.length_take]
    omega

theorem Laid.insert (laid : Laid width order block entries) (nodup : order.Nodup) {target : α}
    {start i : Nat} (found : offset width target order = some start)
    (inside : i ≤ width target) (item : β) :
    Laid (Function.update width target (width target + 1)) order
      (Function.update block target ((block target).insertIdx i item))
      (entries.insertIdx (start + i) item) := by
  obtain ⟨cut, front⟩ := laid.around found
  have fits := laid.width_eq target (mem_of_offset found)
  have replaced := laid.replace nodup found ((block target).insertIdx i item)
  have longer : ((block target).insertIdx i item).length = width target + 1 := by
    rw [List.length_insertIdx, if_pos (by omega), fits]
  have moved := insertIdx_block (entries.take start) (block target)
    (entries.drop (start + width target)) item (fits ▸ inside)
  rw [← cut, front] at moved
  rwa [longer, ← moved] at replaced

theorem Laid.erase (laid : Laid width order block entries) (nodup : order.Nodup) {target : α}
    {start i : Nat} (found : offset width target order = some start)
    (inside : i < width target) :
    Laid (Function.update width target (width target - 1)) order
      (Function.update block target ((block target).eraseIdx i))
      (entries.eraseIdx (start + i)) := by
  obtain ⟨cut, front⟩ := laid.around found
  have fits := laid.width_eq target (mem_of_offset found)
  have replaced := laid.replace nodup found ((block target).eraseIdx i)
  have shorter : ((block target).eraseIdx i).length = width target - 1 := by
    rw [List.length_eraseIdx, if_pos (by omega), fits]
  have moved := eraseIdx_block (entries.take start) (block target)
    (entries.drop (start + width target)) (fits ▸ inside)
  rw [← cut, front] at moved
  rwa [shorter, ← moved] at replaced

end Blocks
