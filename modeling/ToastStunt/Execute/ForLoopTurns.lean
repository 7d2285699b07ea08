import ToastStunt.Execute.ForLoops

/-!
What one turn of a loop does: from where the loop stands among the elements to the next of them.
-/

namespace ToastStunt.Loops

open Counting Dbio ToastStunt.Execute ToastStunt.Lists Maps Numbers OrderedTable RedBlack ColorTree

/-! Positions of strings and lists. -/

def AtPosition (iter : Iter) (n : Nat) : Prop :=
  ∃ num : Num, started iter = .key (.int num) ∧ num.val = n + 1

theorem atPosition_start : AtPosition .none 0 := ⟨wrap 1, rfl, wrap_val (by decide) (by decide)⟩

theorem numbered_drop {items : List Var} {n : Nat} (inside : n < items.length) :
    (numbered items).drop n =
      ⟨items[n], some (.int (natNum (n + 1)))⟩ :: (numbered items).drop (n + 1) := by
  have long : n < (numbered items).length := by simpa [numbered] using inside
  rw [List.drop_eq_getElem_cons long]
  simp [numbered, Nat.add_comm]

theorem numbered_done {items : List Var} {n : Nat} (outside : items.length ≤ n) :
    (numbered items).drop n = [] :=
  List.drop_eq_nil_iff.mpr (by simpa [numbered] using outside)

theorem forPositions_over {base : Base} {items : List Var} {element : Int → Option Var}
    {iter : Iter} {n : Nat} (stands : AtPosition iter n) (outside : items.length ≤ n) :
    forPositions base items.length element iter = some .over := by
  obtain ⟨num, start, position⟩ := stands
  rw [forPositions, start]
  exact if_pos (by omega)

theorem forPositions_next {base : Base} {items : List Var} {element : Int → Option Var}
    {iter : Iter} {n : Nat} (stands : AtPosition iter n) (inside : n < items.length)
    (small : items.length < 2 ^ 31) (there : element (n + 1) = some items[n]) :
    ∃ iter', AtPosition iter' (n + 1) ∧ forPositions base items.length element iter =
      some (.bind ⟨items[n], some (.int (natNum (n + 1)))⟩ (.each base iter')) := by
  obtain ⟨num, start, position⟩ := stands
  have index : num = natNum (n + 1) :=
    Num.ext_val (position.trans (natNum_val (by omega : n + 1 < 2 ^ 31)).symm)
  have next : (wrap (num.val + 1)).val = num.val + 1 := wrap_val (by omega) (by omega)
  refine ⟨.key (.int (wrap (num.val + 1))), ⟨_, rfl, next.trans (by omega)⟩, ?_⟩
  have notOver : ¬num.val > items.length := by omega
  rw [forPositions, start]
  simp only
  rw [if_neg notOver, position, there, ← position, index]
  rfl

theorem forPositions_stands (base : Base) (items : List Var) (element : Int → Option Var)
    {iter : Iter} {n : Nat} (stands : AtPosition iter n) (small : items.length < 2 ^ 31)
    (elements : ∀ i (inside : i < items.length), element (i + 1) = some items[i]) :
    ((numbered items).drop n = [] ∧ forPositions base items.length element iter = some .over) ∨
    ∃ visit iter', (numbered items).drop n = visit :: (numbered items).drop (n + 1) ∧
      AtPosition iter' (n + 1) ∧
      forPositions base items.length element iter = some (.bind visit (.each base iter')) := by
  by_cases inside : n < items.length
  · obtain ⟨iter', next, ran⟩ :=
      @forPositions_next base _ _ _ _ stands inside small (elements n inside)
    exact .inr ⟨_, iter', numbered_drop inside, next, ran⟩
  · exact .inl ⟨numbered_done (by omega), forPositions_over stands (by omega)⟩

theorem strget_chars {str : CString} (small : (str.length : Int) < 2 ^ 31 - 1) {i : Nat}
    (inside : i < (chars str).length) : strget str (toInt (i + 1)) = some (chars str)[i] := by
  have within : i < str.length := by simpa [chars] using inside
  rw [toInt_eq (by omega) (by omega), strget, element_eq, List.getElem?_eq_getElem within]
  simp [chars]

/-! Nodes of maps. -/

/-- The loop has still to visit these bindings of the map. -/
inductive AtNode (map : RBTree Key Var) : Iter → List (Key × Var) → Prop
  | start : AtNode map .none map.bindings
  | trav {trav : Trav Key Var} {items : List (Maps.Node Key Var)}
      (reached : Reached map.root true trav items) :
      AtNode map (.iter trav.pointers) (items.map Maps.Node.binding)
  | key {key : Key} {value : Var} {visited rest : List (Key × Var)}
      (split : map.bindings = visited ++ (key, value) :: rest) :
      AtNode map (.key key) ((key, value) :: rest)
  | clear : AtNode map .clear []

theorem bindings_revalue (f : Key → Var → Var) (map : RBTree Key Var) :
    (map.revalue f).bindings = map.bindings.map fun entry => (entry.1, f entry.1 entry.2) := by
  simp [RBTree.bindings, RBTree.revalue, inorder_map, Maps.Node.binding, Maps.Node.revalue]

theorem AtNode.revalued {map : RBTree Key Var} {iter : Iter} {rest : List (Key × Var)}
    (stands : AtNode map iter rest) (f : Key → Var → Var) :
    AtNode (map.revalue f) iter (rest.map fun entry => (entry.1, f entry.1 entry.2)) := by
  cases stands with
  | start => exact bindings_revalue f map ▸ .start
  | trav reached =>
      obtain ⟨trav', same, reached'⟩ := reached.revalued f
      have stands' : AtNode (map.revalue f) (.iter trav'.pointers) _ := .trav reached'
      rw [same] at stands'
      simpa [Maps.Node.binding, Maps.Node.revalue, Function.comp_def] using stands'
  | key split =>
      have split' := bindings_revalue f map
      rw [split, List.map_append, List.map_cons] at split'
      exact .key split'
  | clear => exact .clear

theorem kept_revalue {Used : Key → Prop} {map : RBTree Key Var} (kept : Execute.Kept Used map)
    (f : Key → Var → Var) : Execute.Kept Used (map.revalue f) := by
  have keys : (map.revalue f).bindings.map Prod.fst = map.bindings.map Prod.fst := by
    simp [bindings_revalue, Function.comp_def]
  constructor
  · obtain ⟨sorted, black, ⟨blacks, valid⟩, size, apart⟩ := kept.well
    refine ⟨?_, ?_, ⟨blacks, valid_map valid _⟩, ?_, ?_⟩
    · have onKeys (entries : List (Key × Var)) : Sorted (compare false) entries ↔
          (entries.map Prod.fst).Pairwise fun first second => compare false first second < 0 := by
        rw [List.pairwise_map, Sorted]
      rw [onKeys, keys, ← onKeys]
      exact sorted
    · exact (isRed_map _ _).trans black
    · have count : (map.root.map (Maps.Node.revalue f)).count = map.root.count := by
        rw [← inorder_length, inorder_map, List.length_map, inorder_length]
      exact size.trans count.symm
    · have addrs : (map.root.map (Maps.Node.revalue f)).inorder.map Maps.Node.addr =
          map.root.inorder.map Maps.Node.addr := by
        simp [inorder_map, Function.comp_def, Maps.Node.revalue]
      rw [RBTree.revalue, addrs]
      exact apart
  · intro entry member
    have inside : entry.1 ∈ map.bindings.map Prod.fst := keys ▸ List.mem_map_of_mem member
    obtain ⟨old, there, same⟩ := List.mem_map.mp inside
    exact same ▸ kept.all old there

def Found (map : RBTree Key Var) (rest : List (Key × Var)) : Option (Trav Key Var) → Prop
  | none => rest = []
  | some trav => ∃ items, Reached map.root true trav items ∧ rest = items.map Maps.Node.binding

theorem split_unique {α : Type} {P : α → Prop} {before after before' after' : List α} {x y : α}
    (same : before ++ x :: after = before' ++ y :: after') (here : P y)
    (others : ∀ z ∈ before, ¬P z) (later : ∀ z ∈ after, ¬P z) : x :: after = y :: after' := by
  rcases List.append_eq_append_iff.mp same with ⟨more, rfl, rest⟩ | ⟨more, rfl, rest⟩
  · cases more with
    | nil => exact rest
    | cons first more =>
        obtain ⟨rfl, rfl⟩ := List.cons.inj rest
        exact absurd here (later y (by simp))
  · cases more with
    | nil => exact rest.symm
    | cons first more =>
        obtain ⟨rfl, _⟩ := List.cons.inj rest
        exact absurd here (others y (by simp))

theorem typeCode_ne_clear (key : Key) : key.typeCode ≠ clearType := by
  cases key <;> simp [Key.typeCode, complexFlag, clearType]

theorem typeCode_le_of_order {a b : Key} (atMost : a.order b ≤ 0) : a.typeCode ≤ b.typeCode := by
  by_contra beyond
  rw [order_of_ne (by omega)] at atMost
  omega

section

variable {Used : Key → Prop} (same : SameOrder (compare false) Key.order Used)
  {map : RBTree Key Var}

include same

theorem key_found (kept : Execute.Kept Used map) (small : map.size < 2 ^ 31) {key : Key}
    {value : Var} {visited rest : List (Key × Var)} (split : map.bindings = visited ++ (key, value) :: rest) :
    ∃ found, mapseek map key = some found ∧ Found map ((key, value) :: rest) found := by
  have order := same.totalPreorder (order_total Used)
  have used : Used key := kept.all (key, value) (by simp [split])
  have zero : compare false key key = 0 := order.refl used
  obtain ⟨trav, item, later, ran, reached, equal⟩ :=
    kept.found order small used ⟨(key, value), by simp [split], zero⟩
  obtain ⟨earlier, whole, below, beyond⟩ :=
    standing_splits order kept.well kept.all reached used equal
  refine ⟨some trav, ran, item :: later, reached, ?_⟩
  have twice : earlier.map Maps.Node.binding ++ item.binding :: later.map Maps.Node.binding =
      visited ++ (key, value) :: rest := by
    rw [← split, RBTree.bindings, whole, List.map_append, List.map_cons]
  symm
  refine @split_unique _ (fun entry => compare false entry.1 key = 0) _ _ _ _ _ _ twice zero ?_ ?_
  · intro entry member
    obtain ⟨old, inside, rfl⟩ := List.mem_map.mp member
    exact Int.ne_of_lt (below old inside)
  · intro entry member
    obtain ⟨old, inside, rfl⟩ := List.mem_map.mp member
    exact Int.ne_of_gt (beyond old inside)

theorem clear_found (kept : Execute.Kept Used map) (small : map.size < 2 ^ 31) :
    ∃ found, seekClear map = some found ∧ Found map [] found := by
  have order := same.totalPreorder (order_total Used)
  have steered : map.root.inorder.Pairwise fun first second : Maps.Node Key Var =>
      second.key.typeCode - clearType ≤ 0 → first.key.typeCode - clearType < 0 := by
    have sorted := kept.well.sorted
    rw [Sorted, RBTree.bindings, List.pairwise_map] at sorted
    refine sorted.imp_of_mem fun {first second} memberFirst memberSecond less atMost => ?_
    have ascending := (same.lt _ _ (kept.all _ (mem_bindings memberFirst))
      (kept.all _ (mem_bindings memberSecond))).mp less
    have types := typeCode_le_of_order (Int.le_of_lt ascending)
    have other := typeCode_ne_clear second.key
    simp only [Maps.Node.binding] at types
    omega
  rcases @rbseek_reaches _ _ (fun key _ => key.typeCode - clearType) (.bool false) map.root []
      (Nat.le_of_lt (kept.well.low small)) steered with ⟨_, item, _, _, _, zero⟩ | ⟨ran, _⟩
  · have other := typeCode_ne_clear item.key
    change item.key.typeCode - clearType = 0 at zero
    omega
  · exact ⟨none, ran, rfl⟩

theorem AtNode.found {iter : Iter} {rest : List (Key × Var)} (stands : AtNode map iter rest)
    (kept : Execute.Kept Used map) (small : map.size < 2 ^ 31) :
    ∃ found, mapIter map iter = some found ∧ Found map rest found := by
  cases stands with
  | start =>
      obtain ⟨trav, ran, reached⟩ := rbstart_reaches map true (Nat.le_of_lt (kept.well.low small))
      refine ⟨some trav, ?_, _, reached, rfl⟩
      rw [mapIter, rbtfirst]
      exact congrArg (Option.map some) ran
  | trav reached =>
      obtain ⟨trav', followed, reached'⟩ := reached.at_pointers kept.well.apart
      exact ⟨some trav', by simp [mapIter, followed], _, reached', rfl⟩
  | key split => exact key_found same kept small split
  | clear => exact clear_found same kept small

theorem forMap_over {base : Base} {iter : Iter} (stands : AtNode map iter [])
    (kept : Execute.Kept Used map) (small : map.size < 2 ^ 31) : forMap base map iter = some .over := by
  obtain ⟨found, ran, stood⟩ := stands.found same kept small
  rw [forMap, ran]
  cases found with
  | none => rfl
  | some trav =>
      obtain ⟨items, reached, none⟩ := stood
      obtain rfl := List.map_eq_nil_iff.mp none.symm
      simp [reached.at_end]

theorem forMap_next {base : Base} {iter : Iter} {entry : Key × Var} {rest : List (Key × Var)}
    (stands : AtNode map iter (entry :: rest)) (kept : Execute.Kept Used map)
    (small : map.size < 2 ^ 31) :
    ∃ iter', AtNode map iter' rest ∧
      forMap base map iter = some (.bind (entryVisit entry) (.each base iter')) := by
  obtain ⟨found, ran, stood⟩ := stands.found same kept small
  cases found with
  | none => cases stood
  | some trav =>
      obtain ⟨items, reached, some⟩ := stood
      cases items with
      | nil => cases some
      | cons item items =>
          obtain ⟨rfl, rfl⟩ := List.cons.inj some
          obtain ⟨red, left, right, it⟩ := reached.here
          obtain ⟨next, moved, onward⟩ :=
            rbmove_reaches kept.well.apart (Nat.le_of_lt (kept.well.low small)) reached
          refine ⟨_, .trav onward, ?_⟩
          simp [forMap, ran, it, rbtnext, moved, entryVisit, Maps.Node.binding]

end

/-! Writes into what is iterated over. -/

/-- Elements that the loop has bound may change, and those that it has still to bind do not. -/
inductive Spares (iter : Iter) : Collection → Collection → Prop
  | list {items items' : List Var} (same : items'.length = items.length)
      (left : ∀ n, AtPosition iter n → items'.drop n = items.drop n) :
      Spares iter (.list items) (.list items')
  | map {map : RBTree Key Var} {f : Key → Var → Var}
      (left : ∀ rest, AtNode map iter rest → ∀ entry ∈ rest, f entry.1 entry.2 = entry.2) :
      Spares iter (.map map) (.map (map.revalue f))

theorem renumberedIn_length (old new : Num) (items : List Var) :
    (renumberedIn old new items).length = items.length := by
  fun_induction renumberedIn old new items with
  | case1 => rfl
  | case2 => rfl
  | case3 oid rest _ ih => rw [List.length_cons, ih, List.length_cons]
  | case4 item rest _ ih => rw [List.length_cons, ih, List.length_cons]

theorem renumberedIn_absent {old new : Num} {items : List Var} (absent : .obj old ∉ items) :
    renumberedIn old new items = items := by
  fun_induction renumberedIn old new items with
  | case1 => rfl
  | case2 rest => exact absurd List.mem_cons_self absent
  | case3 oid rest _ ih => rw [ih fun inside => absent (List.mem_cons_of_mem _ inside)]
  | case4 item rest _ ih => rw [ih fun inside => absent (List.mem_cons_of_mem _ inside)]

theorem renumberedIn_spares {iter : Iter} {old new : Num} {items : List Var}
    (passed : ∀ n, AtPosition iter n → .obj old ∉ items.drop n) :
    Spares iter (.list items) (.list (renumberedIn old new items)) := by
  refine .list (renumberedIn_length old new items) fun n stands => ?_
  have absent := passed n stands
  clear passed stands
  induction items generalizing n with
  | nil => rfl
  | cons item rest ih =>
      cases n with
      | zero => exact renumberedIn_absent absent
      | succ n =>
          rw [List.drop_succ_cons] at absent ⊢
          cases item with
          | obj oid =>
              rw [renumberedIn]
              split
              · rfl
              · exact ih n absent
          | _ => exact ih n absent

/-- What a step of the body must not do: write where the loop has still to go, or load the database
when a part of the value is not read back as it was written. -/
def Permitted (codecs : Codecs) (s : LoopState) : Event → Prop
  | .moves => True
  | .writes addr content' => ∀ iter content, s.slots = .each (.block addr) iter →
      s.heap.content addr = some content → Spares iter content content'
  | .reload => ∀ base iter value, s.slots = .each base iter → base.value s.heap = some value →
      PartsReadBack codecs value

/-! Ranges. -/

theorem wrap_self (num : Num) : wrap (num.val + (0 : Nat)) = num := by
  rw [Int.natCast_zero, Int.add_zero]
  exact Num.ext_val (wrap_val num.low num.high)

theorem upTo_done {first last : Num} (beyond : last.val < first.val) : upTo first last = [] := by
  rw [upTo, show (last.val - first.val + 1).toNat = 0 by omega]
  rfl

theorem upTo_next {first last next : Num} (inside : first.val ≤ last.val)
    (after : next.val = first.val + 1) : upTo first last = first :: upTo next last := by
  have more : (last.val - first.val + 1).toNat = (last.val - next.val + 1).toNat + 1 := by omega
  rw [upTo, more, List.range_succ_eq_map, List.map_cons, List.map_map, upTo]
  congr 1
  · exact wrap_self first
  · refine List.map_congr_left fun k _ => ?_
    rw [Function.comp_apply, after]
    congr 1
    omega

theorem countUp_over (make : Num → Var) {first last : Num} (beyond : last.val < first.val) :
    countUp make first last = .over := if_pos beyond

theorem countUp_next (make : Num → Var) {first last : Num} (inside : first.val ≤ last.val) :
    ∃ first' last', countUp make first last =
        .bind ⟨make first, none⟩ (.range (make first') (make last')) ∧
      upTo first last = first :: upTo first' last' := by
  have notOver : ¬first.val > last.val := by omega
  have low := first.low
  rw [countUp, if_neg notOver]
  by_cases below : first.val < maxint.val
  · rw [if_pos below]
    have bound : first.val < 2 ^ 63 - 1 := below
    exact ⟨_, _, rfl, upTo_next inside (wrap_val (by omega) (by omega))⟩
  · rw [if_neg below]
    have top : first.val = 2 ^ 63 - 1 := by
      have high := first.high
      have most : maxint.val = 2 ^ 63 - 1 := rfl
      omega
    have high := last.high
    have before : (wrap (last.val - 1)).val = last.val - 1 := wrap_val (by omega) (by omega)
    refine ⟨_, _, rfl, ?_⟩
    rw [@upTo_done first (wrap (last.val - 1)) (by omega), upTo,
      show (last.val - first.val + 1).toNat = 1 by omega]
    exact congrArg (· :: []) (wrap_self first)

theorem countUp_stands (make : Num → Var) (first last : Num) :
    (upTo first last = [] ∧ countUp make first last = .over) ∨
    ∃ first' last', upTo first last = first :: upTo first' last' ∧
      countUp make first last = .bind ⟨make first, none⟩ (.range (make first') (make last')) := by
  by_cases inside : first.val ≤ last.val
  · obtain ⟨first', last', ran, listed⟩ := countUp_next make inside
    exact .inr ⟨first', last', listed, ran⟩
  · have beyond : last.val < first.val := by omega
    exact .inl ⟨upTo_done beyond, countUp_over make beyond⟩

end ToastStunt.Loops
