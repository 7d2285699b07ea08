import Mathlib.Data.List.Perm.Subperm
import ToastStunt.Maps.Contents

/-!
Maps that are put together from bindings: no binding is made, whatever `compare` says of the
keys, and bindings that come in order are listed in that order.
-/

namespace ToastStunt.Maps

open RedBlack ColorTree

section Trees

variable {κ ν : Type} {compare : κ → κ → Int} {key : κ}

theorem plug_perm (above : Path κ ν) (tree : ColorTree (Node κ ν)) :
    (plug above tree).inorder.Perm ((plug above nil).inorder ++ tree.inorder) := by
  rw [inorder_plug, inorder_plug, inorder_nil, List.append_nil, List.append_assoc, List.append_assoc]
  exact List.Perm.append_left _ List.perm_append_comm

/-! Deletion. -/

theorem rbsingle_link {dir : Bool} {tree top : ColorTree (Node κ ν)}
    (turned : rbsingle tree dir = some top) : link (link top dir) dir = link tree dir := by
  unfold rbsingle at turned
  split at turned
  · obtain rfl := Option.some.inj turned
    rfl
  · obtain rfl := Option.some.inj turned
    rfl
  · cases turned

theorem rbdouble_link {dir : Bool} {tree top : ColorTree (Node κ ν)}
    (turned : rbdouble tree dir = some top) : link (link top dir) dir = link tree dir := by
  cases tree with
  | nil => cases dir <;> cases turned
  | node red left item right =>
      cases dir with
      | false =>
          obtain ⟨side, first, second⟩ := Option.bind_eq_some_iff.mp turned
          exact (rbsingle_link second).trans rfl
      | true =>
          obtain ⟨side, first, second⟩ := Option.bind_eq_some_iff.mp turned
          exact (rbsingle_link second).trans rfl

theorem recolour_link {top painted : ColorTree (Node κ ν)} (ran : recolour top = some painted)
    (dir dir' : Bool) : link (link painted dir) dir' = link (link top dir) dir' := by
  unfold recolour at ran
  split at ran
  · obtain rfl := Option.some.inj ran
    cases dir <;> rfl
  · cases ran

theorem follow_link {above path : Path κ ν} {dir : Bool} {tree next : ColorTree (Node κ ν)}
    (down : follow above dir tree = some (path, next)) : next = link tree dir := by
  cases tree with
  | nil => cases down
  | node red left item right => cases dir <;> cases down <;> rfl

theorem link_fill (q : Frame (Node κ ν)) (next : ColorTree (Node κ ν)) :
    link (q.fill next) q.dir = next := by
  obtain ⟨dir, red, item, other⟩ := q
  cases dir <;> rfl

theorem pushRed_inorder {above path : Path κ ν} {q : Frame (Node κ ν)}
    {next : ColorTree (Node κ ν)} (ran : pushRed above q next = some path) :
    (plug path next).inorder = (plug (q :: above) next).inorder := by
  unfold pushRed at ran
  split at ran
  · obtain rfl := Option.some.inj ran
    rfl
  · split at ran
    · obtain ⟨top, turned, ran⟩ := Option.bind_eq_some_iff.mp ran
      obtain ⟨⟨above', q'⟩, first, ran⟩ := Option.bind_eq_some_iff.mp ran
      obtain ⟨⟨path', next'⟩, second, rfl⟩ := Option.map_eq_some_iff.mp ran
      have last : next' = next := by
        rw [follow_link second, follow_link first, rbsingle_link turned, link_fill]
      rw [← last, follow_plug second, follow_plug first, last]
      exact plug_congr (rbsingle_inorder turned)
    · split at ran
      · obtain rfl := Option.some.inj ran
        rfl
      · rename_i p rest
        split at ran
        · obtain rfl := Option.some.inj ran
          rfl
        · rename_i red left s right sibling
          simp only at ran
          split at ran
          · obtain ⟨top, turned, ran⟩ := Option.bind_eq_some_iff.mp ran
            obtain ⟨painted, recoloured, ran⟩ := Option.bind_eq_some_iff.mp ran
            obtain ⟨⟨above, p'⟩, first, ran⟩ := Option.bind_eq_some_iff.mp ran
            obtain ⟨⟨above', q'⟩, second, ran⟩ := Option.bind_eq_some_iff.mp ran
            obtain ⟨⟨path', next'⟩, third, same⟩ := Option.map_eq_some_iff.mp ran
            have rotated : top.inorder = (p.fill (q.fill next)).inorder ∧
                link (link top p.dir) p.dir = link (p.fill (q.fill next)) p.dir := by
              split at turned
              · exact ⟨rbdouble_inorder turned, rbdouble_link turned⟩
              · exact ⟨rbsingle_inorder turned, rbsingle_link turned⟩
            have last : next' = next := by
              rw [follow_link third, follow_link second, follow_link first,
                recolour_link recoloured, rotated.2, link_fill, link_fill]
            have kept : (plug path next).inorder = (plug path' next).inorder := by
              subst same
              cases path' with
              | nil => rfl
              | cons q' above' =>
                  rw [inorder_plug, inorder_plug]
                  rfl
            rw [kept, ← last, follow_plug third, follow_plug second, follow_plug first, last]
            exact plug_congr ((recolour_inorder recoloured).trans rotated.1)
          · obtain rfl := Option.some.inj ran
            rw [inorder_plug, inorder_plug]
            cases dir : p.dir <;> simp [before, after, redden, dir, sibling] <;> rfl

theorem eraseLoop_inorder {q : ColorTree (Node κ ν)} {above path : Path κ ν}
    {found found' : Option Nat}
    (ran : eraseLoop compare key q above found = some (path, found')) :
    (plug path nil).inorder = (plug above q).inorder := by
  induction q generalizing above found with
  | nil =>
      obtain ⟨rfl, _⟩ := Prod.mk.inj (Option.some.inj ran)
      rfl
  | node red left item right left_ih right_ih =>
      rw [eraseLoop] at ran
      split at ran
      · obtain ⟨above', pushed, ran⟩ := Option.bind_eq_some_iff.mp ran
        exact (right_ih ran).trans (pushRed_inorder pushed)
      · obtain ⟨above', pushed, ran⟩ := Option.bind_eq_some_iff.mp ran
        exact (left_ih ran).trans (pushRed_inorder pushed)

theorem overwrite_subperm (addr : Nat) (data : Node κ ν) (items : List (Node κ ν))
    (apart : (items.map Node.addr).Nodup) :
    ((items.map (overwrite addr data)).map Node.binding).Subperm
      (data.binding :: items.map Node.binding) := by
  induction items with
  | nil => exact List.nil_subperm
  | cons item rest ih =>
      rw [List.map_cons, List.nodup_cons] at apart
      by_cases same : item.addr = addr
      · have kept : rest.map (overwrite addr data) = rest := by
          refine (List.map_congr_left fun other member => ?_).trans (List.map_id rest)
          have apartHere : other.addr ≠ addr := by
            rintro equal
            exact apart.1 (same ▸ equal ▸ List.mem_map_of_mem member)
          rw [overwrite, if_neg apartHere, id]
        rw [List.map_cons, kept, overwrite, if_pos same]
        exact ((List.sublist_cons_self item.binding (rest.map Node.binding)).cons_cons _).subperm
      · rw [List.map_cons, overwrite, if_neg same, List.map_cons, List.map_cons]
        exact ((List.subperm_cons item.binding).mpr (ih apart.2)).trans
          (List.Perm.swap _ _ _).subperm

def Apart (map : RBTree κ ν) : Prop := (map.root.inorder.map Node.addr).Nodup

/-- All nodes are left, or all but one of them, with its data in the place of others perhaps. -/
theorem rberase_inorder {map map' : RBTree κ ν} {found : Bool}
    (ran : rberase compare map key = some (map', found)) :
    found = false ∧ map'.root.inorder = map.root.inorder ∨
      found = true ∧ ∃ item items addr, (item :: items).Perm map.root.inorder ∧
        map'.root.inorder = items.map (overwrite addr item) := by
  unfold rberase at ran
  split at ran
  · obtain ⟨rfl, rfl⟩ := Prod.mk.inj (Option.some.inj ran)
    exact .inl ⟨rfl, rfl⟩
  · obtain ⟨⟨path, found'⟩, looped, ran⟩ := Option.bind_eq_some_iff.mp ran
    have same : (plug path nil).inorder = map.root.inorder := eraseLoop_inorder looped
    simp only at ran
    split at ran
    · cases ran
    · rename_i q above
      obtain ⟨rfl, rfl⟩ := Prod.mk.inj (Option.some.inj ran)
      refine .inl ⟨rfl, ?_⟩
      rw [inorder_blacken]
      exact same
    · rename_i q above addr
      obtain ⟨rfl, rfl⟩ := Prod.mk.inj (Option.some.inj ran)
      refine .inr ⟨rfl, q.item, (plug above q.other).inorder, addr, ?_, ?_⟩
      · have filled : (q.item :: q.other.inorder).Perm (q.fill nil).inorder := by
          cases dir : q.dir with
          | false => simp [Frame.fill, dir]
          | true =>
              have turned : ([q.item] ++ q.other.inorder).Perm (q.other.inorder ++ [q.item]) :=
                List.perm_append_comm
              simpa [Frame.fill, dir] using turned
        rw [← same]
        refine List.Perm.trans ?_ (plug_perm above (q.fill nil)).symm
        refine ((plug_perm above q.other).cons q.item).trans ?_
        exact List.perm_middle.symm.trans (List.Perm.append_left _ filled)
      · rw [inorder_blacken, inorder_map]

theorem rberase_subperm {map map' : RBTree κ ν} {found : Bool} (apart : Apart map)
    (ran : rberase compare map key = some (map', found)) :
    map'.bindings.Subperm map.bindings ∧ Apart map' := by
  rcases rberase_inorder ran with ⟨_, same⟩ | ⟨_, item, items, addr, whole, left⟩
  · rw [RBTree.bindings, RBTree.bindings, Apart, same]
    exact ⟨List.Subperm.refl _, apart⟩
  · have apartBelow := (whole.map Node.addr).nodup_iff.mpr apart
    rw [List.map_cons, List.nodup_cons] at apartBelow
    rw [RBTree.bindings, RBTree.bindings, Apart, left]
    refine ⟨?_, ?_⟩
    · exact (overwrite_subperm addr item _ apartBelow.2).trans (whole.map Node.binding).subperm
    · rw [List.map_map, show Node.addr ∘ overwrite addr item = Node.addr from
        funext fun other => overwrite_addr addr item other]
      exact apartBelow.2

theorem rberase_missed {map map' : RBTree κ ν} (ran : rberase compare map key = some (map', false)) :
    map'.bindings = map.bindings := by
  rcases rberase_inorder ran with ⟨_, same⟩ | ⟨found, _⟩
  · rw [RBTree.bindings, RBTree.bindings, same]
  · cases found

theorem rberase_shorter {map map' : RBTree κ ν} (ran : rberase compare map key = some (map', true)) :
    map'.bindings.length < map.bindings.length := by
  rcases rberase_inorder ran with ⟨found, _⟩ | ⟨_, item, items, addr, whole, left⟩
  · cases found
  · have counted := whole.length_eq
    rw [RBTree.bindings, RBTree.bindings, left, List.length_map, List.length_map, List.length_map,
      ← counted, List.length_cons]
    omega

/-! Insertion. -/

def topItem : ColorTree (Node κ ν) → Option (Node κ ν)
  | nil => none
  | node _ _ item _ => some item

theorem rbsingle_outer {dir : Bool} {tree top : ColorTree (Node κ ν)}
    (turned : rbsingle tree dir = some top) :
    link top (!dir) = link (link tree (!dir)) (!dir) ∧ topItem top = topItem (link tree (!dir)) := by
  unfold rbsingle at turned
  split at turned
  · obtain rfl := Option.some.inj turned
    exact ⟨rfl, rfl⟩
  · obtain rfl := Option.some.inj turned
    exact ⟨rfl, rfl⟩
  · cases turned

theorem rbdouble_item {dir : Bool} {tree top : ColorTree (Node κ ν)}
    (turned : rbdouble tree dir = some top) :
    topItem top = topItem (link (link tree (!dir)) dir) := by
  cases tree with
  | nil => cases dir <;> cases turned
  | node red left item right =>
      cases dir with
      | false =>
          obtain ⟨side, first, second⟩ := Option.bind_eq_some_iff.mp turned
          exact (rbsingle_outer second).2.trans (rbsingle_outer first).2
      | true =>
          obtain ⟨side, first, second⟩ := Option.bind_eq_some_iff.mp turned
          exact (rbsingle_outer second).2.trans (rbsingle_outer first).2

theorem repairRed_item {s : Search κ ν} {q q' : ColorTree (Node κ ν)} {above : Path κ ν}
    (ran : repairRed s q = some (above, q')) : topItem q' = topItem q := by
  unfold repairRed at ran
  split at ran
  · split at ran
    · rename_i p g rest path
      split at ran
      · rename_i helpers
        have grand : link (g.fill (p.fill q)) s.last = p.fill q := by
          rw [← helpers.2.2, link_fill]
        split at ran
        · rename_i side
          obtain ⟨top, turned, down⟩ := Option.bind_eq_some_iff.mp ran
          have outer := (rbsingle_outer turned).1
          rw [Bool.not_not, grand, ← side, link_fill] at outer
          rw [follow_link down, ← side, outer]
        · rename_i side
          obtain ⟨top, turned, same⟩ := Option.map_eq_some_iff.mp ran
          obtain ⟨rfl, rfl⟩ := Prod.mk.inj same
          have across : p.dir = !s.last := by
            cases dir : p.dir <;> cases last : s.last <;> simp_all
          rw [rbdouble_item turned, Bool.not_not, grand, ← across, link_fill]
      · cases ran
    · cases ran
  · obtain ⟨rfl, rfl⟩ := Prod.mk.inj (Option.some.inj ran)
    rfl

theorem insertLoop_inorder {item : Node κ ν} (self : compare item.key item.key = 0) {fuel : Nat}
    {s : Search κ ν} {root : ColorTree (Node κ ν)}
    (ran : insertLoop compare item fuel s = some root) :
    root.inorder.Perm (plug s.above s.q).inorder ∨
      root.inorder.Perm (item :: (plug s.above s.q).inorder) := by
  induction fuel generalizing s with
  | zero => cases ran
  | succ fuel ih =>
      obtain ⟨⟨above, q⟩, repaired, ran⟩ := Option.bind_eq_some_iff.mp ran
      have kept := repairRed_inorder repaired
      have same := repairRed_item repaired
      cases place : s.q with
      | nil =>
          rw [place] at kept same
          cases q with
          | nil => cases ran
          | node red left old right =>
              obtain rfl : old = item := by simpa [topItem, growOrFlip, newNode] using same
              simp only [self, if_true, Option.some.injEq] at ran
              obtain rfl := ran
              right
              rw [kept]
              exact (plug_perm _ _).trans List.perm_append_comm
      | node red left old right =>
          have flipped : (growOrFlip item (node red left old right)).inorder =
              (node red left old right).inorder := by
            rw [growOrFlip]
            split <;> simp
          rw [place] at kept
          have carried := kept.trans (plug_congr flipped)
          cases q with
          | nil => cases ran
          | node red' left' old' right' =>
              simp only at ran
              split at ran
              · obtain rfl := Option.some.inj ran
                exact .inl (carried ▸ List.Perm.refl _)
              · have moved := ih ran
                rwa [moveDown_plug, carried] at moved

theorem rbinsert_subperm {map map' : RBTree κ ν} {value : ν} (self : compare key key = 0)
    (apart : Apart map) (ran : rbinsert compare map key value = some map') :
    map'.bindings.Subperm ((key, value) :: map.bindings) ∧ Apart map' := by
  have fresh : ∀ item ∈ map.root.inorder, item.addr ≠ freshAddr map.root := by
    intro item member
    have := freshAddr_new map.root item member
    omega
  have grown {root : ColorTree (Node κ ν)} {size : Nat}
      (whole : root.inorder.Perm map.root.inorder ∨
        root.inorder.Perm (⟨freshAddr map.root, key, value⟩ :: map.root.inorder)) :
      (⟨root, size⟩ : RBTree κ ν).bindings.Subperm ((key, value) :: map.bindings) ∧
        Apart ⟨root, size⟩ := by
    rcases whole with whole | whole
    · exact ⟨(whole.map Node.binding).subperm.trans (List.sublist_cons_self _ _).subperm,
        (whole.map Node.addr).nodup_iff.mpr apart⟩
    · refine ⟨(whole.map Node.binding).subperm, (whole.map Node.addr).nodup_iff.mpr ?_⟩
      rw [List.map_cons, List.nodup_cons]
      refine ⟨fun member => ?_, apart⟩
      obtain ⟨item, inside, equal⟩ := List.mem_map.mp member
      exact fresh item inside equal
  rw [rbinsert] at ran
  split at ran
  · rename_i empty
    obtain rfl := Option.some.inj ran
    exact grown (.inr (by simp [newNode, empty]))
  · obtain ⟨top, looped, rfl⟩ := Option.map_eq_some_iff.mp ran
    refine grown ?_
    simpa [plug] using insertLoop_inorder self looped

theorem insertLoop_none {item : Node κ ν} (other : ∀ old, compare old item.key ≠ 0) (fuel : Nat)
    (s : Search κ ν) : insertLoop compare item fuel s = none := by
  induction fuel generalizing s with
  | zero => rfl
  | succ fuel ih =>
      rw [insertLoop, Option.bind_eq_none_iff]
      rintro ⟨above, q⟩ -
      cases q with
      | nil => rfl
      | node red left old right => simp only [other, if_false, ih]

/-! Copies. -/

theorem pushPath_some {path path' : List (ColorTree (Node κ ν))} {it : ColorTree (Node κ ν)}
    (ran : pushPath path it = some path') : path' = it :: path := by
  unfold pushPath at ran
  split at ran
  · exact (Option.some.inj ran).symm
  · cases ran

theorem runDown_reached {tree : ColorTree (Node κ ν)} {above : Path κ ν} {trav : Trav κ ν}
    (ran : runDown false tree (ancestors above tree) = some trav) (nonempty : tree ≠ nil) :
    Reached (plug above tree) true trav (tree.inorder ++ after above) := by
  induction tree generalizing above with
  | nil => exact absurd rfl nonempty
  | node red left item right left_ih =>
      cases left with
      | nil =>
          obtain rfl : ⟨node red nil item right, ancestors above (node red nil item right)⟩ = trav :=
            Option.some.inj ran
          simpa [ordered, outside] using
            (Reached.at rfl : Reached (plug above (node red nil item right)) true _ _)
      | node lRed ll lItem lr =>
          obtain ⟨path, pushed, ran⟩ := Option.bind_eq_some_iff.mp ran
          obtain rfl := pushPath_some pushed
          let below : Frame (Node κ ν) := ⟨false, red, item, right⟩
          have down : runDown false (node lRed ll lItem lr)
              (ancestors (below :: above) (node lRed ll lItem lr)) = some trav := by
            simpa [below, ancestors, Frame.fill] using ran
          simpa [below, plug, Frame.fill, after] using left_ih down (by simp)

theorem rbtnext_reached {root : ColorTree (Node κ ν)} {trav next : Trav κ ν} {item : Node κ ν}
    {rest : List (Node κ ν)} (apart : (root.inorder.map Node.addr).Nodup)
    (reached : Reached root true trav (item :: rest)) (ran : rbtnext trav = some next) :
    Reached root true next rest := by
  cases reached with
  | @«at» above red left right _ whole =>
      subst whole
      cases empty : right with
      | nil =>
          subst empty
          obtain rfl := Option.some.inj ran
          simpa [ordered] using climb_reaches true above apart (by simp)
      | node nextRed nextLeft nextItem nextRight =>
          subst empty
          obtain ⟨path, pushed, ran⟩ := Option.bind_eq_some_iff.mp ran
          obtain rfl := pushPath_some pushed
          let below : Frame (Node κ ν) := ⟨true, red, item, left⟩
          have down : runDown false (node nextRed nextLeft nextItem nextRight)
              (ancestors (below :: above) (node nextRed nextLeft nextItem nextRight)) =
                some next := by
            simpa [below, ancestors, Frame.fill, link] using ran
          have onward := runDown_reached down (by simp)
          simpa [below, plug, Frame.fill, after, outside, ordered] using onward

theorem traverse_ran {σ : Type} {body : σ → Node κ ν → Option σ} {root : ColorTree (Node κ ν)}
    (apart : (root.inorder.map Node.addr).Nodup) {fuel : Nat} {items : List (Node κ ν)}
    {trav : Trav κ ν} {state final : σ} (reached : Reached root true trav items)
    (ran : traverse body .null fuel trav state = some final) :
    items.foldlM body state = some final := by
  induction fuel generalizing items trav state with
  | zero => cases ran
  | succ fuel ih =>
      cases items with
      | nil =>
          cases reached with
          | done off =>
              rw [traverse, off] at ran
              exact ran
      | cons item rest =>
          obtain ⟨red, left, right, it⟩ := reached.here
          rw [traverse, it] at ran
          obtain ⟨middle, first, ran⟩ := Option.bind_eq_some_iff.mp ran
          obtain ⟨next, moved, ran⟩ := Option.bind_eq_some_iff.mp ran
          rw [List.foldlM_cons, first]
          exact ih (rbtnext_reached apart reached moved) ran

end Trees

section Keys

variable {ν : Type}

theorem compare_notNumber {key : Key} (notNumber : ¬key.isNumber) (old : Key) :
    Maps.compare false old key ≠ 0 := by
  by_cases same : old.typeCode = key.typeCode
  · cases key <;> simp only [Key.isNumber, not_true] at notNumber
    cases old <;> simp only [Key.typeCode, complexFlag] at same <;> try omega
    simp [Maps.compare, compareFloat, notNumber]
  · rw [compare_of_ne same]
    omega

theorem rbinsert_key_subperm {map map' : RBTree Key ν} {key : Key} {value : ν} (apart : Apart map)
    (ran : rbinsert (Maps.compare false) map key value = some map') :
    map'.bindings.Subperm ((key, value) :: map.bindings) ∧ Apart map' := by
  by_cases number : key.isNumber
  · exact rbinsert_subperm (compare_self number) apart ran
  · unfold rbinsert at ran
    split at ran
    · obtain rfl := Option.some.inj ran
      simp [RBTree.bindings, newNode, Apart, Node.binding]
    · obtain ⟨root, looped, _⟩ := Option.map_eq_some_iff.mp ran
      cases (insertLoop_none (compare_notNumber number) _ _).symm.trans looped

theorem mapinsert_subperm {map map' : RBTree Key ν} {key : Key} {value : ν} (apart : Apart map)
    (ran : mapinsert false map key value = some map') :
    map'.bindings.Subperm ((key, value) :: map.bindings) ∧ Apart map' := by
  obtain ⟨owned, same, ran⟩ := Option.bind_eq_some_iff.mp ran
  obtain rfl := Option.some.inj same
  obtain ⟨⟨erased, found⟩, erasing, inserting⟩ := Option.bind_eq_some_iff.mp ran
  obtain ⟨fewer, apartErased⟩ := rberase_subperm apart erasing
  obtain ⟨more, apart'⟩ := rbinsert_key_subperm apartErased inserting
  exact ⟨more.trans ((List.subperm_cons _).mpr fewer), apart'⟩

theorem copyNodes_subperm {items : List (Node Key ν)} {map map' : RBTree Key ν}
    (apart : Apart map) (ran : items.foldlM (copyNode (Maps.compare false)) map = some map') :
    map'.bindings.Subperm (items.map Node.binding ++ map.bindings) ∧ Apart map' := by
  induction items generalizing map with
  | nil =>
      obtain rfl := Option.some.inj ran
      exact ⟨List.Subperm.refl _, apart⟩
  | cons item rest ih =>
      obtain ⟨middle, inserted, later⟩ := Option.bind_eq_some_iff.mp ran
      obtain ⟨more, apart'⟩ := rbinsert_key_subperm apart inserted
      obtain ⟨whole, apart''⟩ := ih apart' later
      refine ⟨(whole.trans ((List.subperm_append_left _).mpr more)).trans ?_, apart''⟩
      exact List.perm_middle.subperm

theorem mapDup_subperm {map map' : RBTree Key ν} (apart : Apart map)
    (ran : mapDup (Maps.compare false) map = some map') :
    map'.bindings.Subperm map.bindings ∧ Apart map' := by
  obtain ⟨trav, started, copying⟩ := Option.bind_eq_some_iff.mp ran
  have reached : Reached map.root true trav map.root.inorder := by
    cases empty : map.root with
    | nil =>
        rw [rbtfirst, rbstart, empty] at started
        obtain rfl := Option.some.inj started
        exact .done rfl
    | node red left item right =>
        rw [rbtfirst, rbstart, empty] at started
        have start : runDown false (node red left item right)
            (ancestors [] (node red left item right)) = some trav := started
        simpa [plug, after] using runDown_reached start (by simp)
  have new : Apart (rbnew : RBTree Key ν) := List.nodup_nil
  have copied := copyNodes_subperm new (traverse_ran apart reached copying)
  simpa [RBTree.bindings, rbnew] using copied

def insertAll (map : RBTree Key ν) (entries : List (Key × ν)) : Option (RBTree Key ν) :=
  entries.foldlM (fun map entry => mapinsert false map entry.1 entry.2) map

def rebuild (entries : List (Key × ν)) : Option (RBTree Key ν) := insertAll rbnew entries

/-- Bindings that come in order stay in that order. -/
theorem insertAll_ascending {map : RBTree Key ν} {entries : List (Key × ν)} (sound : Sound map)
    (numbers : ∀ entry ∈ entries, entry.1.isNumber)
    (ascending : (map.bindings ++ entries).Pairwise
      fun first second => Maps.compare false first.1 second.1 < 0) :
    ∃ map', insertAll map entries = some map' ∧ map'.bindings = map.bindings ++ entries := by
  induction entries generalizing map with
  | nil => exact ⟨map, rfl, (List.append_nil _).symm⟩
  | cons entry rest ih =>
      have below := (List.pairwise_append.mp ascending).2.2
      obtain ⟨middle, inserted, sound', bindings⟩ := mapinsert_between sound
        (numbers entry (by simp)) entry.2 (List.append_nil _).symm
        (fun other member => below other member entry (by simp))
        (fun _ member => absurd member List.not_mem_nil)
      obtain ⟨map', later, whole⟩ := ih sound' (fun other member => numbers other (by simp [member]))
        (by simpa [bindings] using ascending)
      exact ⟨map', Option.bind_eq_some_iff.mpr ⟨middle, inserted, later⟩, by simp [whole, bindings]⟩

/-- Bindings that come from the last to the first are listed from the first to the last. -/
theorem insertAll_descending {map : RBTree Key ν} {entries : List (Key × ν)} (sound : Sound map)
    (numbers : ∀ entry ∈ entries, entry.1.isNumber)
    (ascending : (entries.reverse ++ map.bindings).Pairwise
      fun first second => 0 < Maps.compare false second.1 first.1) :
    ∃ map', insertAll map entries = some map' ∧
      map'.bindings = entries.reverse ++ map.bindings := by
  induction entries generalizing map with
  | nil => exact ⟨map, rfl, rfl⟩
  | cons entry rest ih =>
      simp only [List.reverse_cons, List.append_assoc, List.singleton_append] at ascending
      have above := (List.pairwise_cons.mp (List.pairwise_append.mp ascending).2.1).1
      obtain ⟨middle, inserted, sound', bindings⟩ := mapinsert_between sound
        (numbers entry (by simp)) entry.2 (List.nil_append _).symm
        (fun _ member => absurd member List.not_mem_nil) above
      obtain ⟨map', later, whole⟩ := ih sound' (fun other member => numbers other (by simp [member]))
        (by simpa [bindings] using ascending)
      exact ⟨map', Option.bind_eq_some_iff.mpr ⟨middle, inserted, later⟩, by simp [whole, bindings]⟩

end Keys

end ToastStunt.Maps
