import ToastStunt.Maps.Finite

/-!
Where the bindings of a map come from and where a new one goes, whatever `compare` says of
the keys that are there.
-/

namespace ToastStunt.Maps

open RedBlack ColorTree

variable {κ ν : Type} {compare : κ → κ → Int} {key : κ}

theorem follow_plug {above path : Path κ ν} {dir : Bool} {tree next : ColorTree (Node κ ν)}
    (ran : follow above dir tree = some (path, next)) : plug path next = plug above tree := by
  cases tree with
  | nil => cases ran
  | node red left item right => cases dir <;> cases ran <;> rfl

theorem rbsingle_inorder {dir : Bool} {tree turned : ColorTree (Node κ ν)}
    (ran : rbsingle tree dir = some turned) : turned.inorder = tree.inorder := by
  unfold rbsingle at ran
  split at ran
  · obtain rfl := Option.some.inj ran
    simp
  · obtain rfl := Option.some.inj ran
    simp
  · cases ran

theorem rbdouble_inorder {dir : Bool} {tree turned : ColorTree (Node κ ν)}
    (ran : rbdouble tree dir = some turned) : turned.inorder = tree.inorder := by
  cases tree with
  | nil => cases dir <;> cases ran
  | node red left item right =>
      cases dir with
      | false =>
          obtain ⟨right', first, second⟩ := Option.bind_eq_some_iff.mp ran
          rw [rbsingle_inorder second, inorder_node, rbsingle_inorder first, inorder_node]
      | true =>
          obtain ⟨left', first, second⟩ := Option.bind_eq_some_iff.mp ran
          rw [rbsingle_inorder second, inorder_node, rbsingle_inorder first, inorder_node]

theorem plug_congr {above : Path κ ν} {tree other : ColorTree (Node κ ν)}
    (same : tree.inorder = other.inorder) :
    (plug above tree).inorder = (plug above other).inorder := by
  rw [inorder_plug, inorder_plug, same]

theorem mem_plug {above : Path κ ν} {tree : ColorTree (Node κ ν)} {item : Node κ ν} :
    item ∈ (plug above tree).inorder ↔ item ∈ (plug above nil).inorder ∨ item ∈ tree.inorder := by
  simp only [inorder_plug, inorder_nil, List.append_nil, List.mem_append]
  tauto

/-! Insertion. -/

theorem repairRed_inorder {s : Search κ ν} {q q' : ColorTree (Node κ ν)} {above : Path κ ν}
    (ran : repairRed s q = some (above, q')) :
    (plug above q').inorder = (plug s.above q).inorder := by
  rw [repairRed] at ran
  split at ran
  · split at ran
    · rename_i p g rest path
      split at ran
      · rw [path]
        split at ran
        · obtain ⟨top, turned, followed⟩ := Option.bind_eq_some_iff.mp ran
          rw [follow_plug followed]
          exact plug_congr (rbsingle_inorder turned)
        · obtain ⟨top, turned, same⟩ := Option.map_eq_some_iff.mp ran
          obtain ⟨rfl, rfl⟩ := Prod.mk.inj same
          exact plug_congr (rbdouble_inorder turned)
      · cases ran
    · cases ran
  · obtain ⟨rfl, rfl⟩ := Prod.mk.inj (Option.some.inj ran)
    rfl

theorem mem_growOrFlip {item old : Node κ ν} {q : ColorTree (Node κ ν)}
    (member : old ∈ (growOrFlip item q).inorder) : old = item ∨ old ∈ q.inorder := by
  cases q with
  | nil => exact .inl (by simpa [growOrFlip, newNode] using member)
  | node red left other right =>
      right
      rw [growOrFlip] at member
      split at member <;> simpa using member

theorem moveDown_plug (s : Search κ ν) (above : Path κ ν) (red : Bool)
    (left right : ColorTree (Node κ ν)) (old : Node κ ν) (dir : Bool) :
    plug (moveDown s above red left old right dir).above
      (moveDown s above red left old right dir).q = plug above (node red left old right) := by
  cases dir <;> rfl

theorem insertLoop_items {item : Node κ ν} {fuel : Nat} {s : Search κ ν}
    {root : ColorTree (Node κ ν)} (ran : insertLoop compare item fuel s = some root) :
    ∀ old ∈ root.inorder, old = item ∨ old ∈ (plug s.above s.q).inorder := by
  induction fuel generalizing s with
  | zero => cases ran
  | succ fuel ih =>
      obtain ⟨⟨above, q⟩, repaired, ran⟩ := Option.bind_eq_some_iff.mp ran
      have carried : ∀ old ∈ (plug above q).inorder,
          old = item ∨ old ∈ (plug s.above s.q).inorder := by
        intro old member
        rw [repairRed_inorder repaired, mem_plug] at member
        rcases member with around | inside
        · exact .inr (mem_plug.mpr (.inl around))
        · exact (mem_growOrFlip inside).imp_right fun inside => mem_plug.mpr (.inr inside)
      cases q with
      | nil => cases ran
      | node red left old right =>
          simp only at ran
          split at ran
          · obtain rfl := Option.some.inj ran
            exact carried
          · intro other member
            rcases ih ran other member with same | inside
            · exact .inl same
            · rw [moveDown_plug] at inside
              exact carried other inside

theorem rbinsert_entries {map map' : RBTree κ ν} {value : ν}
    (ran : rbinsert compare map key value = some map') :
    ∀ entry ∈ map'.bindings, entry = (key, value) ∨ entry ∈ map.bindings := by
  intro entry member
  obtain ⟨item, inside, rfl⟩ := List.mem_map.mp member
  rw [rbinsert] at ran
  split at ran
  · obtain rfl := Option.some.inj ran
    obtain rfl : item = ⟨freshAddr map.root, key, value⟩ := by simpa [newNode] using inside
    exact .inl rfl
  · obtain ⟨top, looped, rfl⟩ := Option.map_eq_some_iff.mp ran
    rcases insertLoop_items looped item (by simpa using inside) with rfl | old
    · exact .inl rfl
    · exact .inr (mem_bindings old)

/-! Deletion. -/

theorem recolour_inorder {top recoloured : ColorTree (Node κ ν)}
    (ran : recolour top = some recoloured) : recoloured.inorder = top.inorder := by
  unfold recolour at ran
  split at ran
  · obtain rfl := Option.some.inj ran
    simp
  · cases ran

theorem mem_redden {q : Frame (Node κ ν)} {above : Path κ ν} {item : Node κ ν} :
    item ∈ (plug (redden q :: above) nil).inorder ↔ item ∈ (plug (q :: above) nil).inorder := by
  rw [inorder_plug, inorder_plug]
  rfl

theorem pushRed_items {above path : Path κ ν} {q : Frame (Node κ ν)}
    {next : ColorTree (Node κ ν)} (ran : pushRed above q next = some path) :
    ∀ item ∈ (plug path nil).inorder, item ∈ (plug (q :: above) next).inorder := by
  intro item member
  unfold pushRed at ran
  split at ran
  · obtain rfl := Option.some.inj ran
    exact mem_plug.mpr (.inl member)
  · split at ran
    · obtain ⟨top, turned, ran⟩ := Option.bind_eq_some_iff.mp ran
      obtain ⟨⟨above', q'⟩, first, ran⟩ := Option.bind_eq_some_iff.mp ran
      obtain ⟨⟨path', next'⟩, second, rfl⟩ := Option.map_eq_some_iff.mp ran
      have whole : (plug path' next').inorder = (plug above (q.fill next)).inorder := by
        rw [follow_plug second, follow_plug first]
        exact plug_congr (rbsingle_inorder turned)
      rw [plug, ← whole]
      exact mem_plug.mpr (.inl member)
    · split at ran
      · obtain rfl := Option.some.inj ran
        exact mem_plug.mpr (.inl member)
      · rename_i p rest
        split at ran
        · obtain rfl := Option.some.inj ran
          exact mem_plug.mpr (.inl member)
        · rename_i red left s right sibling
          simp only at ran
          split at ran
          · obtain ⟨top, turned, ran⟩ := Option.bind_eq_some_iff.mp ran
            obtain ⟨recoloured, painted, ran⟩ := Option.bind_eq_some_iff.mp ran
            obtain ⟨⟨above, p'⟩, first, ran⟩ := Option.bind_eq_some_iff.mp ran
            obtain ⟨⟨above', q'⟩, second, ran⟩ := Option.bind_eq_some_iff.mp ran
            obtain ⟨⟨path', next'⟩, third, same⟩ := Option.map_eq_some_iff.mp ran
            have rotated : top.inorder = (p.fill (q.fill next)).inorder := by
              split at turned
              · exact rbdouble_inorder turned
              · exact rbsingle_inorder turned
            have whole : (plug path' next').inorder = (plug rest (p.fill (q.fill next))).inorder := by
              rw [follow_plug third, follow_plug second, follow_plug first]
              exact plug_congr ((recolour_inorder painted).trans rotated)
            rw [plug, plug, ← whole, mem_plug]
            left
            subst same
            cases path' with
            | nil => exact member
            | cons q' above' => exact mem_redden.mp member
          · obtain rfl := Option.some.inj ran
            have kept : ∀ above : Path κ ν, ∀ tree,
                (plug above (({ p with red := false, other := node true left s right } :
                  Frame (Node κ ν)).fill tree)).inorder = (plug above (p.fill tree)).inorder := by
              intro above tree
              apply plug_congr
              cases dir : p.dir <;> simp [Frame.fill, dir, sibling]
            rw [mem_redden, plug, plug, kept] at member
            exact mem_plug.mpr (.inl member)

theorem eraseLoop_items {q : ColorTree (Node κ ν)} {above path : Path κ ν}
    {found found' : Option Nat}
    (ran : eraseLoop compare key q above found = some (path, found')) :
    ∀ item ∈ (plug path nil).inorder, item ∈ (plug above q).inorder := by
  induction q generalizing above found with
  | nil =>
      obtain ⟨rfl, _⟩ := Prod.mk.inj (Option.some.inj ran)
      exact fun _ member => member
  | node red left item right left_ih right_ih =>
      intro other member
      rw [eraseLoop] at ran
      split at ran
      · obtain ⟨above', pushed, ran⟩ := Option.bind_eq_some_iff.mp ran
        rcases mem_plug.mp (right_ih ran other member) with around | inside
        · simpa [plug, Frame.fill] using pushRed_items pushed other around
        · exact mem_plug.mpr (.inr (by simp [inside]))
      · obtain ⟨above', pushed, ran⟩ := Option.bind_eq_some_iff.mp ran
        rcases mem_plug.mp (left_ih ran other member) with around | inside
        · simpa [plug, Frame.fill] using pushRed_items pushed other around
        · exact mem_plug.mpr (.inr (by simp [inside]))

theorem rberase_entries {map map' : RBTree κ ν} {found : Bool}
    (ran : rberase compare map key = some (map', found)) :
    ∀ entry ∈ map'.bindings, entry ∈ map.bindings := by
  intro entry member
  obtain ⟨item, inside, rfl⟩ := List.mem_map.mp member
  unfold rberase at ran
  split at ran
  · obtain ⟨rfl, _⟩ := Prod.mk.inj (Option.some.inj ran)
    exact member
  · obtain ⟨⟨path, found'⟩, looped, ran⟩ := Option.bind_eq_some_iff.mp ran
    have items := eraseLoop_items looped
    simp only at ran
    split at ran
    · cases ran
    · rename_i q above
      obtain ⟨rfl, _⟩ := Prod.mk.inj (Option.some.inj ran)
      simp only [inorder_blacken] at inside
      exact mem_bindings (items item inside)
    · rename_i q above addr
      obtain ⟨rfl, _⟩ := Prod.mk.inj (Option.some.inj ran)
      simp only [inorder_blacken, inorder_map, List.mem_map] at inside
      obtain ⟨old, kept, rfl⟩ := inside
      have filled : ∀ item, item = q.item ∨ item ∈ (plug above q.other).inorder →
          item ∈ (plug (q :: above) nil).inorder := by
        intro item source
        rw [plug, mem_plug]
        rcases source with rfl | around
        · right
          cases dir : q.dir <;> simp [Frame.fill, dir]
        · refine (mem_plug.mp around).imp_right fun inside => ?_
          cases dir : q.dir <;> simp [Frame.fill, dir, inside]
      rw [overwrite]
      split
      · have last : q.item ∈ map.root.inorder := items q.item (filled q.item (.inl rfl))
        exact List.mem_map.mpr ⟨q.item, last, rfl⟩
      · exact mem_bindings (items old (filled old (.inr kept)))

theorem mapinsert_entries {ν : Type} {map map' : RBTree Key ν} {key : Key} {value : ν}
    (ran : mapinsert false map key value = some map') :
    ∀ entry ∈ map'.bindings, entry = (key, value) ∨ entry ∈ map.bindings := by
  intro entry member
  obtain ⟨owned, same, ran⟩ := Option.bind_eq_some_iff.mp ran
  obtain rfl := Option.some.inj same
  obtain ⟨⟨erased, found⟩, erasing, inserting⟩ := Option.bind_eq_some_iff.mp ran
  exact (rbinsert_entries inserting entry member).imp_right (rberase_entries erasing entry)

/-! A new binding between those that are there. -/

/-- What the tree of a map needs for an insertion: not that its keys are in order. -/
structure Sound (map : RBTree κ ν) : Prop where
  black : map.root.isRed = false
  valid : ∃ blacks, map.root.Valid blacks
  apart : (map.root.inorder.map Node.addr).Nodup

theorem Sound.new : Sound (rbnew : RBTree κ ν) := ⟨rfl, ⟨0, by simp [rbnew]⟩, List.nodup_nil⟩

theorem compare_self {key : Key} (number : key.isNumber) : Maps.compare false key key = 0 :=
  (compare_zero number number (Comparable.refl key)).mpr (SameKey.refl number)

theorem mapinsert_between {ν : Type} {map : RBTree Key ν} (sound : Sound map) {key : Key}
    (number : key.isNumber) (value : ν) {less more : List (Key × ν)}
    (bindings : map.bindings = less ++ more)
    (below : ∀ entry ∈ less, Maps.compare false entry.1 key < 0)
    (beyond : ∀ entry ∈ more, 0 < Maps.compare false entry.1 key) :
    ∃ map', mapinsert false map key value = some map' ∧ Sound map' ∧
      map'.bindings = less ++ (key, value) :: more := by
  obtain ⟨lower, higher, whole, rfl, rfl⟩ := List.map_eq_append_iff.mp bindings
  have smaller : ∀ item ∈ lower, Maps.compare false item.key key < 0 :=
    fun item member => below item.binding (List.mem_map_of_mem member)
  have larger : ∀ item ∈ higher, 0 < Maps.compare false item.key key :=
    fun item member => beyond item.binding (List.mem_map_of_mem member)
  have other : ∀ item ∈ map.root.inorder, Maps.compare false item.key key ≠ 0 := by
    intro item member
    rw [whole] at member
    rcases List.mem_append.mp member with inside | inside
    · exact Int.ne_of_lt (smaller item inside)
    · exact Int.ne_of_gt (larger item inside)
  have steered : Steered (Maps.compare false) key map.root.inorder := by
    rw [whole, Steered, List.pairwise_append]
    refine ⟨List.pairwise_of_forall_mem_list fun first inside _ _ _ => smaller first inside,
      List.pairwise_of_forall_mem_list fun _ _ second inside atMost => ?_,
      fun first inside _ _ _ => smaller first inside⟩
    have := larger second inside
    omega
  obtain ⟨blacks, valid⟩ := sound.valid
  rcases rberase_spec map valid sound.black steered sound.apart with
    ⟨root, ranErase, black, same, _, blacks', valid'⟩ |
    ⟨_, _, _, ⟨first, item, last, split, zero, _⟩, _⟩
  · rw [← same] at steered other
    obtain ⟨root', ranInsert, black', ⟨first, last, split, grown, firstBelow, lastBeyond⟩, valid''⟩ :=
      rbinsert_grows ⟨root, map.size⟩ valid' black value steered other (compare_self number)
    have place : first = lower ∧ last = higher := by
      have parts : first ++ last = lower ++ higher := by rw [← split, ← whole, same]
      rcases List.append_eq_append_iff.mp parts with ⟨gap, rfl, rfl⟩ | ⟨gap, rfl, rfl⟩
      · cases gap with
        | nil => simp
        | cons item gap =>
            have := smaller item (by simp)
            have := lastBeyond item (by simp)
            simp only at this
            omega
      · cases gap with
        | nil => simp
        | cons item gap =>
            have := larger item (by simp)
            have := firstBelow item (by simp)
            simp only at this
            omega
    obtain ⟨rfl, rfl⟩ := place
    refine ⟨⟨root', map.size + 1⟩, by simp [mapinsert, own, ranErase, ranInsert], ⟨black', valid'',
      ?_⟩, ?_⟩
    · have fresh := freshAddr_new root
      have apart := sound.apart
      rw [whole] at apart
      rw [grown, List.perm_middle.map _ |>.nodup_iff, List.map_cons, List.nodup_cons]
      refine ⟨fun member => ?_, apart⟩
      obtain ⟨item, inside, equal⟩ := List.mem_map.mp member
      have := fresh item (same ▸ whole ▸ inside)
      simp only at equal
      omega
    · rw [RBTree.bindings, grown, List.map_append, List.map_cons]
      rfl
  · exact absurd zero (other item (split ▸ by simp))

theorem mapinsert_new {ν : Type} (key : Key) (value : ν) :
    mapinsert true rbnew key value = mapinsert false rbnew key value := by
  have copied : own true (rbnew : RBTree Key ν) = own false rbnew := rfl
  rw [mapinsert, mapinsert, copied]

end ToastStunt.Maps
