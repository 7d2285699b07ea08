import ToastStunt.Maps.Traversal

/-!
Traversals that are kept as pointers: an iterator stands where it stood as long as the map that it
points into is what it was.
-/

namespace ToastStunt.Maps

open RedBlack ColorTree

variable {κ ν : Type}

def locate (addr : Nat) : ColorTree (Node κ ν) → Option (ColorTree (Node κ ν))
  | nil => none
  | node red left item right =>
      if item.addr = addr then some (node red left item right)
      else (locate addr left).or (locate addr right)

def follows (root : ColorTree (Node κ ν)) : Pointer → Option (ColorTree (Node κ ν))
  | .node addr => locate addr root
  | _ => none

structure TravPointers where
  it : Pointer
  path : List Pointer
  deriving DecidableEq

def Trav.pointers (trav : Trav κ ν) : TravPointers := ⟨pointer trav.it, trav.path.map pointer⟩

/-- Nothing follows the path where `it` is null. -/
def TravPointers.at (root : ColorTree (Node κ ν)) (trav : TravPointers) : Option (Trav κ ν) :=
  if trav.it = .null then some ⟨nil, []⟩
  else
    (follows root trav.it).bind fun it => (trav.path.mapM (follows root)).map fun path => ⟨it, path⟩

theorem locate_none {addr : Nat} {tree : ColorTree (Node κ ν)}
    (absent : addr ∉ tree.inorder.map Node.addr) : locate addr tree = none := by
  induction tree with
  | nil => rfl
  | node red left item right left_ih right_ih =>
      rw [inorder_node, List.map_append, List.map_cons, List.mem_append, List.mem_cons, not_or,
        not_or] at absent
      rw [locate, if_neg (Ne.symm absent.2.1), left_ih absent.1, right_ih absent.2.2]
      rfl

theorem locate_inside {addr : Nat} {tree found : ColorTree (Node κ ν)}
    (located : locate addr tree = some found) : addr ∈ tree.inorder.map Node.addr := by
  by_contra absent
  rw [locate_none absent] at located
  cases located

theorem locate_plug {addr : Nat} {found : ColorTree (Node κ ν)} (above : Path κ ν)
    {tree : ColorTree (Node κ ν)} (apart : ((plug above tree).inorder.map Node.addr).Nodup)
    (located : locate addr tree = some found) : locate addr (plug above tree) = some found := by
  induction above generalizing tree with
  | nil => exact located
  | cons frame above ih =>
      refine ih apart ?_
      have inside := locate_inside located
      have here : ((frame.fill tree).inorder.map Node.addr).Nodup := by
        rw [plug, inorder_plug, List.map_append, List.map_append] at apart
        exact (List.nodup_append.mp (List.nodup_append.mp apart).1).2.1
      obtain ⟨dir, red, item, other⟩ := frame
      cases dir with
      | false =>
          simp only [Frame.fill, Bool.false_eq_true, if_false, inorder_node, List.map_append,
            List.map_cons, List.nodup_append] at here
          have different : item.addr ≠ addr := fun same =>
            here.2.2 addr inside addr (by simp [same]) rfl
          simp [Frame.fill, locate, different, located]
      | true =>
          simp only [Frame.fill, if_true, inorder_node, List.map_append, List.map_cons,
            List.nodup_append, List.nodup_cons] at here
          have different : item.addr ≠ addr := fun same => here.2.1.1 (same ▸ inside)
          have absent : addr ∉ other.inorder.map Node.addr := fun there =>
            here.2.2 addr there addr (List.mem_cons_of_mem _ inside) rfl
          simp [Frame.fill, locate, different, located, locate_none absent]

theorem follows_pointer (above : Path κ ν) {tree : ColorTree (Node κ ν)}
    (apart : ((plug above tree).inorder.map Node.addr).Nodup) (nonempty : tree ≠ nil) :
    follows (plug above tree) (pointer tree) = some tree := by
  match tree, nonempty with
  | node red left item right, _ => exact locate_plug above apart (by simp [locate])

theorem follows_ancestors (above : Path κ ν) {tree : ColorTree (Node κ ν)}
    (apart : ((plug above tree).inorder.map Node.addr).Nodup) :
    ((ancestors above tree).map pointer).mapM (follows (plug above tree)) =
      some (ancestors above tree) := by
  induction above generalizing tree with
  | nil => rfl
  | cons frame above ih =>
      have filled : frame.fill tree ≠ nil := by cases dir : frame.dir <;> simp [Frame.fill, dir]
      have first := follows_pointer above apart filled
      have rest := ih apart
      rw [plug, ancestors, List.map_cons, List.mapM_cons, first, rest]
      rfl

theorem Reached.at_pointers {root : ColorTree (Node κ ν)} {dir : Bool} {trav : Trav κ ν}
    {items : List (Node κ ν)} (apart : (root.inorder.map Node.addr).Nodup)
    (reached : Reached root dir trav items) :
    ∃ trav', trav.pointers.at root = some trav' ∧ Reached root dir trav' items := by
  cases reached with
  | done off =>
      refine ⟨⟨nil, []⟩, ?_, .done rfl⟩
      simp [TravPointers.at, Trav.pointers, off, pointer]
  | @«at» above red left right item whole =>
      subst whole
      refine ⟨_, ?_, .at rfl⟩
      have here := follows_pointer above apart (show node red left item right ≠ nil by rintro ⟨⟩)
      have path := follows_ancestors above apart
      simp only [pointer] at here
      simp [TravPointers.at, Trav.pointers, pointer, here, path]

/-! Other values in the nodes of a tree. -/

def Node.revalue (f : κ → ν → ν) (item : Node κ ν) : Node κ ν :=
  { item with value := f item.key item.value }

def RBTree.revalue (f : κ → ν → ν) (map : RBTree κ ν) : RBTree κ ν :=
  ⟨map.root.map (Node.revalue f), map.size⟩

theorem pointer_revalue (f : κ → ν → ν) (tree : ColorTree (Node κ ν)) :
    pointer (tree.map (Node.revalue f)) = pointer tree := by
  cases tree <;> rfl

def revalueFrame (f : κ → ν → ν) (frame : Frame (Node κ ν)) : Frame (Node κ ν) :=
  ⟨frame.dir, frame.red, frame.item.revalue f, frame.other.map (Node.revalue f)⟩

theorem fill_revalue (f : κ → ν → ν) (frame : Frame (Node κ ν)) (tree : ColorTree (Node κ ν)) :
    (revalueFrame f frame).fill (tree.map (Node.revalue f)) =
      (frame.fill tree).map (Node.revalue f) := by
  cases dir : frame.dir <;> simp [Frame.fill, revalueFrame, dir, ColorTree.map]

theorem plug_revalue (f : κ → ν → ν) (above : Path κ ν) (tree : ColorTree (Node κ ν)) :
    plug (above.map (revalueFrame f)) (tree.map (Node.revalue f)) =
      (plug above tree).map (Node.revalue f) := by
  induction above generalizing tree with
  | nil => rfl
  | cons frame above ih => rw [List.map_cons, plug, fill_revalue, ih, plug]

theorem ancestors_revalue (f : κ → ν → ν) (above : Path κ ν) (tree : ColorTree (Node κ ν)) :
    ancestors (above.map (revalueFrame f)) (tree.map (Node.revalue f)) =
      (ancestors above tree).map (ColorTree.map (Node.revalue f)) := by
  induction above generalizing tree with
  | nil => rfl
  | cons frame above ih =>
      rw [List.map_cons, ancestors, fill_revalue, ih, ancestors, List.map_cons]

theorem outside_revalue (f : κ → ν → ν) (dir : Bool) (above : Path κ ν) :
    outside dir (above.map (revalueFrame f)) = (outside dir above).map (Node.revalue f) := by
  cases dir with
  | false =>
      have same : before (above.map (revalueFrame f)) = (before above).map (Node.revalue f) := by
        induction above with
        | nil => rfl
        | cons frame above ih =>
            cases dir : frame.dir <;> simp [before, ih, revalueFrame, dir, inorder_map]
      simp [outside, same]
  | true =>
      have same : after (above.map (revalueFrame f)) = (after above).map (Node.revalue f) := by
        induction above with
        | nil => rfl
        | cons frame above ih =>
            cases dir : frame.dir <;> simp [after, ih, revalueFrame, dir, inorder_map]
      simp [outside, same]

/-- A traversal is kept by the addresses of its nodes, and stands where it stood. -/
theorem Reached.revalued {root : ColorTree (Node κ ν)} {dir : Bool} {trav : Trav κ ν}
    {items : List (Node κ ν)} (reached : Reached root dir trav items) (f : κ → ν → ν) :
    ∃ trav', trav'.pointers = trav.pointers ∧
      Reached (root.map (Node.revalue f)) dir trav' (items.map (Node.revalue f)) := by
  refine ⟨⟨trav.it.map (Node.revalue f), trav.path.map (ColorTree.map (Node.revalue f))⟩, ?_, ?_⟩
  · simp [Trav.pointers, pointer_revalue, Function.comp_def]
  · cases reached with
    | done off => exact .done (by simp [off, ColorTree.map])
    | @«at» above red left right item whole =>
        have whole' := plug_revalue f above (node red left item right)
        rw [whole] at whole'
        have reached' : Reached (root.map (Node.revalue f)) dir _ _ := .at whole'
        rw [outside_revalue] at reached'
        have around := ancestors_revalue f above (node red left item right)
        simp only [ColorTree.map] at around
        rw [around] at reached'
        cases dir with
        | false => simpa [ordered, inorder_map, ColorTree.map] using reached'
        | true => simpa [ordered, inorder_map, ColorTree.map] using reached'

theorem Reached.at_end {root : ColorTree (Node κ ν)} {dir : Bool} {trav : Trav κ ν}
    (reached : Reached root dir trav []) : trav.it = nil := by
  cases reached with
  | done off => exact off

end ToastStunt.Maps
