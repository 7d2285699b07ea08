import Mathlib.Data.List.Nodup
import ToastStunt.Maps.Tree

/-!
Traversals: `rbstart` and `rbmove` visit the nodes in order, and no path is longer
than the tree is high.
-/

namespace ToastStunt.Maps

open RedBlack ColorTree

variable {κ ν σ : Type}

theorem height_plug (above : Path κ ν) (tree : ColorTree (Node κ ν)) :
    above.length + tree.height ≤ (plug above tree).height := by
  induction above generalizing tree with
  | nil => simp [plug]
  | cons frame above ih =>
      have higher := ih (frame.fill tree)
      have taller : tree.height + 1 ≤ (frame.fill tree).height := by
        cases dir : frame.dir <;> simp only [Frame.fill, dir, height, if_true, Bool.false_eq_true, if_false] <;> omega
      simp only [plug, List.length_cons]
      omega

/-- The subtrees that `trav->path` holds at the node below `above`. -/
def ancestors : Path κ ν → ColorTree (Node κ ν) → List (ColorTree (Node κ ν))
  | [], _ => []
  | frame :: above, tree => frame.fill tree :: ancestors above (frame.fill tree)

theorem ancestors_length (above : Path κ ν) (tree : ColorTree (Node κ ν)) :
    (ancestors above tree).length = above.length := by
  induction above generalizing tree with
  | nil => rfl
  | cons frame above ih => simp [ancestors, ih]

def ordered {α : Type} (dir : Bool) (items : List α) : List α :=
  if dir then items else items.reverse

def outside (dir : Bool) (above : Path κ ν) : List (Node κ ν) :=
  if dir then after above else (before above).reverse

/-- The traversal of `root` in the direction `dir` has still to visit these nodes. -/
inductive Reached (root : ColorTree (Node κ ν)) (dir : Bool) : Trav κ ν → List (Node κ ν) → Prop
  | done {trav : Trav κ ν} (off : trav.it = nil) : Reached root dir trav []
  | at {above : Path κ ν} {red : Bool} {left right : ColorTree (Node κ ν)} {item : Node κ ν}
      (whole : plug above (node red left item right) = root) :
      Reached root dir
        ⟨node red left item right, ancestors above (node red left item right)⟩
        (item :: (ordered dir (if dir then right else left).inorder ++ outside dir above))

theorem pushPath_ok {path : List (ColorTree (Node κ ν))} (it : ColorTree (Node κ ν))
    (short : path.length < heightLimit) : pushPath path it = some (it :: path) := by
  simp [pushPath, short]

theorem runDown_reaches (dir : Bool) (tree : ColorTree (Node κ ν)) (above : Path κ ν)
    (low : (plug above tree).height ≤ heightLimit) (nonempty : tree ≠ nil) :
    ∃ trav, runDown (!dir) tree (ancestors above tree) = some trav ∧
      Reached (plug above tree) dir trav (ordered dir tree.inorder ++ outside dir above) := by
  induction tree generalizing above with
  | nil => exact absurd rfl nonempty
  | node red left item right left_ih right_ih =>
      have short : above.length < heightLimit := by
        have := height_plug above (node red left item right)
        simp only [height] at this
        omega
      cases dir with
      | true =>
          cases left with
          | nil =>
              refine ⟨⟨node red nil item right, ancestors above (node red nil item right)⟩, ?_, ?_⟩
              · simp [runDown, link, pointer]
              · simpa [ordered] using (Reached.at rfl : Reached (plug above (node red nil item right)) true _ _)
          | node lRed ll lItem lr =>
              obtain ⟨trav, ran, reached⟩ := left_ih (⟨false, red, item, right⟩ :: above)
                (by simpa [plug, Frame.fill] using low) (by rintro ⟨⟩)
              refine ⟨trav, ?_, ?_⟩
              · simpa [runDown, link, pointer, pushPath_ok _ (ancestors_length above _ ▸ short),
                  ancestors, Frame.fill] using ran
              · simpa [plug, Frame.fill, ordered, outside, after] using reached
      | false =>
          cases right with
          | nil =>
              refine ⟨⟨node red left item nil, ancestors above (node red left item nil)⟩, ?_, ?_⟩
              · simp [runDown, link, pointer]
              · simpa [ordered] using (Reached.at rfl : Reached (plug above (node red left item nil)) false _ _)
          | node rRed rl rItem rr =>
              obtain ⟨trav, ran, reached⟩ := right_ih (⟨true, red, item, left⟩ :: above)
                (by simpa [plug, Frame.fill] using low) (by rintro ⟨⟩)
              refine ⟨trav, ?_, ?_⟩
              · simpa [runDown, link, pointer, pushPath_ok _ (ancestors_length above _ ▸ short),
                  ancestors, Frame.fill] using ran
              · simpa [plug, Frame.fill, ordered, outside, before] using reached

theorem pointer_ne {above : Path κ ν} {frame : Frame (Node κ ν)} {last : ColorTree (Node κ ν)}
    (apart : ((plug above (frame.fill last)).inorder.map Node.addr).Nodup) (nonempty : last ≠ nil) :
    pointer last ≠ pointer frame.other := by
  match last, nonempty with
  | node red left item right, _ =>
      cases other : frame.other with
      | nil => simp [pointer]
      | node oRed oLeft oItem oRight =>
          intro same
          have equal : item.addr = oItem.addr := by simpa [pointer] using same
          cases dir : frame.dir <;>
            simp [inorder_plug, Frame.fill, dir, other, List.nodup_append, equal] at apart

theorem climb_reaches (dir : Bool) (above : Path κ ν) {last : ColorTree (Node κ ν)}
    (apart : ((plug above last).inorder.map Node.addr).Nodup) (nonempty : last ≠ nil) :
    Reached (plug above last) dir (climb dir last (ancestors above last)) (outside dir above) := by
  induction above generalizing last with
  | nil =>
      have beyond : outside dir ([] : Path κ ν) = [] := by cases dir <;> rfl
      rw [beyond]
      exact .done rfl
  | cons frame above ih =>
      rw [plug] at apart ⊢
      have different := pointer_ne apart nonempty
      have filled : frame.fill last ≠ nil := by cases d : frame.dir <;> simp [Frame.fill, d]
      have higher := ih apart filled
      obtain ⟨side, red, item, other⟩ := frame
      cases side <;> cases dir
      · simpa [ancestors, climb, Frame.fill, link, outside, before] using higher
      · simpa [ancestors, climb, Frame.fill, link, different, outside, after, ordered] using
          (Reached.at rfl : Reached (plug above (node red last item other)) true _ _)
      · simpa [ancestors, climb, Frame.fill, link, different, outside, before, ordered] using
          (Reached.at rfl : Reached (plug above (node red other item last)) false _ _)
      · simpa [ancestors, climb, Frame.fill, link, outside, after] using higher

theorem rbmove_reaches {root : ColorTree (Node κ ν)} {dir : Bool} {trav : Trav κ ν} {item : Node κ ν}
    {rest : List (Node κ ν)} (apart : (root.inorder.map Node.addr).Nodup)
    (low : root.height ≤ heightLimit) (reached : Reached root dir trav (item :: rest)) :
    ∃ next, rbmove trav dir = some next ∧ Reached root dir next rest := by
  cases reached with
  | @«at» above red left right _ whole =>
      subst whole
      cases empty : if dir then right else left with
      | nil =>
          refine ⟨climb dir (node red left item right)
            (ancestors above (node red left item right)), ?_, ?_⟩
          · simp [rbmove, link, empty, pointer]
          · simpa [ordered] using climb_reaches dir above apart (by rintro ⟨⟩)
      | node nextRed nextLeft nextItem nextRight =>
          have short : above.length < heightLimit := by
            have := height_plug above (node red left item right)
            simp only [height] at this
            omega
          have filled : (⟨dir, red, item, if dir then left else right⟩ : Frame (Node κ ν)).fill
              (node nextRed nextLeft nextItem nextRight) = node red left item right := by
            cases dir <;> simp_all [Frame.fill]
          obtain ⟨next, ran, onward⟩ := runDown_reaches dir
            (node nextRed nextLeft nextItem nextRight)
            (⟨dir, red, item, if dir then left else right⟩ :: above) (by rwa [plug, filled]) (by rintro ⟨⟩)
          refine ⟨next, ?_, ?_⟩
          · rw [ancestors, filled] at ran
            simpa [rbmove, link, empty, pointer, pushPath_ok _ (ancestors_length above _ ▸ short)]
              using ran
          · rw [plug, filled] at onward
            have around : outside dir (⟨dir, red, item, if dir then left else right⟩ :: above) =
                outside dir above := by
              cases dir <;> simp [outside, before, after]
            simpa [around] using onward

theorem rbstart_reaches (tree : RBTree κ ν) (dir : Bool) (low : tree.root.height ≤ heightLimit) :
    ∃ trav, rbstart tree (!dir) = some trav ∧
      Reached tree.root dir trav (ordered dir tree.root.inorder) := by
  cases empty : tree.root with
  | nil =>
      refine ⟨⟨nil, []⟩, by simp [rbstart, empty, runDown], ?_⟩
      rw [show ordered dir (nil : ColorTree (Node κ ν)).inorder = [] by cases dir <;> rfl]
      exact .done rfl
  | node red left item right =>
      obtain ⟨trav, ran, reached⟩ := runDown_reaches dir
        (node red left item right) [] (by simpa [plug, ← empty] using low) nofun
      refine ⟨trav, by simpa [rbstart, empty, ancestors] using ran, ?_⟩
      have beyond : outside dir ([] : Path κ ν) = [] := by cases dir <;> rfl
      simpa [plug, beyond] using reached

theorem Reached.here {root : ColorTree (Node κ ν)} {dir : Bool} {trav : Trav κ ν} {item : Node κ ν}
    {rest : List (Node κ ν)} (reached : Reached root dir trav (item :: rest)) :
    ∃ red left right, trav.it = node red left item right := by
  cases reached
  exact ⟨_, _, _, rfl⟩

theorem Reached.turn {root : ColorTree (Node κ ν)} {dir : Bool} {trav : Trav κ ν} {item : Node κ ν}
    {rest : List (Node κ ν)} (reached : Reached root dir trav (item :: rest)) (other : Bool) :
    ∃ onward, Reached root other trav (item :: onward) := by
  cases reached with
  | «at» whole => exact ⟨_, .at whole⟩

theorem Reached.suffix {root : ColorTree (Node κ ν)} {trav : Trav κ ν} {items : List (Node κ ν)}
    (reached : Reached root true trav items) : items <:+ root.inorder := by
  cases reached with
  | done _ => exact List.nil_suffix
  | @«at» above red left right item whole =>
      refine ⟨before above ++ left.inorder, ?_⟩
      simp [← whole, inorder_plug, ordered, outside]

/-- A loop over a traversal runs its body on the nodes in order, up to the stop. -/
theorem traverse_runs (stop : Pointer) (remaining : List (Node κ ν)) (fuel : Nat)
    {root : ColorTree (Node κ ν)} {body : σ → Node κ ν → Option σ}
    (apart : (root.inorder.map Node.addr).Nodup) (low : root.height ≤ heightLimit)
    {visited : List (Node κ ν)} {trav : Trav κ ν} {state final : σ}
    (reached : Reached root true trav (visited ++ remaining))
    (before : ∀ item ∈ visited, Pointer.node item.addr ≠ stop)
    (ends : ∀ item ∈ remaining.head?, Pointer.node item.addr = stop)
    (enough : visited.length < fuel) (ran : visited.foldlM body state = some final) :
    traverse body stop fuel trav state = some final := by
  induction visited generalizing fuel trav state with
  | nil =>
      obtain ⟨fuel, rfl⟩ : ∃ less, fuel = less + 1 := ⟨fuel - 1, by simp at enough; omega⟩
      obtain rfl : state = final := by simpa using ran
      cases reached with
      | done off => simp [traverse, off]
      | «at» whole => simp_all [traverse]
  | cons item visited ih =>
      obtain ⟨fuel, rfl⟩ : ∃ less, fuel = less + 1 := ⟨fuel - 1, by simp at enough; omega⟩
      rw [List.foldlM_cons] at ran
      obtain ⟨middle, first, later⟩ := Option.bind_eq_some_iff.mp ran
      obtain ⟨next, moved, onward⟩ := rbmove_reaches apart low reached
      have rest := ih fuel onward (fun other member => before other (by simp [member]))
        (by simpa using enough) later
      obtain ⟨red, left, right, it⟩ := Reached.here reached
      simp [traverse, it, before item (by simp), first, rbtnext, moved, rest]

/-- `rbseek` stands at the node of the key, or finds that there is none. -/
theorem rbseek_reaches {compare : κ → κ → Int} {key : κ} {tree : ColorTree (Node κ ν)}
    (above : Path κ ν) (low : (plug above tree).height ≤ heightLimit)
    (steered : tree.inorder.Pairwise fun first second =>
      compare second.key key ≤ 0 → compare first.key key < 0) :
    (∃ trav item rest, rbseek compare key tree (ancestors above tree) = some (some trav) ∧
      Reached (plug above tree) true trav (item :: rest) ∧ compare item.key key = 0) ∨
    rbseek compare key tree (ancestors above tree) = some none ∧
      ∀ item ∈ tree.inorder, compare item.key key ≠ 0 := by
  induction tree generalizing above with
  | nil => exact .inr ⟨rfl, nofun⟩
  | node red left item right left_ih right_ih =>
      rw [inorder_node, List.pairwise_append, List.pairwise_cons] at steered
      obtain ⟨leftSteered, ⟨itemFirst, rightSteered⟩, leftFirst⟩ := steered
      have short : above.length < heightLimit := by
        have := height_plug above (node red left item right)
        simp only [height] at this
        omega
      have pushed := pushPath_ok (node red left item right)
        (ancestors_length above (node red left item right) ▸ short)
      by_cases equal : compare item.key key = 0
      · exact .inl ⟨_, item, _, by simp [rbseek, equal], .at rfl, equal⟩
      · by_cases larger : compare item.key key < 0
        · rcases right_ih (⟨true, red, item, left⟩ :: above) low rightSteered with
            ⟨trav, found, rest, ran, reached, zero⟩ | ⟨ran, absent⟩
          · exact .inl ⟨trav, found, rest, by
              simpa [rbseek, equal, larger, pushed, ancestors, Frame.fill] using ran,
              reached, zero⟩
          · refine .inr ⟨by
              simpa [rbseek, equal, larger, pushed, ancestors, Frame.fill] using ran, ?_⟩
            intro other member
            rcases List.mem_append.mp member with inside | inside
            · have := leftFirst other inside item (by simp) (by omega)
              omega
            · rcases List.mem_cons.mp inside with rfl | inside
              · exact equal
              · exact absent other inside
        · rcases left_ih (⟨false, red, item, right⟩ :: above) low leftSteered with
            ⟨trav, found, rest, ran, reached, zero⟩ | ⟨ran, absent⟩
          · exact .inl ⟨trav, found, rest, by
              simpa [rbseek, equal, larger, pushed, ancestors, Frame.fill] using ran,
              reached, zero⟩
          · refine .inr ⟨by
              simpa [rbseek, equal, larger, pushed, ancestors, Frame.fill] using ran, ?_⟩
            intro other member
            rcases List.mem_append.mp member with inside | inside
            · exact absent other inside
            · rcases List.mem_cons.mp inside with rfl | inside
              · exact equal
              · intro zero
                exact larger (itemFirst other inside (by omega))

end ToastStunt.Maps
