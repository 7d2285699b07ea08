import Mathlib.Algebra.Order.Ring.Int
import Mathlib.Data.List.Basic

/-!
Red black trees and places inside them: in-order contents, black heights, and the
context that a search from the root leaves above the node it has reached.
-/

namespace RedBlack

inductive ColorTree (ι : Type)
  | nil
  | node (red : Bool) (left : ColorTree ι) (item : ι) (right : ColorTree ι)
  deriving Repr, DecidableEq

variable {ι κ : Type}

namespace ColorTree

def isRed : ColorTree ι → Bool
  | nil => false
  | node red _ _ _ => red

def inorder : ColorTree ι → List ι
  | nil => []
  | node _ left item right => left.inorder ++ item :: right.inorder

def count : ColorTree ι → Nat
  | nil => 0
  | node _ left _ right => left.count + right.count + 1

def height : ColorTree ι → Nat
  | nil => 0
  | node _ left _ right => max left.height right.height + 1

def map (f : ι → κ) : ColorTree ι → ColorTree κ
  | nil => nil
  | node red left item right => node red (left.map f) (f item) (right.map f)

def blacken : ColorTree ι → ColorTree ι
  | nil => nil
  | node _ left item right => node false left item right

/-- No red node has a red child, and every way down meets `blacks` black nodes. -/
def Valid : ColorTree ι → Nat → Prop
  | nil, blacks => blacks = 0
  | node true left _ right, blacks =>
      left.isRed = false ∧ right.isRed = false ∧ left.Valid blacks ∧ right.Valid blacks
  | node false _ _ _, 0 => False
  | node false left _ right, blacks + 1 => left.Valid blacks ∧ right.Valid blacks

@[simp] theorem isRed_nil : (nil : ColorTree ι).isRed = false := rfl

@[simp] theorem isRed_node (red : Bool) (left right : ColorTree ι) (item : ι) :
    (node red left item right).isRed = red := rfl

@[simp] theorem inorder_nil : (nil : ColorTree ι).inorder = [] := rfl

@[simp] theorem inorder_node (red : Bool) (left right : ColorTree ι) (item : ι) :
    (node red left item right).inorder = left.inorder ++ item :: right.inorder := rfl

@[simp] theorem valid_nil (blacks : Nat) : (nil : ColorTree ι).Valid blacks ↔ blacks = 0 := by
  simp [Valid]

@[simp] theorem valid_red (left right : ColorTree ι) (item : ι) (blacks : Nat) :
    (node true left item right).Valid blacks ↔
      left.isRed = false ∧ right.isRed = false ∧ left.Valid blacks ∧ right.Valid blacks := by
  simp [Valid]

@[simp] theorem valid_black (left right : ColorTree ι) (item : ι) (blacks : Nat) :
    (node false left item right).Valid (blacks + 1) ↔
      left.Valid blacks ∧ right.Valid blacks := by
  simp [Valid]

theorem valid_black_iff {left right : ColorTree ι} {item : ι} {blacks : Nat} :
    (node false left item right).Valid blacks ↔
      ∃ fewer, blacks = fewer + 1 ∧ left.Valid fewer ∧ right.Valid fewer := by
  cases blacks with
  | zero => simp [Valid]
  | succ fewer => simp

theorem valid_zero {tree : ColorTree ι} (valid : tree.Valid 0) (black : tree.isRed = false) :
    tree = nil := by
  match tree, valid, black with
  | nil, _, _ => rfl
  | node false _ _ _, valid, _ => simp [Valid] at valid

theorem valid_blacken {tree : ColorTree ι} {blacks : Nat} (valid : tree.Valid blacks) :
    ∃ more, tree.blacken.Valid more := by
  match tree, valid with
  | nil, _ => exact ⟨0, by simp [blacken]⟩
  | node true _ _ _, valid =>
      exact ⟨blacks + 1, by simpa [blacken] using ⟨valid.2.2.1, valid.2.2.2⟩⟩
  | node false _ _ _, valid => exact ⟨blacks, valid⟩

@[simp] theorem inorder_blacken (tree : ColorTree ι) : tree.blacken.inorder = tree.inorder := by
  cases tree <;> rfl

@[simp] theorem isRed_blacken (tree : ColorTree ι) : tree.blacken.isRed = false := by
  cases tree <;> rfl

@[simp] theorem count_blacken (tree : ColorTree ι) : tree.blacken.count = tree.count := by
  cases tree <;> rfl

theorem inorder_length (tree : ColorTree ι) : tree.inorder.length = tree.count := by
  induction tree with
  | nil => rfl
  | node red left item right left_ih right_ih =>
      simp only [inorder_node, List.length_append, List.length_cons, left_ih, right_ih, count]
      omega

theorem inorder_map (f : ι → κ) (tree : ColorTree ι) : (tree.map f).inorder = tree.inorder.map f := by
  induction tree with
  | nil => rfl
  | node red left item right left_ih right_ih => simp [map, left_ih, right_ih]

theorem isRed_map (f : ι → κ) (tree : ColorTree ι) : (tree.map f).isRed = tree.isRed := by
  cases tree <;> rfl

theorem valid_map {tree : ColorTree ι} {blacks : Nat} (valid : tree.Valid blacks) (f : ι → κ) :
    (tree.map f).Valid blacks := by
  induction tree generalizing blacks with
  | nil => exact valid
  | node red left item right left_ih right_ih =>
      cases red with
      | true =>
          rw [valid_red] at valid
          simpa only [map, valid_red, isRed_map] using
            ⟨valid.1, valid.2.1, left_ih valid.2.2.1, right_ih valid.2.2.2⟩
      | false =>
          obtain ⟨fewer, rfl, leftValid, rightValid⟩ := valid_black_iff.mp valid
          simpa only [map, valid_black] using ⟨left_ih leftValid, right_ih rightValid⟩

theorem height_le {tree : ColorTree ι} {blacks : Nat} (valid : tree.Valid blacks) :
    tree.height ≤ 2 * blacks + if tree.isRed then 1 else 0 := by
  induction tree generalizing blacks with
  | nil => simp [height]
  | node red left item right left_ih right_ih =>
      cases red with
      | true =>
          obtain ⟨leftBlack, rightBlack, leftValid, rightValid⟩ := valid
          have leftHeight := left_ih leftValid
          have rightHeight := right_ih rightValid
          simp only [leftBlack, rightBlack, Bool.false_eq_true, if_false] at leftHeight rightHeight
          simp only [height, isRed_node, if_true]
          omega
      | false =>
          obtain ⟨fewer, rfl, leftValid, rightValid⟩ := valid_black_iff.mp valid
          have leftHeight := left_ih leftValid
          have rightHeight := right_ih rightValid
          simp only [height, isRed_node, Bool.false_eq_true, if_false]
          split at leftHeight <;> split at rightHeight <;> omega

theorem pow_le_count {tree : ColorTree ι} {blacks : Nat} (valid : tree.Valid blacks) :
    2 ^ blacks ≤ tree.count + 1 := by
  induction tree generalizing blacks with
  | nil => simp_all [count]
  | node red left item right left_ih right_ih =>
      cases red with
      | true =>
          have leftCount := left_ih valid.2.2.1
          simp only [count]
          omega
      | false =>
          obtain ⟨fewer, rfl, leftValid, rightValid⟩ := valid_black_iff.mp valid
          have leftCount := left_ih leftValid
          have rightCount := right_ih rightValid
          simp only [count, Nat.pow_succ]
          omega

theorem height_le_of_count {tree : ColorTree ι} {blacks bits : Nat} (valid : tree.Valid blacks)
    (black : tree.isRed = false) (few : tree.count < 2 ^ bits) : tree.height ≤ 2 * bits := by
  have high := height_le valid
  simp only [black, Bool.false_eq_true, if_false] at high
  have enough : 2 ^ blacks ≤ 2 ^ bits := Nat.le_trans (pow_le_count valid) few
  have shallow : blacks ≤ bits := (Nat.pow_le_pow_iff_right (by decide)).mp enough
  omega

end ColorTree

/-- A node on the way from the root: `dir` says which of its links was followed. -/
structure Frame (ι : Type) where
  dir : Bool
  red : Bool
  item : ι
  other : ColorTree ι
  deriving Repr, DecidableEq

open ColorTree

def Frame.fill (frame : Frame ι) (tree : ColorTree ι) : ColorTree ι :=
  if frame.dir then node frame.red frame.other frame.item tree
  else node frame.red tree frame.item frame.other

def plug : List (Frame ι) → ColorTree ι → ColorTree ι
  | [], tree => tree
  | frame :: above, tree => plug above (frame.fill tree)

def before : List (Frame ι) → List ι
  | [] => []
  | frame :: above =>
      before above ++ if frame.dir then frame.other.inorder ++ [frame.item] else []

def after : List (Frame ι) → List ι
  | [] => []
  | frame :: above =>
      (if frame.dir then [] else frame.item :: frame.other.inorder) ++ after above

theorem inorder_plug (above : List (Frame ι)) (tree : ColorTree ι) :
    (plug above tree).inorder = before above ++ tree.inorder ++ after above := by
  induction above generalizing tree with
  | nil => simp [plug, before, after]
  | cons frame above ih =>
      rw [plug, ih]
      cases dir : frame.dir <;> simp [Frame.fill, before, after, dir]

def topRed : List (Frame ι) → Bool
  | [] => false
  | frame :: _ => frame.red

/-- The hole below `above` takes a valid tree of `blacks` black nodes on each way down. -/
def Fits : List (Frame ι) → Nat → Prop
  | [], _ => True
  | ⟨_, true, _, other⟩ :: above, blacks =>
      other.isRed = false ∧ topRed above = false ∧ other.Valid blacks ∧ Fits above blacks
  | ⟨_, false, _, other⟩ :: above, blacks => other.Valid blacks ∧ Fits above (blacks + 1)

theorem valid_plug {above : List (Frame ι)} {tree : ColorTree ι} {blacks : Nat}
    (fits : Fits above blacks) (valid : tree.Valid blacks)
    (proper : topRed above = true → tree.isRed = false) :
    ∃ more, (plug above tree).Valid more := by
  induction above generalizing tree blacks with
  | nil => exact ⟨blacks, valid⟩
  | cons frame above ih =>
      obtain ⟨dir, red, item, other⟩ := frame
      cases red with
      | true =>
          obtain ⟨otherBlack, aboveBlack, otherValid, rest⟩ := fits
          have treeBlack := proper rfl
          refine @ih (Frame.fill ⟨dir, true, item, other⟩ tree) _ rest ?_ ?_
          · cases dir <;> simp_all [Frame.fill]
          · simp [aboveBlack]
      | false =>
          obtain ⟨otherValid, rest⟩ := fits
          refine @ih (Frame.fill ⟨dir, false, item, other⟩ tree) _ rest ?_ ?_
          · cases dir <;> simp_all [Frame.fill]
          · cases dir <;> simp [Frame.fill]

end RedBlack
