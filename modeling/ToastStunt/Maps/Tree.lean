import ToastStunt.Library.RedBlack

/-!
The red black trees of map.cc. A node carries its address, which is what two
pointers to nodes are compared by; a function fails where the source would follow
a null link or write past `trav->path`.
-/

namespace ToastStunt.Maps

open RedBlack ColorTree

structure Node (κ ν : Type) where
  addr : Nat
  key : κ
  value : ν
  deriving Repr, DecidableEq

inductive Pointer
  | null
  | head
  | node (addr : Nat)
  deriving Repr, DecidableEq

structure RBTree (κ ν : Type) where
  root : ColorTree (Node κ ν)
  size : Nat
  deriving Repr, DecidableEq

abbrev Path (κ ν : Type) := List (Frame (Node κ ν))

variable {κ ν σ : Type}

def pointer : ColorTree (Node κ ν) → Pointer
  | nil => .null
  | node _ _ item _ => .node item.addr

/-- The node whose link leads to the place below `above`; `head` is the false root. -/
def owner : Path κ ν → Pointer
  | [] => .head
  | frame :: _ => .node frame.item.addr

def parent : Path κ ν → Pointer
  | [] => .null
  | frame :: _ => .node frame.item.addr

def link : ColorTree (Node κ ν) → Bool → ColorTree (Node κ ν)
  | nil, _ => nil
  | node _ left _ right, dir => if dir then right else left

def follow (above : Path κ ν) (dir : Bool) :
    ColorTree (Node κ ν) → Option (Path κ ν × ColorTree (Node κ ν))
  | nil => none
  | node red left item right =>
      if dir then some (⟨true, red, item, left⟩ :: above, right)
      else some (⟨false, red, item, right⟩ :: above, left)

def rbsingle : ColorTree (Node κ ν) → Bool → Option (ColorTree (Node κ ν))
  | node _ left item (node _ inner save outer), false =>
      some (node false (node true left item inner) save outer)
  | node _ (node _ outer save inner) item right, true =>
      some (node false outer save (node true inner item right))
  | _, _ => none

def rbdouble : ColorTree (Node κ ν) → Bool → Option (ColorTree (Node κ ν))
  | node red left item right, false =>
      (rbsingle right true).bind fun right => rbsingle (node red left item right) false
  | node red left item right, true =>
      (rbsingle left false).bind fun left => rbsingle (node red left item right) true
  | nil, _ => none

def rbnew : RBTree κ ν := ⟨nil, 0⟩

def freshAddr (root : ColorTree (Node κ ν)) : Nat :=
  root.inorder.foldr (fun item bound => max (item.addr + 1) bound) 0

def newNode (item : Node κ ν) : ColorTree (Node κ ν) := node true nil item nil

/-! Insertion. -/

/-- The parent `p` of `q` is the top of `above`; `g` and `t` may have fallen behind. -/
structure Search (κ ν : Type) where
  above : Path κ ν
  q : ColorTree (Node κ ν)
  t : Pointer
  g : Pointer
  dir : Bool
  last : Bool

def growOrFlip (item : Node κ ν) : ColorTree (Node κ ν) → ColorTree (Node κ ν)
  | nil => newNode item
  | node red left old right =>
      if left.isRed && right.isRed then node true left.blacken old right.blacken
      else node red left old right

/-- `t->link[dir2]` is the link to `g` and `p` is `g->link[last]` whenever this is reached. -/
def repairRed (s : Search κ ν) (q : ColorTree (Node κ ν)) : Option (Path κ ν × ColorTree (Node κ ν)) :=
  if q.isRed && topRed s.above then
    match s.above with
    | p :: g :: rest =>
        if s.g = .node g.item.addr ∧ s.t = owner rest ∧ g.dir = s.last then
          if p.dir = s.last then
            (rbsingle (g.fill (p.fill q)) (!s.last)).bind (follow rest s.last)
          else (rbdouble (g.fill (p.fill q)) (!s.last)).map (rest, ·)
        else none
    | _ => none
  else some (s.above, q)

def moveDown (s : Search κ ν) (above : Path κ ν) (red : Bool) (left : ColorTree (Node κ ν))
    (old : Node κ ν) (right : ColorTree (Node κ ν)) (dir : Bool) : Search κ ν where
  above := ⟨dir, red, old, if dir then left else right⟩ :: above
  q := if dir then right else left
  t := if s.g = .null then s.t else s.g
  g := parent s.above
  dir := dir
  last := s.dir

def insertLoop (compare : κ → κ → Int) (item : Node κ ν) :
    Nat → Search κ ν → Option (ColorTree (Node κ ν))
  | 0, _ => none
  | fuel + 1, s =>
      (repairRed s (growOrFlip item s.q)).bind fun (above, q) =>
        match q with
        | nil => none
        | node red left old right =>
            if compare old.key item.key = 0 then some (plug above q)
            else
              insertLoop compare item fuel
                (moveDown s above red left old right (compare old.key item.key < 0))

/-- The loop ends at the first new node, which it reaches within two steps a level. -/
def rbinsert (compare : κ → κ → Int) (tree : RBTree κ ν) (key : κ) (value : ν) :
    Option (RBTree κ ν) :=
  let item := ⟨freshAddr tree.root, key, value⟩
  match tree.root with
  | nil => some ⟨(newNode item).blacken, tree.size + 1⟩
  | root =>
      (insertLoop compare item (2 * root.count + 1) ⟨[], root, .head, .null, false, false⟩).map
        fun root => ⟨root.blacken, tree.size + 1⟩

/-! Deletion. -/

def recolour : ColorTree (Node κ ν) → Option (ColorTree (Node κ ν))
  | node _ (node _ a x b) y (node _ c z d) =>
      some (node true (node false a x b) y (node false c z d))
  | _ => none

def redden (frame : Frame (Node κ ν)) : Frame (Node κ ν) := { frame with red := true }

/-- `q` is the node just reached with the link it is left by, and `next` is on that link. -/
def pushRed (above : Path κ ν) (q : Frame (Node κ ν)) (next : ColorTree (Node κ ν)) :
    Option (Path κ ν) :=
  if q.red || next.isRed then some (q :: above)
  else if q.other.isRed then
    (rbsingle (q.fill next) q.dir).bind fun top =>
      (follow above q.dir top).bind fun (above, q') =>
        (follow above q.dir q').map Prod.fst
  else
    match above with
    | [] => some [q]
    | p :: rest =>
        match p.other with
        | nil => some (q :: p :: rest)
        | node _ left s right =>
            let sibling := node true left s right
            if (link sibling (!p.dir)).isRed || (link sibling p.dir).isRed then
              (if (link sibling p.dir).isRed then rbdouble (p.fill (q.fill next)) p.dir
                else rbsingle (p.fill (q.fill next)) p.dir).bind fun top =>
                (recolour top).bind fun top =>
                  (follow rest p.dir top).bind fun (above, p') =>
                    (follow above p.dir p').bind fun (above, q') =>
                      (follow above q.dir q').map fun (above, _) =>
                        match above with
                        | [] => []
                        | q :: above => redden q :: above
            else some (redden q :: { p with red := false, other := sibling } :: rest)

/-- The last node reached is on top of the answer, with the null link it would be left by. -/
def eraseLoop (compare : κ → κ → Int) (key : κ) :
    ColorTree (Node κ ν) → Path κ ν → Option Nat → Option (Path κ ν × Option Nat)
  | nil, above, found => some (above, found)
  | node red left item right, above, found =>
      let found := if compare item.key key = 0 then some item.addr else found
      if compare item.key key < 0 then
        (pushRed above ⟨true, red, item, left⟩ right).bind fun above =>
          eraseLoop compare key right above found
      else
        (pushRed above ⟨false, red, item, right⟩ left).bind fun above =>
          eraseLoop compare key left above found

def overwrite (addr : Nat) (data : Node κ ν) (item : Node κ ν) : Node κ ν :=
  if item.addr = addr then { item with key := data.key, value := data.value } else item

def rberase (compare : κ → κ → Int) (tree : RBTree κ ν) (key : κ) :
    Option (RBTree κ ν × Bool) :=
  match tree.root with
  | nil => some (tree, false)
  | root =>
      (eraseLoop compare key root [] none).bind fun (path, found) =>
        match path, found with
        | [], _ => none
        | q :: above, none => some (⟨(plug above (q.fill nil)).blacken, tree.size⟩, false)
        | q :: above, some addr =>
            let root := (plug above q.other).map (overwrite addr q.item)
            some (⟨root.blacken, tree.size - 1⟩, true)

/-! Traversals. -/

def heightLimit : Nat := 64

structure Trav (κ ν : Type) where
  it : ColorTree (Node κ ν)
  path : List (ColorTree (Node κ ν))
  deriving Repr, DecidableEq

def pushPath (path : List (ColorTree (Node κ ν))) (it : ColorTree (Node κ ν)) :
    Option (List (ColorTree (Node κ ν))) :=
  if path.length < heightLimit then some (it :: path) else none

def runDown (dir : Bool) : ColorTree (Node κ ν) → List (ColorTree (Node κ ν)) → Option (Trav κ ν)
  | nil, path => some ⟨nil, path⟩
  | node red left item right, path =>
      if pointer (link (node red left item right) dir) = .null then
        some ⟨node red left item right, path⟩
      else
        (pushPath path (node red left item right)).bind fun path =>
          if dir then runDown dir right path else runDown dir left path

def rbstart (tree : RBTree κ ν) (dir : Bool) : Option (Trav κ ν) := runDown dir tree.root []

def climb (dir : Bool) (last : ColorTree (Node κ ν)) : List (ColorTree (Node κ ν)) → Trav κ ν
  | [] => ⟨nil, []⟩
  | it :: path =>
      if pointer last = pointer (link it dir) then climb dir it path else ⟨it, path⟩

def rbmove (trav : Trav κ ν) (dir : Bool) : Option (Trav κ ν) :=
  match trav.it with
  | nil => none
  | it =>
      if pointer (link it dir) = .null then some (climb dir it trav.path)
      else (pushPath trav.path it).bind (runDown (!dir) (link it dir))

def rbtfirst (tree : RBTree κ ν) : Option (Trav κ ν) := rbstart tree false

def rbtnext (trav : Trav κ ν) : Option (Trav κ ν) := rbmove trav true

/-- The outer failure is an overrun of `path`, the inner one a key that is not there. -/
def rbseek (compare : κ → κ → Int) (key : κ) :
    ColorTree (Node κ ν) → List (ColorTree (Node κ ν)) → Option (Option (Trav κ ν))
  | nil, _ => some none
  | node red left item right, path =>
      if compare item.key key = 0 then some (some ⟨node red left item right, path⟩)
      else
        (pushPath path (node red left item right)).bind fun path =>
          if compare item.key key < 0 then rbseek compare key right path
          else rbseek compare key left path

/-! Whole maps. -/

def traverse (body : σ → Node κ ν → Option σ) (stop : Pointer) :
    Nat → Trav κ ν → σ → Option σ
  | 0, _, _ => none
  | fuel + 1, trav, state =>
      match trav.it with
      | nil => some state
      | node _ _ item _ =>
          if .node item.addr = stop then some state
          else
            (body state item).bind fun state =>
              (rbtnext trav).bind fun trav => traverse body stop fuel trav state

def copyNode (compare : κ → κ → Int) (new : RBTree κ ν) (item : Node κ ν) :
    Option (RBTree κ ν) := rbinsert compare new item.key item.value

def replaceNode (compare : κ → κ → Int) (new : RBTree κ ν) (item : Node κ ν) :
    Option (RBTree κ ν) :=
  (rberase compare new item.key).bind fun (new, _) => rbinsert compare new item.key item.value

def mapDup (compare : κ → κ → Int) (map : RBTree κ ν) : Option (RBTree κ ν) :=
  (rbtfirst map).bind fun trav =>
    traverse (copyNode compare) .null (map.root.count + 1) trav rbnew

def rangeLoop (compare : κ → κ → Int) (last : Pointer) :
    Nat → Trav κ ν → RBTree κ ν → Option (RBTree κ ν)
  | 0, _, _ => none
  | fuel + 1, trav, new =>
      match trav.it with
      | nil => none
      | node _ _ item _ =>
          (rbinsert compare new item.key item.value).bind fun new =>
            if .node item.addr = last then some new
            else (rbtnext trav).bind fun trav => rangeLoop compare last fuel trav new

def maprange (compare : κ → κ → Int) (map : RBTree κ ν) (first last : Trav κ ν) :
    Option (RBTree κ ν) :=
  rangeLoop compare (pointer last.it) (map.root.count + 1) first rbnew

def maprangeset (compare : κ → κ → Int) (map : RBTree κ ν) (first last : Trav κ ν)
    (value : RBTree κ ν) : Option (RBTree κ ν) :=
  (rbtfirst map).bind fun trav =>
    (traverse (copyNode compare) (pointer first.it) (map.root.count + 1) trav rbnew).bind fun new =>
      (rbtfirst value).bind fun trav =>
        (traverse (replaceNode compare) .null (value.root.count + 1) trav new).bind fun new =>
          (rbtnext last).bind fun trav =>
            traverse (replaceNode compare) .null (map.root.count + 1) trav new

end ToastStunt.Maps
