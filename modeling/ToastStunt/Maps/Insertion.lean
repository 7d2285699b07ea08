import ToastStunt.Maps.Tree

/-!
What `rbinsert` does to a red black tree. The tree is valid at the head of every
turn of the loop; `g` and `t` fall behind after a rotation and have caught up
before the next one.
-/

namespace ToastStunt.Maps

open RedBlack ColorTree

variable {κ ν : Type} {compare : κ → κ → Int} {key : κ}

def Steered (compare : κ → κ → Int) (key : κ) (contents : List (Node κ ν)) : Prop :=
  contents.Pairwise fun first second => compare second.key key ≤ 0 → compare first.key key < 0

/-- `q` is where `key` belongs, in a valid tree with these contents. -/
structure Place (compare : κ → κ → Int) (key : κ) (contents : List (Node κ ν)) (blacks : Nat)
    (above : Path κ ν) (q : ColorTree (Node κ ν)) : Prop where
  whole : before above ++ q.inorder ++ after above = contents
  below : ∀ item ∈ before above, compare item.key key < 0
  beyond : ∀ item ∈ after above, 0 ≤ compare item.key key
  fits : Fits above blacks
  valid : q.Valid blacks
  proper : topRed above = true → q.isRed = false

theorem Place.left {contents : List (Node κ ν)} {blacks : Nat} {above : Path κ ν}
    {red : Bool} {left right : ColorTree (Node κ ν)} {old : Node κ ν}
    (place : Place compare key contents blacks above (node red left old right))
    (steered : Steered compare key contents) (smaller : 0 ≤ compare old.key key) :
    ∃ fewer, Place compare key contents fewer (⟨false, red, old, right⟩ :: above) left := by
  have whole := place.whole
  have later : ∀ item ∈ right.inorder, 0 ≤ compare item.key key := by
    intro item member
    simp only [Steered, ← whole, inorder_node, List.pairwise_append, List.pairwise_cons]
      at steered
    have apart := steered.1.2.1.2.1.1 item member
    by_contra negative
    have := apart (by omega)
    omega
  have beyond : ∀ item ∈ after (⟨false, red, old, right⟩ :: above), 0 ≤ compare item.key key := by
    intro item member
    simp only [after, Bool.false_eq_true, if_false, List.cons_append, List.mem_cons,
      List.mem_append] at member
    rcases member with rfl | inside | outside
    · exact smaller
    · exact later item inside
    · exact place.beyond item outside
  have below : ∀ item ∈ before (⟨false, red, old, right⟩ :: above), compare item.key key < 0 := by
    simpa [before] using place.below
  have same : before (⟨false, red, old, right⟩ :: above) ++ left.inorder ++
      after (⟨false, red, old, right⟩ :: above) = contents := by
    simpa [before, after] using whole
  cases red with
  | true =>
      obtain ⟨leftBlack, rightBlack, leftValid, rightValid⟩ := place.valid
      have aboveBlack : topRed above = false := by
        by_contra red
        simpa using place.proper (by simpa using red)
      exact ⟨blacks, same, below, beyond, ⟨rightBlack, aboveBlack, rightValid, place.fits⟩,
        leftValid, fun _ => leftBlack⟩
  | false =>
      obtain ⟨fewer, rfl, leftValid, rightValid⟩ := valid_black_iff.mp place.valid
      exact ⟨fewer, same, below, beyond, ⟨rightValid, place.fits⟩, leftValid, by simp [topRed]⟩

theorem Place.right {contents : List (Node κ ν)} {blacks : Nat} {above : Path κ ν}
    {red : Bool} {left right : ColorTree (Node κ ν)} {old : Node κ ν}
    (place : Place compare key contents blacks above (node red left old right))
    (steered : Steered compare key contents) (larger : compare old.key key < 0) :
    ∃ fewer, Place compare key contents fewer (⟨true, red, old, left⟩ :: above) right := by
  have whole := place.whole
  have earlier : ∀ item ∈ left.inorder, compare item.key key < 0 := by
    intro item member
    simp only [Steered, ← whole, inorder_node, List.pairwise_append, List.pairwise_cons]
      at steered
    exact steered.1.2.1.2.2 item member old (by simp) (by omega)
  have below : ∀ item ∈ before (⟨true, red, old, left⟩ :: above), compare item.key key < 0 := by
    intro item member
    simp only [before, if_true, List.mem_append, List.mem_singleton] at member
    rcases member with outside | inside | rfl
    · exact place.below item outside
    · exact earlier item inside
    · exact larger
  have beyond : ∀ item ∈ after (⟨true, red, old, left⟩ :: above), 0 ≤ compare item.key key := by
    simpa [after] using place.beyond
  have same : before (⟨true, red, old, left⟩ :: above) ++ right.inorder ++
      after (⟨true, red, old, left⟩ :: above) = contents := by
    simpa [before, after] using whole
  cases red with
  | true =>
      obtain ⟨leftBlack, rightBlack, leftValid, rightValid⟩ := place.valid
      have aboveBlack : topRed above = false := by
        by_contra red
        simpa using place.proper (by simpa using red)
      exact ⟨blacks, same, below, beyond, ⟨leftBlack, aboveBlack, leftValid, place.fits⟩,
        rightValid, fun _ => rightBlack⟩
  | false =>
      obtain ⟨fewer, rfl, leftValid, rightValid⟩ := valid_black_iff.mp place.valid
      exact ⟨fewer, same, below, beyond, ⟨leftValid, place.fits⟩, rightValid, by simp [topRed]⟩

theorem Place.down {contents : List (Node κ ν)} {blacks : Nat} {above : Path κ ν}
    {red : Bool} {left right : ColorTree (Node κ ν)} {old : Node κ ν}
    (place : Place compare key contents blacks above (node red left old right))
    (steered : Steered compare key contents) (dir : Bool)
    (chosen : dir = decide (compare old.key key < 0)) :
    ∃ fewer, Place compare key contents fewer
      (⟨dir, red, old, if dir then left else right⟩ :: above) (if dir then right else left) := by
  by_cases larger : compare old.key key < 0
  · obtain rfl : dir = true := by simpa [larger] using chosen
    exact place.right steered larger
  · obtain rfl : dir = false := by simpa [larger] using chosen
    exact place.left steered (by omega)

def Quiet : ColorTree (Node κ ν) → Prop
  | nil => False
  | node red left _ right => red = false ∧ left.isRed = false ∧ right.isRed = false

def Facing (s : Search κ ν) : Prop := ∀ p above, s.above = p :: above → s.dir = p.dir

/-- Where the helpers can be at the head of the loop, with a bound on the turns to come. -/
inductive Helpers (compare : κ → κ → Int) (key : κ) (s : Search κ ν) : Nat → Prop
  | aligned (facing : Facing s) (grand : s.g = parent s.above.tail)
      (great : s.t = owner (s.above.drop 2))
      (turn : ∀ p g above, s.above = p :: g :: above → s.last = g.dir)
      (top : s.above = [] → s.q.isRed = false)
      (sibling : ∀ p above, s.above = p :: above → s.q.isRed = true → p.other.isRed = false)
      (uncle : ∀ p above, s.above = p :: above → p.red = true →
        Quiet s.q ∨ ∃ g rest, above = g :: rest ∧ g.other.isRed = false) :
      Helpers compare key s (2 * s.q.count + 1)
  | late (facing : Facing s) (quiet : Quiet s.q) (grand : s.g = parent s.above.tail)
      (deep : s.above.tail ≠ []) : Helpers compare key s (2 * s.q.count + 1)
  | lost {left right inner : ColorTree (Node κ ν)} {old : Node κ ν} (facing : Facing s)
      (deep : s.above ≠ []) (q : s.q = node true left old right)
      (next : inner = if compare old.key key < 0 then right else left)
      (quiet : Quiet inner) (stale : s.g ≠ .null) :
      Helpers compare key s (2 * inner.count + 2)

theorem repairRed_calm {s : Search κ ν} {q : ColorTree (Node κ ν)}
    (calm : topRed s.above = true → q.isRed = false) : repairRed s q = some (s.above, q) := by
  have quiet : (q.isRed && topRed s.above) = false := by
    cases red : topRed s.above with
    | false => simp
    | true => simp [calm red]
  simp [repairRed, quiet]

theorem repairRed_single {s : Search κ ν} {q : ColorTree (Node κ ν)} {p g : Frame (Node κ ν)}
    {rest : Path κ ν} {blacks : Nat} (path : s.above = p :: g :: rest)
    (red : q.isRed = true) (parentRed : p.red = true) (uncle : g.other.isRed = false)
    (fits : Fits s.above blacks) (grand : s.g = parent s.above.tail)
    (great : s.t = owner (s.above.drop 2)) (turn : s.last = g.dir) (outer : p.dir = g.dir) :
    ∃ other, repairRed s q = some (⟨p.dir, false, p.item, other⟩ :: rest, q) ∧
      before (⟨p.dir, false, p.item, other⟩ :: rest) = before s.above ∧
      after (⟨p.dir, false, p.item, other⟩ :: rest) = after s.above ∧
      Fits (⟨p.dir, false, p.item, other⟩ :: rest) blacks := by
  obtain ⟨dir, pRed, item, other⟩ := p
  obtain ⟨gDir, gRed, gItem, gOther⟩ := g
  obtain rfl : pRed = true := parentRed
  obtain rfl : dir = gDir := outer
  rw [path] at fits
  obtain ⟨otherBlack, gBlack, otherValid, fits⟩ := fits
  obtain rfl : gRed = false := gBlack
  obtain ⟨gOtherValid, fits⟩ := fits
  have helpers : s.g = .node gItem.addr ∧ s.t = owner rest := by
    simpa [path, parent] using And.intro grand great
  cases dir with
  | false =>
      refine ⟨node true other gItem gOther, ?_, ?_, ?_, ?_, fits⟩
      · simp [repairRed, red, path, topRed, helpers, turn, Frame.fill, rbsingle, follow]
      · simp [path, before]
      · simp [path, after]
      · simpa using ⟨otherBlack, uncle, otherValid, gOtherValid⟩
  | true =>
      refine ⟨node true gOther gItem other, ?_, ?_, ?_, ?_, fits⟩
      · simp [repairRed, red, path, topRed, helpers, turn, Frame.fill, rbsingle, follow]
      · simp [path, before]
      · simp [path, after]
      · simpa using ⟨uncle, otherBlack, gOtherValid, otherValid⟩

theorem repairRed_double {s : Search κ ν} {left right : ColorTree (Node κ ν)} {old : Node κ ν}
    {p g : Frame (Node κ ν)} {rest : Path κ ν} {blacks : Nat} (path : s.above = p :: g :: rest)
    (parentRed : p.red = true) (uncle : g.other.isRed = false)
    (fits : Fits s.above blacks) (grand : s.g = parent s.above.tail)
    (great : s.t = owner (s.above.drop 2)) (turn : s.last = g.dir) (inner : p.dir ≠ g.dir) :
    ∃ low lower high higher,
      repairRed s (node true left old right) =
        some (rest, node false (node true lower low left) old (node true right high higher)) ∧
      before s.above = before rest ++ (lower.inorder ++ [low]) ∧
      after s.above = high :: higher.inorder ++ after rest ∧
      lower.isRed = false ∧ higher.isRed = false ∧ lower.Valid blacks ∧ higher.Valid blacks ∧
      Fits rest (blacks + 1) := by
  obtain ⟨dir, pRed, item, other⟩ := p
  obtain ⟨gDir, gRed, gItem, gOther⟩ := g
  obtain rfl : pRed = true := parentRed
  rw [path] at fits
  obtain ⟨otherBlack, gBlack, otherValid, fits⟩ := fits
  obtain rfl : gRed = false := gBlack
  obtain ⟨gOtherValid, fits⟩ := fits
  have helpers : s.g = .node gItem.addr ∧ s.t = owner rest := by
    simpa [path, parent] using And.intro grand great
  cases gDir with
  | false =>
      obtain rfl : dir = true := by simpa using inner
      refine ⟨item, other, gItem, gOther, ?_, ?_, ?_, otherBlack, uncle, otherValid, gOtherValid,
        fits⟩
      · simp [repairRed, path, topRed, helpers, turn, Frame.fill, rbdouble, rbsingle]
      · simp [path, before]
      · simp [path, after]
  | true =>
      obtain rfl : dir = false := by simpa using inner
      refine ⟨gItem, gOther, item, other, ?_, ?_, ?_, uncle, otherBlack, gOtherValid, otherValid,
        fits⟩
      · simp [repairRed, path, topRed, helpers, turn, Frame.fill, rbdouble, rbsingle]
      · simp [path, before]
      · simp [path, after]

theorem Helpers.down {s : Search κ ν} (facing : Facing s) (grand : s.g = parent s.above.tail)
    (great : s.above.tail = [] → s.t = .head) {red : Bool} {left right : ColorTree (Node κ ν)}
    {old : Node κ ν} {dir : Bool}
    (sibling : (if dir then right else left).isRed = true →
      (if dir then left else right).isRed = false)
    (uncle : red = true → Quiet (if dir then right else left) ∨
      ∃ g rest, s.above = g :: rest ∧ g.other.isRed = false) :
    Helpers compare key (moveDown s s.above red left old right dir)
      (2 * (if dir then right else left).count + 1) := by
  refine .aligned ?_ rfl ?_ ?_ (by simp [moveDown]) ?_ ?_
  · rintro p above same
    obtain ⟨rfl, rfl⟩ := List.cons.inj same
    rfl
  · obtain ⟨above, q, t, g, dir, last⟩ := s
    match above with
    | [] => simp_all [moveDown, parent, owner]
    | [_] => simp_all [moveDown, parent, owner]
    | _ :: _ :: _ => simp_all [moveDown, parent, owner]
  · rintro p g above same
    obtain ⟨rfl, rest⟩ := List.cons.inj same
    exact facing g above rest
  · rintro p above same red
    obtain ⟨rfl, rfl⟩ := List.cons.inj same
    exact sibling red
  · rintro p above same red
    obtain ⟨rfl, rfl⟩ := List.cons.inj same
    exact uncle red

def Grown (compare : κ → κ → Int) (item : Node κ ν) (contents : List (Node κ ν))
    (root : ColorTree (Node κ ν)) : Prop :=
  (∃ less more, contents = less ++ more ∧ root.inorder = less ++ item :: more ∧
    (∀ old ∈ less, compare old.key item.key < 0) ∧
    ∀ old ∈ more, 0 ≤ compare old.key item.key) ∧
  ∃ blacks, root.Valid blacks

theorem insertLoop_turn {item : Node κ ν} {s : Search κ ν} {above : Path κ ν} {red : Bool}
    {left right : ColorTree (Node κ ν)} {old : Node κ ν} (fuel : Nat)
    (repaired : repairRed s (growOrFlip item s.q) = some (above, node red left old right))
    (other : compare old.key item.key ≠ 0) :
    insertLoop compare item (fuel + 1) s =
      insertLoop compare item fuel
        (moveDown s above red left old right (compare old.key item.key < 0)) := by
  rw [insertLoop, repaired]
  simp [other]

theorem growOrFlip_still (item : Node κ ν) {red : Bool} {left right : ColorTree (Node κ ν)}
    {old : Node κ ν} (still : (left.isRed && right.isRed) = false) :
    growOrFlip item (node red left old right) = node red left old right := by
  simp [growOrFlip, still]

/-- At a null link the new node is attached, and at most one repair ends the loop. -/
theorem insertLoop_nil {item : Node κ ν} {contents : List (Node κ ν)} {s : Search κ ν}
    {blacks steps : Nat} (place : Place compare item.key contents blacks s.above s.q)
    (helpers : Helpers compare item.key s steps) (empty : s.q = nil)
    (self : compare item.key item.key = 0) (fuel : Nat) :
    ∃ root, insertLoop compare item (fuel + 1) s = some root ∧
      Grown compare item contents root := by
  cases helpers with
  | late _ quiet _ _ => simp [empty, Quiet] at quiet
  | lost _ _ q _ _ _ => simp [empty] at q
  | aligned facing grand great turn top sibling uncle =>
      have grown : growOrFlip item s.q = node true nil item nil := by simp [empty, growOrFlip, newNode]
      have noBlacks : blacks = 0 := by simpa [empty] using place.valid
      have whole : contents = before s.above ++ after s.above := by
        simpa [empty] using place.whole.symm
      cases topColour : topRed s.above with
      | false =>
          refine ⟨plug s.above (node true nil item nil), ?_, ?_, ?_⟩
          · rw [insertLoop, grown, repairRed_calm (by simp [topColour])]
            simp [self]
          · exact ⟨_, _, whole, by simp [inorder_plug], place.below, place.beyond⟩
          · exact valid_plug place.fits (by simpa using noBlacks) (by simp [topColour])
      | true =>
          obtain ⟨p, above, path⟩ : ∃ p above, s.above = p :: above := by
            cases path : s.above with
            | nil => simp [path, topRed] at topColour
            | cons p above => exact ⟨p, above, rfl⟩
          have parentRed : p.red = true := by simpa [path, topRed] using topColour
          obtain ⟨g, rest, rfl, uncleBlack⟩ :=
            (uncle p above path parentRed).resolve_left (by simp [empty, Quiet])
          by_cases side : p.dir = g.dir
          · obtain ⟨other, repaired, sameBefore, sameAfter, fits⟩ :=
              repairRed_single (q := node true nil item nil) path rfl parentRed uncleBlack
                place.fits grand great (turn p g rest path) side
            refine ⟨plug (⟨p.dir, false, p.item, other⟩ :: rest) (node true nil item nil), ?_,
              ?_, ?_⟩
            · rw [insertLoop, grown, repaired]
              simp [self]
            · exact ⟨_, _, whole, by simp [inorder_plug, sameBefore, sameAfter], place.below,
                place.beyond⟩
            · exact valid_plug fits (by simpa using noBlacks) (by simp [topRed])
          · obtain ⟨low, lower, high, higher, repaired, sameBefore, sameAfter, lowerBlack,
              higherBlack, lowerValid, higherValid, fits⟩ :=
              @repairRed_double _ _ _ nil nil item _ _ _ _ path parentRed uncleBlack
                place.fits grand great (turn p g rest path) side
            refine ⟨plug rest (node false (node true lower low nil) item (node true nil high higher)),
              ?_, ?_, ?_⟩
            · rw [insertLoop, grown, repaired]
              simp [self]
            · exact ⟨_, _, whole, by simp [inorder_plug, sameBefore, sameAfter], place.below,
                place.beyond⟩
            · subst noBlacks
              exact valid_plug fits (by simp [lowerBlack, higherBlack, lowerValid, higherValid])
                (by simp)

theorem blacken_red {tree : ColorTree (Node κ ν)} {blacks : Nat} (valid : tree.Valid blacks)
    (red : tree.isRed = true) : tree.blacken.Valid (blacks + 1) ∧ Quiet tree.blacken ∧
      tree.blacken.count = tree.count := by
  match tree, red with
  | node true left old right, _ =>
      obtain ⟨leftBlack, rightBlack, leftValid, rightValid⟩ := valid
      exact ⟨by simpa [blacken] using ⟨leftValid, rightValid⟩, ⟨rfl, leftBlack, rightBlack⟩, rfl⟩

/-- The tree at the head of a turn once the node at `q` has turned red, before the repair. -/
structure Flipped (compare : κ → κ → Int) (key : κ) (contents : List (Node κ ν)) (blacks : Nat)
    (above : Path κ ν) (left : ColorTree (Node κ ν)) (old : Node κ ν)
    (right : ColorTree (Node κ ν)) : Prop where
  whole : before above ++ (node true left old right).inorder ++ after above = contents
  below : ∀ item ∈ before above, compare item.key key < 0
  beyond : ∀ item ∈ after above, 0 ≤ compare item.key key
  fits : Fits above blacks
  valid : (node true left old right).Valid blacks
  leftQuiet : Quiet left
  rightQuiet : Quiet right

theorem Place.flip {contents : List (Node κ ν)} {blacks : Nat} {above : Path κ ν}
    {left right : ColorTree (Node κ ν)} {old : Node κ ν}
    (place : Place compare key contents blacks above (node false left old right))
    (leftRed : left.isRed = true) (rightRed : right.isRed = true) :
    Flipped compare key contents blacks above left.blacken old right.blacken := by
  obtain ⟨fewer, rfl, leftValid, rightValid⟩ := valid_black_iff.mp place.valid
  have leftFlipped := blacken_red leftValid leftRed
  have rightFlipped := blacken_red rightValid rightRed
  refine ⟨?_, place.below, place.beyond, place.fits, ?_, leftFlipped.2.1, rightFlipped.2.1⟩
  · simpa using place.whole
  · simpa using ⟨leftFlipped.1, rightFlipped.1⟩

def Repaired (compare : κ → κ → Int) (key : κ) (contents : List (Node κ ν)) (s : Search κ ν)
    (q : ColorTree (Node κ ν)) (old : Node κ ν) (bound : Nat) : Prop :=
  ∃ above red left right, repairRed s q = some (above, node red left old right) ∧
    let s' := moveDown s above red left old right (compare old.key key < 0)
    ∃ fewer steps, Place compare key contents fewer s'.above s'.q ∧
      Helpers compare key s' steps ∧ steps < bound

theorem child_count (left right : ColorTree (Node κ ν)) (red : Bool) (old : Node κ ν)
    (dir : Bool) :
    (if dir then right else left).count < (node red left old right).count := by
  cases dir <;> simp only [count, if_true, Bool.false_eq_true, if_false] <;> omega

theorem owner_short {above : Path κ ν} (short : above.tail = []) :
    owner (above.drop 2) = .head := by
  match above, short with
  | [], _ => rfl
  | [_], _ => rfl

section Flip

variable {contents : List (Node κ ν)} {s : Search κ ν} {blacks : Nat}
  {left right : ColorTree (Node κ ν)} {old : Node κ ν}

theorem Flipped.quiet
    (flipped : Flipped compare key contents blacks s.above left old right) (dir : Bool) :
    Quiet (if dir then right else left) := by
  cases dir with
  | true => exact flipped.rightQuiet
  | false => exact flipped.leftQuiet

theorem Flipped.calm (steered : Steered compare key contents)
    (flipped : Flipped compare key contents blacks s.above left old right)
    (facing : Facing s) (grand : s.g = parent s.above.tail) (great : s.t = owner (s.above.drop 2))
    (topBlack : topRed s.above = false) :
    Repaired compare key contents s (node true left old right) old
      (2 * (node true left old right).count + 1) := by
  have place : Place compare key contents blacks s.above (node true left old right) :=
    ⟨flipped.whole, flipped.below, flipped.beyond, flipped.fits, flipped.valid, by simp [topBlack]⟩
  obtain ⟨less, next⟩ := place.down steered (decide (compare old.key key < 0)) rfl
  refine ⟨_, _, _, _, repairRed_calm (by simp [topBlack]), less, _, next,
    Helpers.down facing grand (fun short => great.trans (owner_short short)) ?_
      (fun _ => .inl (flipped.quiet _)), ?_⟩
  · have leftBlack := flipped.valid.1
    have rightBlack := flipped.valid.2.1
    intro _
    cases decide (compare old.key key < 0) <;> simp [leftBlack, rightBlack]
  · have := child_count left right true old (decide (compare old.key key < 0))
    omega

theorem Flipped.single (steered : Steered compare key contents)
    (flipped : Flipped compare key contents blacks s.above left old right)
    (grand : s.g = parent s.above.tail) (great : s.t = owner (s.above.drop 2))
    {p g : Frame (Node κ ν)} {rest : Path κ ν} (path : s.above = p :: g :: rest)
    (parentRed : p.red = true) (uncle : g.other.isRed = false) (turn : s.last = g.dir)
    (outer : p.dir = g.dir) :
    Repaired compare key contents s (node true left old right) old
      (2 * (node true left old right).count + 1) := by
  obtain ⟨cousin, repaired, sameBefore, sameAfter, fits⟩ :=
    repairRed_single (q := node true left old right) path rfl parentRed uncle flipped.fits grand
      great turn outer
  have turned : Place compare key contents blacks (⟨p.dir, false, p.item, cousin⟩ :: rest)
      (node true left old right) :=
    ⟨by rw [sameBefore, sameAfter]; exact flipped.whole, by rw [sameBefore]; exact flipped.below,
      by rw [sameAfter]; exact flipped.beyond, fits, flipped.valid, by simp [topRed]⟩
  obtain ⟨less, next⟩ := turned.down steered (decide (compare old.key key < 0)) rfl
  refine ⟨_, _, _, _, repaired, less, _, next,
    .late ?_ (flipped.quiet _) ?_ (by simp [moveDown]), ?_⟩
  · rintro _ _ same
    obtain ⟨rfl, rfl⟩ := List.cons.inj same
    rfl
  · simp [moveDown, path, parent]
  · have := child_count left right true old (decide (compare old.key key < 0))
    simp only [moveDown]
    omega

theorem Flipped.double (steered : Steered compare key contents)
    (flipped : Flipped compare key contents blacks s.above left old right)
    (grand : s.g = parent s.above.tail) (great : s.t = owner (s.above.drop 2))
    {p g : Frame (Node κ ν)} {rest : Path κ ν} (path : s.above = p :: g :: rest)
    (parentRed : p.red = true) (uncle : g.other.isRed = false) (turn : s.last = g.dir)
    (inner : p.dir ≠ g.dir) :
    Repaired compare key contents s (node true left old right) old
      (2 * (node true left old right).count + 1) := by
  obtain ⟨low, lower, high, higher, repaired, sameBefore, sameAfter, lowerBlack, higherBlack,
    lowerValid, higherValid, fits⟩ :=
    repairRed_double path parentRed uncle flipped.fits grand great turn inner
  obtain ⟨leftBlack, rightBlack, leftValid, rightValid⟩ := flipped.valid
  have turned : Place compare key contents (blacks + 1) rest
      (node false (node true lower low left) old (node true right high higher)) := by
    refine ⟨?_, ?_, ?_, fits, ?_, by simp⟩
    · rw [← flipped.whole, sameBefore, sameAfter]
      simp
    · exact fun x member => flipped.below x (by simp [sameBefore, member])
    · exact fun x member => flipped.beyond x (by simp [sameAfter, member])
    · simp [lowerBlack, higherBlack, lowerValid, higherValid, leftBlack, rightBlack, leftValid,
        rightValid]
  obtain ⟨less, next⟩ := turned.down steered (decide (compare old.key key < 0)) rfl
  have lowBelow : compare low.key key < 0 := flipped.below low (by simp [sameBefore])
  have highBeyond : ¬compare high.key key < 0 := by
    have := flipped.beyond high (by simp [sameAfter])
    omega
  have facing : Facing (moveDown s rest false (node true lower low left) old
      (node true right high higher) (compare old.key key < 0)) := by
    rintro _ _ same
    obtain ⟨rfl, rfl⟩ := List.cons.inj same
    rfl
  by_cases larger : compare old.key key < 0
  · refine ⟨_, _, _, _, repaired, less, _, next,
      .lost facing (by simp [moveDown]) (by simp [moveDown, larger]; exact ⟨rfl, rfl, rfl⟩)
        rfl ?_ (by simp [moveDown, path, parent]), ?_⟩
    · simpa [highBeyond] using flipped.rightQuiet
    · have := child_count left right true old true
      simp only [highBeyond, if_false]
      simp only [if_true] at this
      omega
  · refine ⟨_, _, _, _, repaired, less, _, next,
      .lost facing (by simp [moveDown]) (by simp [moveDown, larger]; exact ⟨rfl, rfl, rfl⟩)
        rfl ?_ (by simp [moveDown, path, parent]), ?_⟩
    · simpa [lowBelow] using flipped.leftQuiet
    · have := child_count left right true old false
      simp only [lowBelow, if_true]
      simp only [Bool.false_eq_true, if_false] at this
      omega

end Flip

theorem Helpers.flip {item : Node κ ν} {contents : List (Node κ ν)} {s : Search κ ν}
    {blacks steps : Nat} (steered : Steered compare item.key contents)
    (place : Place compare item.key contents blacks s.above s.q)
    (helpers : Helpers compare item.key s steps) {red : Bool} {left right : ColorTree (Node κ ν)}
    {old : Node κ ν} (q : s.q = node red left old right) (leftRed : left.isRed = true)
    (rightRed : right.isRed = true) (other : compare old.key item.key ≠ 0) (fuel : Nat) :
    ∃ s' fewer steps', insertLoop compare item (fuel + 1) s = insertLoop compare item fuel s' ∧
      Place compare item.key contents fewer s'.above s'.q ∧
      Helpers compare item.key s' steps' ∧ steps' < steps := by
  have loud : ¬Quiet s.q := by simp [q, Quiet, leftRed]
  cases helpers with
  | late _ quiet _ _ => exact absurd quiet loud
  | lost _ _ q' _ _ _ =>
      have valid := place.valid
      obtain ⟨rfl, rfl, rfl, rfl⟩ : red = true ∧ _ := by simpa [q] using q'
      simp [q, leftRed] at valid
  | aligned facing grand great turn top sibling uncle =>
      obtain rfl : red = false := by
        have valid := place.valid
        cases red with
        | false => rfl
        | true => simp [q, leftRed] at valid
      have turnsRed : growOrFlip item s.q = node true left.blacken old right.blacken := by
        simp [q, growOrFlip, leftRed, rightRed]
      have flipped := (q ▸ place).flip leftRed rightRed
      have repaired : Repaired compare item.key contents s
          (node true left.blacken old right.blacken) old
          (2 * (node true left.blacken old right.blacken).count + 1) := by
        cases topColour : topRed s.above with
        | false => exact flipped.calm steered facing grand great topColour
        | true =>
            obtain ⟨p, above, path⟩ : ∃ p above, s.above = p :: above := by
              cases path : s.above with
              | nil => simp [path, topRed] at topColour
              | cons p above => exact ⟨p, above, rfl⟩
            have parentRed : p.red = true := by simpa [path, topRed] using topColour
            obtain ⟨g, rest, rfl, uncleBlack⟩ := (uncle p above path parentRed).resolve_left loud
            have facesGrand := turn p g rest path
            by_cases side : p.dir = g.dir
            · exact flipped.single steered grand great path parentRed uncleBlack facesGrand side
            · exact flipped.double steered grand great path parentRed uncleBlack facesGrand side
      obtain ⟨above, red, less, more, repair, fewer, steps, next, helpers, bound⟩ := repaired
      refine ⟨_, fewer, steps, insertLoop_turn fuel (turnsRed ▸ repair) other, next, helpers, ?_⟩
      simpa [q, count] using bound

theorem Helpers.step {item : Node κ ν} {contents : List (Node κ ν)} {s : Search κ ν}
    {blacks steps : Nat} (steered : Steered compare item.key contents)
    (place : Place compare item.key contents blacks s.above s.q)
    (helpers : Helpers compare item.key s steps) {red : Bool} {left right : ColorTree (Node κ ν)}
    {old : Node κ ν} (q : s.q = node red left old right)
    (still : (left.isRed && right.isRed) = false) (other : compare old.key item.key ≠ 0)
    (fuel : Nat) :
    ∃ s' fewer steps', insertLoop compare item (fuel + 1) s = insertLoop compare item fuel s' ∧
      Place compare item.key contents fewer s'.above s'.q ∧
      Helpers compare item.key s' steps' ∧ steps' < steps := by
  have unflipped : growOrFlip item s.q = s.q := by rw [q, growOrFlip_still item still]
  have calm : repairRed s (growOrFlip item s.q) = some (s.above, node red left old right) := by
    rw [unflipped, repairRed_calm place.proper, q]
  obtain ⟨less, next⟩ := (q ▸ place).down steered
    (decide (compare old.key item.key < 0)) rfl
  have smaller (dir : Bool) : (if dir then right else left).count < s.q.count := by
    rw [q]
    exact child_count left right red old dir
  have turn := insertLoop_turn fuel calm other
  cases helpers with
  | aligned facing grand great _ top sibling uncle =>
      refine ⟨_, less, _, turn, next,
        Helpers.down facing grand (fun short => great.trans (owner_short short)) ?_ ?_, ?_⟩
      · cases decide (compare old.key item.key < 0) with
        | false =>
            intro leftRed
            simpa [show left.isRed = true from leftRed] using still
        | true =>
            intro rightRed
            simpa [show right.isRed = true from rightRed] using still
      · intro isRed
        cases path : s.above with
        | nil => simp [q, isRed] at top; exact absurd path top
        | cons g rest => exact .inr ⟨g, rest, rfl, sibling g rest path (by simp [q, isRed])⟩
      · have := smaller (decide (compare old.key item.key < 0))
        omega
  | late facing quiet grand deep =>
      obtain ⟨rfl, leftBlack, rightBlack⟩ : red = false ∧ _ := by simpa [q, Quiet] using quiet
      refine ⟨_, less, _, turn, next, Helpers.down facing grand (absurd · deep) ?_ (by simp), ?_⟩
      · cases decide (compare old.key item.key < 0) <;> simp [leftBlack, rightBlack]
      · have := smaller (decide (compare old.key item.key < 0))
        omega
  | lost facing deep q' inner quiet stale =>
      obtain ⟨rfl, rfl, rfl, rfl⟩ : red = true ∧ left = _ ∧ old = _ ∧ right = _ := by
        simpa [q] using q'
      refine ⟨_, less, _, turn, next, .late ?_ ?_ rfl (by simpa [moveDown] using deep), ?_⟩
      · rintro _ _ same
        obtain ⟨rfl, rfl⟩ := List.cons.inj same
        rfl
      · simpa [moveDown, inner] using quiet
      · simp only [moveDown, decide_eq_true_eq, ← inner]
        omega

theorem insertLoop_grows (item : Node κ ν) {contents : List (Node κ ν)}
    (steered : Steered compare item.key contents)
    (absent : ∀ old ∈ contents, compare old.key item.key ≠ 0)
    (self : compare item.key item.key = 0) (fuel : Nat) (s : Search κ ν) {blacks steps : Nat}
    (place : Place compare item.key contents blacks s.above s.q)
    (helpers : Helpers compare item.key s steps) (enough : steps ≤ fuel) :
    ∃ root, insertLoop compare item fuel s = some root ∧ Grown compare item contents root := by
  induction fuel generalizing s blacks steps with
  | zero => cases helpers <;> omega
  | succ fuel ih =>
      cases q : s.q with
      | nil => exact insertLoop_nil place helpers q self fuel
      | node red left old right =>
          have member : old ∈ contents := by
            rw [← place.whole, q]
            simp
          have other := absent old member
          have turned : ∃ s' fewer steps',
              insertLoop compare item (fuel + 1) s = insertLoop compare item fuel s' ∧
              Place compare item.key contents fewer s'.above s'.q ∧
              Helpers compare item.key s' steps' ∧ steps' < steps := by
            cases still : left.isRed && right.isRed with
            | false => exact helpers.step steered place q still other fuel
            | true =>
                obtain ⟨leftRed, rightRed⟩ := Bool.and_eq_true_iff.mp still
                exact helpers.flip steered place q leftRed rightRed other fuel
          obtain ⟨s', fewer, steps', same, place', helpers', less⟩ := turned
          rw [same]
          exact ih _ place' helpers' (by omega)

/-- `rbinsert` of an absent key puts the binding in its place in the order. -/
theorem rbinsert_grows (tree : RBTree κ ν) {blacks : Nat} (valid : tree.root.Valid blacks)
    (black : tree.root.isRed = false) (value : ν)
    (steered : Steered compare key tree.root.inorder)
    (absent : ∀ old ∈ tree.root.inorder, compare old.key key ≠ 0)
    (self : compare key key = 0) :
    ∃ root, rbinsert compare tree key value = some ⟨root, tree.size + 1⟩ ∧
      root.isRed = false ∧
      Grown compare ⟨freshAddr tree.root, key, value⟩ tree.root.inorder root := by
  cases empty : tree.root with
  | nil =>
      refine ⟨(newNode ⟨freshAddr nil, key, value⟩).blacken, ?_, isRed_blacken _,
        ⟨[], [], rfl, rfl, by rintro _ ⟨⟩, by rintro _ ⟨⟩⟩, 1, ?_⟩
      · simp [rbinsert, empty]
      · simp [newNode, blacken]
  | node red left old right =>
      obtain ⟨root, ran, whole, more, rootValid⟩ := insertLoop_grows
        ⟨freshAddr tree.root, key, value⟩ steered absent self (2 * tree.root.count + 1)
        ⟨[], tree.root, .head, .null, false, false⟩
        ⟨by simp [before, after], by rintro _ ⟨⟩, by rintro _ ⟨⟩, trivial, valid, by simp [topRed]⟩
        (.aligned (by rintro _ _ ⟨⟩) rfl rfl (by rintro _ _ _ ⟨⟩) (fun _ => black)
          (by rintro _ _ ⟨⟩) (by rintro _ _ ⟨⟩)) (by simp)
      refine ⟨root.blacken, ?_, isRed_blacken root, ?_, valid_blacken rootValid⟩
      · simp only [empty] at ran
        simp [rbinsert, empty, ran]
      · simpa [← empty] using whole

end ToastStunt.Maps
