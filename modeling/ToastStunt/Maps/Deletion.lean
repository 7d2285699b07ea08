import Mathlib.Data.List.Nodup
import ToastStunt.Maps.Insertion

/-!
What `rberase` does to a red black tree. On the way down a red node is pushed ahead
of the search, so that the node that is unlinked at the end is a red leaf or the
root.
-/

namespace ToastStunt.Maps

open RedBlack ColorTree

variable {κ ν : Type} {compare : κ → κ → Int} {key : κ}

theorem follow_fill (above : Path κ ν) (q : Frame (Node κ ν)) (next : ColorTree (Node κ ν)) :
    follow above q.dir (q.fill next) = some (q :: above, next) := by
  obtain ⟨dir, red, item, other⟩ := q
  cases dir <;> rfl

@[simp] theorem follow_left (above : Path κ ν) (red : Bool) (left right : ColorTree (Node κ ν))
    (item : Node κ ν) : follow above false (node red left item right) =
      some (⟨false, red, item, right⟩ :: above, left) := rfl

@[simp] theorem follow_right (above : Path κ ν) (red : Bool) (left right : ColorTree (Node κ ν))
    (item : Node κ ν) : follow above true (node red left item right) =
      some (⟨true, red, item, left⟩ :: above, right) := rfl

theorem valid_fill {above : Path κ ν} {q : Frame (Node κ ν)} {next : ColorTree (Node κ ν)}
    {blacks : Nat} (fits : Fits above blacks) (valid : (q.fill next).Valid blacks)
    (proper : topRed above = true → q.red = false) :
    ∃ fewer, Fits (q :: above) fewer ∧ next.Valid fewer ∧ q.other.Valid fewer ∧
      (q.red = true → next.isRed = false ∧ q.other.isRed = false ∧ fewer = blacks) ∧
      (q.red = false → blacks = fewer + 1) := by
  obtain ⟨dir, red, item, other⟩ := q
  cases red with
  | true =>
      have aboveBlack : topRed above = false := by simpa using proper
      cases dir with
      | false =>
          obtain ⟨nextBlack, otherBlack, nextValid, otherValid⟩ := valid
          exact ⟨blacks, ⟨otherBlack, aboveBlack, otherValid, fits⟩, nextValid, otherValid,
            fun _ => ⟨nextBlack, otherBlack, rfl⟩, nofun⟩
      | true =>
          obtain ⟨otherBlack, nextBlack, otherValid, nextValid⟩ := valid
          exact ⟨blacks, ⟨otherBlack, aboveBlack, otherValid, fits⟩, nextValid, otherValid,
            fun _ => ⟨nextBlack, otherBlack, rfl⟩, nofun⟩
  | false =>
      cases dir with
      | false =>
          obtain ⟨fewer, rfl, nextValid, otherValid⟩ := valid_black_iff.mp valid
          exact ⟨fewer, ⟨otherValid, fits⟩, nextValid, otherValid, nofun, fun _ => rfl⟩
      | true =>
          obtain ⟨fewer, rfl, otherValid, nextValid⟩ := valid_black_iff.mp valid
          exact ⟨fewer, ⟨otherValid, fits⟩, nextValid, otherValid, nofun, fun _ => rfl⟩

/-- The red node that goes ahead of the search: `q`, its parent, or none yet at the root. -/
def Pushed (above : Path κ ν) (q : ColorTree (Node κ ν)) : Prop :=
  topRed above = true ∨ q.isRed = true ∨ above = [] ∨ ∃ p, above = [p] ∧ p.other.isRed = false

def PushedOn (above : Path κ ν) (q : Frame (Node κ ν)) (next : ColorTree (Node κ ν))
    (result : Option (Path κ ν)) : Prop :=
  ∃ q' above' fewer, result = some (q' :: above') ∧ q'.item = q.item ∧
    before (q' :: above') = before (q :: above) ∧ after (q' :: above') = after (q :: above) ∧
    Fits (q' :: above') fewer ∧ next.Valid fewer ∧ (q'.red = true → next.isRed = false) ∧
    Pushed (q' :: above') next

theorem isRed_fill (q : Frame (Node κ ν)) (next : ColorTree (Node κ ν)) :
    (q.fill next).isRed = q.red := by
  obtain ⟨dir, red, item, other⟩ := q
  cases dir <;> rfl

theorem pushRed_nephew {above : Path κ ν} {q : Frame (Node κ ν)} {next : ColorTree (Node κ ν)}
    {blacks : Nat} (fits : Fits above (blacks + 1)) (otherValid : q.other.Valid blacks)
    (nextValid : next.Valid blacks) (black : q.red = false) (nextBlack : next.isRed = false)
    (otherRed : q.other.isRed = true) : PushedOn above q next (pushRed above q next) := by
  obtain ⟨dir, red, item, other⟩ := q
  obtain rfl : red = false := black
  match other, otherRed with
  | node true left old right, _ =>
      obtain ⟨leftBlack, rightBlack, leftValid, rightValid⟩ := otherValid
      cases dir with
      | false =>
          refine ⟨⟨false, true, item, left⟩, ⟨false, false, old, right⟩ :: above, blacks, ?_, rfl,
            ?_, ?_, ⟨leftBlack, rfl, leftValid, rightValid, fits⟩, nextValid,
            fun _ => nextBlack, .inl rfl⟩
          · simp [pushRed, nextBlack, Frame.fill, rbsingle, follow]
          · simp [before]
          · simp [after]
      | true =>
          refine ⟨⟨true, true, item, right⟩, ⟨true, false, old, left⟩ :: above, blacks, ?_, rfl,
            ?_, ?_, ⟨rightBlack, rfl, rightValid, leftValid, fits⟩, nextValid,
            fun _ => nextBlack, .inl rfl⟩
          · simp [pushRed, nextBlack, Frame.fill, rbsingle, follow]
          · simp [before]
          · simp [after]

theorem fits_redden {above : Path κ ν} {q : Frame (Node κ ν)} {blacks : Nat}
    (aboveBlack : topRed above = false) (fits : Fits above blacks)
    (otherValid : q.other.Valid blacks) (otherBlack : q.other.isRed = false) :
    Fits (redden q :: above) blacks := ⟨otherBlack, aboveBlack, otherValid, fits⟩

theorem before_cons (q : Frame (Node κ ν)) {above other : Path κ ν}
    (same : before above = before other) : before (q :: above) = before (q :: other) := by
  rw [before, before, same]

theorem after_cons (q : Frame (Node κ ν)) {above other : Path κ ν}
    (same : after above = after other) : after (q :: above) = after (q :: other) := by
  rw [after, after, same]

theorem before_redden (q : Frame (Node κ ν)) (above : Path κ ν) :
    before (redden q :: above) = before (q :: above) := rfl

theorem after_redden (q : Frame (Node κ ν)) (above : Path κ ν) :
    after (redden q :: above) = after (q :: above) := rfl

theorem pushed_below_top (p top : Frame (Node κ ν)) {q : Frame (Node κ ν)} {rest : Path κ ν} {next : ColorTree (Node κ ν)}
    {blacks : Nat} {result : Option (Path κ ν)}
    (ran : result = some (redden q :: p :: top :: rest)) (restBlack : topRed rest = false)
    (fits : Fits rest (blacks + 1)) (topRed : top.red = true) (black : p.red = false)
    (topValid : top.other.Valid (blacks + 1)) (topOther : top.other.isRed = false)
    (pValid : p.other.Valid blacks)
    (otherValid : q.other.Valid blacks) (otherBlack : q.other.isRed = false)
    (nextValid : next.Valid blacks) (nextBlack : next.isRed = false)
    {old : Frame (Node κ ν)} (sameBefore : before (p :: top :: rest) = before (old :: rest))
    (sameAfter : after (p :: top :: rest) = after (old :: rest)) :
    PushedOn (old :: rest) q next result := by
  obtain ⟨pDir, pRed, pItem, pOther⟩ := p
  obtain ⟨tDir, tRed, tItem, tOther⟩ := top
  obtain rfl : pRed = false := black
  obtain rfl : tRed = true := topRed
  refine ⟨redden q, _, blacks, ran, rfl, ?_, ?_, ?_, nextValid, fun _ => nextBlack, .inl rfl⟩
  · rw [before_redden]
    exact before_cons q sameBefore
  · rw [after_redden]
    exact after_cons q sameAfter
  · exact fits_redden rfl ⟨pValid, topOther, restBlack, topValid, fits⟩ otherValid otherBlack

theorem red_parts {tree : ColorTree (Node κ ν)} {blacks : Nat} (red : tree.isRed = true)
    (valid : tree.Valid blacks) : ∃ left item right, tree = node true left item right ∧
      left.Valid blacks ∧ right.Valid blacks := by
  cases tree with
  | nil => cases red
  | node color left item right =>
      obtain rfl : color = true := red
      exact ⟨left, item, right, rfl, valid.2.2⟩

theorem pushRed_sibling {p : Frame (Node κ ν)} {rest : Path κ ν} {q : Frame (Node κ ν)}
    {next : ColorTree (Node κ ν)} {blacks : Nat} (restBlack : topRed rest = false)
    (fits : Fits rest (blacks + 1)) (siblingValid : p.other.Valid (blacks + 1))
    (siblingBlack : p.other.isRed = false) (otherValid : q.other.Valid blacks)
    (nextValid : next.Valid blacks) (black : q.red = false) (nextBlack : next.isRed = false)
    (otherBlack : q.other.isRed = false) :
    PushedOn (p :: rest) q next (pushRed (p :: rest) q next) := by
  obtain ⟨pDir, pRed, pItem, sibling⟩ := p
  have back (above : Path κ ν) := follow_fill above q next
  cases sibling with
  | nil => simp at siblingValid
  | node siblingRed left s right =>
      obtain rfl : siblingRed = false := siblingBlack
      obtain ⟨leftValid, rightValid⟩ := siblingValid
      have calm : (q.red || next.isRed) = false := by simp [black, nextBlack]
      cases inner : (link (node true left s right) pDir).isRed with
      | false =>
          cases outer : (link (node true left s right) (!pDir)).isRed with
          | false =>
              refine ⟨redden q, ⟨pDir, false, pItem, node true left s right⟩ :: rest, blacks, ?_,
                rfl, ?_, ?_, ?_, nextValid, fun _ => nextBlack, .inl rfl⟩
              · simp [pushRed, calm, otherBlack, inner, outer]
              · exact before_cons q rfl
              · exact after_cons q rfl
              · refine fits_redden rfl ⟨?_, fits⟩ otherValid otherBlack
                cases pDir <;> simp_all [link]
          | true =>
              cases pDir with
              | false =>
                  obtain ⟨a, x, b, rfl, aValid, bValid⟩ := red_parts outer rightValid
                  have leftBlack : left.isRed = false := inner
                  refine pushed_below_top ⟨false, false, pItem, left⟩
                    ⟨false, true, s, node false a x b⟩ ?_ restBlack fits rfl rfl
                    (by simpa using ⟨aValid, bValid⟩) rfl leftValid otherValid otherBlack
                    nextValid nextBlack (by simp [before]) (by simp [after])
                  simp only [pushRed, calm, otherBlack]
                  generalize q.fill next = filled at back ⊢
                  simp [Frame.fill, rbsingle, recolour, link, leftBlack, back]
              | true =>
                  obtain ⟨a, x, b, rfl, aValid, bValid⟩ := red_parts outer leftValid
                  have rightBlack : right.isRed = false := inner
                  refine pushed_below_top ⟨true, false, pItem, right⟩
                    ⟨true, true, s, node false a x b⟩ ?_ restBlack fits rfl rfl
                    (by simpa using ⟨aValid, bValid⟩) rfl rightValid otherValid otherBlack
                    nextValid nextBlack (by simp [before]) (by simp [after])
                  simp only [pushRed, calm, otherBlack]
                  generalize q.fill next = filled at back ⊢
                  simp [Frame.fill, rbsingle, recolour, link, rightBlack, back]
      | true =>
          cases pDir with
          | false =>
              obtain ⟨a, x, b, rfl, aValid, bValid⟩ := red_parts inner leftValid
              refine pushed_below_top ⟨false, false, pItem, a⟩
                ⟨false, true, x, node false b s right⟩ ?_ restBlack fits rfl rfl
                (by simpa using ⟨bValid, rightValid⟩) rfl aValid otherValid otherBlack
                nextValid nextBlack (by simp [before]) (by simp [after])
              simp only [pushRed, calm, otherBlack]
              generalize q.fill next = filled at back ⊢
              simp [Frame.fill, rbsingle, rbdouble, recolour, link, back]
          | true =>
              obtain ⟨a, x, b, rfl, aValid, bValid⟩ := red_parts inner rightValid
              refine pushed_below_top ⟨true, false, pItem, b⟩
                ⟨true, true, x, node false left s a⟩ ?_ restBlack fits rfl rfl
                (by simpa using ⟨leftValid, aValid⟩) rfl bValid otherValid otherBlack
                nextValid nextBlack (by simp [before]) (by simp [after])
              simp only [pushRed, calm, otherBlack]
              generalize q.fill next = filled at back ⊢
              simp [Frame.fill, rbsingle, rbdouble, recolour, link, back]

theorem pushRed_spec {above : Path κ ν} {q : Frame (Node κ ν)} {next : ColorTree (Node κ ν)}
    {blacks : Nat} (fits : Fits above blacks) (valid : (q.fill next).Valid blacks)
    (proper : topRed above = true → q.red = false) (pushed : Pushed above (q.fill next)) :
    PushedOn above q next (pushRed above q next) := by
  obtain ⟨fewer, fitsBelow, nextValid, otherValid, ifRed, ifBlack⟩ := valid_fill fits valid proper
  cases ready : q.red || next.isRed with
  | true =>
      refine ⟨q, above, fewer, by simp [pushRed, ready], rfl, rfl, rfl, fitsBelow, nextValid,
        fun red => (ifRed red).1, ?_⟩
      rcases Bool.or_eq_true_iff.mp ready with red | red
      · exact .inl red
      · exact .inr (.inl red)
  | false =>
      obtain ⟨black, nextBlack⟩ := Bool.or_eq_false_iff.mp ready
      obtain rfl := ifBlack black
      cases otherBlack : q.other.isRed with
      | true => exact pushRed_nephew fits otherValid nextValid black nextBlack otherBlack
      | false =>
          cases above with
          | nil =>
              exact ⟨q, [], fewer, by simp [pushRed, ready, otherBlack], rfl, rfl, rfl, fitsBelow,
                nextValid, by simp [black], .inr (.inr (.inr ⟨q, rfl, otherBlack⟩))⟩
          | cons p rest =>
              obtain ⟨pDir, pRed, pItem, pOther⟩ := p
              have surroundings : topRed rest = false ∧ Fits rest (fewer + 1) ∧
                  pOther.Valid (fewer + 1) ∧ pOther.isRed = false := by
                rcases pushed with red | red | root | ⟨p, only, siblingBlack⟩
                · obtain rfl : pRed = true := red
                  obtain ⟨siblingBlack, restBlack, siblingValid, fits⟩ := fits
                  exact ⟨restBlack, fits, siblingValid, siblingBlack⟩
                · simp [isRed_fill, black] at red
                · cases root
                · cases only
                  cases pRed with
                  | true =>
                      obtain ⟨_, restBlack, siblingValid, fits⟩ := fits
                      exact ⟨restBlack, fits, siblingValid, siblingBlack⟩
                  | false => exact ⟨rfl, trivial, fits.1, siblingBlack⟩
              exact pushRed_sibling surroundings.1 surroundings.2.1 surroundings.2.2.1
                surroundings.2.2.2 otherValid nextValid black nextBlack otherBlack

theorem Place.pushed {contents : List (Node κ ν)} {blacks : Nat} {above : Path κ ν}
    {q : Frame (Node κ ν)} {next : ColorTree (Node κ ν)}
    (place : Place compare key contents blacks above (q.fill next))
    (pushed : Pushed above (q.fill next)) {fewer : Nat}
    (down : Place compare key contents fewer (q :: above) next) :
    ∃ q' above' less, pushRed above q next = some (q' :: above') ∧ q'.item = q.item ∧
      after (q' :: above') = after (q :: above) ∧
      Place compare key contents less (q' :: above') next ∧ Pushed (q' :: above') next := by
  obtain ⟨q', above', less, ran, item, sameBefore, sameAfter, fits, valid, proper, ahead⟩ :=
    pushRed_spec place.fits place.valid (fun red => by simpa [isRed_fill] using place.proper red)
      pushed
  refine ⟨q', above', less, ran, item, sameAfter, ⟨?_, ?_, ?_, fits, valid, proper⟩, ahead⟩
  · rw [sameBefore, sameAfter]
    exact down.whole
  · rw [sameBefore]
    exact down.below
  · rw [sameAfter]
    exact down.beyond

def Found (compare : κ → κ → Int) (key : κ) (items : List (Node κ ν)) : Option Nat → Prop
  | none => ∀ item ∈ items, compare item.key key ≠ 0
  | some addr => ∃ item ∈ items, compare item.key key = 0 ∧ item.addr = addr

theorem eraseLoop_spec (above : Path κ ν) (found : Option Nat) {contents : List (Node κ ν)}
    (steered : Steered compare key contents) {q : ColorTree (Node κ ν)} {blacks : Nat}
    (place : Place compare key contents blacks above q) (pushed : Pushed above q)
    (seen : Found compare key (after above) found) (deep : q = nil → above ≠ []) :
    ∃ last above' found' less, eraseLoop compare key q above found = some (last :: above', found') ∧
      Place compare key contents less (last :: above') nil ∧ Pushed (last :: above') nil ∧
      Found compare key (after (last :: above')) found' := by
  induction q generalizing above found blacks with
  | nil =>
      cases above with
      | nil => exact absurd rfl (deep rfl)
      | cons last above => exact ⟨last, above, found, blacks, rfl, place, pushed, seen⟩
  | node red left item right left_ih right_ih =>
      by_cases larger : compare item.key key < 0
      · obtain ⟨fewer, down⟩ := place.right steered larger
        obtain ⟨q', above', less, ran, _, sameAfter, next, ahead⟩ :=
          Place.pushed (q := ⟨true, red, item, left⟩) place pushed down
        have seenBelow : Found compare key (after (q' :: above')) found := by
          rw [sameAfter]
          simpa [after] using seen
        obtain ⟨last, path, found', least, rest, facts⟩ := right_ih _ _ next ahead seenBelow
          (by rintro - ⟨⟩)
        refine ⟨last, path, found', least, ?_, facts⟩
        have unequal : compare item.key key ≠ 0 := by omega
        simpa [eraseLoop, larger, unequal, ran] using rest
      · obtain ⟨fewer, down⟩ := place.left steered (by omega)
        obtain ⟨q', above', less, ran, _, sameAfter, next, ahead⟩ :=
          Place.pushed (q := ⟨false, red, item, right⟩) place pushed down
        have seenBelow : Found compare key (after (q' :: above'))
            (if compare item.key key = 0 then some item.addr else found) := by
          rw [sameAfter]
          by_cases equal : compare item.key key = 0
          · rw [if_pos equal]
            exact ⟨item, by simp [after], equal, rfl⟩
          · rw [if_neg equal]
            have apart := steered
            simp only [Steered, ← place.whole, inorder_node, List.pairwise_append,
              List.pairwise_cons] at apart
            have later := apart.1.2.1.2.1.1
            cases found with
            | none =>
                intro other member
                simp only [after, Bool.false_eq_true, if_false, List.cons_append, List.mem_cons,
                  List.mem_append] at member
                rcases member with rfl | inside | outside
                · exact equal
                · intro zero
                  exact larger (later other inside (by omega))
                · exact seen other outside
            | some addr =>
                obtain ⟨other, member, zero, same⟩ := seen
                exact ⟨other, by simp [after, member], zero, same⟩
        obtain ⟨last, path, found', least, rest, facts⟩ := left_ih _ _ next ahead seenBelow
          (by rintro - ⟨⟩)
        refine ⟨last, path, found', least, ?_, facts⟩
        rw [eraseLoop, if_neg larger, ran]
        exact rest

theorem leaf_of_pushed {above : Path κ ν} {last : Frame (Node κ ν)} {blacks : Nat}
    (fits : Fits (last :: above) blacks) (valid : (nil : ColorTree (Node κ ν)).Valid blacks)
    (pushed : Pushed (last :: above) nil) : last.other = nil ∧ Fits above 0 := by
  obtain ⟨dir, red, item, other⟩ := last
  obtain rfl : blacks = 0 := by simpa using valid
  cases red with
  | true =>
      obtain ⟨otherBlack, _, otherValid, fits⟩ := fits
      exact ⟨valid_zero otherValid otherBlack, fits⟩
  | false =>
      rcases pushed with red | red | root | ⟨p, only, otherBlack⟩
      · cases red
      · cases red
      · cases root
      · cases only
        exact ⟨valid_zero fits.1 otherBlack, trivial⟩

def Node.binding (item : Node κ ν) : κ × ν := (item.key, item.value)

/-- What `rberase` of a key that is there leaves: the other bindings, and no new addresses. -/
def Shrunk (compare : κ → κ → Int) (key : κ) (contents : List (Node κ ν))
    (root : ColorTree (Node κ ν)) : Prop :=
  (∃ less item more, contents = less ++ item :: more ∧ compare item.key key = 0 ∧
    root.inorder.map Node.binding = (less ++ more).map Node.binding) ∧
  (root.inorder.map Node.addr).Sublist (contents.map Node.addr) ∧
  ∃ blacks, root.Valid blacks

theorem map_overwrite {addr : Nat} {data : Node κ ν} {items : List (Node κ ν)}
    (apart : ∀ item ∈ items, item.addr ≠ addr) : items.map (overwrite addr data) = items := by
  refine (List.map_congr_left fun item member => ?_).trans (List.map_id items)
  simp [overwrite, apart item member]

theorem overwrite_addr (addr : Nat) (data item : Node κ ν) :
    (overwrite addr data item).addr = item.addr := by
  rw [overwrite]
  split <;> rfl

theorem found_first {contents first later : List (Node κ ν)} {addr : Nat}
    (steered : Steered compare key contents) (split : contents = first ++ later)
    (beyond : ∀ item ∈ later, 0 ≤ compare item.key key)
    (found : Found compare key later (some addr)) :
    ∃ item more, later = item :: more ∧ compare item.key key = 0 ∧ item.addr = addr := by
  obtain ⟨item, member, zero, same⟩ := found
  cases later with
  | nil => cases member
  | cons head more =>
      rcases List.mem_cons.mp member with rfl | inside
      · exact ⟨item, more, rfl, zero, same⟩
      · rw [split, Steered, List.pairwise_append, List.pairwise_cons] at steered
        have below := steered.2.1.1 item inside (by omega)
        have := beyond head (by simp)
        omega

theorem unlinked (last : Frame (Node κ ν)) (above : Path κ ν) (addr : Nat)
    {contents : List (Node κ ν)} (steered : Steered compare key contents)
    (apart : (contents.map Node.addr).Nodup)
    (whole : contents = before (last :: above) ++ after (last :: above))
    (leaf : last.other = nil)
    (beyond : ∀ item ∈ after (last :: above), 0 ≤ compare item.key key)
    (found : Found compare key (after (last :: above)) (some addr)) :
    (∃ less item more, contents = less ++ item :: more ∧ compare item.key key = 0 ∧
      ((before above ++ after above).map (overwrite addr last.item)).map Node.binding =
        (less ++ more).map Node.binding) ∧
    (((before above ++ after above).map (overwrite addr last.item)).map Node.addr).Sublist
      (contents.map Node.addr) := by
  obtain ⟨item, more, split, zero, rfl⟩ := found_first steered whole beyond found
  have addresses : ((before above ++ after above).map (overwrite item.addr last.item)).map
      Node.addr = (before above ++ after above).map Node.addr := by
    rw [List.map_map]
    exact List.map_congr_left fun other _ => overwrite_addr _ _ other
  rw [addresses]
  cases dir : last.dir with
  | false =>
      have later : after (last :: above) = last.item :: after above := by
        simp [after, dir, leaf]
      have earlier : before (last :: above) = before above := by simp [before, dir]
      obtain ⟨rfl, rfl⟩ := List.cons.inj (later.symm.trans split)
      rw [later, earlier] at whole
      have elsewhere : ∀ other ∈ before above ++ after above, other.addr ≠ last.item.addr := by
        rw [whole, List.map_append, List.map_cons, List.nodup_middle, List.nodup_cons] at apart
        intro other member same
        exact apart.1 (same ▸ by simpa using List.mem_map_of_mem (f := Node.addr) member)
      refine ⟨⟨_, last.item, _, whole, zero, by rw [map_overwrite elsewhere]⟩, ?_⟩
      rw [whole]
      exact ((List.Sublist.refl _).append (List.sublist_cons_self _ _)).map _
  | true =>
      have later : after (last :: above) = after above := by simp [after, dir]
      have earlier : before (last :: above) = before above ++ [last.item] := by
        simp [before, dir, leaf]
      rw [later] at split
      rw [later, earlier, split] at whole
      rw [split]
      have elsewhere : ∀ other ∈ before above ++ more, other.addr ≠ item.addr := by
        rw [whole, List.map_append, List.map_cons, List.nodup_middle, List.nodup_cons] at apart
        intro other member same
        refine apart.1 (same ▸ ?_)
        rcases List.mem_append.mp member with inside | inside
        · simp [List.mem_map_of_mem (f := Node.addr) inside]
        · simp [List.mem_map_of_mem (f := Node.addr) inside]
      refine ⟨⟨_, item, more, whole, zero, ?_⟩, ?_⟩
      · rw [List.map_append, List.map_cons,
          map_overwrite fun other member => elsewhere other (List.mem_append_left _ member),
          map_overwrite fun other member => elsewhere other (List.mem_append_right _ member)]
        simp [overwrite, Node.binding]
      · rw [whole, List.append_assoc]
        exact ((List.Sublist.refl _).append (List.sublist_cons_self _ _)).map _

/-- `rberase` takes out the binding of the key, or leaves all bindings where there is none. -/
theorem rberase_spec (tree : RBTree κ ν) {blacks : Nat} (valid : tree.root.Valid blacks)
    (black : tree.root.isRed = false) (steered : Steered compare key tree.root.inorder)
    (apart : (tree.root.inorder.map Node.addr).Nodup) :
    (∃ root, rberase compare tree key = some (⟨root, tree.size⟩, false) ∧
      root.isRed = false ∧ root.inorder = tree.root.inorder ∧
      (∀ item ∈ tree.root.inorder, compare item.key key ≠ 0) ∧ ∃ blacks, root.Valid blacks) ∨
    ∃ root, rberase compare tree key = some (⟨root, tree.size - 1⟩, true) ∧
      root.isRed = false ∧ Shrunk compare key tree.root.inorder root := by
  obtain ⟨root, size⟩ := tree
  cases root with
  | nil => exact .inl ⟨nil, rfl, rfl, rfl, nofun, 0, by simp⟩
  | node red left item right =>
      obtain ⟨last, above, found, less, ran, place, pushed, seen⟩ :=
        eraseLoop_spec [] none steered
          ⟨by simp [before, after], nofun, nofun, trivial, valid, by simp [topRed]⟩
          (.inr (.inr (.inl rfl))) nofun nofun
      obtain ⟨leaf, fits⟩ := leaf_of_pushed place.fits place.valid pushed
      have whole : before (last :: above) ++ after (last :: above) =
          (node red left item right).inorder := by simpa using place.whole
      cases found with
      | none =>
          left
          refine ⟨(plug above (last.fill nil)).blacken, by simp [rberase, ran], isRed_blacken _, ?_,
            ?_, valid_blacken (valid_plug place.fits place.valid (by simp)).choose_spec⟩
          · rw [inorder_blacken, ← whole]
            have filled := inorder_plug (last :: above) (nil : ColorTree (Node κ ν))
            rw [plug] at filled
            simpa using filled
          · intro other member
            rcases List.mem_append.mp (whole.symm ▸ member) with below | beyond
            · have := place.below other below
              omega
            · exact seen other beyond
      | some addr =>
          right
          have removed := unlinked last above addr
            steered apart whole.symm leaf place.beyond seen
          refine ⟨((plug above last.other).map (overwrite addr last.item)).blacken, ?_, ?_, ?_, ?_, ?_⟩
          · simp [rberase, ran]
          · simp
          · simpa only [inorder_blacken, inorder_map, inorder_plug, leaf, inorder_nil,
              List.append_nil] using removed.1
          · simpa only [inorder_blacken, inorder_map, inorder_plug, leaf, inorder_nil,
              List.append_nil] using removed.2
          · obtain ⟨more, valid⟩ := @valid_plug _ _ last.other _ fits (by simp [leaf])
              (by simp [leaf])
            exact valid_blacken (valid_map valid _)

end ToastStunt.Maps
