import Mathlib.Data.List.Basic
import Mathlib.Data.List.Induction
import Mathlib.Data.List.Nodup
import Mathlib.Logic.Relation
import Mathlib.Algebra.Order.BigOperators.Group.List
import Mathlib.Algebra.Order.Ring.Nat

/-!
Depth-first traversal of a graph given by its successor lists, in first-visit
order, and its specification on graphs without cycles: the traversal is the
duplicate-free concatenation of the traversals of the successors.
-/

namespace FirstVisit

variable {α β : Type} [DecidableEq α] [DecidableEq β]

def addNew (seen : List α) (item : α) : List α :=
  if item ∈ seen then seen else seen ++ [item]

def addAll (seen items : List α) : List α :=
  items.foldl addNew seen

/-- Visits every item of `todo` not yet in `seen`, each followed by its successors. -/
def visit (next : α → List α) : Nat → List α → List α → List α
  | 0, _, seen => seen
  | fuel + 1, todo, seen =>
      todo.foldl (fun seen item =>
        if item ∈ seen then seen else visit next fuel (next item) (seen ++ [item])) seen

def preorder (next : α → List α) : Nat → α → List α
  | 0, item => [item]
  | fuel + 1, item => item :: addAll [] ((next item).flatMap (preorder next fuel))

def walk (next : α → List α) : Nat → α → List α
  | 0, _ => []
  | fuel + 1, item => item :: (next item).flatMap (walk next fuel)

/-- Looks at every item of `todo`, and below it, for the first that passes the test. -/
def firstFound {γ : Type} (next : α → List α) (test : α → Option γ) : Nat → List α → Option γ
  | 0, _ => none
  | fuel + 1, todo =>
      todo.findSome? fun item => (test item).or (firstFound next test fuel (next item))

def Ranked (next : α → List α) (rank : α → Nat) : Prop :=
  ∀ item successor, successor ∈ next item → rank successor < rank item

def Reach (next : α → List α) : α → α → Prop :=
  Relation.ReflTransGen fun item successor => successor ∈ next item

theorem addNew_of_mem {seen : List α} {item : α} (member : item ∈ seen) :
    addNew seen item = seen := by
  simp [addNew, member]

theorem addNew_of_not_mem {seen : List α} {item : α} (absent : item ∉ seen) :
    addNew seen item = seen ++ [item] := by
  simp [addNew, absent]

@[simp] theorem mem_addNew {seen : List α} {item other : α} :
    other ∈ addNew seen item ↔ other ∈ seen ∨ other = item := by
  by_cases member : item ∈ seen
  · rw [addNew_of_mem member]
    constructor
    · exact Or.inl
    · rintro (old | rfl)
      · exact old
      · exact member
  · rw [addNew_of_not_mem member]
    simp

theorem addNew_nodup {seen : List α} {item : α} (nodup : seen.Nodup) :
    (addNew seen item).Nodup := by
  by_cases member : item ∈ seen
  · rwa [addNew_of_mem member]
  · rw [addNew_of_not_mem member]
    simpa [List.nodup_append, nodup] using fun other old => by
      rintro rfl
      exact member old

@[simp] theorem addAll_nil (seen : List α) : addAll seen [] = seen := rfl

@[simp] theorem addAll_cons (seen : List α) (item : α) (rest : List α) :
    addAll seen (item :: rest) = addAll (addNew seen item) rest := rfl

theorem addAll_append (seen front back : List α) :
    addAll seen (front ++ back) = addAll (addAll seen front) back := by
  simp [addAll, List.foldl_append]

@[simp] theorem mem_addAll {seen items : List α} {other : α} :
    other ∈ addAll seen items ↔ other ∈ seen ∨ other ∈ items := by
  induction items generalizing seen with
  | nil => simp
  | cons item rest ih => simp [ih, or_assoc]

theorem addAll_starts (seen items : List α) : ∃ more, addAll seen items = seen ++ more := by
  induction items generalizing seen with
  | nil => exact ⟨[], (List.append_nil _).symm⟩
  | cons item rest ih =>
      obtain ⟨more, same⟩ := ih (addNew seen item)
      rw [addAll_cons, same]
      by_cases known : item ∈ seen
      · exact ⟨more, by rw [addNew_of_mem known]⟩
      · exact ⟨item :: more, by rw [addNew_of_not_mem known, List.append_assoc]; rfl⟩

theorem addAll_nodup {seen : List α} (items : List α) (nodup : seen.Nodup) :
    (addAll seen items).Nodup := by
  induction items generalizing seen with
  | nil => exact nodup
  | cons item rest ih => exact ih (addNew_nodup nodup)

theorem addAll_of_subset {seen items : List α} (covered : ∀ item ∈ items, item ∈ seen) :
    addAll seen items = seen := by
  induction items with
  | nil => rfl
  | cons item rest ih =>
      rw [addAll_cons, addNew_of_mem (covered item (by simp))]
      exact ih fun other member => covered other (by simp [member])

theorem addAll_addAll (seen front back : List α) :
    addAll seen (addAll front back) = addAll (addAll seen front) back := by
  induction back using List.reverseRecOn with
  | nil => rfl
  | append_singleton back item ih =>
      rw [addAll_append, addAll_append, ← ih]
      simp only [addAll_cons, addAll_nil]
      by_cases member : item ∈ addAll front back
      · have later : item ∈ addAll seen (addAll front back) := mem_addAll.mpr (Or.inr member)
        rw [addNew_of_mem member, addNew_of_mem later]
      · rw [addNew_of_not_mem member, addAll_append]
        rfl

theorem addAll_singleton {item : α} {rest : List α} (absent : item ∉ rest) :
    addAll [item] rest = item :: addAll [] rest := by
  induction rest using List.reverseRecOn with
  | nil => rfl
  | append_singleton rest other ih =>
      simp only [List.mem_append, List.mem_singleton, not_or] at absent
      rw [addAll_append, addAll_append, ih absent.1]
      simp only [addAll_cons, addAll_nil]
      by_cases member : other ∈ addAll [] rest
      · rw [addNew_of_mem member, addNew_of_mem (List.mem_cons_of_mem _ member)]
      · have fresh : other ∉ item :: addAll [] rest := by
          rw [List.mem_cons, not_or]
          exact ⟨Ne.symm absent.2, member⟩
        rw [addNew_of_not_mem member, addNew_of_not_mem fresh, List.cons_append]

theorem addAll_filter (keep : α → Bool) (seen items : List α) :
    (addAll seen items).filter keep = addAll (seen.filter keep) (items.filter keep) := by
  induction items generalizing seen with
  | nil => rfl
  | cons item rest ih =>
      rw [addAll_cons, ih, List.filter_cons]
      by_cases member : item ∈ seen
      · rw [addNew_of_mem member]
        split
        · rename_i kept
          have inside : item ∈ seen.filter keep := List.mem_filter.mpr ⟨member, kept⟩
          rw [addAll_cons, addNew_of_mem inside]
        · rfl
      · rw [addNew_of_not_mem member, List.filter_append]
        split
        · rename_i kept
          have outside : item ∉ seen.filter keep := fun inside =>
            member (List.mem_filter.mp inside).1
          rw [addAll_cons, addNew_of_not_mem outside]
          simp [kept]
        · rename_i dropped
          simp [dropped]

theorem addAll_flatMap (f : α → List β) (seen : List β) (items : List α) :
    addAll seen ((addAll [] items).flatMap f) = addAll seen (items.flatMap f) := by
  induction items using List.reverseRecOn with
  | nil => rfl
  | append_singleton items item ih =>
      rw [addAll_append, List.flatMap_append, addAll_append, ← ih]
      simp only [addAll_cons, addAll_nil, List.flatMap_cons, List.flatMap_nil, List.append_nil]
      by_cases member : item ∈ addAll [] items
      · have covered : ∀ other ∈ f item, other ∈ addAll seen ((addAll [] items).flatMap f) := by
          intro other inside
          exact mem_addAll.mpr (Or.inr (List.mem_flatMap.mpr ⟨item, member, inside⟩))
        rw [addNew_of_mem member, addAll_of_subset covered]
      · rw [addNew_of_not_mem member, List.flatMap_append, addAll_append]
        simp

omit [DecidableEq α] in
theorem addAll_flatMap_addAll (f : α → List β) (seen : List β) (items : List α) :
    addAll seen (items.flatMap fun item => addAll [] (f item)) = addAll seen (items.flatMap f) := by
  induction items generalizing seen with
  | nil => rfl
  | cons item rest ih =>
      rw [List.flatMap_cons, List.flatMap_cons, addAll_append, addAll_append, addAll_addAll, ih]
      rfl

theorem addAll_of_nodup {items : List α} (nodup : items.Nodup) : addAll [] items = items := by
  induction items using List.reverseRecOn with
  | nil => rfl
  | append_singleton items item ih =>
      have parts := List.nodup_append.mp nodup
      rw [addAll_append, ih parts.1]
      have absent : item ∉ items := fun member => parts.2.2 item member item (by simp) rfl
      simp [addNew_of_not_mem absent]

theorem addAll_map {f : α → β} {seen items : List α}
    (injective : ∀ a ∈ seen ++ items, ∀ b ∈ seen ++ items, f a = f b → a = b) :
    addAll (seen.map f) (items.map f) = (addAll seen items).map f := by
  induction items generalizing seen with
  | nil => rfl
  | cons item rest ih =>
      have step : addNew (seen.map f) (f item) = (addNew seen item).map f := by
        by_cases member : item ∈ seen
        · rw [addNew_of_mem member, addNew_of_mem (List.mem_map_of_mem member)]
        · have absent : f item ∉ seen.map f := by
            intro image
            obtain ⟨other, old, same⟩ := List.mem_map.mp image
            have := injective other (by simp [old]) item (by simp) same
            exact member (this ▸ old)
          rw [addNew_of_not_mem member, addNew_of_not_mem absent]
          simp
      rw [List.map_cons, addAll_cons, addAll_cons, step]
      apply ih
      intro a memberA b memberB
      apply injective a _ b
      all_goals simp only [List.mem_append, mem_addNew, List.mem_cons] at *
      all_goals tauto

theorem visit_within {next : α → List α} {Inside : α → Prop}
    (closed : ∀ item, Inside item → ∀ successor ∈ next item, Inside successor) {fuel : Nat}
    {todo seen : List α} (start : ∀ item ∈ todo, Inside item) (known : ∀ item ∈ seen, Inside item) :
    ∀ item ∈ visit next fuel todo seen, Inside item := by
  induction fuel generalizing todo seen with
  | zero => exact known
  | succ fuel ih =>
      simp only [visit]
      induction todo generalizing seen with
      | nil => exact known
      | cons first rest ihTodo =>
          have here : Inside first := start first (by simp)
          refine ihTodo (fun item member => start item (by simp [member])) ?_
          beta_reduce
          split
          · exact known
          · refine ih (closed first here) ?_
            simpa [or_imp, forall_and] using ⟨known, here⟩

section Ranked

variable {next : α → List α} {rank : α → Nat}

omit [DecidableEq α] in
theorem Reach.rank_le (ranked : Ranked next rank) {item other : α}
    (path : Reach next item other) : rank other ≤ rank item := by
  induction path with
  | refl => exact Nat.le_refl _
  | tail _ edge ih => exact Nat.le_trans (Nat.le_of_lt (ranked _ _ edge)) ih

omit [DecidableEq α] in
theorem Reach.antisymm (ranked : Ranked next rank) {item other : α}
    (path : Reach next item other) (back : Reach next other item) : item = other := by
  rcases Relation.ReflTransGen.cases_head path with same | ⟨middle, edge, tail⟩
  · exact same
  · have below := ranked _ _ edge
    have lower := Reach.rank_le ranked tail
    have upper := Reach.rank_le ranked back
    omega

theorem mem_preorder (ranked : Ranked next rank) {fuel : Nat} {item : α}
    (enough : rank item < fuel) {other : α} :
    other ∈ preorder next fuel item ↔ Reach next item other := by
  induction fuel generalizing item with
  | zero => omega
  | succ fuel ih =>
      simp only [preorder, List.mem_cons, mem_addAll, List.not_mem_nil, false_or,
        List.mem_flatMap]
      constructor
      · rintro (rfl | ⟨successor, edge, member⟩)
        · exact Relation.ReflTransGen.refl
        · have bound := ranked _ _ edge
          exact Relation.ReflTransGen.head edge ((ih (by omega)).mp member)
      · intro path
        rcases Relation.ReflTransGen.cases_head path with same | ⟨successor, edge, tail⟩
        · exact Or.inl same.symm
        · have bound := ranked _ _ edge
          exact Or.inr ⟨successor, edge, (ih (by omega)).mpr tail⟩

theorem preorder_fuel (ranked : Ranked next rank) {item : α} {fuel more : Nat}
    (enough : rank item < fuel) (alsoEnough : rank item < more) :
    preorder next fuel item = preorder next more item := by
  induction fuel generalizing item more with
  | zero => omega
  | succ fuel ih =>
      cases more with
      | zero => omega
      | succ more =>
          have same : (next item).flatMap (preorder next fuel) =
              (next item).flatMap (preorder next more) := by
            apply List.flatMap_congr
            intro successor edge
            have bound := ranked _ _ edge
            exact ih (by omega) (by omega)
          simp only [preorder, same]

theorem preorder_walk (ranked : Ranked next rank) {item : α} {fuel : Nat}
    (enough : rank item < fuel) : preorder next fuel item = addAll [] (walk next fuel item) := by
  induction fuel generalizing item with
  | zero => omega
  | succ fuel ih =>
      have below : ∀ successor ∈ next item, preorder next fuel successor =
          addAll [] (walk next fuel successor) := fun successor edge => by
        have := ranked _ _ edge
        exact ih (by omega)
      have absent : item ∉ (next item).flatMap (walk next fuel) := by
        intro member
        obtain ⟨successor, edge, inside⟩ := List.mem_flatMap.mp member
        have smaller := ranked _ _ edge
        have visited : item ∈ preorder next fuel successor := by
          rw [below successor edge]
          exact mem_addAll.mpr (Or.inr inside)
        have path := (mem_preorder ranked (by omega)).mp visited
        have := Reach.rank_le ranked path
        omega
      rw [preorder, walk, List.flatMap_congr below, addAll_flatMap_addAll, addAll_cons,
        addNew_of_not_mem (by simp), List.nil_append, addAll_singleton absent]

theorem preorder_nodup (ranked : Ranked next rank) {item : α} {fuel : Nat}
    (enough : rank item < fuel) : (preorder next fuel item).Nodup := by
  cases fuel with
  | zero => omega
  | succ fuel =>
      simp only [preorder, List.nodup_cons, mem_addAll, List.not_mem_nil, false_or,
        List.mem_flatMap]
      refine ⟨?_, addAll_nodup _ List.nodup_nil⟩
      rintro ⟨successor, edge, member⟩
      have below := ranked _ _ edge
      have path := (mem_preorder ranked (by omega)).mp member
      have := Reach.rank_le ranked path
      omega

/-- What a traversal may find already visited is visited with everything behind it. -/
def ClosedFrom (next : α → List α) (todo seen : List α) : Prop :=
  ∀ start ∈ todo, ∀ item, Reach next start item → item ∈ seen →
    ∀ other, Reach next item other → other ∈ seen

omit [DecidableEq α] in
theorem ClosedFrom.nil (todo : List α) : ClosedFrom next todo [] := by
  intro _ _ _ _ member
  cases member

omit [DecidableEq α] in
theorem ClosedFrom.enter (ranked : Ranked next rank) {item : α} {rest seen : List α}
    (closed : ClosedFrom next (item :: rest) seen) :
    ClosedFrom next (next item) (seen ++ [item]) := by
  intro start edge middle path member other tail
  have below := ranked _ _ edge
  have bound := Reach.rank_le ranked path
  have old : middle ∈ seen := by
    simp only [List.mem_append, List.mem_singleton] at member
    rcases member with old | rfl
    · exact old
    · omega
  have fromItem : Reach next item middle := Relation.ReflTransGen.head edge path
  exact List.mem_append_left _ (closed item (by simp) middle fromItem old other tail)

theorem ClosedFrom.leave (ranked : Ranked next rank) {item : α} {rest seen : List α}
    {fuel : Nat} (enough : rank item < fuel) (closed : ClosedFrom next (item :: rest) seen) :
    ClosedFrom next rest (addAll seen (preorder next fuel item)) := by
  intro start startMem middle path member other tail
  rw [mem_addAll, mem_preorder ranked enough] at member ⊢
  rcases member with old | fromItem
  · exact Or.inl (closed start (by simp [startMem]) middle path old other tail)
  · exact Or.inr (fromItem.trans tail)

/-- One traversal step of the source is the union with the item's own traversal. -/
theorem visit_eq (ranked : Ranked next rank) {fuel : Nat} {todo seen : List α}
    (enough : ∀ item ∈ todo, rank item < fuel) (closed : ClosedFrom next todo seen) :
    visit next fuel todo seen = addAll seen (todo.flatMap (preorder next fuel)) := by
  induction fuel generalizing todo seen with
  | zero =>
      cases todo with
      | nil => rfl
      | cons item rest => exact absurd (enough item (by simp)) (by omega)
  | succ fuel ih =>
      simp only [visit]
      induction todo generalizing seen with
      | nil => rfl
      | cons item rest restIh =>
          rw [List.foldl_cons, List.flatMap_cons, addAll_append]
          have bound := enough item (by simp)
          have head : (if item ∈ seen then seen else visit next fuel (next item) (seen ++ [item])) =
              addAll seen (preorder next (fuel + 1) item) := by
            by_cases member : item ∈ seen
            · rw [if_pos member, addAll_of_subset]
              intro other inside
              exact closed item (by simp) item Relation.ReflTransGen.refl member other
                ((mem_preorder ranked bound).mp inside)
            · rw [if_neg member, ih _ (ClosedFrom.enter ranked closed)]
              · rw [preorder, addAll_cons, addNew_of_not_mem member, addAll_addAll, addAll_nil]
              · intro successor edge
                have below := ranked _ _ edge
                omega
          rw [head]
          exact restIh (fun other member => enough other (by simp [member]))
            (ClosedFrom.leave ranked bound closed)

theorem mem_visit (ranked : Ranked next rank) {fuel : Nat} {todo : List α}
    (enough : ∀ item ∈ todo, rank item < fuel) {other : α} :
    other ∈ visit next fuel todo [] ↔ ∃ item ∈ todo, Reach next item other := by
  rw [visit_eq ranked enough (ClosedFrom.nil _)]
  simp only [mem_addAll, List.not_mem_nil, false_or, List.mem_flatMap]
  constructor
  · rintro ⟨item, member, inside⟩
    exact ⟨item, member, (mem_preorder ranked (enough item member)).mp inside⟩
  · rintro ⟨item, member, path⟩
    exact ⟨item, member, (mem_preorder ranked (enough item member)).mpr path⟩

theorem visit_next (ranked : Ranked next rank) {fuel : Nat} {item : α}
    (enough : rank item < fuel) :
    item :: visit next fuel (next item) [] = preorder next fuel item := by
  have successors : ∀ successor ∈ next item, rank successor < fuel := fun successor edge =>
    Nat.lt_trans (ranked _ _ edge) enough
  rw [visit_eq ranked successors (ClosedFrom.nil _)]
  rw [preorder_fuel ranked enough (Nat.lt_succ_of_lt enough), preorder]

omit [DecidableEq α] in
/-- Without marks, every item is met once for each path to it: the listing of all paths weighs
more than the listings of the successors together. -/
theorem Ranked.weight (ranked : Ranked next rank) :
    ∃ weight : α → Nat, ∀ item, ((next item).map weight).sum < weight item := by
  have longer : ∀ fuel item, (walk next fuel item).length ≤ (walk next (fuel + 1) item).length := by
    intro fuel
    induction fuel with
    | zero => simp [walk]
    | succ fuel ih =>
        intro item
        rw [walk, walk, List.length_cons, List.length_cons, List.length_flatMap,
          List.length_flatMap]
        apply Nat.succ_le_succ
        exact List.sum_le_sum fun successor _ => ih successor
  have monotone (item : α) : Monotone fun fuel => (walk next fuel item).length :=
    monotone_nat_of_le_succ fun fuel => longer fuel item
  refine ⟨fun item => (walk next (rank item + 1) item).length, fun item => ?_⟩
  beta_reduce
  rw [walk, List.length_cons, List.length_flatMap]
  apply Nat.lt_succ_of_le
  apply List.sum_le_sum
  intro successor edge
  exact monotone successor (ranked item successor edge)

theorem preorder_congr {next' : α → List α} {fuel : Nat} {item : α}
    (agree : ∀ other, Reach next item other → next' other = next other) :
    preorder next' fuel item = preorder next fuel item := by
  induction fuel generalizing item with
  | zero => rfl
  | succ fuel ih =>
      have same : (next' item).flatMap (preorder next' fuel) =
          (next item).flatMap (preorder next fuel) := by
        rw [agree item Relation.ReflTransGen.refl]
        apply List.flatMap_congr
        intro successor edge
        exact ih fun other path => agree other (Relation.ReflTransGen.head edge path)
      simp only [preorder, same]

theorem preorder_map {next' : β → List β} {f : α → β} {fuel : Nat} {item : α}
    (image : ∀ other, Reach next item other → next' (f other) = (next other).map f)
    (injective : ∀ a b, Reach next item a → Reach next item b → f a = f b → a = b)
    (ranked : Ranked next rank) (enough : rank item < fuel) :
    preorder next' fuel (f item) = (preorder next fuel item).map f := by
  induction fuel generalizing item with
  | zero => rfl
  | succ fuel ih =>
      have same : (next' (f item)).flatMap (preorder next' fuel) =
          ((next item).flatMap (preorder next fuel)).map f := by
        rw [image item Relation.ReflTransGen.refl, List.flatMap_map, List.map_flatMap]
        apply List.flatMap_congr
        intro successor edge
        have bound := ranked _ _ edge
        exact ih (fun other path => image other (Relation.ReflTransGen.head edge path))
          (fun a b pathA pathB => injective a b (Relation.ReflTransGen.head edge pathA)
            (Relation.ReflTransGen.head edge pathB)) (by omega)
      have reached : ∀ a ∈ [] ++ (next item).flatMap (preorder next fuel),
          Reach next item a := by
        intro a member
        simp only [List.nil_append, List.mem_flatMap] at member
        obtain ⟨successor, edge, inside⟩ := member
        have bound := ranked _ _ edge
        exact Relation.ReflTransGen.head edge
          ((mem_preorder ranked (by omega)).mp inside)
      have unions : addAll ([].map f) (((next item).flatMap (preorder next fuel)).map f) =
          (addAll [] ((next item).flatMap (preorder next fuel))).map f :=
        addAll_map fun a memberA b memberB =>
          injective a b (reached a memberA) (reached b memberB)
      simp only [preorder, same, List.map_cons]
      rw [← unions, List.map_nil]

theorem findSome_addAll {γ : Type} (test : α → Option γ) (seen items : List α) :
    (addAll seen items).findSome? test = (seen ++ items).findSome? test := by
  induction items generalizing seen with
  | nil => simp
  | cons item rest ih =>
      rw [addAll_cons, ih]
      by_cases known : item ∈ seen
      · rw [addNew_of_mem known, List.findSome?_append, List.findSome?_append,
          List.findSome?_cons]
        cases found : test item with
        | none => rfl
        | some b =>
            have earlier : (seen.findSome? test).isSome = true :=
              List.findSome?_isSome_iff.mpr ⟨item, known, by rw [found]; rfl⟩
            obtain ⟨c, first⟩ := Option.isSome_iff_exists.mp earlier
            simp [first]
      · rw [addNew_of_not_mem known, List.append_assoc, List.singleton_append]

omit [DecidableEq α] in
theorem findIdx_congr {p q : α → Bool} {items : List α} (same : ∀ item ∈ items, p item = q item) :
    items.findIdx? p = items.findIdx? q := by
  induction items with
  | nil => rfl
  | cons item rest ih =>
      rw [List.findIdx?_cons, List.findIdx?_cons, same item (by simp),
        ih fun other member => same other (by simp [member])]

omit [DecidableEq α] in
theorem findSome_congr {γ : Type} {f g : α → Option γ} {items : List α}
    (same : ∀ item ∈ items, f item = g item) : items.findSome? f = items.findSome? g := by
  induction items with
  | nil => rfl
  | cons item rest ih =>
      rw [List.findSome?_cons, List.findSome?_cons, same item (by simp),
        ih fun other member => same other (by simp [member])]

omit [DecidableEq α] in
theorem findSome_flatMap {γ : Type} (f : α → List α) (test : α → Option γ) (items : List α) :
    (items.flatMap f).findSome? test = items.findSome? fun item => (f item).findSome? test := by
  induction items with
  | nil => rfl
  | cons item rest ih =>
      rw [List.flatMap_cons, List.findSome?_append, ih, List.findSome?_cons]
      cases (f item).findSome? test <;> rfl

theorem firstFound_eq {γ : Type} (ranked : Ranked next rank) (test : α → Option γ) {fuel : Nat}
    {todo : List α} (enough : ∀ item ∈ todo, rank item < fuel) :
    firstFound next test fuel todo = todo.findSome? fun item =>
      (preorder next fuel item).findSome? test := by
  induction fuel generalizing todo with
  | zero =>
      cases todo with
      | nil => rfl
      | cons item rest => exact absurd (enough item (by simp)) (Nat.not_lt_zero _)
  | succ fuel ih =>
      have below (item : α) (member : item ∈ todo) :
          firstFound next test fuel (next item) =
            ((next item).flatMap (preorder next fuel)).findSome? test := by
        have bound := enough item member
        rw [ih fun successor edge => by have := ranked _ _ edge; omega, findSome_flatMap]
      rw [firstFound]
      refine findSome_congr fun item member => ?_
      rw [below item member, preorder, List.findSome?_cons, findSome_addAll, List.nil_append]
      cases test item <;> rfl

end Ranked

end FirstVisit
