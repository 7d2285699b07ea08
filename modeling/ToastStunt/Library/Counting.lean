import Mathlib.Data.List.Basic

/-!
Blocks that are shared by reference counting. A count may be higher than there are holders, never
lower, so a block with one reference can be changed in place without anybody else seeing it.
-/

namespace Counting

variable {α : Type}

structure Block (α : Type) where
  count : Nat
  content : α
  deriving DecidableEq

abbrev Store (α : Type) := List (Option (Block α))

namespace Store

def block (s : Store α) (a : Nat) : Option (Block α) := s[a]?.join

def content (s : Store α) (a : Nat) : Option α := (s.block a).map Block.content

def alloc (s : Store α) (content : α) : Store α × Nat := (s ++ [some ⟨1, content⟩], s.length)

def update (s : Store α) (a : Nat) (f : Block α → Option (Block α)) : Store α :=
  s.set a ((s.block a).bind f)

def share (s : Store α) (a : Nat) : Store α :=
  s.update a fun b => some { b with count := b.count + 1 }

def release (s : Store α) (a : Nat) : Store α :=
  s.update a fun b => if b.count ≤ 1 then none else some { b with count := b.count - 1 }

def replace (s : Store α) (a : Nat) (content : α) : Store α :=
  s.update a fun b => some { b with content := content }

/-- A reference to `a` is given up for one to the changed block, which is a copy where somebody else
may see `a`. -/
def change (s : Store α) (a : Nat) (copy edit : α → Option α) : Option (Store α × Nat) :=
  (s.block a).bind fun b =>
    if 1 < b.count then
      (copy b.content).bind fun content =>
        let (s, new) := s.alloc content
        (edit content).map fun content => ((s.release a).replace new content, new)
    else (edit b.content).map fun content => (s.replace a content, a)

end Store

open Store

variable {s : Store α} {holders : List Nat} {a : Nat}

theorem block_bound {b : Block α} (there : s.block a = some b) : a < s.length := by
  by_contra outside
  rw [block, List.getElem?_eq_none (Nat.le_of_not_lt outside)] at there
  cases there

theorem block_update (f : Block α → Option (Block α)) (c : Nat) :
    (s.update a f).block c = if c = a then (s.block a).bind f else s.block c := by
  by_cases same : c = a
  · subst same
    by_cases inside : c < s.length
    · simp [update, block, inside]
    · simp [update, block, inside]
  · simp [update, block, same, Ne.symm same]

theorem block_alloc_self (s : Store α) (content : α) :
    (s.alloc content).1.block s.length = some ⟨1, content⟩ := by
  simp [alloc, block]

theorem block_alloc {b : Block α} (there : s.block a = some b) (content : α) :
    (s.alloc content).1.block a = some b := by
  have inside := block_bound there
  simpa [alloc, block, List.getElem?_append_left inside] using there

theorem block_release_other {c : Nat} (other : c ≠ a) : (s.release a).block c = s.block c := by
  rw [Store.release, block_update, if_neg other]

theorem content_of_block {b : Block α} (there : s.block a = some b) :
    s.content a = some b.content := by
  rw [Store.content, there]
  rfl

/-- Every holder's block is there, with a count that is not lower than the holders are many. -/
def Covered (s : Store α) (holders : List Nat) : Prop :=
  ∀ a ∈ holders, ∃ b, s.block a = some b ∧ holders.count a ≤ b.count

theorem Covered.sublist {fewer : List Nat} (covered : Covered s holders)
    (sub : fewer.Sublist holders) : Covered s fewer := by
  intro a member
  obtain ⟨b, there, enough⟩ := covered a (sub.subset member)
  exact ⟨b, there, Nat.le_trans (sub.count_le a) enough⟩

theorem Covered.perm {others : List Nat} (covered : Covered s holders)
    (same : holders.Perm others) : Covered s others := by
  intro a member
  obtain ⟨b, there, enough⟩ := covered a (same.mem_iff.mpr member)
  exact ⟨b, there, same.count_eq a ▸ enough⟩

def Agree (holders : List Nat) (s s' : Store α) : Prop :=
  ∀ a ∈ holders, s'.content a = s.content a

theorem Agree.refl (holders : List Nat) (s : Store α) : Agree holders s s := fun _ _ => rfl

theorem Agree.trans {s s' s'' : Store α} (first : Agree holders s s')
    (second : Agree holders s' s'') : Agree holders s s'' :=
  fun a member => (second a member).trans (first a member)

theorem Agree.of_subset {fewer : List Nat} {s s' : Store α} (agree : Agree holders s s')
    (sub : fewer ⊆ holders) : Agree fewer s s' :=
  fun a member => agree a (sub member)

theorem Covered.alloc (covered : Covered s holders) (content : α) :
    Covered (s.alloc content).1 ((s.alloc content).2 :: holders) ∧
      Agree holders s (s.alloc content).1 ∧
      (s.alloc content).1.content (s.alloc content).2 = some content := by
  have fresh : s.length ∉ holders := by
    intro member
    obtain ⟨b, there, _⟩ := covered _ member
    exact absurd (block_bound there) (Nat.lt_irrefl _)
  refine ⟨?_, ?_, ?_⟩
  · intro a member
    by_cases new : a = s.length
    · subst new
      refine ⟨_, block_alloc_self s content, ?_⟩
      simp [Store.alloc, List.count_eq_zero.mpr fresh]
    · have old : a ∈ holders := (List.mem_cons.mp member).resolve_left new
      obtain ⟨b, there, enough⟩ := covered a old
      refine ⟨b, block_alloc there content, ?_⟩
      simpa [Store.alloc, List.count_cons, Ne.symm new] using enough
  · intro a member
    obtain ⟨b, there, _⟩ := covered a member
    rw [Store.content, Store.content, block_alloc there, there]
  · rw [Store.content, show (s.alloc content).2 = s.length from rfl, block_alloc_self]
    rfl

theorem Covered.share (covered : Covered s holders) (member : a ∈ holders) :
    Covered (s.share a) (a :: holders) ∧ Agree holders s (s.share a) := by
  obtain ⟨b, there, enough⟩ := covered a member
  constructor
  · intro c inside
    rw [Store.share, block_update]
    by_cases same : c = a
    · subst same
      refine ⟨_, by rw [if_pos rfl, there]; rfl, ?_⟩
      simpa using enough
    · rw [if_neg same]
      have old : c ∈ holders := (List.mem_cons.mp inside).resolve_left same
      obtain ⟨b', there', enough'⟩ := covered c old
      exact ⟨b', there', by simpa [List.count_cons, Ne.symm same] using enough'⟩
  · intro c _
    rw [Store.content, Store.content, Store.share, block_update]
    by_cases same : c = a
    · subst same
      rw [if_pos rfl, there]
      rfl
    · rw [if_neg same]

theorem Covered.release (covered : Covered s (a :: holders)) :
    Covered (s.release a) holders ∧ Agree holders s (s.release a) := by
  have kept : ∀ c ∈ holders, ∃ b b', s.block c = some b ∧ (s.release a).block c = some b' ∧
      b'.content = b.content ∧ holders.count c ≤ b'.count := by
    intro c member
    obtain ⟨b, there, enough⟩ := covered c (List.mem_cons_of_mem a member)
    by_cases same : c = a
    · subst same
      have positive := List.count_pos_iff.mpr member
      rw [List.count_cons_self] at enough
      refine ⟨b, { b with count := b.count - 1 }, there, ?_, rfl, ?_⟩
      · rw [Store.release, block_update, if_pos rfl, there, Option.bind_some, if_neg (by omega)]
      · change holders.count c ≤ b.count - 1
        omega
    · refine ⟨b, b, there, by rw [Store.release, block_update, if_neg same, there], rfl, ?_⟩
      simpa [List.count_cons, Ne.symm same] using enough
  constructor
  · intro c member
    obtain ⟨_, b', _, there, _, enough⟩ := kept c member
    exact ⟨b', there, enough⟩
  · intro c member
    obtain ⟨b, b', there, there', same, _⟩ := kept c member
    rw [Store.content, Store.content, there, there', Option.map_some, Option.map_some, same]

theorem Covered.replace (covered : Covered s (a :: holders)) {b : Block α}
    (there : s.block a = some b) (sole : b.count = 1) (content : α) :
    Covered (s.replace a content) (a :: holders) ∧ Agree holders s (s.replace a content) ∧
      (s.replace a content).content a = some content := by
  have only : a ∉ holders := by
    intro member
    obtain ⟨b', there', enough⟩ := covered a List.mem_cons_self
    obtain rfl : b = b' := Option.some.inj (there.symm.trans there')
    have positive := List.count_pos_iff.mpr member
    rw [List.count_cons_self] at enough
    omega
  have after : (s.replace a content).block a = some { b with content := content } := by
    rw [Store.replace, block_update, if_pos rfl, there]
    rfl
  have elsewhere : ∀ c, c ≠ a → (s.replace a content).block c = s.block c := fun c other => by
    rw [Store.replace, block_update, if_neg other]
  refine ⟨?_, ?_, ?_⟩
  · intro c member
    obtain ⟨b', there', enough⟩ := covered c member
    by_cases same : c = a
    · subst same
      obtain rfl : b = b' := Option.some.inj (there.symm.trans there')
      exact ⟨_, after, enough⟩
    · exact ⟨b', (elsewhere c same).trans there', enough⟩
  · intro c member
    have other : c ≠ a := fun same => only (same ▸ member)
    rw [Store.content, Store.content, elsewhere c other]
  · rw [Store.content, after]
    rfl

theorem Covered.overwrite (covered : Covered s holders) (a : Nat) (content : α) :
    Covered (s.replace a content) holders ∧
      ∀ c ∈ holders, (s.replace a content).content c =
        if c = a then some content else s.content c := by
  have written : ∀ c ∈ holders, ∃ b b', s.block c = some b ∧
      (s.replace a content).block c = some b' ∧ b'.count = b.count ∧
      some b'.content = if c = a then some content else s.content c := by
    intro c member
    obtain ⟨b, there, _⟩ := covered c member
    by_cases same : c = a
    · subst same
      refine ⟨b, { b with content := content }, there, ?_, rfl, by rw [if_pos rfl]⟩
      rw [Store.replace, block_update, if_pos rfl, there]
      rfl
    · refine ⟨b, b, there, ?_, rfl, by rw [if_neg same, content_of_block there]⟩
      rw [Store.replace, block_update, if_neg same, there]
  constructor
  · intro c member
    obtain ⟨b, b', there, there', count, _⟩ := written c member
    obtain ⟨old, found, enough⟩ := covered c member
    obtain rfl := Option.some.inj (there.symm.trans found)
    exact ⟨b', there', count ▸ enough⟩
  · intro c member
    obtain ⟨_, b', _, there', _, same⟩ := written c member
    exact (content_of_block there').trans same

/-- What holders can do with the blocks they hold: make new ones, pass references on and give them
back, and change a block in place when it has one reference. -/
inductive Moves (s : Store α) (before : List Nat) : Store α → List Nat → Prop
  | rest : Moves s before s before
  | alloc {s' : Store α} {after : List Nat} (moves : Moves s before s' after) (content : α) :
      Moves s before (s'.alloc content).1 ((s'.alloc content).2 :: after)
  | share {s' : Store α} {after : List Nat} {a : Nat} (moves : Moves s before s' after)
      (member : a ∈ after) : Moves s before (s'.share a) (a :: after)
  | release {s' : Store α} {after : List Nat} {a : Nat} (moves : Moves s before s' (a :: after)) :
      Moves s before (s'.release a) after
  | replace {s' : Store α} {after : List Nat} {a : Nat} {b : Block α}
      (moves : Moves s before s' (a :: after)) (there : s'.block a = some b) (sole : b.count = 1)
      (content : α) : Moves s before (s'.replace a content) (a :: after)
  | perm {s' : Store α} {after after' : List Nat} (moves : Moves s before s' after)
      (same : after.Perm after') : Moves s before s' after'

/-- Whatever the other holders do, I see the same in the blocks that I hold. -/
theorem Moves.unseen {s' : Store α} {mine before after : List Nat} (moves : Moves s before s' after)
    (covered : Covered s (mine ++ before)) : Covered s' (mine ++ after) ∧ Agree mine s s' := by
  have front (a : Nat) (after : List Nat) : (mine ++ a :: after).Perm (a :: (mine ++ after)) :=
    List.perm_middle
  induction moves with
  | rest => exact ⟨covered, .refl mine s⟩
  | alloc _ content ih =>
      obtain ⟨covered', agree⟩ := ih
      obtain ⟨allocated, same, _⟩ := covered'.alloc content
      exact ⟨allocated.perm (front _ _).symm,
        agree.trans (same.of_subset (List.subset_append_left mine _))⟩
  | share _ member ih =>
      obtain ⟨covered', agree⟩ := ih
      obtain ⟨shared, same⟩ := covered'.share (List.mem_append_right mine member)
      exact ⟨shared.perm (front _ _).symm,
        agree.trans (same.of_subset (List.subset_append_left mine _))⟩
  | release _ ih =>
      obtain ⟨covered', agree⟩ := ih
      obtain ⟨released, same⟩ := (covered'.perm (front _ _)).release
      exact ⟨released, agree.trans (same.of_subset (List.subset_append_left mine _))⟩
  | replace _ there sole content ih =>
      obtain ⟨covered', agree⟩ := ih
      obtain ⟨replaced, same, _⟩ := (covered'.perm (front _ _)).replace there sole content
      exact ⟨replaced.perm (front _ _).symm,
        agree.trans (same.of_subset (List.subset_append_left mine _))⟩
  | perm _ same ih =>
      obtain ⟨covered', agree⟩ := ih
      exact ⟨covered'.perm (same.append_left mine), agree⟩

theorem change_moves {before : List Nat} {copy edit : α → Option α} {s' : Store α} {a' : Nat}
    (covered : Covered s (a :: before)) (ran : s.change a copy edit = some (s', a')) :
    Moves s (a :: before) s' (a' :: before) := by
  obtain ⟨b, there, enough⟩ := covered a List.mem_cons_self
  rw [List.count_cons_self] at enough
  rw [Store.change, there, Option.bind_some] at ran
  split at ran
  · obtain ⟨content, _, ran⟩ := Option.bind_eq_some_iff.mp ran
    obtain ⟨edited, _, same⟩ := Option.map_eq_some_iff.mp ran
    obtain ⟨rfl, rfl⟩ := Prod.mk.inj same
    have other : s.length ≠ a := Nat.ne_of_gt (block_bound there)
    have copied : ((s.alloc content).1.release a).block s.length = some ⟨1, content⟩ := by
      rw [block_release_other other, block_alloc_self]
    have allocated : Moves s (a :: before) (s.alloc content).1 (s.length :: a :: before) :=
      .alloc .rest content
    exact .replace (.release (.perm allocated (.swap _ _ _))) copied rfl edited
  · obtain ⟨edited, _, same⟩ := Option.map_eq_some_iff.mp ran
    obtain ⟨rfl, rfl⟩ := Prod.mk.inj same
    exact .replace .rest there (by omega) edited

end Counting
