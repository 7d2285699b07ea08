import ToastStunt.Gc.Clearing
import ToastStunt.Gc.Store

/-!
The buffer of possible roots holds the buffered values of a store, over every run of the
operations that do not move a buffered list or copy a purple header.
-/

namespace ToastStunt.Gc

open Painting

variable {A : Type} [DecidableEq A]

/-- The buffer holds the buffered values that are allocated, each once, and every purple one
but `except` is among them. -/
structure Intact (except : Option A) (s : Store A) : Prop where
  nodup : s.roots.Nodup
  buffered : ∀ a, a ∈ s.roots ↔ (s.block a).isSome = true ∧ s.buffered a = true
  purple : ∀ a, (s.block a).isSome = true → s.marks.color a = .purple →
    a ∈ s.roots ∨ some a = except

section

variable {except : Option A} {s s' : Store A}

structure Quiet (s s' : Store A) : Prop where
  block : ∀ a, (s'.block a).isSome = (s.block a).isSome
  buffered : s'.buffered = s.buffered
  roots : s'.roots = s.roots
  colors : NoPurple s.marks s'.marks

omit [DecidableEq A] in
theorem Intact.quiet (intact : Intact except s) (quiet : Quiet s s') : Intact except s' := by
  obtain ⟨block, buffered, roots, colors⟩ := quiet
  refine ⟨roots ▸ intact.nodup, fun a => ?_, fun a present purple => ?_⟩
  · rw [roots, block, buffered]
    exact intact.buffered a
  · rw [roots]
    exact intact.purple a (block a ▸ present) (colors a purple)

omit [DecidableEq A] in
theorem Intact.weaken (intact : Intact none s) (except : Option A) : Intact except s :=
  ⟨intact.nodup, intact.buffered, fun a present purple =>
    .inl ((intact.purple a present purple).resolve_right nofun)⟩

theorem quiet_setColor (s : Store A) (v : A) {color : Color} (other : color ≠ .purple) :
    Quiet s (s.setColor v color) :=
  ⟨fun _ => rfl, rfl, rfl, noPurple_set s.marks v other⟩

theorem quiet_addref (s : Store A) (v : A) : Quiet s (s.addref v) :=
  ⟨fun _ => rfl, rfl, rfl, fun _ => id⟩

theorem quiet_delref (s : Store A) (v : A) : Quiet s (s.delref v) :=
  ⟨fun _ => rfl, rfl, rfl, fun _ => id⟩

omit [DecidableEq A] in
theorem dereference_ok {v : A} {b : Block A} (ran : s.dereference v = .ok b) :
    s.block v = some b := by
  unfold Store.dereference at ran
  split at ran
  · cases ran
  · rename_i found
    exact Except.ok.inj ran ▸ found

theorem quiet_modify {v : A} {f : Block A → Block A} (ran : s.modify v f = .ok s') :
    Quiet s s' := by
  obtain ⟨b, found, same⟩ := Failing.bind_ok ran
  obtain rfl := Except.ok.inj same
  refine ⟨fun a => ?_, rfl, rfl, fun _ => id⟩
  by_cases here : a = v
  · subst here
    simp [Store.setBlock, dereference_ok found]
  · simp [Store.setBlock, here]

theorem quiet_varRef {v : A} (ran : varRef v s = .ok s') : Quiet s s' := by
  obtain ⟨b, _, same⟩ := Failing.bind_ok ran
  obtain rfl := Except.ok.inj same
  split
  · exact ⟨fun _ => rfl, rfl, rfl, noPurple_set (s.addref v).marks v (by decide)⟩
  · exact quiet_addref s v

/-- The painted copy is the only one that may be purple outside the buffer. -/
theorem Intact.setColor {v : A} {color : Color} (intact : Intact (some v) s)
    (other : color ≠ .purple) : Intact none (s.setColor v color) := by
  have quiet := intact.quiet (quiet_setColor s v other)
  refine ⟨quiet.nodup, quiet.buffered, fun a present purple => ?_⟩
  rcases quiet.purple a present purple with inside | same
  · exact .inl inside
  · obtain rfl := Option.some.inj same
    simp [Store.setColor, Canvas.set, other] at purple

theorem possibleRoot_cases (v : A) (s : Store A) : possibleRoot v s = s ∨
    (s.buffered v = true ∧ possibleRoot v s = s.setColor v .purple) ∨
    (s.buffered v ≠ true ∧ possibleRoot v s = { s.setColor v .purple with
      buffered := fun a => if a = v then true else s.buffered a
      roots := s.roots ++ [v] }) := by
  by_cases skipped : s.marks.color v = .purple ∨ s.marks.color v = .green ∨
      s.marks.color v = .yellow
  · left
    rw [possibleRoot, gcPossibleRoot, if_pos (by exact skipped)]
    rfl
  · right
    have shape : gcPossibleRoot v s.heap = if s.buffered v = true then
        { s.heap with marks := s.marks.set v .purple }
        else { { s.heap with marks := s.marks.set v .purple }.setBuffered v with
          roots := s.roots ++ [v] } := by
      rw [gcPossibleRoot, if_neg (by exact skipped)]
      rfl
    by_cases on : s.buffered v = true
    · left
      rw [possibleRoot, shape, if_pos on]
      exact ⟨on, rfl⟩
    · right
      rw [possibleRoot, shape, if_neg on]
      exact ⟨on, rfl⟩

theorem intact_possibleRoot {v : A} (intact : Intact except s)
    (present : (s.block v).isSome = true) : Intact except (possibleRoot v s) := by
  have purple : ∀ a, a ≠ v → (s.setColor v .purple).marks.color a = s.marks.color a := by
    intro a other
    simp [Store.setColor, Canvas.set, other]
  rcases possibleRoot_cases v s with same | ⟨on, same⟩ | ⟨off, same⟩
  · exact same.symm ▸ intact
  · have isRoot := (intact.buffered v).mpr ⟨present, on⟩
    rw [same]
    refine ⟨intact.nodup, intact.buffered, fun a here isPurple => ?_⟩
    by_cases same : a = v
    · exact .inl (same ▸ isRoot)
    · exact intact.purple a here (purple a same ▸ isPurple)
  · have outside : v ∉ s.roots := fun inside => off ((intact.buffered v).mp inside).2
    rw [same]
    refine ⟨?_, fun a => ?_, fun a here isPurple => ?_⟩
    · refine List.nodup_append.mpr ⟨intact.nodup, List.nodup_singleton v, ?_⟩
      rintro a member b single rfl
      exact outside (List.mem_singleton.mp single ▸ member)
    · simp only [List.mem_append, List.mem_singleton]
      by_cases same : a = v
      · simp [same, Store.setColor, present]
      · simpa [same, Store.setColor] using intact.buffered a
    · by_cases same : a = v
      · exact .inl (by simp [same])
      · exact (intact.purple a here (purple a same ▸ isPurple)).imp_left (List.mem_append_left _)

theorem intact_discard {v : A} (intact : Intact except s) : Intact except (discard v s) := by
  have black : Color.black ≠ .purple := by decide
  have quiet := intact.quiet (quiet_setColor s v black)
  unfold discard
  split
  · exact quiet
  · rename_i off
    have outside : v ∉ s.roots := fun inside => off ((intact.buffered v).mp inside).2
    refine ⟨intact.nodup, fun a => ?_, fun a present purple => ?_⟩
    · by_cases same : a = v
      · simp [Store.setBlock, Store.setColor, same, outside]
      · simpa [Store.setBlock, Store.setColor, same] using intact.buffered a
    · by_cases same : a = v
      · simp [Store.setBlock, same] at present
      · exact quiet.purple a (by simpa [Store.setBlock, same] using present) purple

theorem intact_mymalloc {a : A} {b : Block A} {color : Color} (intact : Intact except s)
    (other : color ≠ .purple) (ran : mymalloc a b color s = .ok s') : Intact except s' := by
  unfold mymalloc at ran
  split at ran
  · cases ran
  · rename_i free
    obtain rfl := Except.ok.inj ran
    have outside : a ∉ s.roots := fun inside => free ((intact.buffered a).mp inside).1
    refine ⟨intact.nodup, fun c => ?_, fun c present purple => ?_⟩
    · by_cases same : c = a
      · simp [Store.setBlock, same, outside]
      · simpa [Store.setBlock, same] using intact.buffered c
    · by_cases same : c = a
      · simp [same, other] at purple
      · refine intact.purple c ?_ ?_
        · simpa [Store.setBlock, same] using present
        · simpa [same] using purple

end

/-! Steps that keep the buffer intact. -/

section

variable {except : Option A} {s s' : Store A} {checked : Bool}

def Keeps (f : Store A → Except Crash (Store A)) : Prop :=
  ∀ except s s', Intact except s → f s = .ok s' → Intact except s'

omit [DecidableEq A] in
theorem keeps_each {f : A → Store A → Except Crash (Store A)} (each : ∀ v, Keeps (f v))
    (items : List (Option A)) : Keeps (freeEach f items) := by
  intro except s s' intact ran
  refine Failing.foldlM_invariant (Intact except) ?_ intact ran
  intro item _ before after soFar step
  cases item with
  | none => exact Except.ok.inj step ▸ soFar
  | some v => exact each v except before after soFar step

theorem keeps_varRefEach (items : List (Option A)) : Keeps (varRefEach items) := by
  intro except s s' intact ran
  refine Failing.foldlM_invariant (Intact except) ?_ intact ran
  intro item _ before after soFar step
  cases item with
  | none => exact Except.ok.inj step ▸ soFar
  | some v => exact soFar.quiet (quiet_varRef step)

theorem keeps_queueAnonymous (v : A) : Keeps (queueAnonymous checked v) := by
  intro except s s' intact ran
  obtain ⟨h, queued, same⟩ := Failing.bind_ok ran
  obtain rfl := Except.ok.inj same
  obtain ⟨calm, _⟩ := queueAnonymousObject_calmer queued
  exact intact.quiet ⟨fun _ => rfl, rfl, rfl, calm.colors⟩

theorem release_intact {free : A → Store A → Except Crash (Store A)} (keeps : ∀ v, Keeps (free v))
    {v : A} {b : Block A} (intact : Intact except s) (present : (s.block v).isSome = true)
    (ran : release checked free v b s = .ok s') : Intact except s' := by
  unfold release at ran
  split at ran
  · exact Except.ok.inj ran ▸ intact_possibleRoot intact present
  · split at ran
    · split at ran
      · exact Except.ok.inj ran ▸ intact_discard intact
      · split at ran
        · obtain ⟨s₁, destroyed, same⟩ := Failing.bind_ok ran
          obtain ⟨s₂, freed, flagged⟩ := Failing.bind_ok destroyed
          have intact₂ := keeps_each keeps b.held except s s₂ intact freed
          exact Except.ok.inj same ▸ intact_discard (intact₂.quiet (quiet_modify flagged))
        · exact keeps_queueAnonymous v except s s' intact ran
    · obtain ⟨s₁, freed, same⟩ := Failing.bind_ok ran
      exact Except.ok.inj same ▸
        intact_discard (keeps_each keeps b.held except s s₁ intact freed)

theorem keeps_freeVar (fuel : Nat) (v : A) : Keeps (freeVar checked fuel v) := by
  induction fuel generalizing v with
  | zero =>
      intro except s s' _ ran
      cases ran
  | succ fuel ih =>
      intro except s s' intact ran
      obtain ⟨b, found, ran⟩ := Failing.bind_ok ran
      have present : (s.block v).isSome = true := by
        rw [dereference_ok found]
        rfl
      split at ran
      · exact Except.ok.inj ran ▸ intact_possibleRoot intact present
      · exact release_intact ih (intact.quiet (quiet_delref s v)) present ran

theorem keeps_replace (fuel : Nat) (new : A) (value : Option A) (pos : Nat) :
    Keeps (replace checked fuel new value pos) := by
  intro except s s' intact ran
  obtain ⟨b, _, ran⟩ := Failing.bind_ok ran
  split at ran
  · cases ran
  · obtain ⟨s₁, freed, ran⟩ := Failing.bind_ok ran
    exact (keeps_each (keeps_freeVar fuel) _ except s s₁ intact freed).quiet (quiet_modify ran)

theorem keeps_eraseBinding (fuel : Nat) (map : A) (erased : Option Nat) :
    Keeps (eraseBinding checked fuel map erased) := by
  intro except s s' intact ran
  obtain ⟨b, _, ran⟩ := Failing.bind_ok ran
  split at ran
  · exact Except.ok.inj ran ▸ intact
  · obtain ⟨s₁, freed, ran⟩ := Failing.bind_ok ran
    exact (keeps_each (keeps_freeVar fuel) _ except s s₁ intact freed).quiet (quiet_modify ran)

theorem newList_intact {a new : A} {elements : List (Option A)} (intact : Intact except s)
    (ran : newList checked a elements s = .ok (new, s')) : Intact except s' := by
  unfold newList at ran
  split at ran
  · obtain ⟨_, _, same⟩ := Failing.bind_ok ran
    obtain ⟨-, rfl⟩ := Prod.mk.inj (Except.ok.inj same)
    exact intact.quiet (quiet_addref s _)
  · obtain ⟨s₁, allocated, same⟩ := Failing.bind_ok ran
    obtain ⟨-, rfl⟩ := Prod.mk.inj (Except.ok.inj same)
    exact (intact_mymalloc intact (by decide) allocated).quiet (quiet_setColor s₁ a (by decide))

theorem varRefEach_noPurple {items : List (Option A)} (ran : varRefEach items s = .ok s') :
    NoPurple s.marks s'.marks := by
  refine Failing.foldlM_invariant (fun s' => NoPurple s.marks s'.marks) ?_ (NoPurple.refl _) ran
  intro item _ before after soFar step
  cases item with
  | none => exact Except.ok.inj step ▸ soFar
  | some v => exact soFar.trans (quiet_varRef step).colors

theorem mymalloc_noPurple {a : A} {b : Block A} {color : Color} (other : color ≠ .purple)
    (ran : mymalloc a b color s = .ok s') : NoPurple s.marks s'.marks := by
  unfold mymalloc at ran
  split at ran
  · cases ran
  · obtain rfl := Except.ok.inj ran
    intro c purple
    by_cases same : c = a
    · simp [same, other] at purple
    · simpa [same] using purple

theorem newList_noPurple {a new : A} {elements : List (Option A)}
    (ran : newList checked a elements s = .ok (new, s')) : NoPurple s.marks s'.marks := by
  unfold newList at ran
  split at ran
  · obtain ⟨_, _, same⟩ := Failing.bind_ok ran
    obtain ⟨-, rfl⟩ := Prod.mk.inj (Except.ok.inj same)
    exact fun _ => id
  · obtain ⟨s₁, allocated, same⟩ := Failing.bind_ok ran
    obtain ⟨-, rfl⟩ := Prod.mk.inj (Except.ok.inj same)
    exact (mymalloc_noPurple (by decide) allocated).trans (noPurple_set s₁.marks a (by decide))

/-- A copy has the color of its original, and may be purple without being buffered. -/
theorem intact_copied (intact : Intact none s) (new : A) (color : Color) :
    Intact (some new) (s.setColor new color) := by
  refine ⟨intact.nodup, intact.buffered, fun a present purple => ?_⟩
  by_cases same : a = new
  · exact .inr (congrArg some same)
  · refine .inl ((intact.purple a present ?_).resolve_right nofun)
    simpa [Store.setColor, Canvas.set, same] using purple

theorem listDup_intact {list a new : A} (intact : Intact none s)
    (ran : listDup checked list a s = .ok (new, s')) : Intact (some new) s' ∧
      (s.marks.color list ≠ .purple → Intact none s') := by
  obtain ⟨b, _, ran⟩ := Failing.bind_ok ran
  obtain ⟨⟨copy, s₁⟩, allocated, ran⟩ := Failing.bind_ok ran
  obtain ⟨s₂, counted, same⟩ := Failing.bind_ok ran
  obtain ⟨rfl, rfl⟩ := Prod.mk.inj (Except.ok.inj same)
  have intact₂ := keeps_varRefEach _ none _ s₂ (newList_intact intact allocated) counted
  have colors := (newList_noPurple allocated).trans (varRefEach_noPurple counted)
  exact ⟨intact_copied intact₂ _ _, fun other =>
    intact₂.quiet (quiet_setColor s₂ _ (mt (colors list) other))⟩

theorem mapDup_intact {map a new : A} (intact : Intact none s)
    (ran : mapDup map a s = .ok (new, s')) : Intact (some new) s' ∧
      (s.marks.color map ≠ .purple → Intact none s') := by
  obtain ⟨b, _, ran⟩ := Failing.bind_ok ran
  obtain ⟨s₁, allocated, ran⟩ := Failing.bind_ok ran
  obtain ⟨s₂, counted, same⟩ := Failing.bind_ok ran
  obtain ⟨rfl, rfl⟩ := Prod.mk.inj (Except.ok.inj same)
  have intact₁ := intact_mymalloc intact (by decide) allocated
  have intact₂ := keeps_varRefEach _ none s₁ s₂ intact₁ counted
  have colors := (mymalloc_noPurple (by decide) allocated).trans (varRefEach_noPurple counted)
  exact ⟨intact_copied intact₂ _ _, fun other =>
    intact₂.quiet (quiet_setColor s₂ _ (mt (colors map) other))⟩

theorem privateCopy_intact {fuel : Nat} {v a new : A} (intact : Intact none s)
    (ran : privateCopy checked fuel v a s = .ok (new, s')) : Intact (some new) s' := by
  unfold privateCopy at ran
  split at ran
  · obtain ⟨⟨copy, s₁⟩, copied, ran⟩ := Failing.bind_ok ran
    obtain ⟨s₂, freed, same⟩ := Failing.bind_ok ran
    obtain ⟨rfl, rfl⟩ := Prod.mk.inj (Except.ok.inj same)
    refine keeps_freeVar fuel v _ s₁ _ ?_ freed
    obtain ⟨b, _, copied⟩ := Failing.bind_ok copied
    split at copied
    · exact (listDup_intact intact copied).1
    · exact (mapDup_intact intact copied).1
    · cases copied
  · obtain ⟨rfl, rfl⟩ := Prod.mk.inj (Except.ok.inj ran)
    exact intact.weaken _

theorem listset_intact {fuel : Nat} {list a : A} {value : Option A} {pos : Nat}
    (intact : Intact none s) (ran : listset checked fuel list value pos a s = .ok s') :
    Intact none s' := by
  obtain ⟨⟨new, s₁⟩, copied, ran⟩ := Failing.bind_ok ran
  obtain ⟨s₂, replaced, same⟩ := Failing.bind_ok ran
  obtain rfl := Except.ok.inj same
  have intact₁ := privateCopy_intact intact copied
  exact (keeps_replace fuel new value pos _ s₁ s₂ intact₁ replaced).setColor (by decide)

theorem mapinsert_intact {fuel : Nat} {map a : A} {key value : Option A} {erased : Option Nat}
    {pos : Nat} (intact : Intact none s)
    (ran : mapinsert checked fuel map key value erased pos a s = .ok s') : Intact none s' := by
  obtain ⟨⟨new, s₁⟩, copied, ran⟩ := Failing.bind_ok ran
  obtain ⟨s₂, gone, ran⟩ := Failing.bind_ok ran
  obtain ⟨s₃, inserted, same⟩ := Failing.bind_ok ran
  obtain rfl := Except.ok.inj same
  have intact₁ := privateCopy_intact intact copied
  have intact₂ := keeps_eraseBinding fuel new erased _ s₁ s₂ intact₁ gone
  exact (intact₂.quiet (quiet_modify inserted)).setColor (by decide)

theorem myrealloc_intact {list a : A} {b : Block A} (intact : Intact none s)
    (present : (s.block list).isSome = true) (still : a ≠ list → s.buffered list = false)
    (ran : myrealloc list a b s = .ok s') : Intact (some a) s' := by
  unfold myrealloc at ran
  split at ran
  · obtain rfl := Except.ok.inj ran
    refine (intact.weaken _).quiet ⟨fun c => ?_, rfl, rfl, fun _ => id⟩
    by_cases same : c = list
    · simp [Store.setBlock, same, present]
    · simp [Store.setBlock, same]
  · rename_i moved
    split at ran
    · cases ran
    · rename_i free
      obtain rfl := Except.ok.inj ran
      have off := still moved
      have listOut : list ∉ s.roots := fun inside => by
        rw [((intact.buffered list).mp inside).2] at off
        cases off
      have newOut : a ∉ s.roots := fun inside => free ((intact.buffered a).mp inside).1
      refine ⟨intact.nodup, fun c => ?_, fun c here purple => ?_⟩
      · by_cases isNew : c = a
        · simp [Store.setBlock, isNew, newOut, off]
        · by_cases isOld : c = list
          · simp [Store.setBlock, isOld, Ne.symm moved, listOut]
          · simpa [Store.setBlock, isNew, isOld] using intact.buffered c
      · by_cases isNew : c = a
        · exact .inr (congrArg some isNew)
        · by_cases isOld : c = list
          · simp [Store.setBlock, isOld, Ne.symm moved] at here
          · refine .inl ((intact.purple c ?_ ?_).resolve_right nofun)
            · simpa [Store.setBlock, isNew, isOld] using here
            · simpa [isNew] using purple

theorem doinsert_intact {fuel : Nat} {list a : A} {value : Option A} {pos : Nat}
    (intact : Intact none s)
    (still : extendsInPlace s list pos = true → a ≠ list → s.buffered list = false)
    (ran : doinsert checked fuel list value pos a s = .ok s') : Intact none s' := by
  obtain ⟨b, found, ran⟩ := Failing.bind_ok ran
  split at ran
  · rename_i inPlace
    obtain ⟨s₁, moved, same⟩ := Failing.bind_ok ran
    obtain rfl := Except.ok.inj same
    have present : (s.block list).isSome = true := by
      rw [dereference_ok found]
      rfl
    exact (myrealloc_intact intact present (still inPlace) moved).setColor (by decide)
  · obtain ⟨⟨new, s₁⟩, allocated, ran⟩ := Failing.bind_ok ran
    obtain ⟨s₂, counted, ran⟩ := Failing.bind_ok ran
    obtain ⟨s₃, freed, same⟩ := Failing.bind_ok ran
    obtain rfl := Except.ok.inj same
    have intact₁ := newList_intact intact allocated
    have intact₂ := keeps_varRefEach _ none s₁ s₂ intact₁ counted
    have intact₃ := keeps_freeVar fuel list none s₂ s₃ intact₂ freed
    exact intact₃.quiet (quiet_setColor s₃ new (by decide))

theorem gcCollectStore_intact [Fintype A] (intact : Intact none s)
    (ran : gcCollectStore checked s = .ok s') : Intact none s' := by
  unfold gcCollectStore at ran
  split at ran
  · obtain ⟨h, collected, same⟩ := Failing.bind_ok ran
    obtain rfl := Except.ok.inj same
    obtain ⟨noRoots, calm, cleared⟩ := gcCollect_clears collected
    have was : ∀ a, ((s.collected h).block a).isSome = true → (s.block a).isSome = true := by
      intro a present
      simp only [Store.collected] at present
      split at present
      · cases present
      · exact present
    have noRoots' : (s.collected h).roots = [] := noRoots
    refine ⟨noRoots' ▸ List.nodup_nil, fun a => ⟨fun member => ?_, ?_⟩, ?_⟩
    · rw [noRoots'] at member
      cases member
    · rintro ⟨present, on⟩
      have root : a ∈ s.roots := (intact.buffered a).mpr ⟨was a present, calm.buffered a on⟩
      have off := (cleared a root).1
      rw [show h.buffered a = true from on] at off
      cases off
    · intro a present purple
      have root := (intact.purple a (was a present) (calm.colors a purple)).resolve_right nofun
      exact absurd purple (cleared a root).2
  · cases ran

end

/-! Runs. -/

section

variable [Fintype A] (checked : Bool)

/-- The operations that keep the buffer intact: no buffered list is moved, and no purple list or
map is copied for its own sake. -/
def Allowed : Op A → Store A → Prop
  | .doinsert list _ pos a, s =>
      extendsInPlace s list pos = true → a ≠ list → s.buffered list = false
  | .listDup list _, s => s.marks.color list ≠ .purple
  | .mapDup map _, s => s.marks.color map ≠ .purple
  | _, _ => True

def Step (allowed : Op A → Store A → Prop) (s s' : Store A) : Prop :=
  ∃ op fuel, allowed op s ∧ runOp checked fuel op s = .ok s'

variable {checked}

theorem runOp_intact {fuel : Nat} {op : Op A} {s s' : Store A} (intact : Intact none s)
    (allowed : Allowed op s) (ran : runOp checked fuel op s = .ok s') : Intact none s' := by
  cases op with
  | varRef v => exact intact.quiet (quiet_varRef ran)
  | freeVar v => exact keeps_freeVar fuel v none s s' intact ran
  | newList elements a =>
      obtain ⟨⟨new, _⟩, allocated, rfl⟩ := Failing.map_ok ran
      exact newList_intact intact allocated
  | doinsert list value pos a => exact doinsert_intact intact allowed ran
  | listset list value pos a => exact listset_intact intact ran
  | listDup list a =>
      obtain ⟨⟨new, _⟩, copied, rfl⟩ := Failing.map_ok ran
      exact (listDup_intact intact copied).2 allowed
  | emptyMap a => exact intact_mymalloc intact (by decide) ran
  | mapinsert map key value erased pos a => exact mapinsert_intact intact ran
  | mapDup map a =>
      obtain ⟨⟨new, _⟩, copied, rfl⟩ := Failing.map_ok ran
      exact (mapDup_intact intact copied).2 allowed
  | newAnonymous parents properties a => exact intact_mymalloc intact (by decide) ran
  | setProperty object value i => exact keeps_replace fuel object value i none s s' intact ran
  | setFlags object recycled invalid => exact intact.quiet (quiet_modify ran)
  | gcCollect => exact gcCollectStore_intact intact ran

structure RootBufferOk (s : Store A) : Prop where
  nodup : s.roots.Nodup
  buffered : ∀ a, a ∈ s.roots ↔ (s.block a).isSome = true ∧ s.buffered a = true
  purple : ∀ a, (s.block a).isSome = true → s.marks.color a = .purple → a ∈ s.roots

omit [Fintype A] in
theorem initialStore_intact (emptylist : A) : Intact none (initialStore emptylist) :=
  ⟨List.nodup_nil, by simp [initialStore], by simp [initialStore]⟩

theorem reachable_rootBuffer {emptylist : A} {s : Store A}
    (reachable : Runs.Reachable (initialStore emptylist) (Step checked Allowed) s) :
    RootBufferOk s := by
  have intact : Intact none s := by
    refine reachable.invariant (Intact none) (initialStore_intact emptylist) ?_
    rintro before after intact ⟨op, fuel, allowed, ran⟩
    exact runOp_intact intact allowed ran
  exact ⟨intact.nodup, intact.buffered, fun a present purple =>
    (intact.purple a present purple).resolve_right nofun⟩

theorem runAll_reachable {allowed : Op A → Store A → Prop} {fuel : Nat} {ops : List (Op A)}
    {start s s' : Store A} (reachable : Runs.Reachable start (Step checked allowed) s)
    (every : ∀ op ∈ ops, ∀ s, allowed op s)
    (ran : ops.foldlM (fun s op => runOp checked fuel op s) s = .ok s') :
    Runs.Reachable start (Step checked allowed) s' := by
  refine Failing.foldlM_invariant (Runs.Reachable start (Step checked allowed)) ?_ reachable ran
  exact fun op member before after soFar step =>
    soFar.step ⟨op, fuel, every op member before, step⟩

end

/-! An object `1` and the list `2` of its property, which a collection has painted black. -/

def paintedBlack : List (Op (Fin 4)) :=
  [.newAnonymous [] [none] 1, .varRef 1, .newList [some 1] 2, .varRef 2,
    .setProperty 1 (some 2) 0, .freeVar 1, .gcCollect, .varRef 2, .freeVar 2]

def runPainted (ops : List (Op (Fin 4))) : Except Crash (Store (Fin 4)) :=
  (paintedBlack ++ ops).foldlM (fun s op => runOp true 5 op s) (initialStore 0)

theorem painted_rootBuffer : ∃ s : Store (Fin 4),
    Runs.Reachable (initialStore 0) (Step true Allowed) s ∧ s.roots = [2] ∧ RootBufferOk s := by
  have checked : Failing.okAnd (runPainted []) (fun s => s.roots = [2]) = true := by decide +kernel
  obtain ⟨s, ran, roots⟩ := Failing.of_okAnd checked
  have allowed : ∀ op ∈ paintedBlack ++ [], ∀ s, Allowed op s := by simp [paintedBlack, Allowed]
  have reachable := runAll_reachable .start allowed ran
  exact ⟨s, reachable, of_decide_eq_true roots, reachable_rootBuffer reachable⟩

/-- The list has one holder left, which appends to it, and `realloc` moves it. -/
theorem appended_root_is_stale : ∃ s : Store (Fin 4),
    Runs.Reachable (initialStore 0) (Step true fun _ _ => True) s ∧
    2 ∈ s.roots ∧ s.block 2 = none ∧ 3 ∉ s.roots ∧ s.buffered 3 = true ∧ ¬RootBufferOk s := by
  have checked : Failing.okAnd (runPainted [.setProperty 1 none 0, .doinsert 2 none 1 3])
      (fun s => s.roots = [2] ∧ s.block 2 = none ∧ s.buffered 3 = true) = true := by
    decide +kernel
  obtain ⟨s, ran, found⟩ := Failing.of_okAnd checked
  obtain ⟨roots, gone, on⟩ := of_decide_eq_true found
  refine ⟨s, runAll_reachable .start (fun _ _ _ => trivial) ran, by simp [roots], gone,
    by simp [roots], on, fun sound => ?_⟩
  have present := ((sound.buffered 2).mp (by simp [roots])).1
  rw [gone] at present
  cases present

end ToastStunt.Gc
