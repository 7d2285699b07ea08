import Mathlib.Algebra.Order.Ring.Int
import ToastStunt.Library.Counting

/-!
Blocks that hold references to other blocks. Every reference is counted, and a block whose last
reference is given up gives up its own.
-/

namespace Counting

variable {α β : Type}

namespace Store

def weigh (weight : α → Nat) (s : Store α) : Nat :=
  (s.map fun cell => cell.elim 0 fun b => weight b.content).sum

def tally (s : Store α) (a : Nat) : Nat := (s.block a).elim 0 Block.count

def total (s : Store α) : Nat := (s.map fun cell => cell.elim 0 Block.count).sum

def shown (view : α → β) (s : Store α) (a : Nat) : Option β := (s.content a).map view

end Store

open Store

theorem sum_set (weight : α → Nat) {l : List α} {i : Nat} {old : α} (there : l[i]? = some old)
    (new : α) : ((l.set i new).map weight).sum + weight old = (l.map weight).sum + weight new := by
  induction l generalizing i with
  | nil => cases there
  | cons head rest ih =>
      cases i with
      | zero =>
          cases there
          simp only [List.set_cons_zero, List.map_cons, List.sum_cons]
          omega
      | succ i =>
          have tail := ih there
          simp only [List.set_cons_succ, List.map_cons, List.sum_cons]
          omega

variable {s : Store α} {a : Nat}

theorem cell_of_block {b : Block α} (there : s.block a = some b) : s[a]? = some (some b) := by
  rw [block] at there
  cases found : s[a]? with
  | none => rw [found] at there; cases there
  | some cell => rw [found] at there; exact congrArg some there

theorem weigh_update (weight : α → Nat) {b : Block α} (there : s.block a = some b)
    (f : Block α → Option (Block α)) :
    (s.update a f).weigh weight + weight b.content =
      s.weigh weight + (f b).elim 0 fun b => weight b.content := by
  have sum := sum_set (fun cell : Option (Block α) => cell.elim 0 fun b => weight b.content)
    (cell_of_block there) (f b)
  rw [Store.update, there]
  exact sum

theorem total_update {b : Block α} (there : s.block a = some b) (f : Block α → Option (Block α)) :
    (s.update a f).total + b.count = s.total + (f b).elim 0 Block.count := by
  have sum := sum_set (fun cell : Option (Block α) => cell.elim 0 Block.count)
    (cell_of_block there) (f b)
  rw [Store.update, there]
  exact sum

theorem weigh_alloc (weight : α → Nat) (s : Store α) (content : α) :
    (s.alloc content).1.weigh weight = s.weigh weight + weight content := by
  simp [Store.alloc, Store.weigh]

theorem tally_update (f : Block α → Option (Block α)) (c : Nat) :
    (s.update a f).tally c =
      if c = a then ((s.block a).bind f).elim 0 Block.count else s.tally c := by
  rw [Store.tally, block_update]
  split
  · rfl
  · rfl

theorem tally_alloc (s : Store α) (content : α) (c : Nat) :
    (s.alloc content).1.tally c = s.tally c + if c = s.length then 1 else 0 := by
  rw [Store.tally, Store.tally, Store.alloc, block, block]
  rcases Nat.lt_trichotomy c s.length with before | rfl | after
  · rw [List.getElem?_append_left before, if_neg (by omega)]
    rfl
  · simp
  · rw [List.getElem?_append_right (by omega), List.getElem?_eq_none (by simp; omega),
      List.getElem?_eq_none (by omega), if_neg (by omega)]
    rfl

theorem weigh_of_block (weight : α → Nat) {b : Block α} (there : s.block a = some b) :
    weight b.content ≤ s.weigh weight := by
  have none := weigh_update weight there fun _ => none
  simp only [Option.elim_none, Nat.add_zero] at none
  omega

theorem weigh_two (weight : α → Nat) {c : Nat} {b b' : Block α} (there : s.block a = some b)
    (there' : s.block c = some b') (other : a ≠ c) :
    weight b.content + weight b'.content ≤ s.weigh weight := by
  have none := weigh_update weight there fun _ => none
  have left : (s.update a fun _ => Option.none).block c = some b' := by
    rw [block_update, if_neg (Ne.symm other), there']
  have rest := weigh_of_block weight left
  simp only [Option.elim_none, Nat.add_zero] at none
  omega

theorem tally_le_total (s : Store α) (a : Nat) : s.tally a ≤ s.total := by
  cases there : s.block a with
  | none => simp [Store.tally, there]
  | some b =>
      have none := total_update there fun _ => none
      simp only [Option.elim_none, Nat.add_zero] at none
      rw [Store.tally, there, Option.elim_some]
      omega

section

variable (view : α → β) (children : β → List Nat) (stays : α → Bool)

def heldWithin (s : Store α) (a : Nat) : Nat := s.weigh fun content => (children (view content)).count a

/-- The count of a block is the number of references to it, from holders and from blocks. -/
def Balanced (s : Store α) (holders : List Nat) : Prop :=
  ∀ a, s.tally a = holders.count a + heldWithin view children s a

/-- References are given up. A block that `stays` is kept when it has none left. -/
def giveUp : Nat → List Nat → Store α → Option (Store α)
  | _, [], s => some s
  | 0, _ :: _, _ => none
  | fuel + 1, a :: pending, s =>
      (s.block a).bind fun b =>
        if 1 < b.count ∨ stays b.content then
          giveUp fuel pending (s.update a fun b => some { b with count := b.count - 1 })
        else giveUp fuel (children (view b.content) ++ pending) (s.update a fun _ => none)

inductive Reaches (s : Store α) : Nat → Nat → Prop
  | here (a : Nat) : Reaches s a a
  | step {a b c : Nat} {content : α} (there : s.content a = some content)
      (held : b ∈ children (view content)) (reaches : Reaches s b c) : Reaches s a c

def Keeps (s s' : Store α) (holder : Nat) : Prop :=
  ∀ a, Reaches view children s holder a → s'.shown view a = s.shown view a

variable {view children stays} {holders : List Nat}

theorem Balanced.perm {others : List Nat} (balanced : Balanced view children s holders)
    (same : holders.Perm others) : Balanced view children s others := by
  intro a
  rw [balanced a, same.count_eq a]

theorem Balanced.there (balanced : Balanced view children s holders) (member : a ∈ holders) :
    ∃ b, s.block a = some b ∧ 1 ≤ b.count := by
  have positive := List.count_pos_iff.mpr member
  have counted := balanced a
  rw [Store.tally] at counted
  cases found : s.block a with
  | none =>
      rw [found, Option.elim_none] at counted
      omega
  | some b =>
      rw [found, Option.elim_some] at counted
      exact ⟨b, rfl, by omega⟩

theorem Balanced.child (balanced : Balanced view children s holders) {b : Block α} {c : Nat}
    (there : s.block a = some b) (held : c ∈ children (view b.content)) :
    ∃ b', s.block c = some b' := by
  have positive := List.count_pos_iff.mpr held
  have weighed := weigh_of_block (fun content => (children (view content)).count c) there
  have counted := balanced c
  rw [heldWithin] at counted
  cases found : s.block c with
  | none =>
      rw [Store.tally, found, Option.elim_none] at counted
      omega
  | some b' => exact ⟨b', rfl⟩

theorem Balanced.share (balanced : Balanced view children s holders) {b : Block α}
    (there : s.block a = some b) : Balanced view children (s.share a) (a :: holders) := by
  intro c
  have weighed := weigh_update (fun content => (children (view content)).count c) there
    fun b => some { b with count := b.count + 1 }
  simp only [Option.elim_some] at weighed
  have counted := balanced c
  rw [heldWithin] at counted ⊢
  rw [Store.share, tally_update, List.count_cons]
  by_cases same : c = a
  · subst same
    rw [Store.tally, there, Option.elim_some] at counted
    rw [if_pos rfl, there, if_pos (by simp)]
    simp only [Option.bind_some, Option.elim_some]
    omega
  · rw [if_neg same, if_neg (by simpa using Ne.symm same)]
    omega

theorem Balanced.alloc {content : α}
    (balanced : Balanced view children s (children (view content) ++ holders)) :
    Balanced view children (s.alloc content).1 (s.length :: holders) := by
  intro c
  have counted := balanced c
  rw [List.count_append] at counted
  rw [heldWithin, weigh_alloc, tally_alloc, List.count_cons, counted, heldWithin]
  by_cases same : c = s.length
  · rw [if_pos same, if_pos (by simp [same])]
    omega
  · rw [if_neg same, if_neg (by simpa using Ne.symm same)]
    omega

theorem Balanced.replace (balanced : Balanced view children s holders) {b : Block α}
    (there : s.block a = some b) {content : α} {dropped : List Nat}
    (same : (children (view b.content)).Perm (dropped ++ children (view content))) :
    Balanced view children (s.replace a content) (dropped ++ holders) := by
  intro c
  have weighed := weigh_update (fun content => (children (view content)).count c) there
    fun b => some { b with content := content }
  simp only [Option.elim_some] at weighed
  have counted := balanced c
  have split := same.count_eq c
  rw [List.count_append] at split
  have unmoved : (s.replace a content).tally c = s.tally c := by
    rw [Store.replace, tally_update]
    by_cases here : c = a
    · subst here
      rw [if_pos rfl, Store.tally, there]
      rfl
    · rw [if_neg here]
  rw [unmoved, List.count_append, heldWithin, Store.replace]
  rw [heldWithin] at counted
  omega

theorem Balanced.lower (balanced : Balanced view children s (a :: holders)) {b : Block α}
    (there : s.block a = some b) :
    Balanced view children (s.update a fun b => some { b with count := b.count - 1 }) holders := by
  intro c
  have weighed := weigh_update (fun content => (children (view content)).count c) there
    fun b => some { b with count := b.count - 1 }
  simp only [Option.elim_some] at weighed
  have counted := balanced c
  rw [List.count_cons, heldWithin] at counted
  rw [tally_update, heldWithin]
  by_cases same : c = a
  · subst same
    rw [Store.tally, there, Option.elim_some, if_pos (by simp)] at counted
    rw [if_pos rfl, there, Option.bind_some, Option.elim_some]
    simp only
    omega
  · rw [if_neg (by simpa using Ne.symm same)] at counted
    rw [if_neg same]
    omega

theorem Balanced.free (balanced : Balanced view children s (a :: holders)) {b : Block α}
    (there : s.block a = some b) (last : b.count ≤ 1) :
    Balanced view children (s.update a fun _ => none) (children (view b.content) ++ holders) := by
  intro c
  have weighed := weigh_update (fun content => (children (view content)).count c) there
    fun _ => none
  simp only [Option.elim_none, Nat.add_zero] at weighed
  have counted := balanced c
  rw [List.count_cons, heldWithin] at counted
  rw [tally_update, heldWithin, List.count_append]
  by_cases same : c = a
  · subst same
    rw [Store.tally, there, Option.elim_some, if_pos (by simp)] at counted
    rw [if_pos rfl, there, Option.bind_some, Option.elim_none]
    omega
  · rw [if_neg (by simpa using Ne.symm same)] at counted
    rw [if_neg same]
    omega

theorem content_lower (s : Store α) (a c : Nat) :
    (s.update a fun b => some { b with count := b.count - 1 }).content c = s.content c := by
  rw [Store.content, Store.content, block_update]
  by_cases same : c = a
  · rw [if_pos same, same]
    cases s.block a with
    | none => rfl
    | some b => rfl
  · rw [if_neg same]

theorem content_free {c : Nat} (other : c ≠ a) :
    (s.update a fun _ => none).content c = s.content c := by
  rw [Store.content, Store.content, block_update, if_neg other]

theorem giveUp_spec (fuel : Nat) (pending : List Nat)
    (balanced : Balanced view children s (pending ++ holders)) (enough : s.total ≤ fuel) :
    ∃ s', giveUp view children stays fuel pending s = some s' ∧ Balanced view children s' holders ∧
      ∀ a, s'.block a ≠ none → s'.content a = s.content a := by
  induction fuel generalizing s pending with
  | zero =>
      cases pending with
      | nil => exact ⟨s, rfl, balanced, fun a _ => rfl⟩
      | cons a pending =>
          obtain ⟨b, there, positive⟩ := balanced.there List.mem_cons_self
          have few := tally_le_total s a
          rw [Store.tally, there, Option.elim_some] at few
          omega
  | succ fuel ih =>
      cases pending with
      | nil => exact ⟨s, rfl, balanced, fun a _ => rfl⟩
      | cons a pending =>
          rw [List.cons_append] at balanced
          obtain ⟨b, there, positive⟩ := balanced.there List.mem_cons_self
          rw [giveUp, there, Option.bind_some]
          have summed := total_update there
          by_cases more : 1 < b.count ∨ stays b.content = true
          · rw [if_pos more]
            have fewer := summed fun b => some { b with count := b.count - 1 }
            simp only [Option.elim_some] at fewer
            obtain ⟨s', ran, balanced', kept⟩ := ih pending (balanced.lower there) (by omega)
            exact ⟨s', ran, balanced', fun c there' =>
              (kept c there').trans (content_lower s a c)⟩
          · rw [if_neg more]
            have fewer := summed fun _ => none
            simp only [Option.elim_none, Nat.add_zero] at fewer
            have freed := balanced.free there (by omega)
            rw [← List.append_assoc] at freed
            obtain ⟨s', ran, balanced', kept⟩ := ih _ freed (by omega)
            refine ⟨s', ran, balanced', fun c there' => ?_⟩
            have alive := kept c there'
            by_cases same : c = a
            · subst same
              rw [Store.content, Store.content, block_update, if_pos rfl, there] at alive
              exact absurd (Option.map_eq_none_iff.mp alive) there'
            · rw [alive, content_free same]

variable (stays) in
def Counted (s : Store α) : Prop :=
  ∀ a b, s.block a = some b → b.count = 0 → stays b.content = true

theorem Counted.update (counted : Counted stays s) {f : Block α → Option (Block α)}
    (kept : ∀ b b', s.block a = some b → f b = some b' → b'.count = 0 → stays b'.content = true) :
    Counted stays (s.update a f) := by
  intro c b' there none
  rw [block_update] at there
  split at there
  · obtain ⟨b, found, changed⟩ := Option.bind_eq_some_iff.mp there
    exact kept b b' found changed none
  · exact counted c b' there none

theorem giveUp_counted (fuel : Nat) (pending : List Nat) {s' : Store α} (counted : Counted stays s)
    (ran : giveUp view children stays fuel pending s = some s') : Counted stays s' := by
  induction fuel generalizing s pending with
  | zero =>
      cases pending with
      | nil => exact Option.some.inj ran ▸ counted
      | cons a pending => cases ran
  | succ fuel ih =>
      cases pending with
      | nil => exact Option.some.inj ran ▸ counted
      | cons a pending =>
          obtain ⟨b, there, ran⟩ := Option.bind_eq_some_iff.mp ran
          split at ran
          · rename_i more
            refine ih _ (counted.update ?_) ran
            rintro b₁ b₂ found changed none
            obtain rfl := Option.some.inj (there.symm.trans found)
            obtain rfl := Option.some.inj changed
            exact more.resolve_left (by simp only at none; omega)
          · exact ih _ (counted.update fun _ _ _ changed => by cases changed) ran

variable (view children stays) in
/-- Each of these blocks stays, or it is held by a holder or by another one of them. -/
def Upheld (s : Store α) (holders : List Nat) (Alive : Nat → Prop) : Prop :=
  ∀ a, Alive a → ∃ content, s.content a = some content ∧
    (stays content = true ∨ a ∈ holders ∨
      ∃ c content', Alive c ∧ s.content c = some content' ∧ a ∈ children (view content'))

theorem Upheld.congr {Alive : Nat → Prop} {s' : Store α} {others : List Nat}
    (upheld : Upheld view children stays s holders Alive)
    (same : ∀ a, Alive a → s'.content a = s.content a) (more : holders ⊆ others) :
    Upheld view children stays s' others Alive := by
  intro a alive
  obtain ⟨content, there, reason⟩ := upheld a alive
  refine ⟨content, (same a alive).trans there, ?_⟩
  rcases reason with stay | member | ⟨c, content', parent, holds, held⟩
  · exact .inl stay
  · exact .inr (.inl (more member))
  · exact .inr (.inr ⟨c, content', parent, (same c parent).trans holds, held⟩)

theorem heldWithin_pos {c : Nat} {content : α} (holds : s.content c = some content)
    (held : a ∈ children (view content)) : 0 < heldWithin view children s a := by
  obtain ⟨b, found, rfl⟩ := Option.map_eq_some_iff.mp holds
  have weighed := weigh_of_block (fun content => (children (view content)).count a) found
  have positive := List.count_pos_iff.mpr held
  rw [heldWithin]
  omega

theorem giveUp_upheld (fuel : Nat) (pending : List Nat) {Alive : Nat → Prop} {s' : Store α}
    (balanced : Balanced view children s (pending ++ holders))
    (upheld : Upheld view children stays s holders Alive)
    (ran : giveUp view children stays fuel pending s = some s') :
    Upheld view children stays s' holders Alive := by
  induction fuel generalizing s pending with
  | zero =>
      cases pending with
      | nil => exact Option.some.inj ran ▸ upheld
      | cons a pending => cases ran
  | succ fuel ih =>
      cases pending with
      | nil => exact Option.some.inj ran ▸ upheld
      | cons a pending =>
          rw [List.cons_append] at balanced
          obtain ⟨b, there, ran⟩ := Option.bind_eq_some_iff.mp ran
          split at ran
          · exact ih pending (balanced.lower there)
              (upheld.congr (fun c _ => content_lower s a c) (List.Subset.refl _)) ran
          · rename_i last
            have dead : ¬Alive a := by
              intro alive
              obtain ⟨content, holds, reason⟩ := upheld a alive
              obtain rfl := Option.some.inj ((content_of_block there).symm.trans holds)
              have counted := balanced a
              rw [Store.tally, there, Option.elim_some, List.count_cons_self,
                List.count_append] at counted
              rcases reason with stay | member | ⟨c, content', _, holds', held⟩
              · exact last (.inr stay)
              · have positive := List.count_pos_iff.mpr member
                omega
              · have positive := heldWithin_pos holds' held
                omega
            have freed := balanced.free there (by omega)
            rw [← List.append_assoc] at freed
            exact ih _ freed (upheld.congr
              (fun c alive => content_free fun same => dead (same ▸ alive)) (List.Subset.refl _)) ran

theorem exists_of_weigh {weight : α → Nat} (positive : 0 < s.weigh weight) :
    ∃ c content, s.content c = some content ∧ 0 < weight content := by
  by_contra none
  have zero : s.weigh weight = 0 := by
    rw [Store.weigh, List.sum_eq_zero_iff_forall_eq_nat]
    intro w member
    obtain ⟨cell, inside, rfl⟩ := List.mem_map.mp member
    obtain ⟨c, here⟩ := List.getElem?_of_mem inside
    cases cell with
    | none => rfl
    | some b =>
        by_contra heavy
        refine none ⟨c, b.content, ?_, Nat.pos_of_ne_zero heavy⟩
        rw [Store.content, Store.block, here]
        rfl
  omega

theorem Balanced.upheld (balanced : Balanced view children s holders) (counted : Counted stays s) :
    Upheld view children stays s holders fun a => s.block a ≠ none := by
  intro a alive
  obtain ⟨b, there⟩ := Option.ne_none_iff_exists'.mp alive
  refine ⟨b.content, content_of_block there, ?_⟩
  by_cases none : b.count = 0
  · exact .inl (counted a b there none)
  · have exactly := balanced a
    rw [Store.tally, there, Option.elim_some] at exactly
    by_cases member : a ∈ holders
    · exact .inr (.inl member)
    · rw [List.count_eq_zero.mpr member] at exactly
      obtain ⟨c, content, holds, held⟩ := @exists_of_weigh _ s
        (fun content => (children (view content)).count a) (by rw [heldWithin] at exactly; omega)
      refine .inr (.inr ⟨c, content, ?_, holds, List.count_pos_iff.mp held⟩)
      obtain ⟨b', found, _⟩ := Option.map_eq_some_iff.mp holds
      rw [found]
      exact Option.some_ne_none b'

theorem Balanced.keeps {s' : Store α} (balanced : Balanced view children s' holders)
    (Changed : Nat → Prop)
    (unchanged : ∀ a, s'.block a ≠ none → ¬Changed a → s'.shown view a = s.shown view a)
    {holder : Nat} (member : holder ∈ holders)
    (apart : ∀ a, Reaches view children s holder a → ¬Changed a) :
    Keeps view children s s' holder := by
  have alive : s'.block holder ≠ none := by
    obtain ⟨b, there, _⟩ := balanced.there member
    rw [there]
    exact Option.some_ne_none b
  intro a reaches
  clear member
  induction reaches with
  | here a => exact unchanged a alive (apart a (.here a))
  | @step a b c content there held _ ih =>
      have same := unchanged a alive (apart a (.here a))
      rw [Store.shown, Store.shown, there, Option.map_some] at same
      obtain ⟨content', there', view'⟩ := Option.map_eq_some_iff.mp same
      obtain ⟨block, found, rfl⟩ := Option.map_eq_some_iff.mp there'
      obtain ⟨child, here⟩ := balanced.child found (view' ▸ held)
      apply ih
      · intro d reaches
        exact apart d (.step there held reaches)
      · rw [here]
        exact Option.some_ne_none child

theorem Balanced.reached (balanced : Balanced view children s holders) {holder : Nat}
    (member : holder ∈ holders) (reaches : Reaches view children s holder a) :
    ∃ b, s.block a = some b := by
  obtain ⟨b, there, _⟩ := balanced.there member
  have alive : ∃ b, s.block holder = some b := ⟨b, there⟩
  clear member there
  induction reaches with
  | here => exact alive
  | step there held _ ih =>
      obtain ⟨block, found, rfl⟩ := Option.map_eq_some_iff.mp there
      exact ih (balanced.child found held)

theorem Reaches.trans {a b c : Nat} (first : Reaches view children s a b)
    (second : Reaches view children s b c) : Reaches view children s a c := by
  induction first with
  | here => exact second
  | step there held _ ih => exact .step there held (ih second)

theorem Reaches.through {parent c : Nat}
    (only : ∀ d content, s.content d = some content → a ∈ children (view content) → d = parent)
    (path : Reaches view children s c a) (other : c ≠ a) : Reaches view children s c parent := by
  induction path with
  | here => exact absurd rfl other
  | @step d e f content there held _ ih =>
      by_cases same : e = f
      · subst same
        rw [only d content there held]
        exact .here parent
      · exact .step there held (ih only same)

/-- What is held once, by a block, is reached through that block only. -/
theorem Balanced.reaches_through (balanced : Balanced view children s holders) {parent : Nat}
    {content : α} (there : s.content parent = some content)
    (held : a ∈ children (view content)) (once : s.tally a ≤ 1) {holder : Nat}
    (member : holder ∈ holders) (reaches : Reaches view children s holder a) :
    Reaches view children s holder parent := by
  obtain ⟨b, found, rfl⟩ := Option.map_eq_some_iff.mp there
  have positive := List.count_pos_iff.mpr held
  have weighed := weigh_of_block (fun content => (children (view content)).count a) found
  have counted := balanced a
  rw [heldWithin] at counted
  apply Reaches.through _ reaches
  · rintro rfl
    have more := List.count_pos_iff.mpr member
    omega
  · intro d content' there' held'
    by_contra other
    obtain ⟨b', found', rfl⟩ := Option.map_eq_some_iff.mp there'
    have both := weigh_two (fun content => (children (view content)).count a) found found'
      (Ne.symm other)
    have positive' := List.count_pos_iff.mpr held'
    omega

end

end Counting
