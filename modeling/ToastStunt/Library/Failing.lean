import Mathlib.Data.List.Basic

/-!
Loops that may fail: what a run of `foldlM`, `mapM` or `anyM` in `Except` says
about its steps.
-/

namespace Failing

variable {ε α β : Type}

theorem bind_ok {x : Except ε α} {f : α → Except ε β} {b : β}
    (ran : (x >>= f) = .ok b) : ∃ a, x = .ok a ∧ f a = .ok b := by
  cases x with
  | error e => cases ran
  | ok a => exact ⟨a, rfl, ran⟩

theorem map_ok {x : Except ε α} {f : α → β} {b : β} (ran : x.map f = .ok b) :
    ∃ a, x = .ok a ∧ f a = b := by
  cases x with
  | error e => cases ran
  | ok a => exact ⟨a, rfl, Except.ok.inj ran⟩

theorem bind_of_ok {x : Except ε α} {a : α} (ran : x = .ok a) (f : α → Except ε β) :
    (x >>= f) = f a := by
  rw [ran]
  rfl

theorem foldlM_cons_ok {step : β → α → Except ε β} {item : α} {rest : List α} {start final : β}
    (ran : (item :: rest).foldlM step start = .ok final) :
    ∃ middle, step start item = .ok middle ∧ rest.foldlM step middle = .ok final := by
  rw [List.foldlM_cons] at ran
  exact bind_ok ran

theorem foldlM_invariant {step : β → α → Except ε β} (Holds : β → Prop) {items : List α}
    (keeps : ∀ item ∈ items, ∀ before after, Holds before → step before item = .ok after →
      Holds after)
    {start final : β} (initially : Holds start) (ran : items.foldlM step start = .ok final) :
    Holds final := by
  induction items generalizing start with
  | nil =>
      simp only [List.foldlM_nil, pure, Except.pure, Except.ok.injEq] at ran
      exact ran ▸ initially
  | cons item rest ih =>
      obtain ⟨middle, first, later⟩ := foldlM_cons_ok ran
      exact ih (fun other member => keeps other (by simp [member]))
        (keeps item (by simp) start middle initially first) later

/-- A loop that ended has run its step for every item, each time in a state of the invariant. -/
theorem foldlM_reaches {step : β → α → Except ε β} (Holds : β → Prop) {items : List α}
    (keeps : ∀ item ∈ items, ∀ before after, Holds before → step before item = .ok after →
      Holds after)
    {start final : β} (initially : Holds start) (ran : items.foldlM step start = .ok final) :
    ∀ item ∈ items, ∃ before after, Holds before ∧ step before item = .ok after := by
  induction items generalizing start with
  | nil => exact nofun
  | cons item rest ih =>
      obtain ⟨middle, first, later⟩ := foldlM_cons_ok ran
      intro other member
      rcases List.mem_cons.mp member with rfl | inside
      · exact ⟨start, middle, initially, first⟩
      · exact ih (fun next later => keeps next (by simp [later]))
          (keeps item (by simp) start middle initially first) later other inside

/-- A loop whose steps never fail in the states it reaches does not fail. -/
theorem foldlM_total {step : β → α → Except ε β} (Holds : List α → β → Prop) {items : List α}
    (steps : ∀ item rest before, Holds (item :: rest) before →
      ∃ after, step before item = .ok after ∧ Holds rest after)
    {start : β} (initially : Holds items start) :
    ∃ final, items.foldlM step start = .ok final ∧ Holds [] final := by
  induction items generalizing start with
  | nil => exact ⟨start, rfl, initially⟩
  | cons item rest ih =>
      obtain ⟨middle, first, held⟩ := steps item rest start initially
      obtain ⟨final, later, done⟩ := ih held
      refine ⟨final, ?_, done⟩
      rw [List.foldlM_cons, first]
      exact later

theorem mapM_of_ok {f : α → Except ε β} {g : α → β} {items : List α}
    (agree : ∀ item ∈ items, f item = .ok (g item)) : items.mapM f = .ok (items.map g) := by
  induction items with
  | nil => rfl
  | cons item rest ih =>
      rw [List.mapM_cons, agree item (by simp), ih fun other member => agree other (by simp [member])]
      rfl

theorem mapM_cons_ok {f : α → Except ε β} {item : α} {rest : List α} {results : List β}
    (ran : (item :: rest).mapM f = .ok results) :
    ∃ first others, f item = .ok first ∧ rest.mapM f = .ok others ∧ results = first :: others := by
  rw [List.mapM_cons] at ran
  obtain ⟨first, here, ran⟩ := bind_ok ran
  obtain ⟨others, later, ran⟩ := bind_ok ran
  cases ran
  exact ⟨first, others, here, later, rfl⟩

theorem foldlM_of_ok {step : β → α → Except ε β} {f : β → α → β} {items : List α}
    (agree : ∀ item ∈ items, ∀ before, step before item = .ok (f before item)) (start : β) :
    items.foldlM step start = .ok (items.foldl f start) := by
  induction items generalizing start with
  | nil => rfl
  | cons item rest ih =>
      rw [List.foldlM_cons, agree item (by simp)]
      exact ih (fun other member => agree other (by simp [member])) _

theorem anyM_ok {p : α → Except ε Bool} {items : List α} {q : α → Bool}
    (agree : ∀ item ∈ items, p item = .ok (q item)) : items.anyM p = .ok (items.any q) := by
  induction items with
  | nil => rfl
  | cons item rest ih =>
      rw [List.anyM, agree item (by simp), List.any_cons]
      cases q item with
      | true => rfl
      | false => exact ih fun other member => agree other (by simp [member])

theorem anyM_false {p : α → Except ε Bool} {items : List α}
    (ran : items.anyM p = .ok false) : ∀ item ∈ items, p item = .ok false := by
  induction items with
  | nil => simp
  | cons item rest ih =>
      rw [List.anyM] at ran
      obtain ⟨answer, first, ran⟩ := bind_ok ran
      cases answer with
      | true => simp [pure, Except.pure] at ran
      | false =>
          intro other member
          rcases List.mem_cons.mp member with rfl | later
          · exact first
          · exact ih ran other later

/-- `x` does not fail with an error that is `bad`. -/
def Avoids (bad : ε → Prop) (x : Except ε α) : Prop := ∀ e, x = .error e → ¬bad e

namespace Avoids

variable {bad : ε → Prop}

theorem ok (a : α) : Avoids bad (.ok a : Except ε α) := nofun

theorem of_eq_ok {x : Except ε α} {a : α} (ran : x = .ok a) : Avoids bad x := by
  rw [ran]
  exact ok a

theorem error {e : ε} (good : ¬bad e) : Avoids bad (.error e : Except ε α) := by
  intro e' same
  cases same
  exact good

theorem bind {x : Except ε α} {f : α → Except ε β} (first : Avoids bad x)
    (later : ∀ a, x = .ok a → Avoids bad (f a)) : Avoids bad (x >>= f) := by
  cases x with
  | error e => exact error (first e rfl)
  | ok a => exact later a rfl

theorem foldlM {step : β → α → Except ε β} {items : List α}
    (steps : ∀ item ∈ items, ∀ before, Avoids bad (step before item)) (start : β) :
    Avoids bad (items.foldlM step start) := by
  induction items generalizing start with
  | nil => exact ok start
  | cons item rest ih =>
      rw [List.foldlM_cons]
      exact bind (steps item (by simp) start)
        fun middle _ => ih (fun other member => steps other (by simp [member])) middle

theorem anyM {p : α → Except ε Bool} {items : List α}
    (each : ∀ item ∈ items, Avoids bad (p item)) : Avoids bad (items.anyM p) := by
  induction items with
  | nil => exact ok false
  | cons item rest ih =>
      rw [List.anyM]
      refine bind (each item (by simp)) fun answer _ => ?_
      cases answer with
      | true => exact ok true
      | false => exact ih fun other member => each other (by simp [member])

theorem allM {p : α → Except ε Bool} {items : List α}
    (each : ∀ item ∈ items, Avoids bad (p item)) : Avoids bad (items.allM p) := by
  induction items with
  | nil => exact ok true
  | cons item rest ih =>
      rw [List.allM]
      refine bind (each item (by simp)) fun answer _ => ?_
      cases answer with
      | false => exact ok false
      | true => exact ih fun other member => each other (by simp [member])

theorem returns {x : Except ε α} (never : Avoids (fun _ => True) x) : ∃ a, x = .ok a := by
  cases x with
  | error e => exact absurd trivial (never e rfl)
  | ok a => exact ⟨a, rfl⟩

end Avoids

def Meets (bad : ε → Prop) (Good : α → Prop) (x : Except ε α) : Prop :=
  Avoids bad x ∧ ∀ a, x = .ok a → Good a

namespace Meets

variable {bad : ε → Prop} {Good : α → Prop}

theorem ok {a : α} (good : Good a) : Meets bad Good (.ok a : Except ε α) := by
  refine ⟨Avoids.ok a, fun b same => ?_⟩
  cases same
  exact good

theorem bind {x : Except ε β} {f : β → Except ε α} (first : Avoids bad x)
    (later : ∀ b, x = .ok b → Meets bad Good (f b)) : Meets bad Good (x >>= f) := by
  refine ⟨first.bind fun b ran => (later b ran).1, fun a ran => ?_⟩
  obtain ⟨b, taken, rest⟩ := bind_ok ran
  exact (later b taken).2 a rest

end Meets

def okAnd (x : Except ε α) (p : α → Bool) : Bool :=
  match x with
  | .ok a => p a
  | .error _ => false

theorem of_okAnd {x : Except ε α} {p : α → Bool} (checked : okAnd x p = true) :
    ∃ a, x = .ok a ∧ p a = true := by
  cases x with
  | error e => cases checked
  | ok a => exact ⟨a, rfl, checked⟩

end Failing
