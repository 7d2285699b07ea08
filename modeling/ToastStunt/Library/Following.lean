import Mathlib.Control.Monad.Basic
import ToastStunt.Library.Failing

/-!
Computations that carry a state beside them which should not change their answers,
such as a cache: when one follows the computation without the state, and how this
is seen step by step.
-/

namespace Following

variable {σ ε α β : Type}

theorem run_lift {x : Except ε α} {a : α} (ran : x = .ok a) (f : α → StateT σ (Except ε) β) (c : σ) :
    ((liftM x : StateT σ (Except ε) α) >>= f).run c = (f a).run c := by
  rw [ran]
  rfl

theorem run_bind {m : StateT σ (Except ε) α} {c c' : σ} {a : α} (ran : m.run c = .ok (a, c'))
    (f : α → StateT σ (Except ε) β) : (m >>= f).run c = (f a).run c' := by
  rw [StateT.run_bind, ran]
  rfl

theorem bind_ok {m : StateT σ (Except ε) α} {f : α → StateT σ (Except ε) β} {c : σ} {r : β × σ}
    (ran : (m >>= f).run c = .ok r) : ∃ a c', m.run c = .ok (a, c') ∧ (f a).run c' = .ok r := by
  rw [StateT.run_bind] at ran
  obtain ⟨⟨a, c'⟩, first, rest⟩ := Failing.bind_ok ran
  exact ⟨a, c', first, rest⟩

theorem lift_ok {x : Except ε α} {f : α → StateT σ (Except ε) β} {c : σ} {r : β × σ}
    (ran : ((liftM x : StateT σ (Except ε) α) >>= f).run c = .ok r) :
    ∃ a, x = .ok a ∧ (f a).run c = .ok r := by
  cases x with
  | error e => cases ran
  | ok a => exact ⟨a, rfl, ran⟩

theorem run_foldlM (step : β → α → StateT σ (Except ε) β) (items : List α) (b : β) (c : σ) :
    (items.foldlM step b).run c =
      items.foldlM (fun (pair : β × σ) item => (step pair.1 item).run pair.2) (b, c) := by
  induction items generalizing b c with
  | nil => rfl
  | cons item rest ih =>
      rw [List.foldlM_cons, List.foldlM_cons, StateT.run_bind]
      congr 1
      funext pair
      exact ih pair.1 pair.2

/-- Started where the state is `Before`, `m` only returns what `x` returns, and with a state that
is `After`. -/
def Follows (Before : σ → Prop) (m : StateT σ (Except ε) α) (x : Except ε α)
    (After : α → σ → Prop) : Prop :=
  ∀ c a c', Before c → m.run c = .ok (a, c') → x = .ok a ∧ After a c'

namespace Follows

variable {Before : σ → Prop} {m : StateT σ (Except ε) α} {x : Except ε α} {After : α → σ → Prop}

theorem pure {a : α} (holds : ∀ c, Before c → After a c) :
    Follows Before (Pure.pure a : StateT σ (Except ε) α) (.ok a) After := by
  intro c a' c' before ran
  cases ran
  exact ⟨rfl, holds c before⟩

theorem throw {e : ε} : Follows Before (MonadExcept.throw e : StateT σ (Except ε) α) x After := by
  intro c a c' before ran
  cases ran

theorem throw_bind {e : ε} {f : β → StateT σ (Except ε) α} :
    Follows Before ((MonadExcept.throw e : StateT σ (Except ε) β) >>= f) x After := by
  intro c a c' before ran
  cases ran

theorem mono {Before' : σ → Prop} {After' : α → σ → Prop} (follows : Follows Before m x After)
    (start : ∀ c, Before' c → Before c) (final : ∀ a c, x = .ok a → After a c → After' a c) :
    Follows Before' m x After' := by
  intro c a c' before ran
  obtain ⟨same, after⟩ := follows c a c' (start c before) ran
  exact ⟨same, final a c' same after⟩

theorem bind {Middle : α → σ → Prop} {After : β → σ → Prop} {f : α → StateT σ (Except ε) β}
    {g : α → Except ε β} (first : Follows Before m x Middle)
    (later : ∀ a, x = .ok a → Follows (Middle a) (f a) (g a) After) :
    Follows Before (m >>= f) (x >>= g) After := by
  intro c b c'' before ran
  rw [StateT.run_bind] at ran
  obtain ⟨⟨a, c'⟩, ranFirst, ranLater⟩ := Failing.bind_ok ran
  obtain ⟨same, middle⟩ := first c a c' before ranFirst
  rw [Failing.bind_of_ok same]
  exact later a same c' b c'' middle ranLater

theorem query {Middle : σ → Prop} {After : β → σ → Prop} {a : α} {f : α → StateT σ (Except ε) β}
    {y : Except ε β} (first : Follows Before m (.ok a) fun _ => Middle)
    (later : Follows Middle (f a) y After) : Follows Before (m >>= f) y After := by
  refine bind (x := .ok a) (g := fun _ => y) first fun b same => ?_
  cases same
  exact later

theorem lift_only : Follows Before (liftM x : StateT σ (Except ε) α) x fun _ => Before := by
  intro c a c' before ran
  cases x with
  | error e => cases ran
  | ok b =>
      cases ran
      exact ⟨rfl, before⟩

theorem lift {After : β → σ → Prop} {f : α → StateT σ (Except ε) β} {g : α → Except ε β}
    (later : ∀ a, x = .ok a → Follows Before (f a) (g a) After) :
    Follows Before ((liftM x : StateT σ (Except ε) α) >>= f) (x >>= g) After := by
  exact bind lift_only later

theorem changing (Middle : σ → Prop) {After : β → σ → Prop} {change : σ → σ}
    {f : PUnit → StateT σ (Except ε) β} {y : Except ε β} (holds : ∀ c, Before c → Middle (change c))
    (later : Follows Middle (f ⟨⟩) y After) :
    Follows Before ((modify change : StateT σ (Except ε) PUnit) >>= f) y After := by
  refine query (?_ : Follows Before _ (.ok ⟨⟩) fun _ => Middle) later
  intro c a c' before ran
  cases ran
  exact ⟨rfl, holds c before⟩

theorem ite {c : Prop} [Decidable c] {m' : StateT σ (Except ε) α} {x' : Except ε α}
    (yes : c → Follows Before m x After) (no : ¬c → Follows Before m' x' After) :
    Follows Before (if c then m else m') (if c then x else x') After := by
  split
  · rename_i holds
    exact yes holds
  · rename_i fails
    exact no fails

theorem foldlM {step : β → α → StateT σ (Except ε) β} {step' : β → α → Except ε β}
    (Holds : β → σ → Prop) {items : List α}
    (steps : ∀ item ∈ items, ∀ b, Follows (Holds b) (step b item) (step' b item) Holds) (b : β) :
    Follows (Holds b) (items.foldlM step b) (items.foldlM step' b) Holds := by
  induction items generalizing b with
  | nil => exact pure fun _ => id
  | cons item rest ih =>
      rw [List.foldlM_cons, List.foldlM_cons]
      exact bind (steps item (by simp) b) fun b' _ => ih (fun other member => steps other (by simp [member])) b'

theorem mapM {f : α → StateT σ (Except ε) β} {g : α → Except ε β} {items : List α}
    (each : ∀ item ∈ items, Follows Before (f item) (g item) fun _ => Before) :
    Follows Before (items.mapM f) (items.mapM g) fun _ => Before := by
  induction items with
  | nil => exact pure fun _ => id
  | cons item rest ih =>
      rw [List.mapM_cons, List.mapM_cons]
      refine bind (each item (by simp)) fun b _ => ?_
      refine bind (ih fun other member => each other (by simp [member])) fun bs _ => ?_
      exact pure fun _ => id

end Follows

end Following
