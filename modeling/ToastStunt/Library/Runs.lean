/-!
States reached from a start by any number of steps, and the rule for invariants.
-/

namespace Runs

variable {σ : Type}

inductive Reachable (start : σ) (step : σ → σ → Prop) : σ → Prop
  | start : Reachable start step start
  | step {before after} : Reachable start step before → step before after →
      Reachable start step after

theorem Reachable.invariant {start state : σ} {step : σ → σ → Prop} (Holds : σ → Prop)
    (initially : Holds start)
    (keeps : ∀ before after, Holds before → step before after → Holds after)
    (reachable : Reachable start step state) : Holds state := by
  induction reachable with
  | start => exact initially
  | step _ taken ih => exact keeps _ _ ih taken

theorem Reachable.trans {first second third : σ} {step : σ → σ → Prop}
    (before : Reachable first step second) (after : Reachable second step third) :
    Reachable first step third := by
  induction after with
  | start => exact before
  | step _ taken ih => exact .step ih taken

theorem Reachable.mono {start state : σ} {step more : σ → σ → Prop}
    (included : ∀ before after, step before after → more before after)
    (reachable : Reachable start step state) : Reachable start more state := by
  induction reachable with
  | start => exact .start
  | step _ taken ih => exact .step ih (included _ _ taken)

end Runs
