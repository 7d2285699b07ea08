import Mathlib.Data.List.Nodup
import Mathlib.Data.List.Perm.Basic
import ToastStunt.Tasks.Background

/-!
Runs of tasks that wait for background threads. In those in which a new waiter finds its handle
free, no worker finds the server shutting down while its task still waits, and the shutdown finds
no worker at work, no task is lost or doubled.
-/

namespace ToastStunt.Tasks

open Runs

variable {V : Type}

/-- The events that lose or double nothing. -/
def Conforms (s : Server V) : Event V → Prop
  | .background maxThreads _ _ _ => canCreateThread s maxThreads = true →
      s.nextBackgroundHandle ∉ s.processTable.map Prod.fst
  | .isActive w => ∀ x, s.waiter w = some x → x.active = false
  | .backgroundShutdown => thpoolNumThreadsWorking s = 0
  | _ => True

def ConformingStep (s s' : Server V) : Prop := ∃ event, Conforms s event ∧ step s event = some s'

def BackgroundStep (s s' : Server V) : Prop := ∃ event, step s event = some s'

def BackgroundReachable : Server V → Prop := Reachable Server.start ConformingStep

def resumedBy (s : Server V) (w : Nat) : List (Nat × Option V) :=
  (s.resumed.filter (·.1 = w)).map Prod.snd

section Lives

structure View (V : Type) where
  waiter : Option (BackgroundWaiter V)
  stage : Stage
  returned : Option V
  resumed : List (Nat × Option V)
  started : List Nat
  killed : Prop
  shutdown : Bool

def view (s : Server V) (w : Nat) : View V where
  waiter := s.waiter w
  stage := s.stage w
  returned := s.returned w
  resumed := resumedBy s w
  started := (s.started.filter (·.1 = w)).map Prod.snd
  killed := w ∈ s.killedWaiters
  shutdown := s.shutdownTriggered

/-- The life of a waiter and its worker, from the start of the task's wait to the end. -/
inductive Life : View V → Prop
  | unborn {shutdown} : Life ⟨none, .unused, none, [], [], False, shutdown⟩
  | waiting {x stage returned killed shutdown} : x.pipe = false → x.returnValue = returned →
      (x.active = false ↔ killed) → stage = .queued ∨ stage = .calling →
      Life ⟨some x, stage, returned, [], [x.theVm], killed, shutdown⟩
  | returned {x stage value killed shutdown} : x.pipe = false → x.returnValue = some value →
      (x.active = false ↔ killed) →
      stage = .returned ∨ stage = .writing ∨ stage = .shuttingDown ∧ shutdown = true →
      Life ⟨some x, stage, some value, [], [x.theVm], killed, shutdown⟩
  | written {x stage value killed shutdown} : x.pipe = true → x.returnValue = some value →
      (x.active = false ↔ killed) → stage = .leaving ∨ stage = .idle →
      Life ⟨some x, stage, some value, [], [x.theVm], killed, shutdown⟩
  | abandoned {x stage returned killed} : x.pipe = false → x.returnValue = returned →
      x.active = false → killed → stage = .leaving ∨ stage = .idle →
      Life ⟨some x, stage, returned, [], [x.theVm], killed, true⟩
  | resumed {stage task value killed shutdown} : ¬killed → stage = .leaving ∨ stage = .idle →
      Life ⟨none, stage, some value, [(task, some value)], [task], killed, shutdown⟩
  | killed {stage task returned killed shutdown} : killed → stage = .leaving ∨ stage = .idle →
      Life ⟨none, stage, returned, [], [task], killed, shutdown⟩

namespace Life

variable {v : View V}

theorem begin (life : Life v) (stage : v.stage = .unused) (handle : BitVec 16) (task : Nat) :
    Life { v with
      waiter := some ⟨task, handle, true, none, false⟩
      stage := .queued
      started := task :: v.started } := by
  cases life with
  | unborn => exact .waiting rfl rfl (by simp) (Or.inl rfl)
  | returned _ _ _ within => subst stage; simp at within
  | waiting _ _ _ within | written _ _ _ within | abandoned _ _ _ _ within | resumed _ within
  | killed _ within =>
      subst stage
      simp at within

theorem take (life : Life v) (stage : v.stage = .queued) : Life { v with stage := .calling } := by
  cases life with
  | waiting pipe value active _ => exact .waiting pipe value active (Or.inr rfl)
  | unborn => cases stage
  | returned _ _ _ within => subst stage; simp at within
  | written _ _ _ within | abandoned _ _ _ _ within | resumed _ within | killed _ within =>
      subst stage
      simp at within

theorem call (life : Life v) (stage : v.stage = .calling) {x : BackgroundWaiter V}
    (found : v.waiter = some x) (value : V) :
    Life { v with
      waiter := some { x with returnValue := some value }
      stage := .returned
      returned := some value } := by
  cases life with
  | waiting pipe _ active _ =>
      cases found
      exact .returned pipe rfl active (Or.inl rfl)
  | unborn => cases stage
  | returned _ _ _ within => subst stage; simp at within
  | written _ _ _ within | abandoned _ _ _ _ within | resumed _ within | killed _ within =>
      subst stage
      simp at within

theorem look (life : Life v) (stage : v.stage = .returned) :
    Life { v with stage := if v.shutdown then .shuttingDown else .writing } := by
  cases life with
  | returned pipe value active _ =>
      refine .returned pipe value active ?_
      split <;> rename_i down
      · exact Or.inr (Or.inr ⟨rfl, down⟩)
      · exact Or.inr (Or.inl rfl)
  | unborn => cases stage
  | waiting _ _ _ within | written _ _ _ within | abandoned _ _ _ _ within | resumed _ within
  | killed _ within =>
      subst stage
      simp at within

theorem write (life : Life v) (stage : v.stage = .writing) {x : BackgroundWaiter V}
    (found : v.waiter = some x) :
    Life { v with waiter := some { x with pipe := true }, stage := .leaving } := by
  cases life with
  | returned _ value active _ =>
      cases found
      exact .written rfl value active (Or.inl rfl)
  | unborn => cases stage
  | waiting _ _ _ within | written _ _ _ within | abandoned _ _ _ _ within | resumed _ within
  | killed _ within =>
      subst stage
      simp at within

theorem abandon (life : Life v) (stage : v.stage = .shuttingDown) {x : BackgroundWaiter V}
    (found : v.waiter = some x) (inactive : x.active = false) :
    Life { v with stage := .leaving } := by
  cases life with
  | returned pipe value active within =>
      cases found
      subst stage
      simp only [reduceCtorEq, true_and, false_or] at within
      subst within
      exact .abandoned pipe value inactive (active.mp inactive) (Or.inl rfl)
  | unborn => cases stage
  | waiting _ _ _ within | written _ _ _ within | abandoned _ _ _ _ within | resumed _ within
  | killed _ within =>
      subst stage
      simp at within

theorem used (life : Life v) {x : BackgroundWaiter V} (found : v.waiter = some x) :
    v.stage ≠ .unused := by
  cases life with
  | unborn | resumed | killed => cases found
  | returned _ _ _ within => rcases within with rfl | rfl | ⟨rfl, -⟩ <;> simp
  | waiting _ _ _ within | written _ _ _ within | abandoned _ _ _ _ within =>
      rcases within with rfl | rfl <;> simp

theorem stages (life : Life v) {x : BackgroundWaiter V} (found : v.waiter = some x)
    (running : v.shutdown = false) :
    v.stage = .queued ∨ v.stage = .calling ∨ v.stage = .returned ∨ v.stage = .writing ∨
      x.pipe = true := by
  cases life with
  | unborn | resumed | killed => cases found
  | waiting _ _ _ within => rcases within with rfl | rfl <;> simp
  | returned _ _ _ within =>
      rcases within with rfl | rfl | ⟨-, down⟩
      · simp
      · simp
      · exact absurd (down.symm.trans running) (by simp)
  | written pipe _ _ _ =>
      cases found
      simp [pipe]
  | abandoned => cases running

theorem not_shuttingDown (life : Life v) :
    v.stage ≠ .resuming ∧ v.stage ≠ .signalling := by
  cases life with
  | unborn => simp
  | returned _ _ _ within => rcases within with rfl | rfl | ⟨rfl, -⟩ <;> simp
  | waiting _ _ _ within | written _ _ _ within | abandoned _ _ _ _ within | resumed _ within
  | killed _ within =>
      rcases within with rfl | rfl <;> simp

theorem leave (life : Life v) (stage : v.stage = .leaving) : Life { v with stage := .idle } := by
  cases life with
  | unborn => cases stage
  | waiting _ _ _ within => subst stage; simp at within
  | returned _ _ _ within => subst stage; simp at within
  | written pipe value active _ => exact .written pipe value active (Or.inr rfl)
  | abandoned pipe value inactive dead _ => exact .abandoned pipe value inactive dead (Or.inr rfl)
  | resumed spared _ => exact .resumed spared (Or.inr rfl)
  | killed dead _ => exact .killed dead (Or.inr rfl)

theorem trigger (life : Life v) : Life { v with shutdown := true } := by
  cases life with
  | unborn => exact .unborn
  | waiting pipe value active within => exact .waiting pipe value active within
  | returned pipe value active within =>
      refine .returned pipe value active ?_
      rcases within with within | within | within
      · exact Or.inl within
      · exact Or.inr (Or.inl within)
      · exact Or.inr (Or.inr ⟨within.1, rfl⟩)
  | written pipe value active within => exact .written pipe value active within
  | abandoned pipe value inactive dead within => exact .abandoned pipe value inactive dead within
  | resumed spared within => exact .resumed spared within
  | killed dead within => exact .killed dead within

theorem waits (life : Life v) {x : BackgroundWaiter V} (found : v.waiter = some x) :
    v.started = [x.theVm] ∧ v.resumed = [] := by
  cases life with
  | unborn | resumed | killed => cases found
  | waiting | returned | written | abandoned =>
      cases found
      exact ⟨rfl, rfl⟩

theorem finished (life : Life v) (gone : v.waiter = none) (spared : ¬v.killed) {task : Nat}
    (started : task ∈ v.started) :
    ∃ value, v.returned = some value ∧ v.resumed = [(task, some value)] := by
  cases life with
  | unborn => cases started
  | waiting | returned | written | abandoned => cases gone
  | resumed => exact ⟨_, rfl, by rw [List.mem_singleton.mp started]⟩
  | killed dead _ => exact absurd dead spared

theorem silent (life : Life v) (dead : v.killed) : v.resumed = [] := by
  cases life with
  | resumed spared _ => exact absurd dead spared
  | unborn | waiting | returned | written | abandoned | killed => rfl

theorem free (life : Life v) {x : BackgroundWaiter V} (found : v.waiter = some x)
    (pipe : x.pipe = true) :
    if x.active then
      Life { v with waiter := none, resumed := (x.theVm, x.returnValue) :: v.resumed }
    else Life { v with waiter := none } := by
  cases life with
  | unborn => cases found
  | waiting empty _ _ _ | returned empty _ _ _ | abandoned empty _ _ _ _ =>
      cases found
      rw [empty] at pipe
      cases pipe
  | written _ value active within =>
      cases found
      split <;> rename_i still
      · rw [value]
        exact .resumed (fun dead => by rw [active.mpr dead] at still; cases still) within
      · exact .killed (active.mp (eq_false_of_ne_true still)) within
  | resumed | killed => cases found

theorem kill (life : Life v) {x : BackgroundWaiter V} (found : v.waiter = some x)
    (waits : x.active = true) :
    Life { v with waiter := some { x with active := false }, killed := True } := by
  cases life with
  | unborn => cases found
  | waiting pipe value _ within =>
      cases found
      exact .waiting pipe value (by simp) within
  | returned pipe value _ within =>
      cases found
      exact .returned pipe value (by simp) within
  | written pipe value _ within =>
      cases found
      exact .written pipe value (by simp) within
  | abandoned _ _ inactive _ _ =>
      cases found
      rw [inactive] at waits
      cases waits
  | resumed | killed => cases found

end Life

end Lives

section Table

def tasksOf (waiter : Nat → Option (BackgroundWaiter V)) (table : List (BitVec 16 × Nat)) :
    List Nat :=
  table.filterMap fun entry => (waiter entry.2).bind fun x => if x.active then some x.theVm else none

/-- The table leads from the handle of every waiter to it, and nowhere else. -/
structure Listed (waiter : Nat → Option (BackgroundWaiter V)) (table : List (BitVec 16 × Nat)) :
    Prop where
  nodup : (table.map Prod.fst).Nodup
  mem : ∀ handle w, (handle, w) ∈ table ↔ ∃ x, waiter w = some x ∧ x.handle = handle

variable {waiter : Nat → Option (BackgroundWaiter V)} {table : List (BitVec 16 × Nat)} {w : Nat}
  {x : BackgroundWaiter V}

theorem tableErase_absent {handle : BitVec 16} (absent : handle ∉ table.map Prod.fst) :
    tableErase table handle = table := by
  refine List.filter_eq_self.mpr fun entry member => ?_
  simp only [ne_eq, decide_not, Bool.not_eq_true', decide_eq_false_iff_not]
  rintro rfl
  exact absent (List.mem_map_of_mem member)

theorem tasksOf_update (waiter : Nat → Option (BackgroundWaiter V))
    (absent : ∀ entry ∈ table, entry.2 ≠ w) (x : Option (BackgroundWaiter V)) :
    tasksOf (Function.update waiter w x) table = tasksOf waiter table := by
  refine List.filterMap_congr fun entry member => ?_
  rw [Function.update_of_ne (absent entry member)]

theorem tableErase_insert {handle : BitVec 16} (free : handle ∉ table.map Prod.fst) (w : Nat) :
    tableErase (tableInsert table handle w) handle = table := by
  rw [tableInsert, ← tableErase, tableErase_absent free, tableErase, List.filter_cons_of_neg]
  · exact tableErase_absent free
  · simp

namespace Listed

theorem unique (listed : Listed waiter table) {h h' : BitVec 16} (first : (h, w) ∈ table)
    (second : (h', w) ∈ table) : h = h' := by
  obtain ⟨x, found, rfl⟩ := (listed.mem h w).mp first
  obtain ⟨x', found', rfl⟩ := (listed.mem h' w).mp second
  cases found.symm.trans found'
  rfl

theorem split (listed : Listed waiter table) (found : waiter w = some x) :
    table.Perm ((x.handle, w) :: tableErase table x.handle) ∧
      ∀ entry ∈ tableErase table x.handle, entry.2 ≠ w := by
  have member : (x.handle, w) ∈ table := (listed.mem _ _).mpr ⟨x, found, rfl⟩
  have apart : ∀ entry ∈ tableErase table x.handle, entry.2 ≠ w := by
    rintro ⟨h, w'⟩ inside rfl
    obtain ⟨there, other⟩ := List.mem_filter.mp inside
    exact (of_decide_eq_true other) (listed.unique there member)
  refine ⟨?_, apart⟩
  refine (List.perm_ext_iff_of_nodup (List.Nodup.of_map Prod.fst listed.nodup) (List.nodup_cons.mpr ⟨?_, ?_⟩)).mpr ?_
  · exact fun inside => apart _ inside rfl
  · exact (List.Nodup.of_map Prod.fst listed.nodup).filter _
  · rintro ⟨h, w'⟩
    simp only [List.mem_cons, tableErase, List.mem_filter, decide_eq_true_eq, Prod.mk.injEq]
    constructor
    · intro inside
      by_cases same : h = x.handle
      · subst same
        exact Or.inl ⟨rfl, congrArg Prod.snd (List.inj_on_of_nodup_map listed.nodup inside member rfl)⟩
      · exact Or.inr ⟨inside, same⟩
    · rintro (⟨rfl, rfl⟩ | ⟨inside, -⟩)
      · exact member
      · exact inside

theorem tasks (listed : Listed waiter table) (found : waiter w = some x) :
    (tasksOf waiter table).Perm
      ((if x.active then [x.theVm] else []) ++ tasksOf waiter (tableErase table x.handle)) := by
  have perm := (listed.split found).1.filterMap fun entry : BitVec 16 × Nat =>
    (waiter entry.2).bind fun x => if x.active then some x.theVm else none
  refine perm.trans (List.Perm.of_eq ?_)
  rw [List.filterMap_cons]
  simp only [found, Option.bind_some]
  split <;> rename_i here
  · split at here
    · cases here
    · rename_i inactive
      rw [if_neg inactive]
      rfl
  · split at here
    · rename_i active
      cases here
      rw [if_pos active]
      rfl
    · cases here

theorem insert (listed : Listed waiter table) {handle : BitVec 16}
    (free : handle ∉ table.map Prod.fst) (absent : waiter w = none) (same : x.handle = handle) :
    Listed (Function.update waiter w (some x)) (tableInsert table handle w) := by
  have kept : table.filter (·.1 ≠ handle) = table := tableErase_absent free
  refine ⟨?_, fun h w' => ?_⟩
  · rw [tableInsert, kept, List.map_cons, List.nodup_cons]
    exact ⟨free, listed.nodup⟩
  · rw [tableInsert, kept, List.mem_cons, Prod.mk.injEq]
    by_cases here : w' = w
    · subst here
      have outside : (h, w') ∉ table := fun member => by
        obtain ⟨y, found, -⟩ := (listed.mem h w').mp member
        rw [absent] at found
        cases found
      simp [outside, same, eq_comm]
    · simp [here, listed.mem]

theorem erase (listed : Listed waiter table) (found : waiter w = some x) :
    Listed (Function.update waiter w none) (tableErase table x.handle) := by
  have apart := (listed.split found).2
  refine ⟨listed.nodup.sublist (List.filter_sublist.map _), fun h w' => ?_⟩
  by_cases here : w' = w
  · subst here
    simp only [Function.update_self, reduceCtorEq, false_and, exists_false, iff_false]
    exact fun inside => apart _ inside rfl
  · rw [Function.update_of_ne here, ← listed.mem, tableErase, List.mem_filter]
    refine and_iff_left_of_imp fun member => ?_
    simp only [ne_eq, decide_not, Bool.not_eq_true', decide_eq_false_iff_not]
    rintro rfl
    have own := (listed.mem x.handle w).mpr ⟨x, found, rfl⟩
    exact here (congrArg Prod.snd (List.inj_on_of_nodup_map listed.nodup member own rfl))

theorem update (listed : Listed waiter table) (found : waiter w = some x)
    {y : BackgroundWaiter V} (same : y.handle = x.handle) :
    Listed (Function.update waiter w (some y)) table := by
  refine ⟨listed.nodup, fun h w' => ?_⟩
  rw [listed.mem]
  by_cases here : w' = w
  · subst here
    simp [found, same]
  · rw [Function.update_of_ne here]

end Listed

end Table

section Accounts

/-- The tasks that have begun and not ended are each found once. -/
structure Accounted (present : List Nat) (nextTask : Nat) (ended : List Nat) : Prop where
  count : ∀ task, present.count task = if task < nextTask ∧ task ∉ ended then 1 else 0
  ended : ∀ task ∈ ended, task < nextTask

namespace Accounted

variable {present present' ended : List Nat} {nextTask task : Nat}

theorem perm (accounted : Accounted present nextTask ended) (same : present.Perm present') :
    Accounted present' nextTask ended :=
  ⟨fun task => (same.count_eq task).symm.trans (accounted.count task), accounted.ended⟩

theorem begin (accounted : Accounted present nextTask ended) :
    Accounted (nextTask :: present) (nextTask + 1) ended := by
  refine ⟨fun task => ?_, fun task member => ?_⟩
  · have count := accounted.count task
    rw [List.count_cons, count]
    by_cases here : nextTask = task
    · subst here
      have fresh : nextTask ∉ ended := fun member => absurd (accounted.ended _ member) (by omega)
      simp [fresh]
    · have same : task < nextTask + 1 ↔ task < nextTask := by omega
      simp [here, same]
  · have below := accounted.ended task member
    omega

theorem finish (accounted : Accounted (task :: present) nextTask ended) :
    Accounted present nextTask (task :: ended) := by
  have here := accounted.count task
  rw [List.count_cons_self] at here
  have going : task < nextTask ∧ task ∉ ended := by
    by_contra stopped
    rw [if_neg stopped] at here
    omega
  refine ⟨fun task' => ?_, fun task' member => ?_⟩
  · by_cases same : task' = task
    · subst same
      rw [if_pos going] at here
      simp only [List.mem_cons, true_or, not_true_eq_false, and_false, if_false]
      omega
    · have count := accounted.count task'
      rw [List.count_cons_of_ne (Ne.symm same)] at count
      simp only [count, List.mem_cons, same, false_or]
  · rcases List.mem_cons.mp member with rfl | older
    · exact going.1
    · exact accounted.ended task' older

end Accounted

end Accounts

section Soundness

def present (s : Server V) : List Nat := s.current.toList ++ writeTaskQueue s

structure Sound (s : Server V) : Prop where
  listed : Listed s.waiter s.processTable
  lives : ∀ w, Life (view s w)
  unborn : ∀ w, s.nextAddress ≤ w → s.stage w = .unused
  accounted : Accounted (present s) s.nextTask s.ended
  unawaited : s.awaited.getD 0 = 0
  triggered : s.awaited ≠ none → s.shutdownTriggered = true
  unsignalled : s.signals = 0

theorem mainIdle_spec {s : Server V} (idle : mainIdle s = true) :
    s.current = none ∧ s.awaited = none := by
  simp only [mainIdle, Bool.and_eq_true, Option.isNone_iff_eq_none] at idle
  exact idle

theorem Sound.start : Sound (Server.start : Server V) where
  listed := ⟨List.nodup_nil, fun handle w => by simp [Server.start]⟩
  lives w := by
    have same : view (Server.start : Server V) w = ⟨none, .unused, none, [], [], False, false⟩ := by
      simp [view, Server.start, resumedBy]
    rw [same]
    exact .unborn
  unborn _ _ := rfl
  accounted := ⟨fun task => by simp [present, writeTaskQueue, interruptedTasks, Server.start],
    fun task member => by simp [Server.start] at member⟩
  unawaited := rfl
  triggered := fun waits => absurd rfl waits
  unsignalled := rfl

namespace Sound

variable {s s' : Server V} {w : Nat} {x y : BackgroundWaiter V}

theorem rearrange (sound : Sound s) (queue : List (Nat × Option V)) (current : Option Nat)
    (nextTask : Nat) (ended : List Nat)
    (accounted : Accounted (current.toList ++ (queue.map Prod.fst ++ interruptedTasks s))
      nextTask ended) :
    Sound { s with queue := queue, current := current, nextTask := nextTask, ended := ended } :=
  ⟨sound.listed, sound.lives, sound.unborn, accounted, sound.unawaited, sound.triggered,
    sound.unsignalled⟩

theorem change (sound : Sound s) (elsewhere : ∀ w', w' ≠ w → view s' w' = view s w')
    (life : Life (view s' w)) (below : w < s'.nextAddress)
    (further : s.nextAddress ≤ s'.nextAddress) (listed : Listed s'.waiter s'.processTable)
    (accounted : Accounted (present s') s'.nextTask s'.ended)
    (awaited : s'.awaited = s.awaited) (shutdown : s'.shutdownTriggered = s.shutdownTriggered)
    (signals : s'.signals = s.signals) : Sound s' := by
  refine ⟨listed, fun w' => ?_, fun w' beyond => ?_, accounted, ?_, ?_, ?_⟩
  · by_cases here : w' = w
    · rwa [here]
    · rw [elsewhere w' here]
      exact sound.lives w'
  · have apart : w' ≠ w := by omega
    rw [show s'.stage w' = s.stage w' from congrArg View.stage (elsewhere w' apart)]
    exact sound.unborn w' (by omega)
  · rw [awaited]
    exact sound.unawaited
  · rw [awaited, shutdown]
    exact sound.triggered
  · rw [signals]
    exact sound.unsignalled

theorem below (sound : Sound s) (used : s.stage w ≠ .unused) : w < s.nextAddress := by
  by_contra beyond
  exact used (sound.unborn w (by omega))

theorem setStage (sound : Sound s) {stage : Stage} (used : s.stage w ≠ .unused)
    (life : Life { view s w with stage := stage }) : Sound (s.setStage w stage) := by
  refine sound.change (w := w) (fun w' other => ?_) ?_ (sound.below used) (Nat.le_refl _)
    sound.listed sound.accounted rfl rfl rfl
  · simp only [view, Server.setStage, Function.update_of_ne other]
    rfl
  · have same : view (s.setStage w stage) w = { view s w with stage := stage } := by
      simp only [view, Server.setStage, Function.update_self]
      rfl
    rwa [same]

theorem deliver (sound : Sound s) {stage : Stage} (y : BackgroundWaiter V) (returned : Option V)
    (used : s.stage w ≠ .unused) (found : s.waiter w = some x) (handle : y.handle = x.handle)
    (active : y.active = x.active) (task : y.theVm = x.theVm)
    (life : Life { view s w with waiter := some y, stage := stage, returned := returned }) :
    Sound { (s.setWaiter w (some y)).setStage w stage with
      returned := Function.update s.returned w returned } := by
  have listed := sound.listed.update found handle
  have stays : (tasksOf s.waiter s.processTable).Perm
      (tasksOf (Function.update s.waiter w (some y)) s.processTable) := by
    refine (sound.listed.tasks found).trans
      (((listed.tasks (Function.update_self w _ _)).trans (.of_eq ?_)).symm)
    rw [handle, active, task, tasksOf_update _ (sound.listed.split found).2]
  refine sound.change (w := w) (fun w' other => ?_) ?_ (sound.below used) (Nat.le_refl _)
    listed ?_ rfl rfl rfl
  · simp only [view, Server.setStage, Server.setWaiter, Function.update_of_ne other]
    rfl
  · convert life using 1
    simp only [view, Server.setStage, Server.setWaiter, Function.update_self]
    rfl
  · exact sound.accounted.perm ((stays.append_left _).append_left _)

theorem takeWork (sound : Sound s) (queued : s.stage w = .queued) :
    Sound (s.setStage w .calling) :=
  sound.setStage (by simp [queued]) ((sound.lives w).take queued)

theorem callback (sound : Sound s) (calling : s.stage w = .calling) (found : s.waiter w = some x)
    (value : V) :
    Sound { (s.setWaiter w (some { x with returnValue := some value })).setStage w .returned with
      returned := Function.update s.returned w (some value) } :=
  sound.deliver _ _ (by simp [calling]) found rfl rfl rfl
    ((sound.lives w).call calling found value)

theorem look (sound : Sound s) (returned : s.stage w = .returned) :
    Sound (s.setStage w (if s.shutdownTriggered then .shuttingDown else .writing)) :=
  sound.setStage (by simp [returned]) ((sound.lives w).look returned)

theorem writePipe (sound : Sound s) (writing : s.stage w = .writing) (found : s.waiter w = some x) :
    Sound ((s.setWaiter w (some { x with pipe := true })).setStage w .leaving) := by
  have delivered := sound.deliver { x with pipe := true } (s.returned w) (by simp [writing]) found
    rfl rfl rfl ((sound.lives w).write writing found)
  rwa [Function.update_eq_self] at delivered

theorem abandon (sound : Sound s) (shutting : s.stage w = .shuttingDown)
    (found : s.waiter w = some x) (inactive : x.active = false) :
    Sound (s.setStage w .leaving) :=
  sound.setStage (by simp [shutting]) ((sound.lives w).abandon shutting found inactive)

theorem leave (sound : Sound s) (leaving : s.stage w = .leaving) : Sound (s.setStage w .idle) :=
  sound.setStage (by simp [leaving]) ((sound.lives w).leave leaving)

theorem triggerShutdown (sound : Sound s) : Sound { s with shutdownTriggered := true } :=
  ⟨sound.listed, fun w => (sound.lives w).trigger, sound.unborn, sound.accounted,
    sound.unawaited, fun _ => rfl, sound.unsignalled⟩

theorem network (sound : Sound s) (found : s.waiter w = some x) (pipe : x.pipe = true) :
    Sound (networkCallback s w x) := by
  have life := (sound.lives w).free found pipe
  have below := sound.below ((sound.lives w).used found)
  have erased := sound.listed.erase found
  have away := tasksOf_update s.waiter (sound.listed.split found).2 none
  have tasks := (sound.listed.tasks found).trans (.of_eq (congrArg _ away.symm))
  unfold networkCallback
  split at life <;> rename_i waits
  · rw [if_pos waits]
    refine sound.change (w := w) (fun w' other => ?_) ?_ below (Nat.le_refl _) erased ?_ rfl rfl rfl
    · simp only [view, deallocateBackgroundWaiter, resumeTask, Server.setWaiter, resumedBy,
        Function.update_of_ne other]
      simp [Ne.symm other]
    · convert life using 1
      simp [view, deallocateBackgroundWaiter, resumeTask, Server.setWaiter, resumedBy]
    · refine sound.accounted.perm (List.Perm.append_left _ ?_)
      rw [if_pos waits] at tasks
      refine (tasks.append_left _).trans (.of_eq ?_)
      simp only [deallocateBackgroundWaiter, resumeTask, Server.setWaiter, writeTaskQueue,
        interruptedTasks, List.map_append, List.append_assoc]
      rfl
  · rw [if_neg waits]
    refine sound.change (w := w) (fun w' other => ?_) ?_ below (Nat.le_refl _) erased ?_ rfl rfl rfl
    · simp only [view, deallocateBackgroundWaiter, Server.setWaiter, Function.update_of_ne other]
      rfl
    · convert life using 1
      simp only [view, deallocateBackgroundWaiter, Server.setWaiter, Function.update_self]
      rfl
    · refine sound.accounted.perm (List.Perm.append_left _ ?_)
      rw [if_neg waits] at tasks
      exact tasks.append_left _

theorem background (sound : Sound s) {task maxThreads : Nat} {pipeOk quotaOk workOk : Bool}
    (running : s.current = some task)
    (free : canCreateThread s maxThreads = true →
      s.nextBackgroundHandle ∉ s.processTable.map Prod.fst) :
    Sound (backgroundThread s task maxThreads pipeOk quotaOk workOk) := by
  have unused := sound.unborn s.nextAddress (Nat.le_refl _)
  have absent : s.waiter s.nextAddress = none := by
    by_contra some
    obtain ⟨x, found⟩ := Option.ne_none_iff_exists'.mp some
    exact (sound.lives _).used found unused
  unfold backgroundThread
  split
  · exact sound
  · rename_i able
    simp only [Bool.not_eq_true', Bool.not_eq_false] at able
    have free := free able
    have apart : ∀ entry ∈ s.processTable, entry.2 ≠ s.nextAddress := by
      rintro ⟨handle, w⟩ member rfl
      obtain ⟨x, found, -⟩ := (sound.listed.mem _ _).mp member
      rw [absent] at found
      cases found
    split
    · have waiters : Function.update (Function.update s.waiter s.nextAddress
          (some ⟨task, s.nextBackgroundHandle, false, none, false⟩)) s.nextAddress none =
          s.waiter := by
        rw [Function.update_idem, ← absent, Function.update_eq_self]
      have table := tableErase_insert free s.nextAddress
      refine ⟨?_, fun w => ?_, fun w beyond => sound.unborn w (Nat.le_of_succ_le beyond), ?_,
        sound.unawaited, sound.triggered, sound.unsignalled⟩
      · simp only [deallocateBackgroundWaiter, initializeBackgroundWaiter, Server.setWaiter,
          waiters, table]
        exact sound.listed
      · have life := sound.lives w
        convert life using 1
        simp only [view, deallocateBackgroundWaiter, initializeBackgroundWaiter,
          Server.setWaiter, waiters]
        rfl
      · simp only [present, writeTaskQueue, interruptedTasks, deallocateBackgroundWaiter,
          initializeBackgroundWaiter, Server.setWaiter, waiters, table]
        exact sound.accounted
    · have waiters : ∀ x y : Option (BackgroundWaiter V),
          Function.update (Function.update s.waiter s.nextAddress x) s.nextAddress y =
            Function.update s.waiter s.nextAddress y := fun x y => Function.update_idem ..
      refine sound.change (w := s.nextAddress) (fun w other => ?_) ?_ (Nat.lt_succ_self _)
        (Nat.le_succ _) ?_ ?_ rfl rfl rfl
      · simp only [view, initializeBackgroundWaiter, Server.setWaiter, Server.setStage, resumedBy,
          Function.update_of_ne other]
        simp [Ne.symm other]
      · have life := (sound.lives s.nextAddress).begin unused s.nextBackgroundHandle task
        convert life using 1
        simp [view, initializeBackgroundWaiter, Server.setWaiter, Server.setStage, resumedBy]
      · simp only [initializeBackgroundWaiter, Server.setWaiter, Server.setStage, waiters]
        exact sound.listed.insert free absent rfl
      · refine sound.accounted.perm ?_
        simp only [present, writeTaskQueue, interruptedTasks, initializeBackgroundWaiter,
          Server.setWaiter, Server.setStage, waiters, running]
        have inserted : tasksOf (Function.update s.waiter s.nextAddress
            (some ⟨task, s.nextBackgroundHandle, true, none, false⟩))
            (tableInsert s.processTable s.nextBackgroundHandle s.nextAddress) =
            task :: tasksOf s.waiter s.processTable := by
          rw [tableInsert, ← tableErase, tableErase_absent free, ← tasksOf_update s.waiter apart
            (some ⟨task, s.nextBackgroundHandle, true, none, false⟩), tasksOf, List.filterMap_cons]
          simp only [Function.update_self]
          rfl
        have moved : (task :: (s.queue.map Prod.fst ++ tasksOf s.waiter s.processTable)).Perm
            (s.queue.map Prod.fst ++ task :: tasksOf s.waiter s.processTable) :=
          List.perm_middle.symm
        rwa [← inserted] at moved

theorem eraseP_perm {queue : List (Nat × Option V)} {id : Nat}
    (queued : queue.any (·.1 = id) = true) :
    (queue.map Prod.fst).Perm (id :: (queue.eraseP (·.1 = id)).map Prod.fst) := by
  induction queue with
  | nil => cases queued
  | cons entry rest ih =>
      by_cases here : entry.1 = id
      · rw [List.eraseP_cons_of_pos (by simpa using here), List.map_cons, here]
      · have later : rest.any (·.1 = id) = true := by simpa [here] using queued
        rw [List.eraseP_cons_of_neg (by simpa using here), List.map_cons, List.map_cons]
        exact ((ih later).cons _).trans (.swap ..)

theorem backgroundEnumerator_kills {id : Nat} {permitted : Bool} {table : List (BitVec 16 × Nat)}
    (found : backgroundEnumerator s (killingClosure id permitted) table = (.kill, some w)) :
    ∃ x, s.waiter w = some x ∧ x.active = true ∧ x.theVm = id := by
  induction table with
  | nil => cases found
  | cons entry rest ih =>
      obtain ⟨handle, w'⟩ := entry
      rw [backgroundEnumerator] at found
      split at found
      · exact ih found
      · rename_i x there
        split at found
        · rename_i waits
          split at found
          · exact ih found
          · rename_i stops
            simp only [Prod.mk.injEq, Option.some.injEq] at found
            obtain ⟨kill, rfl⟩ := found
            refine ⟨x, there, waits, ?_⟩
            rw [killingClosure] at kill
            split at kill
            · assumption
            · cases kill
        · exact ih found

theorem kill (sound : Sound s) (id : Nat) (permitted : Bool) : Sound (killTask s id permitted) := by
  unfold killTask
  split
  · rename_i running
    refine sound.rearrange s.queue none s.nextTask _ (Accounted.finish ?_)
    have accounted := sound.accounted
    rw [present, running] at accounted
    exact accounted
  · split
    · rename_i queued
      split
      · refine sound.rearrange _ s.current s.nextTask _ (Accounted.finish (sound.accounted.perm ?_))
        have taken := eraseP_perm queued
        rw [present, writeTaskQueue]
        refine (List.Perm.append_left _ (taken.append_right _)).trans ?_
        exact List.perm_middle
      · exact sound
    · split
      · rename_i w found
        obtain ⟨x, there, waits, rfl⟩ := backgroundEnumerator_kills found
        rw [there, Option.map_some]
        have life := (sound.lives w).kill there waits
        have below := sound.below ((sound.lives w).used there)
        have listed := sound.listed.update there (y := { x with active := false }) rfl
        have before := sound.listed.tasks there
        have after := listed.tasks (Function.update_self w _ _)
        rw [tasksOf_update s.waiter (sound.listed.split there).2] at after
        rw [if_pos waits] at before
        refine sound.change (w := w) (fun w' other => ?_) ?_ below (Nat.le_refl _) listed ?_
          rfl rfl rfl
        · simp only [view, resumedBy, Function.update_of_ne other]
          simp [other]
        · convert life using 1
          simp [view, resumedBy]
        · refine Accounted.finish (sound.accounted.perm ?_)
          refine (List.Perm.append_left _ (List.Perm.append_left _
            (before.trans (after.symm.cons x.theVm)))).trans ?_
          refine (List.perm_middle.append_left _).trans ?_
          exact List.perm_middle
      · exact sound

end Sound

theorem step_sound {s s' : Server V} {event : Event V} (sound : Sound s)
    (conforms : Conforms s event) (taken : step s event = some s') : Sound s' := by
  cases event with
  | newTask =>
      obtain ⟨idle, taken⟩ := Option.ite_none_right_eq_some.mp taken
      cases taken
      refine sound.rearrange s.queue _ _ s.ended ?_
      have accounted := sound.accounted.begin
      rw [present, (mainIdle_spec idle).1] at accounted
      exact accounted
  | runTask i =>
      simp only [step] at taken
      split at taken
      · rename_i task value queued
        obtain ⟨idle, taken⟩ := Option.ite_none_right_eq_some.mp taken
        cases taken
        refine sound.rearrange _ _ s.nextTask s.ended
          (sound.accounted.perm ?_)
        obtain ⟨below, at_⟩ := List.getElem?_eq_some_iff.mp queued
        have taken := (List.getElem_cons_eraseIdx_perm below).map Prod.fst
        rw [at_] at taken
        rw [present, (mainIdle_spec idle).1]
        exact taken.symm.append_right _
      · cases taken
  | suspendTask value =>
      simp only [step] at taken
      split at taken
      · rename_i task running
        cases taken
        refine sound.rearrange _ none s.nextTask s.ended
          (sound.accounted.perm ?_)
        rw [present, running, writeTaskQueue, List.map_append, List.append_assoc]
        have moved : (task :: (s.queue.map Prod.fst ++ interruptedTasks s)).Perm
            (s.queue.map Prod.fst ++ task :: interruptedTasks s) := List.perm_middle.symm
        exact moved
      · cases taken
  | endTask =>
      simp only [step] at taken
      split at taken
      · rename_i task running
        cases taken
        refine sound.rearrange s.queue none s.nextTask _
          (Accounted.finish ?_)
        have accounted := sound.accounted
        rw [present, running] at accounted
        exact accounted
      · cases taken
  | background maxThreads pipeOk quotaOk workOk =>
      simp only [step] at taken
      split at taken
      · rename_i task running
        cases taken
        exact sound.background running conforms
      · cases taken
  | kill id permitted =>
      obtain ⟨-, taken⟩ := Option.ite_none_right_eq_some.mp taken
      cases taken
      exact sound.kill id permitted
  | takeWork w =>
      obtain ⟨ready, taken⟩ := Option.ite_none_right_eq_some.mp taken
      cases taken
      exact sound.takeWork ready.1
  | callback w value =>
      simp only [step] at taken
      split at taken
      · rename_i x calling found
        cases taken
        exact sound.callback calling found value
      · cases taken
  | isShutdownTriggered w =>
      obtain ⟨returned, taken⟩ := Option.ite_none_right_eq_some.mp taken
      cases taken
      exact sound.look returned
  | writePipe w =>
      simp only [step] at taken
      split at taken
      · rename_i x writing found
        cases taken
        exact sound.writePipe writing found
      · cases taken
  | isActive w =>
      simp only [step] at taken
      split at taken
      · rename_i x shutting found
        have inactive := conforms x found
        rw [inactive] at taken
        cases taken
        exact sound.abandon shutting found inactive
      · cases taken
  | resume w =>
      simp only [step] at taken
      split at taken
      · rename_i x resuming found
        exact absurd resuming (sound.lives w).not_shuttingDown.1
      · cases taken
  | signal w =>
      obtain ⟨signalling, -⟩ := Option.ite_none_right_eq_some.mp taken
      exact absurd signalling (sound.lives w).not_shuttingDown.2
  | leave w =>
      obtain ⟨leaving, taken⟩ := Option.ite_none_right_eq_some.mp taken
      cases taken
      exact sound.leave leaving
  | network w =>
      simp only [step] at taken
      split at taken
      · rename_i x found
        obtain ⟨ready, taken⟩ := Option.ite_none_right_eq_some.mp taken
        cases taken
        exact sound.network found (Bool.and_eq_true_iff.mp ready).1
      · cases taken
  | triggerShutdown =>
      cases taken
      exact sound.triggerShutdown
  | backgroundShutdown =>
      obtain ⟨ready, taken⟩ := Option.ite_none_right_eq_some.mp taken
      cases taken
      exact ⟨sound.listed, sound.lives, sound.unborn, sound.accounted, conforms,
        fun _ => (Bool.and_eq_true_iff.mp ready).2, sound.unsignalled⟩

theorem reachable_sound {s : Server V} (reachable : BackgroundReachable s) : Sound s :=
  reachable.invariant Sound .start fun _ _ sound ⟨_, conforms, taken⟩ =>
    step_sound sound conforms taken

end Soundness

section Progress

variable {s s' : Server V} {w : Nat} {x : BackgroundWaiter V}

def Freed (step : Server V → Server V → Prop) (s : Server V) (w : Nat) : Prop :=
  ∃ s', Reachable s step s' ∧ s'.waiter w = none

theorem Freed.after (taken : ConformingStep s s') (freed : Freed ConformingStep s' w) :
    Freed ConformingStep s w := by
  obtain ⟨last, reached, gone⟩ := freed
  exact ⟨last, .trans (.step .start taken) reached, gone⟩

theorem freed_of_written (sound : Sound s) (running : s.shutdownTriggered = false)
    (found : s.waiter w = some x) (pipe : x.pipe = true) (value : V) :
    Freed ConformingStep s w := by
  have attending : s.awaited = none := by
    by_contra waits
    rw [sound.triggered waits] at running
    cases running
  have reads : ∀ s : Server V, s.current = none → s.awaited = none → s.waiter w = some x →
      Freed ConformingStep s w := by
    intro s idle attending found
    refine ⟨networkCallback s w x, .step .start ⟨.network w, trivial, ?_⟩, ?_⟩
    · simp [step, found, pipe, mainIdle, idle, attending]
    · exact Function.update_self ..
  cases busy : s.current with
  | none => exact reads s busy attending found
  | some task =>
      refine Freed.after ⟨.suspendTask value, trivial, ?_⟩
        (reads { s with current := none, queue := s.queue ++ [(task, some value)] } rfl
          attending found)
      simp only [step, busy]

theorem freed_of_writing (sound : Sound s) (running : s.shutdownTriggered = false)
    (found : s.waiter w = some x) (writing : s.stage w = .writing) (value : V) :
    Freed ConformingStep s w := by
  refine Freed.after ⟨.writePipe w, trivial, ?_⟩
    (freed_of_written (sound.writePipe writing found) running (Function.update_self ..) rfl value)
  simp only [step, writing, found]

theorem freed_of_returned (sound : Sound s) (running : s.shutdownTriggered = false)
    (found : s.waiter w = some x) (returned : s.stage w = .returned) (value : V) :
    Freed ConformingStep s w := by
  have looked := sound.look returned
  rw [running] at looked
  refine Freed.after ⟨.isShutdownTriggered w, trivial, ?_⟩
    (freed_of_writing looked running found (Function.update_self ..) value)
  simp only [step, returned, running, if_true]

theorem freed_of_calling (sound : Sound s) (running : s.shutdownTriggered = false)
    (found : s.waiter w = some x) (calling : s.stage w = .calling) (value : V) :
    Freed ConformingStep s w := by
  refine Freed.after ⟨.callback w value, trivial, ?_⟩
    (freed_of_returned (sound.callback calling found value) running (Function.update_self ..)
      (Function.update_self ..) value)
  simp only [step, calling, found]

theorem freed (sound : Sound s) (running : s.shutdownTriggered = false)
    (found : s.waiter w = some x) (value : V) : Freed ConformingStep s w := by
  rcases (sound.lives w).stages found running with queued | calling | returned | writing | pipe
  · refine Freed.after ⟨.takeWork w, trivial, ?_⟩
      (freed_of_calling (sound.takeWork queued) running found (Function.update_self ..) value)
    exact if_pos ⟨queued, sound.unawaited⟩
  · exact freed_of_calling sound running found calling value
  · exact freed_of_returned sound running found returned value
  · exact freed_of_writing sound running found writing value
  · exact freed_of_written sound running found pipe value

theorem gone_of_step {event : Event V} (taken : step s event = some s')
    (gone : w < s.nextAddress ∧ s.waiter w = none) :
    w < s'.nextAddress ∧ s'.waiter w = none := by
  obtain ⟨below, absent⟩ := gone
  have set : ∀ {w' : Nat} {x : BackgroundWaiter V} (y : BackgroundWaiter V),
      s.waiter w' = some x → Function.update s.waiter w' (some y) w = none := by
    intro w' x y found
    rw [Function.update_of_ne]
    · exact absent
    · rintro rfl
      rw [absent] at found
      cases found
  have cleared : ∀ w', Function.update s.waiter w' none w = none := by
    intro w'
    rw [Function.update_apply]
    split
    · rfl
    · exact absent
  cases event with
  | newTask | takeWork | isShutdownTriggered | signal | leave | backgroundShutdown =>
      obtain ⟨-, taken⟩ := Option.ite_none_right_eq_some.mp taken
      cases taken
      exact ⟨below, absent⟩
  | triggerShutdown =>
      cases taken
      exact ⟨below, absent⟩
  | suspendTask | endTask =>
      simp only [step] at taken
      split at taken <;> cases taken
      exact ⟨below, absent⟩
  | runTask =>
      simp only [step] at taken
      split at taken
      · obtain ⟨-, taken⟩ := Option.ite_none_right_eq_some.mp taken
        cases taken
        exact ⟨below, absent⟩
      · cases taken
  | callback | writePipe =>
      simp only [step] at taken
      split at taken
      · rename_i found
        cases taken
        exact ⟨below, set _ found⟩
      · cases taken
  | isActive | resume =>
      simp only [step] at taken
      split at taken <;> cases taken
      exact ⟨below, absent⟩
  | kill id permitted =>
      obtain ⟨-, taken⟩ := Option.ite_none_right_eq_some.mp taken
      cases taken
      unfold killTask
      split
      · exact ⟨below, absent⟩
      · split
        · split <;> exact ⟨below, absent⟩
        · split
          · rename_i w' found
            obtain ⟨x, there, -⟩ := Sound.backgroundEnumerator_kills found
            rw [there]
            exact ⟨below, set _ there⟩
          · exact ⟨below, absent⟩
  | network w' =>
      simp only [step] at taken
      split at taken
      · obtain ⟨-, taken⟩ := Option.ite_none_right_eq_some.mp taken
        cases taken
        unfold networkCallback
        split <;> exact ⟨below, cleared w'⟩
      · cases taken
  | background maxThreads pipeOk quotaOk workOk =>
      simp only [step] at taken
      split at taken
      · cases taken
        have other : w ≠ s.nextAddress := by omega
        unfold backgroundThread
        split
        · exact ⟨below, absent⟩
        · split
          · refine ⟨Nat.lt_succ_of_lt below, ?_⟩
            simp only [deallocateBackgroundWaiter, initializeBackgroundWaiter, Server.setWaiter,
              Function.update_of_ne other, absent]
          · refine ⟨Nat.lt_succ_of_lt below, ?_⟩
            simp only [initializeBackgroundWaiter, Server.setWaiter, Server.setStage,
              Function.update_of_ne other, absent]
      · cases taken

end Progress

section Properties

structure Kept (step : Server V → Server V → Prop) (s : Server V) : Prop where
  apart : ∀ w w' x x', s.waiter w = some x → s.waiter w' = some x' → x.handle = x'.handle → w = w'
  listed : ∀ w, (s.processTable.map Prod.snd).count w = if (s.waiter w).isSome then 1 else 0
  freedOnce : ∀ w < s.nextAddress, s.waiter w = none →
    ∀ s', Reachable s step s' → s'.waiter w = none
  freed : s.shutdownTriggered = false → ∀ w, s.waiter w ≠ none → Freed step s w
  waiting : ∀ w task x, (w, task) ∈ s.started → s.waiter w = some x →
    x.theVm = task ∧ resumedBy s w = []
  resumed : ∀ w task, (w, task) ∈ s.started → s.waiter w = none → w ∉ s.killedWaiters →
    ∃ value, s.returned w = some value ∧ resumedBy s w = [(task, some value)]
  killed : ∀ w ∈ s.killedWaiters, resumedBy s w = []
  dumped : ∀ task, (writeTaskQueue s).count task =
    if task < s.nextTask ∧ task ∉ s.ended ∧ s.current ≠ some task then 1 else 0
  awaited : ∀ n, s.awaited = some n → ∀ s', Reachable s step s' →
    (∀ w, (s'.stage w).busy = false) → s'.signals = n

theorem Sound.listed_once {s : Server V} (sound : Sound s) (w : Nat) :
    (s.processTable.map Prod.snd).count w = if (s.waiter w).isSome then 1 else 0 := by
  cases found : s.waiter w with
  | none =>
      refine List.count_eq_zero.mpr fun member => ?_
      obtain ⟨⟨handle, w'⟩, inside, rfl⟩ := List.mem_map.mp member
      obtain ⟨x, there, -⟩ := (sound.listed.mem handle w').mp inside
      rw [found] at there
      cases there
  | some x =>
      obtain ⟨perm, apart⟩ := sound.listed.split found
      have rest : ((tableErase s.processTable x.handle).map Prod.snd).count w = 0 := by
        refine List.count_eq_zero.mpr fun member => ?_
        obtain ⟨entry, inside, same⟩ := List.mem_map.mp member
        exact apart entry inside same
      rw [(perm.map Prod.snd).count_eq, List.map_cons, List.count_cons_self, rest]
      rfl

theorem Sound.dumped {s : Server V} (sound : Sound s) (task : Nat) :
    (writeTaskQueue s).count task =
      if task < s.nextTask ∧ task ∉ s.ended ∧ s.current ≠ some task then 1 else 0 := by
  have count := sound.accounted.count task
  rw [present, List.count_append] at count
  by_cases running : s.current = some task
  · rw [running] at count
    simp only [Option.toList_some, List.count_singleton_self] at count
    simp only [running, ne_eq, not_true_eq_false, and_false, if_false]
    split at count <;> omega
  · have elsewhere : s.current.toList.count task = 0 := by
      refine List.count_eq_zero.mpr fun member => ?_
      exact running (Option.mem_toList.mp member)
    rw [elsewhere, Nat.zero_add] at count
    simp only [count, ne_eq, running, not_false_eq_true, and_true]

theorem mem_started {s : Server V} {w task : Nat} (started : (w, task) ∈ s.started) :
    task ∈ (view s w).started :=
  List.mem_map.mpr ⟨(w, task), List.mem_filter.mpr ⟨started, by simp⟩, rfl⟩

/-- The tasks that wait for background threads are neither lost nor doubled. -/
theorem waiting_tasks_kept [Inhabited V] {s : Server V} (reachable : BackgroundReachable s) :
    Kept ConformingStep s := by
  have sound := reachable_sound reachable
  have lives := sound.lives
  refine ⟨?_, sound.listed_once, ?_, ?_, ?_, ?_, ?_, sound.dumped, ?_⟩
  · intro w w' x x' found found' same
    have inside := (sound.listed.mem _ _).mpr ⟨x, found, rfl⟩
    have inside' := (sound.listed.mem _ _).mpr ⟨x', found', same.symm⟩
    exact congrArg Prod.snd (List.inj_on_of_nodup_map sound.listed.nodup inside inside' rfl)
  · intro w below gone s' later
    have still : w < s'.nextAddress ∧ s'.waiter w = none := by
      induction later with
      | start => exact ⟨below, gone⟩
      | step _ taken ih =>
          obtain ⟨event, -, taken⟩ := taken
          exact gone_of_step taken ih
    exact still.2
  · intro running w live
    obtain ⟨x, found⟩ := Option.ne_none_iff_exists'.mp live
    exact freed sound running found default
  · intro w task x started found
    obtain ⟨only, unresumed⟩ := (lives w).waits found
    have member : task ∈ (view s w).started := mem_started started
    rw [only, List.mem_singleton] at member
    exact ⟨member.symm, unresumed⟩
  · exact fun w task started gone spared => (lives w).finished gone spared (mem_started started)
  · exact fun w dead => (lives w).silent dead
  · intro n reads s' later _
    have sound' : Sound s' := later.invariant Sound sound
      fun _ _ sound ⟨_, conforms, taken⟩ => step_sound sound conforms taken
    have none_ := sound.unawaited
    rw [reads] at none_
    rw [sound'.unsignalled]
    exact none_.symm

theorem background_task_resumed : ∃ s : Server Nat, Kept ConformingStep s ∧
    s.queue = [(0, some 7)] ∧ s.processTable = [] := by
  refine ⟨_, waiting_tasks_kept (.step (.step (.step (.step (.step (.step (.step .start
    ⟨.newTask, trivial, rfl⟩)
    ⟨.background 1 true true true, fun _ => by decide, rfl⟩)
    ⟨.takeWork 0, trivial, rfl⟩)
    ⟨.callback 0 7, trivial, rfl⟩)
    ⟨.isShutdownTriggered 0, trivial, rfl⟩)
    ⟨.writePipe 0, trivial, rfl⟩)
    ⟨.network 0, trivial, rfl⟩), rfl, rfl⟩

/-- A worker that finds the server shutting down leaves its task in the queue and in the table. -/
theorem doubled_by_shutdown : ∃ s : Server Nat, Reachable Server.start BackgroundStep s ∧
    s.ended = [] ∧ writeTaskQueue s = [0, 0] :=
  ⟨_, .step (.step (.step (.step (.step (.step (.step (.step .start
    ⟨.newTask, rfl⟩) ⟨.background 1 true true true, rfl⟩) ⟨.takeWork 0, rfl⟩)
    ⟨.callback 0 7, rfl⟩) ⟨.triggerShutdown, rfl⟩) ⟨.isShutdownTriggered 0, rfl⟩)
    ⟨.isActive 0, rfl⟩) ⟨.resume 0, rfl⟩, rfl, rfl⟩

/-- A worker that has written its byte is waited for, and never signals. -/
theorem awaited_without_signal : ∃ s : Server Nat, Reachable Server.start BackgroundStep s ∧
    s.awaited = some 1 ∧ s.signals = 0 ∧ ∀ w, (s.stage w).busy = false := by
  refine ⟨_, .step (.step (.step (.step (.step (.step (.step (.step (.step .start
    ⟨.newTask, rfl⟩) ⟨.background 1 true true true, rfl⟩) ⟨.takeWork 0, rfl⟩)
    ⟨.callback 0 7, rfl⟩) ⟨.isShutdownTriggered 0, rfl⟩) ⟨.writePipe 0, rfl⟩)
    ⟨.triggerShutdown, rfl⟩) ⟨.backgroundShutdown, rfl⟩) ⟨.leave 0, rfl⟩, rfl, rfl, fun w => ?_⟩
  cases w <;> rfl

theorem background_tasks_unkept :
    (∃ s : Server Nat, Reachable Server.start BackgroundStep s ∧ s.ended = [] ∧
      writeTaskQueue s = [0, 0]) ∧
    (∃ s : Server Nat, Reachable Server.start BackgroundStep s ∧
      s.awaited = some 1 ∧ s.signals = 0 ∧ ∀ w, (s.stage w).busy = false) ∧
    ¬∀ s : Server Nat, Reachable Server.start BackgroundStep s → Kept BackgroundStep s := by
  refine ⟨doubled_by_shutdown, awaited_without_signal, fun kept => ?_⟩
  obtain ⟨s, reached, waits, silent, settled⟩ := awaited_without_signal
  have sent := (kept s reached).awaited 1 waits s .start settled
  rw [silent] at sent
  cases sent

end Properties

end ToastStunt.Tasks
