import Mathlib.Algebra.Order.Ring.Int
import Mathlib.Data.List.Count
import Mathlib.Logic.Function.Basic
import ToastStunt.Library.Runs

/-!
Tasks that wait for a background thread, from background.cc and tasks.cc: the main loop, the
workers of the thread pool and the shutdown, which interleave at their shared variables. The
current task of the main loop does everything that a task does until it suspends or ends.
-/

namespace ToastStunt.Tasks

variable {V : Type}

/-- Where a worker is in its run of `run_callback`. -/
inductive Stage where
  | unused
  | queued
  | calling
  | returned
  | writing
  | shuttingDown
  | resuming
  | signalling
  | leaving
  | idle
deriving DecidableEq, Repr

def Stage.busy : Stage → Bool
  | .unused | .queued | .idle => false
  | _ => true

/-- `background_waiter`, with the byte in its pipe; a `return_value` of `none` has not been set. -/
structure BackgroundWaiter (V : Type) where
  theVm : Nat
  handle : BitVec 16
  active : Bool
  returnValue : Option V
  pipe : Bool
deriving DecidableEq, Repr

/-- Waiters and workers by address, tasks by number. The table is a list of handles with the
waiters they lead to. What comes after `awaited` is the history: which workers have resumed a
task with which value, what the callbacks have returned, which tasks have waited where, been
killed or ended, and how often the condition has been signalled. -/
structure Server (V : Type) where
  waiter : Nat → Option (BackgroundWaiter V)
  stage : Nat → Stage
  nextAddress : Nat
  processTable : List (BitVec 16 × Nat)
  nextBackgroundHandle : BitVec 16
  queue : List (Nat × Option V)
  current : Option Nat
  nextTask : Nat
  shutdownTriggered : Bool
  shutdownComplete : BitVec 16
  awaited : Option Nat
  resumed : List (Nat × Nat × Option V)
  returned : Nat → Option V
  started : List (Nat × Nat)
  killedWaiters : List Nat
  ended : List Nat
  signals : Nat

namespace Server

def start : Server V where
  waiter _ := none
  stage _ := .unused
  nextAddress := 0
  processTable := []
  nextBackgroundHandle := 1
  queue := []
  current := none
  nextTask := 0
  shutdownTriggered := false
  shutdownComplete := 0
  awaited := none
  resumed := []
  returned _ := none
  started := []
  killedWaiters := []
  ended := []
  signals := 0

def setWaiter (s : Server V) (w : Nat) (x : Option (BackgroundWaiter V)) : Server V :=
  { s with waiter := Function.update s.waiter w x }

def setStage (s : Server V) (w : Nat) (stage : Stage) : Server V :=
  { s with stage := Function.update s.stage w stage }

end Server

def tableInsert (table : List (BitVec 16 × Nat)) (handle : BitVec 16) (w : Nat) :
    List (BitVec 16 × Nat) :=
  (handle, w) :: table.filter (·.1 ≠ handle)

def tableErase (table : List (BitVec 16 × Nat)) (handle : BitVec 16) : List (BitVec 16 × Nat) :=
  table.filter (·.1 ≠ handle)

def canCreateThread (s : Server V) (maxThreads : Nat) : Bool := s.processTable.length ≤ maxThreads

def initializeBackgroundWaiter (s : Server V) (w task : Nat) : Server V :=
  { s.setWaiter w (some ⟨task, s.nextBackgroundHandle, false, none, false⟩) with
    nextAddress := w + 1
    processTable := tableInsert s.processTable s.nextBackgroundHandle w
    nextBackgroundHandle := s.nextBackgroundHandle + 1 }

def deallocateBackgroundWaiter (s : Server V) (w : Nat) (x : BackgroundWaiter V) : Server V :=
  let table := tableErase s.processTable x.handle
  { s.setWaiter w none with
    processTable := table
    nextBackgroundHandle := if table = [] then 1 else s.nextBackgroundHandle }

def resumeTask (s : Server V) (w : Nat) (x : BackgroundWaiter V) : Server V :=
  { s with
    queue := s.queue ++ [(x.theVm, x.returnValue)]
    resumed := (w, x.theVm, x.returnValue) :: s.resumed }

def backgroundThread (s : Server V) (task maxThreads : Nat) (pipeOk quotaOk workOk : Bool) :
    Server V :=
  let w := s.nextAddress
  if !canCreateThread s maxThreads then s
  else
    let s' := initializeBackgroundWaiter s w task
    let x : BackgroundWaiter V := ⟨task, s.nextBackgroundHandle, false, none, false⟩
    if !pipeOk || !quotaOk || !workOk then deallocateBackgroundWaiter s' w x
    else
      { (s'.setWaiter w (some { x with active := true })).setStage w .queued with
        current := none
        started := (w, task) :: s.started }

inductive TaskEnumAction where
  | continue
  | stop
  | kill
deriving DecidableEq, Repr

/-- The loop of `background_enumerator`: what its closure answers last, and for which waiter. -/
def backgroundEnumerator (s : Server V) (closure : Nat → TaskEnumAction) :
    List (BitVec 16 × Nat) → TaskEnumAction × Option Nat
  | [] => (.continue, none)
  | (_, w) :: rest =>
      match s.waiter w with
      | none => backgroundEnumerator s closure rest
      | some x =>
          if x.active then
            match closure x.theVm with
            | .continue => backgroundEnumerator s closure rest
            | action => (action, some w)
          else backgroundEnumerator s closure rest

def killingClosure (id : Nat) (permitted : Bool) (task : Nat) : TaskEnumAction :=
  if task = id then if permitted then .kill else .stop
  else .continue

/-- The task that kills itself is aborted; a task in the queue is taken out of it; and a waiting
one is found in the process table. -/
def killTask (s : Server V) (id : Nat) (permitted : Bool) : Server V :=
  if s.current = some id then { s with current := none, ended := id :: s.ended }
  else if s.queue.any (·.1 = id) then
    if permitted then { s with queue := s.queue.eraseP (·.1 = id), ended := id :: s.ended }
    else s
  else
    match backgroundEnumerator s (killingClosure id permitted) s.processTable with
    | (.kill, some w) =>
        { s with
          waiter := Function.update s.waiter w ((s.waiter w).map ({ · with active := false }))
          killedWaiters := w :: s.killedWaiters
          ended := id :: s.ended }
    | _ => s

def networkCallback (s : Server V) (w : Nat) (x : BackgroundWaiter V) : Server V :=
  let s' := if x.active then resumeTask s w x else s
  deallocateBackgroundWaiter s' w x

def thpoolNumThreadsWorking (s : Server V) : Nat :=
  (List.range s.nextAddress).countP fun w => (s.stage w).busy

def interruptedTasks (s : Server V) : List Nat :=
  s.processTable.filterMap fun entry =>
    (s.waiter entry.2).bind fun x => if x.active then some x.theVm else none

/-- The tasks of `write_task_queue`: those in the queue, then the interrupted ones. -/
def writeTaskQueue (s : Server V) : List Nat := s.queue.map Prod.fst ++ interruptedTasks s

inductive Event (V : Type) where
  | newTask
  | runTask (i : Nat)
  | suspendTask (value : V)
  | endTask
  | background (maxThreads : Nat) (pipeOk quotaOk workOk : Bool)
  | kill (id : Nat) (permitted : Bool)
  | takeWork (w : Nat)
  | callback (w : Nat) (value : V)
  | isShutdownTriggered (w : Nat)
  | writePipe (w : Nat)
  | isActive (w : Nat)
  | resume (w : Nat)
  | signal (w : Nat)
  | leave (w : Nat)
  | network (w : Nat)
  | triggerShutdown
  | backgroundShutdown

def mainIdle (s : Server V) : Bool := s.current.isNone && s.awaited.isNone

/-- What an event does, or `none` where it cannot happen. -/
def step (s : Server V) : Event V → Option (Server V)
  | .newTask =>
      if mainIdle s then some { s with current := some s.nextTask, nextTask := s.nextTask + 1 }
      else none
  | .runTask i =>
      match s.queue[i]? with
      | some (task, _) =>
          if mainIdle s then some { s with current := some task, queue := s.queue.eraseIdx i }
          else none
      | none => none
  | .suspendTask value =>
      match s.current with
      | some task => some { s with current := none, queue := s.queue ++ [(task, some value)] }
      | none => none
  | .endTask =>
      match s.current with
      | some task => some { s with current := none, ended := task :: s.ended }
      | none => none
  | .background maxThreads pipeOk quotaOk workOk =>
      match s.current with
      | some task => some (backgroundThread s task maxThreads pipeOk quotaOk workOk)
      | none => none
  | .kill id permitted => if s.current.isSome then some (killTask s id permitted) else none
  | .takeWork w =>
      if s.stage w = .queued ∧ s.awaited.getD 0 = 0 then some (s.setStage w .calling) else none
  | .callback w value =>
      match s.stage w, s.waiter w with
      | .calling, some x =>
          some { (s.setWaiter w (some { x with returnValue := some value })).setStage w .returned with
            returned := Function.update s.returned w (some value) }
      | _, _ => none
  | .isShutdownTriggered w =>
      if s.stage w = .returned then
        some (s.setStage w (if s.shutdownTriggered then .shuttingDown else .writing))
      else none
  | .writePipe w =>
      match s.stage w, s.waiter w with
      | .writing, some x => some ((s.setWaiter w (some { x with pipe := true })).setStage w .leaving)
      | _, _ => none
  | .isActive w =>
      match s.stage w, s.waiter w with
      | .shuttingDown, some x => some (s.setStage w (if x.active then .resuming else .leaving))
      | _, _ => none
  | .resume w =>
      match s.stage w, s.waiter w with
      | .resuming, some x => some ((resumeTask s w x).setStage w .signalling)
      | _, _ => none
  | .signal w =>
      if s.stage w = .signalling then
        some { s.setStage w .leaving with
          shutdownComplete := s.shutdownComplete + 1
          signals := s.signals + 1 }
      else none
  | .leave w => if s.stage w = .leaving then some (s.setStage w .idle) else none
  | .network w =>
      match s.waiter w with
      | some x => if x.pipe && mainIdle s then some (networkCallback s w x) else none
      | none => none
  | .triggerShutdown => some { s with shutdownTriggered := true }
  | .backgroundShutdown =>
      if mainIdle s && s.shutdownTriggered then
        some { s with awaited := some (thpoolNumThreadsWorking s) }
      else none

end ToastStunt.Tasks
