import ToastStunt.Dbio.Formatted
import ToastStunt.Library.Machine

/-!
The tasks that wait, read or are held by others, and how the database file keeps them: the queues of
tasks.cc, `write_task_queue` and `read_task_queue`, for a file of the current version. The code and
the activation of a fork, a value and a stack of activations are pieces of the file of their own,
each of which its own reader gives back.
-/

namespace ToastStunt.TaskQueues

open Json Dbio

variable {F V M : Type}

structure Timeval where
  sec : Int
  usec : Nat
  deriving DecidableEq

def Timeval.before (a b : Timeval) : Bool := a.sec < b.sec || (a.sec = b.sec && a.usec < b.usec)

/-- `ROUND`. -/
def Timeval.round (start : Timeval) : Int := start.sec + if 500000 < start.usec then 1 else 0

structure Vm (M : Type) where
  taskId : BitVec 32
  stack : M
  deriving DecidableEq

/-- A task of `waiting_tasks` or of `first_bg`. -/
inductive BgTask (F V M : Type)
  | forked (id : BitVec 32) (start : Timeval) (payload : F)
  | suspended (start : Timeval) (value : V) (vm : Vm M)
  deriving DecidableEq

namespace BgTask

def start : BgTask F V M → Timeval
  | forked _ start _ => start
  | suspended start _ _ => start

def isForked : BgTask F V M → Bool
  | forked _ _ _ => true
  | suspended _ _ _ => false

end BgTask

structure Tqueue (F V M : Type) where
  firstBg : List (BgTask F V M)
  reading : Option (Vm M)

/-- `external` is what the enumerators of the external queues say of their tasks. -/
structure Queues (F V M : Type) where
  waitingTasks : List (BgTask F V M)
  activeTqueues : List (Tqueue F V M)
  idleTqueues : List (Tqueue F V M)
  external : List (Vm M × CString)

def enqueueWaiting (t : BgTask F V M) : List (BgTask F V M) → List (BgTask F V M)
  | [] => [t]
  | tt :: rest =>
      if t.start.before tt.start then t :: tt :: rest else tt :: enqueueWaiting t rest

/-- `enqueue_suspended_task` without a time limit. -/
def forEver : Timeval := ⟨2 ^ 63 - 1, 0⟩

inductive Piece (F V M : Type)
  | text (s : CString)
  | forked (payload : F)
  | value (value : V)
  | vm (stack : M)
  deriving DecidableEq

section Formats

def clocksText : CString := [32, 99, 108, 111, 99, 107, 115, 10]

def queuedText : CString := [32, 113, 117, 101, 117, 101, 100, 32, 116, 97, 115, 107, 115, 10]

def suspendedText : CString :=
  [32, 115, 117, 115, 112, 101, 110, 100, 101, 100, 32, 116, 97, 115, 107, 115, 10]

def interruptedText : CString :=
  [32, 105, 110, 116, 101, 114, 114, 117, 112, 116, 101, 100, 32, 116, 97, 115, 107, 115, 10]

def readingStatus : CString :=
  [105, 110, 116, 101, 114, 114, 117, 112, 116, 101, 100, 32, 114, 101, 97, 100, 105, 110, 103,
    32, 116, 97, 115, 107]

/-- `PRIdN` is 64 bits wide, and `%d` is given and read as an `int`. -/
def intNum (n : Int) : Num :=
  ⟨Machine.int32 n, by have := Int.le_bmod (x := n) (m := 2 ^ 32); unfold Machine.int32; omega,
    by have := Int.bmod_lt (x := n) (m := 2 ^ 32); unfold Machine.int32; omega⟩

def countFormat (text : CString) : List Directive := .number :: plain text

def forkedFormat : List Directive :=
  [.text 48, .text 32, .number, .text 32, .number, .text 32, .number, .text newline]

def suspendedFormat : List Directive := [.number, .text 32, .number, .text 32]

def writeCount (count : Nat) (text : CString) : Piece F V M :=
  .text (dbioPrintf (countFormat text) [intNum count])

end Formats

section Writing

variable (lineno : F → Int)

def writeForkedTask (id : BitVec 32) (start : Timeval) (payload : F) : List (Piece F V M) :=
  [.text (dbioPrintf forkedFormat
    [intNum (lineno payload), intNum start.round, intNum id.toInt]), .forked payload]

def writeSuspendedTask (start : Timeval) (value : V) (vm : Vm M) : List (Piece F V M) :=
  [.text (dbioPrintf suspendedFormat [intNum start.round, intNum vm.taskId.toInt]),
    .value value, .vm vm.stack]

def writeTask : BgTask F V M → List (Piece F V M)
  | .forked id start payload => writeForkedTask lineno id start payload
  | .suspended start value vm => writeSuspendedTask start value vm

def writeInterrupted (vm : Vm M) (status : CString) : List (Piece F V M) :=
  [.text (intLiteral (intNum vm.taskId.toInt) ++ 32 :: status ++ [newline]), .vm vm.stack]

namespace Queues

variable (s : Queues F V M)

def bgTasks (forked : Bool) : List (BgTask F V M) :=
  s.waitingTasks.filter (·.isForked = forked) ++
    s.activeTqueues.flatMap fun tq => tq.firstBg.filter (·.isForked = forked)

def interruptedTasks : List (Vm M × CString) :=
  s.external ++ (s.idleTqueues.filterMap Tqueue.reading).map fun vm => (vm, readingStatus)

end Queues

def writeTaskQueue (s : Queues F V M) : List (Piece F V M) :=
  writeCount 0 clocksText ::
    writeCount (s.bgTasks true).length queuedText ::
      (s.bgTasks true).flatMap (writeTask lineno) ++
    writeCount (s.bgTasks false).length suspendedText ::
      (s.bgTasks false).flatMap (writeTask lineno) ++
    writeCount s.interruptedTasks.length interruptedText ::
      s.interruptedTasks.flatMap fun (vm, status) => writeInterrupted vm status

end Writing

section Reading

abbrev QueueReading (F V M α : Type) := StateT (List (Piece F V M)) Option α

def onText {α : Type} (read : CString → Option (α × CString)) : QueueReading F V M α
  | .text s :: file =>
      (read s).map fun (result, left) => (result, if left = [] then file else .text left :: file)
  | _ => none

def scanf (format : List Directive) : QueueReading F V M (List Num) :=
  onText fun s => some (dbioScanf format s)

/-- `%c`. -/
def scanChar : QueueReading F V M UInt8 :=
  onText fun s =>
    match s with
    | [] => none
    | c :: left => some (c, left)

def readForked : QueueReading F V M F
  | .forked payload :: file => some (payload, file)
  | _ => none

def readValue : QueueReading F V M V
  | .value value :: file => some (value, file)
  | _ => none

def readVm (taskId : BitVec 32) : QueueReading F V M (Vm M)
  | .vm stack :: file => some (⟨taskId, stack⟩, file)
  | _ => none

def readCount (text : CString) : QueueReading F V M Nat := do
  match ← scanf (countFormat text) with
  | [count] => return (Machine.int32 count.val).toNat
  | _ => failure

def intOf (num : Num) : Int := Machine.int32 num.val

def idOf (num : Num) : BitVec 32 := BitVec.ofInt 32 num.val

variable (zero intrpt : V)

def readForkedTask : QueueReading F V M (BgTask F V M) := do
  match ← scanf (List.replicate 4 .number), ← scanChar with
  | [_, _, st, id], 10 => return .forked (idOf id) ⟨intOf st, 0⟩ (← readForked)
  | _, _ => failure

def readSuspendedTask : QueueReading F V M (BgTask F V M) := do
  match ← scanf (List.replicate 2 .number), ← scanChar with
  | [st, taskId], 32 => do
      let value ← readValue
      return .suspended ⟨intOf st, 0⟩ value (← readVm (idOf taskId))
  | [st, taskId], 10 => return .suspended ⟨intOf st, 0⟩ zero (← readVm (idOf taskId))
  | _, _ => failure

def readInterruptedTask : QueueReading F V M (BgTask F V M) := do
  match ← scanf [.number, .text 32] with
  | [taskId] => do
      let _ ← onText dbioReadString
      return .suspended ⟨0, 0⟩ intrpt (← readVm (idOf taskId))
  | _ => failure

def readTasks (read : QueueReading F V M (BgTask F V M)) :
    Nat → List (BgTask F V M) → QueueReading F V M (List (BgTask F V M))
  | 0, waiting => return waiting
  | count + 1, waiting => do
      let t ← read
      readTasks read count (enqueueWaiting t waiting)

def skipClocks : Nat → QueueReading F V M Unit
  | 0 => return ()
  | count + 1 => do
      match ← scanf [.number, .text 32, .number, .text 32, .number, .text newline] with
      | [_, _, _] => skipClocks count
      | _ => failure

/-- What is in `waiting_tasks` after the server has started. -/
def readTaskQueue : QueueReading F V M (List (BgTask F V M)) := do
  skipClocks (← readCount clocksText)
  let waiting ← readTasks readForkedTask (← readCount queuedText) []
  let waiting ← readTasks (readSuspendedTask zero) (← readCount suspendedText) waiting
  readTasks (readInterruptedTask intrpt) (← readCount interruptedText) waiting

end Reading

end ToastStunt.TaskQueues
