import ToastStunt.Library.Chains
import ToastStunt.Library.Machine
import ToastStunt.Strings

/-!
The input tasks of a queue of tasks.cc: `enqueue_input_task` and `dequeue_input_task` on
pointers. They fail where the source would follow a null or dangling pointer.
-/

namespace ToastStunt.Tasks

open Chains Machine

inductive TaskKind
  | inband
  | oob
  | quoted
  | binary
  deriving DecidableEq

structure Line where
  kind : TaskKind
  string : CString
  length : Int
  deriving DecidableEq

def Line.isOob (line : Line) : Bool := line.kind = .oob

structure Task extends Line where
  next : Option Nat
  nextItail : Option Nat

/-- The part of a `tqueue` that holds its input, and the tasks that are allocated for it. -/
structure InputQueue where
  heap : Nat → Option Task
  firstInput : Option Nat
  lastInput : Slot Nat
  firstItail : Option Nat
  lastItail : Slot Nat
  totalInputLength : Int
  connected : Bool
  inputSuspended : Bool
  holdInput : Bool
  disableOob : Bool
  reading : Bool
  /-- On `active_tqueues`. -/
  active : Bool

def emptyQueue : InputQueue where
  heap _ := none
  firstInput := none
  lastInput := .head
  firstItail := none
  lastItail := .head
  totalInputLength := 0
  connected := false
  inputSuspended := false
  holdInput := false
  disableOob := false
  reading := false
  active := false

namespace InputQueue

variable (q : InputQueue)

def inputs : Links Nat := ⟨q.firstInput, fun t => (q.heap t).bind Task.next⟩

def itails : Links Nat := ⟨q.firstItail, fun t => (q.heap t).bind Task.nextItail⟩

def lineAt (t : Nat) : Option Line := (q.heap t).map Task.toLine

def live : Slot Nat → Bool
  | .head => true
  | .of t => (q.heap t).isSome

def setNext (slot : Slot Nat) (link : Option Nat) : InputQueue :=
  match slot with
  | .head => { q with firstInput := link }
  | .of t =>
      { q with heap := Function.update q.heap t ((q.heap t).map ({ · with next := link })) }

def setNextItail (slot : Slot Nat) (link : Option Nat) : InputQueue :=
  match slot with
  | .head => { q with firstItail := link }
  | .of t =>
      { q with heap := Function.update q.heap t ((q.heap t).map ({ · with nextItail := link })) }

def loadNext (slot : Slot Nat) : Option (Option Nat) :=
  if q.live slot then some (q.inputs.load slot) else none

def loadNextItail (slot : Slot Nat) : Option (Option Nat) :=
  if q.live slot then some (q.itails.load slot) else none

def storeNext (slot : Slot Nat) (link : Option Nat) : Option InputQueue :=
  if q.live slot then some (q.setNext slot link) else none

def storeNextItail (slot : Slot Nat) (link : Option Nat) : Option InputQueue :=
  if q.live slot then some (q.setNextItail slot link) else none

def allocate (t : Nat) (line : Line) : InputQueue :=
  { q with heap := Function.update q.heap t (some ⟨line, none, none⟩) }

def free (t : Nat) : InputQueue := { q with heap := Function.update q.heap t none }

end InputQueue

open InputQueue

section

-- `OUT_OF_BAND_PREFIX` and `OUT_OF_BAND_QUOTE_PREFIX`, and `MAX_QUEUED_INPUT`.
variable (oobPrefix oobQuotePrefix : CString) (maxQueuedInput : Int)

def taskKind (input : CString) (binary isTelnet : Bool) : TaskKind :=
  if binary then .binary
  else if isTelnet then .oob
  else if 0 < oobQuotePrefix.length && oobQuotePrefix.isPrefixOf input then .quoted
  else if 0 < oobPrefix.length && oobPrefix.isPrefixOf input then .oob
  else .inband

def linkAtFront (t first : Nat) (line : Line) (q : InputQueue) : Option InputQueue := do
  let head ← q.lineAt first
  let q ←
    if head.isOob ≠ line.isOob then do
      let q ← q.storeNextItail (.of t) q.firstItail
      let q := { q with firstItail := some t }
      if q.lastItail = .head then some { q with lastItail := .of t } else some q
    else some q
  let q ← q.storeNext (.of t) q.firstInput
  some { q with firstInput := some t }

def moveLastItail (line : Line) (q : InputQueue) : Option InputQueue :=
  if q.firstInput.isSome then do
    let last ← (← q.loadNextItail q.lastItail)
    let lastLine ← q.lineAt last
    if lastLine.isOob ≠ line.isOob then some { q with lastItail := .of last } else some q
  else some q

def linkAtRear (t : Nat) (line : Line) (q : InputQueue) : Option InputQueue := do
  let q ← moveLastItail line q
  let q ← q.storeNextItail q.lastItail (some t)
  let q ← q.storeNext q.lastInput (some t)
  let q := { q with lastInput := .of t }
  q.storeNext (.of t) none

def link (atFront : Bool) (t : Nat) (line : Line) (q : InputQueue) : Option InputQueue :=
  match atFront, q.firstInput with
  | true, some first => linkAtFront t first line q
  | _, _ => linkAtRear t line q

def suspendInput (q : InputQueue) : InputQueue :=
  if !q.inputSuspended && q.connected && maxQueuedInput < q.totalInputLength then
    { q with inputSuspended := true }
  else q

def wakeUp (line : Line) (q : InputQueue) : InputQueue :=
  if !q.holdInput || q.reading || (!q.disableOob && line.isOob) then { q with active := true } else q

def enqueueInputTask (t : Nat) (input : CString) (atFront binary isTelnet : Bool)
    (q : InputQueue) : Option InputQueue := do
  let line : Line := ⟨taskKind oobPrefix oobQuotePrefix input binary isTelnet, input, int32 input.length⟩
  let q := q.allocate t line
  let q := { q with totalInputLength := int32 (q.totalInputLength + line.length) }
  let q ← link atFront t line q
  some (suspendInput maxQueuedInput (wakeUp line q))

inductive DequeueHow
  | first
  | oob
  | inband
  deriving DecidableEq

/-- `how == (tq->first_input->kind == TASK_OOB)`: the task that is wanted is not in the first run.
-/
def skipsRun : DequeueHow → Line → Bool
  | .first, _ => false
  | .oob, head => !head.isOob
  | .inband, head => head.isOob

def delivered (disableOob : Bool) (line : Line) : Line :=
  match line.kind with
  | .oob => if disableOob then { line with kind := .inband } else line
  | .quoted =>
      ⟨.inband, if disableOob then line.string else line.string.drop oobQuotePrefix.length,
        line.length⟩
  | _ => line

def findInput (how : DequeueHow) (q : InputQueue) (first : Nat) : Option (Slot Nat × Slot Nat) := do
  let head ← q.lineAt first
  if skipsRun how head then do
    let tail ← q.firstItail
    some (.of tail, .of tail)
  else some (.head, .head)

def unlinkInput (t : Nat) (pt : Slot Nat) (next : Option Nat) (q : InputQueue) :
    Option InputQueue := do
  let q ← q.storeNext pt next
  match next with
  | none => some { q with lastInput := pt }
  | some _ => q.storeNext (.of t) none

def takeOverRuns (t : Nat) (q : InputQueue) : Option InputQueue := do
  match ← q.loadNextItail (.of t) with
  | some later =>
      let q := { q with firstItail := some later }
      q.storeNextItail (.of t) none
  | none => some q

def resetLastItail (q : InputQueue) : Option InputQueue := do
  if (← q.loadNextItail q.lastItail) = none then some { q with lastItail := .head } else some q

def unlinkItail (t : Nat) (pitail : Slot Nat) (q : InputQueue) : Option InputQueue := do
  if (← q.loadNextItail pitail) = some t then
    let q ← q.storeNextItail pitail none
    let q ← takeOverRuns t q
    resetLastItail q
  else some q

def resumeInput (q : InputQueue) : InputQueue :=
  if q.inputSuspended && q.connected && q.totalInputLength < maxQueuedInput / 2 then
    { q with inputSuspended := false }
  else q

/-- The task that is returned is the caller's, who may free it. -/
def dequeueInputTask (how : DequeueHow) (q : InputQueue) : Option (InputQueue × Option Line) :=
  if q.disableOob && how = .oob then some (q, none)
  else
    match q.firstInput with
    | none => some (q, none)
    | some first => do
        let (pt, pitail) ← findInput (if q.disableOob then .first else how) q first
        match ← q.loadNext pt with
        | none => some (q, none)
        | some t => do
            let task ← q.heap t
            let q ← unlinkInput t pt task.next q
            let q ← unlinkItail t pitail q
            let q := { q with totalInputLength := int32 (q.totalInputLength - task.length) }
            let q := resumeInput maxQueuedInput q
            some (q.free t, some (delivered oobQuotePrefix q.disableOob task.toLine))

inductive Call
  | enqueue (t : Nat) (input : CString) (atFront binary isTelnet : Bool)
  | dequeue (how : DequeueHow)
  | configure (connected holdInput disableOob reading active : Bool)

def Call.run (q : InputQueue) : Call → Option (InputQueue × Option Line)
  | .enqueue t input atFront binary isTelnet =>
      (enqueueInputTask oobPrefix oobQuotePrefix maxQueuedInput t input atFront binary isTelnet q).map
        (·, none)
  | .dequeue how => dequeueInputTask oobQuotePrefix maxQueuedInput how q
  | .configure connected holdInput disableOob reading active =>
      some ({ q with
        connected := connected, holdInput := holdInput, disableOob := disableOob,
        reading := reading, active := active }, none)

def runCalls : List Call → InputQueue → Option (InputQueue × List (Option Line))
  | [], q => some (q, [])
  | call :: calls, q => do
      let (q, answer) ← call.run oobPrefix oobQuotePrefix maxQueuedInput q
      let (q, answers) ← runCalls calls q
      some (q, answer :: answers)

end

end ToastStunt.Tasks
