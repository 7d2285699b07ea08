import ToastStunt.Library.Chains
import ToastStunt.Library.Decimal
import ToastStunt.Library.Machine
import ToastStunt.Strings

/-!
The output buffer of a connection in network.cc: `push_output` and `enqueue_output` on the blocks
and the links between them. They fail where the source would follow a null or dangling pointer.
-/

namespace ToastStunt.Network

open Chains Machine

structure TextBlock where
  text : CString
  next : Option Nat

inductive Written
  | block (bytes : CString)
  | notice (lost : Nat) (bytes : CString)
  deriving DecidableEq

structure Output where
  heap : Nat → Option TextBlock
  allocated : Nat
  outputHead : Option Nat
  outputTail : Slot Nat
  outputLength : Int
  outputLinesFlushed : Int
  tls : Bool
  connected : Bool
  wantWrite : Bool
  wire : List Written

/-- What a write returns. If it writes nothing, `again` tells if errno or the error of TLS is one
for which the write is to be tried again. -/
structure WriteResult where
  count : Int
  again : Bool

namespace Output

variable (h : Output)

def outputs : Links Nat := ⟨h.outputHead, fun b => (h.heap b).bind TextBlock.next⟩

def textAt (b : Nat) : Option CString := (h.heap b).map TextBlock.text

def storeNext (slot : Slot Nat) (link : Option Nat) : Option Output :=
  match slot with
  | .head => some { h with outputHead := link }
  | .of b => (h.heap b).map fun block =>
      { h with heap := Function.update h.heap b (some { block with next := link }) }

def allocate (b : Nat) (block : TextBlock) : Output :=
  { h with heap := Function.update h.heap b (some block), allocated := h.allocated + 1 }

def freeTextBlock (b : Nat) : Output :=
  { h with heap := Function.update h.heap b none, allocated := h.allocated - 1 }

def resetTail : Output := if h.outputHead = none then { h with outputTail := .head } else h

def advance (b : Nat) (block : TextBlock) (count : Nat) : Output :=
  let h := { h with
    outputLength := int32 (h.outputLength - count)
    wire := h.wire ++ [Written.block (block.text.take count)] }
  if count = block.text.length then { h with outputHead := block.next }.freeTextBlock b
  else
    { h with heap := Function.update h.heap b (some { block with text := block.text.drop count }) }

end Output

def newOutput (tls connected : Bool) : Output where
  heap _ := none
  allocated := 0
  outputHead := none
  outputTail := .head
  outputLength := 0
  outputLinesFlushed := 0
  tls := tls
  connected := connected
  wantWrite := false
  wire := []

def taken (r : WriteResult) (length : Nat) : Nat := min r.count.toNat length

def wouldBlock : WriteResult := ⟨-1, true⟩

section

-- If USE_TLS is defined, `proto.eol_out_string` and the server option `max_queued_output`.
variable (useTls : Bool) (eol : CString) (maxQueuedOutput : Int)

def overflowNotice (lost : Nat) : CString :=
  eol ++ ">> Network buffer overflow: ".toUTF8.toList ++ Decimal.digits lost ++
    " line".toUTF8.toList ++ (if lost = 1 then [] else "s".toUTF8.toList) ++
    " of output to you ".toUTF8.toList ++
    (if lost = 1 then "has".toUTF8.toList else "have".toUTF8.toList) ++
    " been lost <<".toUTF8.toList ++ eol

/-- It is called where lines were flushed. -/
def pushNetworkBufferOverflow (r : WriteResult) (h : Output) : Output × Bool :=
  let lost := h.outputLinesFlushed.toNat
  let buf := overflowNotice eol lost
  let count := taken r buf.length
  let h := { h with wire := h.wire ++ [Written.notice lost (buf.take count)] }
  if count = buf.length then ({ h with outputLinesFlushed := 0 }, true)
  else if h.tls then
    (if r.again then { h with wantWrite := true } else h, decide (0 < count) || r.again)
  else (h, decide (0 ≤ r.count) || r.again)

def stopped (again : Bool) (h : Output) : Output × Bool :=
  (if h.tls && again then { h with wantWrite := true } else h, again)

/-- The check of the count: without TLS, a write of nothing is as good as any. -/
def stops (r : WriteResult) (count : Nat) : Bool := if useTls then count = 0 else r.count < 0

/-- After the last of the results every write would block, so more turns than results are enough.
-/
def pushLoop : (fuel : Nat) → List WriteResult → Output → Option (Output × Bool)
  | 0, _, _ => none
  | fuel + 1, results, h =>
      match h.outputHead with
      | none => some (h.resetTail, true)
      | some b => do
          let block ← h.heap b
          let r := results.headD wouldBlock
          let count := taken r block.text.length
          if stops useTls r count then some (stopped r.again h)
          else
            let h := h.advance b block count
            if h.wantWrite then
              let h := { h with wantWrite := false }
              if 0 < h.outputLinesFlushed then
                let (h, pushed) := pushNetworkBufferOverflow eol (results.tail.headD wouldBlock) h
                if pushed then pushLoop fuel results.tail.tail h else some (h.resetTail, true)
              else pushLoop fuel results.tail h
            else pushLoop fuel results.tail h

def pushOutput (results : List WriteResult) (h : Output) : Option (Output × Bool) :=
  if h.tls && !h.connected then some (h, true)
  else if 0 < h.outputLinesFlushed && !h.tls then
    let (h, pushed) := pushNetworkBufferOverflow eol (results.headD wouldBlock) h
    if pushed then pushLoop useTls eol (results.length + 1) results.tail h else some (h, false)
  else pushLoop useTls eol (results.length + 1) results h

def flushLoop (moveOutputHead : Bool) :
    (fuel : Nat) → (next : Option Nat) → (toFlush : Int) → Output → Option Output
  | 0, next, toFlush, h => if 0 < toFlush ∧ next ≠ none then none else some h
  | fuel + 1, next, toFlush, h =>
      if 0 < toFlush then
        match next with
        | none => some h
        | some b => do
            let block ← h.heap b
            let h := { h with
              outputLength := int32 (h.outputLength - block.text.length)
              outputLinesFlushed := int32 (h.outputLinesFlushed + 1) }
            let h ← if moveOutputHead then some { h with outputHead := block.next }
              else do h.storeNext (.of (← h.outputHead)) block.next
            flushLoop moveOutputHead fuel block.next (int32 (toFlush - block.text.length))
              (h.freeTextBlock b)
      else some h

def fixTail (h : Output) : Option Output :=
  match h.outputHead with
  | none => some { h with outputTail := .head }
  | some b => (h.heap b).map fun block =>
      if block.next = none then { h with outputTail := .of b } else h

/-- What the function returns at once, if anything. The option has 64 bits. -/
def makeRoom (length : Int) (flushOk : Bool) (results : List WriteResult) (h : Output) :
    Option (Output × Option Bool) :=
  if h.outputLength ≠ 0 ∧ maxQueuedOutput < int32 (h.outputLength + length) then do
    let (h, _) ← pushOutput useTls eol results h
    let toFlush := int32 (h.outputLength + length - maxQueuedOutput)
    if 0 < toFlush ∧ flushOk = false then some (h, some false)
    else if h.wantWrite then do
      let block ← h.heap (← h.outputHead)
      if block.next = none then some (h, some true)
      else do
        let h ← flushLoop false h.allocated block.next toFlush h
        some (← fixTail h, none)
    else do
      let h ← flushLoop true h.allocated h.outputHead toFlush h
      some (← fixTail h, none)
  else some (h, none)

/-- `b` is the address that `mymalloc` returns for the new block. -/
def enqueueOutput (b : Nat) (line : CString) (addEol flushOk : Bool) (results : List WriteResult)
    (h : Output) : Option (Output × Bool) := do
  let text := if addEol then line ++ eol else line
  let length := int32 text.length
  match ← makeRoom useTls eol maxQueuedOutput length flushOk results h with
  | (h, some result) => some (h, result)
  | (h, none) => do
      let h ← (h.allocate b ⟨text, none⟩).storeNext h.outputTail (some b)
      some ({ h with outputTail := .of b, outputLength := int32 (h.outputLength + length) }, true)

inductive OutputCall
  | enqueue (b : Nat) (line : CString) (addEol flushOk : Bool) (results : List WriteResult)
  | push (results : List WriteResult)
  | handshake

def OutputCall.run (h : Output) : OutputCall → Option (Output × List CString)
  | .enqueue b line addEol flushOk results => do
      let (h, accepted) ←
        enqueueOutput useTls eol maxQueuedOutput b line addEol flushOk results h
      some (h, if accepted then [if addEol then line ++ eol else line] else [])
  | .push results => do
      let (h, _) ← pushOutput useTls eol results h
      some (h, [])
  | .handshake => some ({ h with connected := true }, [])

/-- `mymalloc` returns no block that is allocated when it is called. -/
def OutputCall.Fresh (h : Output) : OutputCall → Prop
  | .enqueue b line addEol flushOk results =>
      let length := int32 (if addEol then line ++ eol else line).length
      ∀ h', makeRoom useTls eol maxQueuedOutput length flushOk results h = some (h', none) →
        h'.heap b = none
  | _ => True

end

end ToastStunt.Network
