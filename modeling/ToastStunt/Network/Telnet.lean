import ToastStunt.Binary.Encoding

/-!
Input from a connection in network.cc: the bytes of telnet commands are taken out of the lines, and
both are handed to the server.
-/

namespace ToastStunt.Network

open ToastStunt.Binary

def tnIac : UInt8 := 255
def tnDont : UInt8 := 254
def tnDo : UInt8 := 253
def tnWont : UInt8 := 252
def tnWill : UInt8 := 251
def tnSb : UInt8 := 250
def tnSe : UInt8 := 240

def maxLineBytes : Nat := 5242880

inductive TelnetState
  | normal
  | iac
  | command
  | subneg
  | subnegIac
  deriving DecidableEq, Repr

structure NHandle where
  input : Stream
  lastInputWasCR : Bool
  binary : Bool
  telnetState : TelnetState
  telnetCmd : UInt8
  commandStream : Stream

def NHandle.new : NHandle := ⟨newStream 100, false, false, .normal, 0, newStream 100⟩

/-- A call of `server_receive_line`. -/
structure Delivery where
  line : CString
  outOfBand : Bool
  deriving DecidableEq, Repr

def streamDeleteChar (s : Stream) : Stream := { s with contents := s.contents.dropLast }

def printable (c : UInt8) : Bool := isgraph c || c = 32 || c = 9

def erases (c : UInt8) : Bool := c = 8 || c = 127

def typeChar (applyBackspace : Bool) (input : Stream) (c : UInt8) : Except Fault Stream :=
  if printable c then streamAddChar none input c
  else if applyBackspace && erases c then .ok (streamDeleteChar input)
  else .ok input

def normalByte (applyBackspace : Bool) (h : NHandle) (c : UInt8) :
    Except Fault (NHandle × List Delivery) := do
  let input ← typeChar applyBackspace h.input c
  if c = 13 ∨ (c = 10 ∧ h.lastInputWasCR = false) then
    .ok ({ h with input := input.reset, lastInputWasCR := c = 13 }, [⟨input.contents, false⟩])
  else .ok ({ h with input := input, lastInputWasCR := c = 13 }, [])

def negotiates (c : UInt8) : Bool := c = tnWill || c = tnWont || c = tnDo || c = tnDont

def completeCommand (h : NHandle) (oob : Stream) : Except Fault (NHandle × Stream) := do
  let oob ← streamAddRawBytesToBinary none oob h.commandStream.contents
  .ok ({ h with telnetState := .normal }, oob)

def commandByte (h : NHandle) (oob : Stream) (c : UInt8) : Except Fault (NHandle × Stream) :=
  match h.telnetState with
  | .normal => .ok (h, oob)
  | .iac =>
      if c = tnIac then .ok ({ h with telnetState := .normal }, oob)
      else if c = tnSb then .ok ({ h with telnetCmd := c, telnetState := .subneg }, oob)
      else if negotiates c then .ok ({ h with telnetCmd := c, telnetState := .command }, oob)
      else completeCommand { h with telnetCmd := c } oob
  | .command => completeCommand h oob
  | .subneg =>
      if c = tnIac then .ok ({ h with telnetState := .subnegIac }, oob) else .ok (h, oob)
  | .subnegIac =>
      if c = tnSe then completeCommand h oob else .ok ({ h with telnetState := .subneg }, oob)

/-- `none` is the end of a connection with too long a command. -/
def processTelnetByte (applyBackspace : Bool) (h : NHandle) (oob : Stream) (c : UInt8) :
    Except Fault (Option (NHandle × Stream × List Delivery)) := do
  if h.commandStream.contents.length ≥ maxLineBytes then .ok none
  else if h.telnetState = .normal ∧ c ≠ tnIac then
    let (h, lines) ← normalByte applyBackspace h c
    .ok (some (h, oob, lines))
  else if h.telnetState = .normal then
    let commandStream ← streamAddChar none h.commandStream.reset c
    .ok (some ({ h with telnetState := .iac, commandStream := commandStream }, oob, []))
  else
    let commandStream ← streamAddChar none h.commandStream c
    let (h, oob) ← commandByte { h with commandStream := commandStream } oob c
    .ok (some (h, oob, []))

def processBytes (applyBackspace : Bool) (h : NHandle) (oob : Stream) :
    (buffer : List UInt8) → Except Fault (Option (NHandle × Stream × List Delivery))
  | [] => .ok (some (h, oob, []))
  | c :: buffer => do
      match ← processTelnetByte applyBackspace h oob c with
      | none => .ok none
      | some (h, oob, lines) =>
          match ← processBytes applyBackspace h oob buffer with
          | none => .ok none
          | some (h, oob, more) => .ok (some (h, oob, lines ++ more))

/-- A read that gives the bytes in the buffer; `none` is the end of the connection. -/
def pullInput (applyBackspace : Bool) (h : NHandle) (buffer : List UInt8) :
    Except Fault (Option (NHandle × List Delivery)) := do
  if h.input.contents.length ≥ maxLineBytes then .ok none
  else if h.binary then
    let s ← streamAddRawBytesToBinary none h.input buffer
    .ok (some ({ h with input := s.reset, lastInputWasCR := false }, [⟨s.contents, false⟩]))
  else
    match ← processBytes applyBackspace h (newStream 100) buffer with
    | none => .ok none
    | some (h, oob, lines) =>
        if oob.contents.length > 0 then .ok (some (h, lines ++ [⟨oob.contents, true⟩]))
        else .ok (some (h, lines))

def pullInputs (applyBackspace : Bool) (h : NHandle) :
    (reads : List (List UInt8)) → Except Fault (Option (NHandle × List (List Delivery)))
  | [] => .ok (some (h, []))
  | buffer :: reads => do
      match ← pullInput applyBackspace h buffer with
      | none => .ok none
      | some (h, turn) =>
          match ← pullInputs applyBackspace h reads with
          | none => .ok none
          | some (h, turns) => .ok (some (h, turn :: turns))

end ToastStunt.Network
