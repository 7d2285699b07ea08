import ToastStunt.Db.Moving
import ToastStunt.Dbio.Formatted

/-!
What a built-in keeps while a verb that it has called runs, how it is saved with its task, and how
the built-in goes on: `bf_create_write`, `bf_recycle_write`, `bf_move_write`,
`bf_call_function_write` and their readers.
-/

namespace ToastStunt.Tasks

open Json Dbio

/-- The built-ins that make a call, those that go through `call_function` included. -/
inductive Builtin
  | create | recreate | recycle | move | callFunction | eval
  deriving DecidableEq

def allBuiltins : List Builtin := [.create, .recreate, .recycle, .move, .callFunction, .eval]

def nameFuncByNum : Builtin → CString
  | .create => [99, 114, 101, 97, 116, 101]
  | .recreate => [114, 101, 99, 114, 101, 97, 116, 101]
  | .recycle => recycleName
  | .move => [109, 111, 118, 101]
  | .callFunction => [99, 97, 108, 108, 95, 102, 117, 110, 99, 116, 105, 111, 110]
  | .eval => [101, 118, 97, 108]

def numberFuncByName (name : CString) : Option Builtin :=
  allBuiltins.find? fun f => strcasecmp name (nameFuncByNum f) = 0

/-- Where the data of a built-in is: nowhere, in a block from `alloc_data` of words of eight bytes,
or in a `struct cf_state`. -/
inductive BiFuncData
  | null
  | block (words : List (BitVec 64))
  | cfState (fnum : Builtin) (data : BiFuncData)
  deriving DecidableEq

def typeObj : BitVec 32 := 1

def typeAnon : BitVec 32 := 0x8c

/-- A `Var` is its value, then its type, which is half a word. -/
def readVar : BiFuncData → Except Crash ObjVar
  | .block (value :: type :: _) =>
      if type.setWidth 32 = typeObj then .ok (.obj value.toInt)
      else if type.setWidth 32 = typeAnon then .ok (.anon value.toNat)
      else .error .panic
  | .block _ => .error .outOfBounds
  | _ => .error .nullDereference

def readMove : BiFuncData → Except Crash BfMoveData
  | .block (what :: place :: position :: _) =>
      .ok ⟨what.toInt, place.toInt, (position.setWidth 32).toInt⟩
  | .block _ => .error .outOfBounds
  | _ => .error .nullDereference

def wordNum (word : BitVec 64) : Num := ⟨word.toInt, BitVec.le_toInt word, BitVec.toInt_lt⟩

def numWord (num : Num) : BitVec 64 := BitVec.ofInt 64 num.val

section Formats

def createText : CString :=
  [98, 102, 95, 99, 114, 101, 97, 116, 101, 32, 100, 97, 116, 97, 58, 32, 111, 105, 100, 32, 61,
    32]

def recycleText : CString :=
  [98, 102, 95, 114, 101, 99, 121, 99, 108, 101, 32, 100, 97, 116, 97, 58, 32, 111, 105, 100, 32,
    61, 32]

def contText : CString := [44, 32, 99, 111, 110, 116, 32, 61, 32]

def moveText : CString :=
  [98, 102, 95, 109, 111, 118, 101, 32, 100, 97, 116, 97, 58, 32, 119, 104, 97, 116, 32, 61, 32]

def whereText : CString := [44, 32, 119, 104, 101, 114, 101, 32, 61, 32]

def positionText : CString := [44, 32, 112, 111, 115, 105, 116, 105, 111, 110, 32, 61, 32]

def callFunctionText : CString :=
  [98, 102, 95, 99, 97, 108, 108, 95, 102, 117, 110, 99, 116, 105, 111, 110, 32, 100, 97, 116, 97,
    58, 32, 102, 110, 97, 109, 101, 32, 61, 32]

def createFormat : List Directive := plain createText ++ .number :: plain [newline]

/-- What is written has the digit in the place of the second number. -/
def recycleWriteFormat : List Directive :=
  plain recycleText ++ .number :: plain (contText ++ [48, newline])

def recycleReadFormat : List Directive :=
  plain recycleText ++ .number :: plain contText ++ .number :: plain [newline]

def moveFormat : List Directive :=
  plain moveText ++ .number :: plain whereText ++ .number :: plain positionText ++
    .number :: plain [newline]

end Formats

section Writing

def readObjid : BiFuncData → Except Crash Num
  | .block (word :: _) => .ok (wordNum word)
  | .block [] => .error .outOfBounds
  | _ => .error .nullDereference

def bfCreateWrite (data : BiFuncData) : Except Crash CString := do
  return dbioPrintf createFormat [← readObjid data]

def bfRecycleWrite (data : BiFuncData) : Except Crash CString := do
  return dbioPrintf recycleWriteFormat [← readObjid data]

/-- The position is passed as an `int` and printed as 64 bits, of which the upper half is whatever
the caller has left there. -/
def bfMoveWrite (upper : BitVec 32) : BiFuncData → Except Crash CString
  | .block (what :: place :: position :: _) =>
      .ok (dbioPrintf moveFormat
        [wordNum what, wordNum place, wordNum (upper ++ position.setWidth 32)])
  | .block _ => .error .outOfBounds
  | _ => .error .nullDereference

def writeBiFuncData (upper : BitVec 32) : Builtin → BiFuncData → Except Crash CString
  | .create, data => bfCreateWrite data
  | .recreate, data => bfCreateWrite data
  | .recycle, data => bfRecycleWrite data
  | .move, data => bfMoveWrite upper data
  | .callFunction, .cfState fnum data => do
      let inner ← writeBiFuncData upper fnum data
      return dbioWriteString (callFunctionText ++ nameFuncByNum fnum) ++ inner
  | .callFunction, _ => .error .nullDereference
  | .eval, _ => .ok []

end Writing

section Reading

def bfCreateRead : Reading BiFuncData := fun input =>
  match dbioScanf createFormat input with
  | ([oid], rest) => some (.block [numWord oid], rest)
  | _ => none

def bfRecycleRead : Reading BiFuncData := fun input =>
  match dbioScanf recycleReadFormat input with
  | ([oid, _], rest) => some (.block [numWord oid], rest)
  | _ => none

/-- The third number fills the position and the four bytes after it. -/
def bfMoveRead : Reading BiFuncData := fun input =>
  match dbioScanf moveFormat input with
  | ([what, place, position], rest) =>
      some (.block [numWord what, numWord place, numWord position], rest)
  | _ => none

def readBiFuncDataWithin : Nat → Builtin → Reading BiFuncData
  | 0, _ => failure
  | _ + 1, .create => bfCreateRead
  | _ + 1, .recreate => bfCreateRead
  | _ + 1, .recycle => bfRecycleRead
  | _ + 1, .move => bfMoveRead
  | _ + 1, .eval => return .null
  | fuel + 1, .callFunction => do
      let line ← dbioReadString
      if callFunctionText.isPrefixOf line then
        match numberFuncByName (line.drop callFunctionText.length) with
        | none => failure
        | some fnum => return .cfState fnum (← readBiFuncDataWithin fuel fnum)
      else failure

def readBiFuncData (f : Builtin) : Reading BiFuncData := fun input =>
  readBiFuncDataWithin (input.length + 1) f input

end Reading

section Resuming

variable {V R : Type}

inductive Reply (R : Type)
  | error (e : MoveError)
  | noVar
  | object (v : ObjVar)
  | evaluated (result : R)
  | call (pc : Nat)
  deriving DecidableEq

def Reply.ofPackage {D : Type} : Package MoveError D → Reply R
  | .error e => .error e
  | .noVar => .noVar
  | .call pc _ => .call pc

structure Return (R : Type) where
  pc : Nat
  stackFull : Bool
  progr : Int
  value : R

def bfCreateResumed (data : BiFuncData) (s : Db V) : Except Crash (Reply R × Db V) := do
  return (.object (← readVar data), s)

def bfRecycleResumed (back : Return R) (data : BiFuncData) (s : Db V) :
    Except Crash (Reply R × Db V) := do
  if back.pc ≠ 2 then .error .panic
  else
    let (package, s) ← recycleResumed s back.stackFull (← readVar data)
    return (.ofPackage package, s)

def bfMoveResumed (isTrue : R → Bool) (back : Return R) (data : BiFuncData) (s : Db V) :
    Except Crash (Reply R × Db V) := do
  let (package, s) ←
    doMove back.stackFull (← readMove data) s back.progr back.pc (isTrue back.value)
  return (.ofPackage package, s)

def callBiFunc (isTrue : R → Bool) (back : Return R) :
    Builtin → BiFuncData → Db V → Except Crash (Reply R × Db V)
  | .create, data, s => bfCreateResumed data s
  | .recreate, data, s => bfCreateResumed data s
  | .recycle, data, s => bfRecycleResumed back data s
  | .move, data, s => bfMoveResumed isTrue back data s
  | .eval, _, s => .ok (.evaluated back.value, s)
  | .callFunction, .cfState fnum data, s => callBiFunc isTrue back fnum data s
  | .callFunction, _, _ => .error .nullDereference

end Resuming

end ToastStunt.Tasks
