import ToastStunt.Library.Decimal
import ToastStunt.Maps.Finite

/-!
`generate_json` and `parse_json` of json.cc. The JSON text between them is the sequence
of events that the generator of yajl is given and its parser reports.
-/

namespace ToastStunt.Json

open Maps

inductive Mode
  | commonSubset
  | embeddedTypes
  deriving DecidableEq

/-- MOO values. A map is given by its bindings in the order in which it is iterated. -/
inductive Value
  | int (num : Num)
  | obj (obj : Num)
  | str (str : CString)
  | err (err : Error)
  | float (fnum : Double)
  | bool (truth : Bool)
  | list (items : List Value)
  | map (entries : List (Key × Value))
  | anon (anon : Nat)
  | waif (waif : Nat)

inductive Event
  | null
  | boolean (truth : Bool)
  | number (integer : Bool) (text : CString)
  | string (text : CString)
  | startMap
  | endMap
  | startArray
  | endArray
  deriving DecidableEq

/-- Ways in which a call does not come back: past the end of an array or a stack, or
`panic_moo`. -/
inductive Crash
  | undefined
  | panic
  deriving DecidableEq

/-! Text. -/

def ascii (text : String) : CString := text.toList.map fun c => c.toNat.toUInt8

inductive Tag
  | obj | int | float | err | str
  deriving DecidableEq

def Tag.suffix : Tag → CString
  | obj => ascii "|obj"
  | int => ascii "|int"
  | float => ascii "|float"
  | err => ascii "|err"
  | str => ascii "|str"

def validType (text : CString) : Option (Tag × CString) :=
  [Tag.obj, .int, .float, .err, .str].findSome? fun tag =>
    if tag.suffix.isSuffixOf text then some (tag, text.take (text.length - tag.suffix.length))
    else none

def appendType (text : CString) (tag : Tag) : CString := text ++ tag.suffix

def errorName : Error → CString
  | .none => ascii "E_NONE"
  | .type => ascii "E_TYPE"
  | .div => ascii "E_DIV"
  | .perm => ascii "E_PERM"
  | .propnf => ascii "E_PROPNF"
  | .verbnf => ascii "E_VERBNF"
  | .varnf => ascii "E_VARNF"
  | .invind => ascii "E_INVIND"
  | .recmove => ascii "E_RECMOVE"
  | .maxrec => ascii "E_MAXREC"
  | .range => ascii "E_RANGE"
  | .args => ascii "E_ARGS"
  | .nacc => ascii "E_NACC"
  | .invarg => ascii "E_INVARG"
  | .quota => ascii "E_QUOTA"
  | .float => ascii "E_FLOAT"
  | .file => ascii "E_FILE"
  | .exec => ascii "E_EXEC"
  | .intrpt => ascii "E_INTRPT"

def allErrors : List Error :=
  [.none, .type, .div, .perm, .propnf, .verbnf, .varnf, .invind, .recmove, .maxrec, .range,
    .args, .nacc, .invarg, .quota, .float, .file, .exec, .intrpt]

def parseError (text : CString) : Option Error :=
  allErrors.find? fun err => strcasecmp (errorName err) text = 0

def intLiteral (num : Num) : CString :=
  if num.val < 0 then 45 :: Decimal.digits num.val.natAbs else Decimal.digits num.val.natAbs

def objLiteral (obj : Num) : CString := 35 :: intLiteral obj

def isSpace (byte : UInt8) : Bool := byte = 32 || (9 ≤ byte && byte ≤ 13)

def clamp (value : Int) : Num × Bool :=
  if low : value < -2 ^ 63 then (⟨-2 ^ 63, by decide, by decide⟩, true)
  else if high : 2 ^ 63 ≤ value then (⟨2 ^ 63 - 1, by decide, by decide⟩, true)
  else (⟨value, by omega, by omega⟩, false)

def strtol (text : CString) : Num × Bool :=
  match text.dropWhile isSpace with
  | [] => clamp 0
  | byte :: rest =>
      if byte = 45 then clamp (-Decimal.leading rest)
      else if byte = 43 then clamp (Decimal.leading rest)
      else clamp (Decimal.leading (byte :: rest))

def maxint : Int := 9223372036854775807

def minint : Int := -9223372036854775807

/-- `truth` is the lowest byte of the union; nothing sets the seven bytes `padding` above it. -/
def boolNum (truth : Bool) (padding : BitVec 56) : BitVec 64 :=
  padding.setWidth 64 <<< 8 ||| (BitVec.ofBool truth).setWidth 64

/-- `yajl_gen_bool` is given `v.v.num`, as an `int`. -/
def genBool (truth : Bool) (padding : BitVec 56) : Bool :=
  (boolNum truth padding).setWidth 32 != 0

section

-- `unparse_value` of a double, its JSON text, and `strtod` with `errno`.
variable (floatLiteral : Double → CString) (floatText : Double → Option CString)
  (strtod : CString → Option Double)
-- The padding of the boolean that is generated as the nth event.
variable (padding : Nat → BitVec 56)

/-! Generating. -/

def yajlMaxDepth : Nat := 128

inductive Status
  | ok
  | keysMustBeStrings
  | maxDepthExceeded
  | invalidNumber
  | unsupported
  deriving DecidableEq

structure Gen where
  depth : Nat
  events : List Event

/-- Every call reads `state[depth]` first, in an array of `yajlMaxDepth` states. -/
def emit (event : Event) (g : Gen) : Except Crash (Status × Gen) :=
  if g.depth < yajlMaxDepth then .ok (.ok, { g with events := g.events ++ [event] })
  else .error .undefined

def openContainer (event : Event) (g : Gen) : Except Crash (Status × Gen) :=
  if g.depth < yajlMaxDepth then
    if yajlMaxDepth ≤ g.depth + 1 then .ok (.maxDepthExceeded, { g with depth := g.depth + 1 })
    else .ok (.ok, ⟨g.depth + 1, g.events ++ [event]⟩)
  else .error .undefined

def closeContainer (event : Event) (g : Gen) : Except Crash (Status × Gen) :=
  if g.depth < yajlMaxDepth then .ok (.ok, ⟨g.depth - 1, g.events ++ [event]⟩)
  else .error .undefined

def tagged (mode : Mode) (tag : Tag) (text : CString) : CString :=
  if mode = .embeddedTypes then appendType text tag else text

def guarded (mode : Mode) (text : CString) : CString :=
  if mode = .embeddedTypes && (validType text).isSome then appendType text .str else text

def generateKey (mode : Mode) (key : Key) (g : Gen) : Except Crash (Status × Gen) :=
  match key with
  | .obj obj => emit (.string (tagged mode .obj (objLiteral obj))) g
  | .int num => emit (.string (tagged mode .int (intLiteral num))) g
  | .float fnum => emit (.string (tagged mode .float (floatLiteral fnum))) g
  | .err err => emit (.string (tagged mode .err (errorName err))) g
  | .str str => emit (.string (guarded mode str)) g
  | .anon _ => .ok (.keysMustBeStrings, g)
  | .waif _ => .ok (.keysMustBeStrings, g)
  | .bool _ => .error .panic

mutual

def generate (mode : Mode) : Value → Gen → Except Crash (Status × Gen)
  | .int num, g => emit (.number true (intLiteral num)) g
  | .float fnum, g =>
      match floatText fnum with
      | some text => emit (.number false text) g
      | none =>
          if g.depth < yajlMaxDepth then .ok (.invalidNumber, g) else .error .undefined
  | .obj obj, g => emit (.string (tagged mode .obj (objLiteral obj))) g
  | .err err, g => emit (.string (tagged mode .err (errorName err))) g
  | .str str, g => emit (.string (guarded mode str)) g
  | .map entries, g => do
      let opened ← openContainer .startMap g
      let (status, g) ← generateEntries mode entries opened.2
      if status = .ok then
        let closed ← closeContainer .endMap g
        .ok (.ok, closed.2)
      else .ok (status, g)
  | .list items, g => do
      let opened ← openContainer .startArray g
      let (status, g) ← generateItems mode items opened.2
      if status = .ok then
        let closed ← closeContainer .endArray g
        .ok (.ok, closed.2)
      else .ok (status, g)
  | .bool truth, g => emit (.boolean (genBool truth (padding g.events.length))) g
  | .anon _, g => .ok (.unsupported, g)
  | .waif _, g => .ok (.unsupported, g)

def generateEntries (mode : Mode) :
    List (Key × Value) → Gen → Except Crash (Status × Gen)
  | [], g => .ok (.ok, g)
  | (key, value) :: rest, g => do
      let (status, g) ← generateKey floatLiteral mode key g
      if status = .ok then
        let (status, g) ← generate mode value g
        if status = .ok then generateEntries mode rest g else .ok (status, g)
      else .ok (status, g)

def generateItems (mode : Mode) : List Value → Gen → Except Crash (Status × Gen)
  | [], g => .ok (.ok, g)
  | value :: rest, g => do
      let (status, g) ← generate mode value g
      if status = .ok then generateItems mode rest g else .ok (status, g)

end

def bfGenerateJson (mode : Mode) (value : Value) : Except Crash (Option (List Event)) := do
  let (status, g) ← generate floatLiteral floatText padding mode value ⟨0, []⟩
  if status = .ok then .ok (some g.events) else .ok none

/-! Parsing. -/

inductive StackItem
  | value (value : Value)
  | arraySentinel
  | mapSentinel

structure ParseContext where
  stack : List StackItem
  depth : Nat

def handleNumber (integer : Bool) (text : CString) : Option Value :=
  let (num, range) := strtol text
  if integer && !range && minint ≤ num.val && num.val ≤ maxint then some (.int num)
  else (strtod text).map .float

def stripHash : CString → CString
  | 35 :: rest => rest
  | text => text

def handleString (mode : Mode) (text : CString) : Value :=
  if mode = .embeddedTypes then
    match validType text with
    | some (.obj, _) => .obj (strtol (stripHash text)).1
    | some (.int, _) => .int (strtol text).1
    | some (.float, _) => .float ((strtod text).getD 0)
    | some (.err, short) => .err ((parseError short).getD .none)
    | some (.str, short) => .str short
    | none => .str text
  else .str text

def asKey : Value → Except Crash Key
  | .int num => .ok (.int num)
  | .obj obj => .ok (.obj obj)
  | .str str => .ok (.str str)
  | .err err => .ok (.err err)
  | .float fnum => .ok (.float fnum)
  | .bool truth => .ok (.bool truth)
  | .anon anon => .ok (.anon anon)
  | .waif waif => .ok (.waif waif)
  | .list _ => .error .panic
  | .map _ => .error .panic

/-- `new_map()` is shared, and each later map of the loop is not. -/
def popEntries : List StackItem → Bool → RBTree Key Value →
    Except Crash (RBTree Key Value × List StackItem)
  | .value value :: .value key :: rest, shared, map => do
      let key ← asKey key
      match mapinsert shared map key value with
      | some map => popEntries rest false map
      | none => .error .undefined
  | .mapSentinel :: _ :: rest, _, map => .ok (map, rest)
  | _ :: .mapSentinel :: rest, _, map => .ok (map, rest)
  | _, _, _ => .error .undefined

def popItems : List StackItem → List Value → Except Crash (List Value × List StackItem)
  | .value value :: rest, list => popItems rest (value :: list)
  | _ :: rest, list => .ok (list, rest)
  | [], _ => .error .undefined

/-- `none` is a callback that returns 0, at which the parser stops. -/
def handle (mode : Mode) (maxDepth : Int) (event : Event) (pctx : ParseContext) :
    Except Crash (Option ParseContext) :=
  match event with
  | .null => .ok (some { pctx with stack := .value (.err .none) :: pctx.stack })
  | .boolean truth => .ok (some { pctx with stack := .value (.bool truth) :: pctx.stack })
  | .number integer text =>
      .ok ((handleNumber strtod integer text).map fun value =>
        { pctx with stack := .value value :: pctx.stack })
  | .string text =>
      .ok (some { pctx with stack := .value (handleString strtod mode text) :: pctx.stack })
  | .startMap =>
      if maxDepth ≤ pctx.depth then .ok none
      else .ok (some ⟨.mapSentinel :: .mapSentinel :: pctx.stack, pctx.depth + 1⟩)
  | .endMap => do
      let (map, rest) ← popEntries pctx.stack true rbnew
      .ok (some ⟨.value (.map map.bindings) :: rest, pctx.depth - 1⟩)
  | .startArray =>
      if maxDepth ≤ pctx.depth then .ok none
      else .ok (some ⟨.arraySentinel :: pctx.stack, pctx.depth + 1⟩)
  | .endArray => do
      let (list, rest) ← popItems pctx.stack []
      .ok (some ⟨.value (.list list) :: rest, pctx.depth - 1⟩)

def parseEvents (mode : Mode) (maxDepth : Int) :
    List Event → ParseContext → Except Crash (Option ParseContext)
  | [], pctx => .ok (some pctx)
  | event :: rest, pctx => do
      match ← handle strtod mode maxDepth event pctx with
      | some pctx => parseEvents mode maxDepth rest pctx
      | none => .ok none

def bfParseJson (mode : Mode) (maxDepth : Int) (events : List Event) :
    Except Crash (Option Value) := do
  match ← parseEvents strtod mode maxDepth events ⟨[], 0⟩ with
  | some ⟨.value value :: _, _⟩ => .ok (some value)
  | some _ => .error .undefined
  | none => .ok none

end

end ToastStunt.Json
