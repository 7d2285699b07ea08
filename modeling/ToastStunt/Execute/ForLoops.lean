import ToastStunt.Dbio.RoundTrip
import ToastStunt.Execute.MapRanges
import ToastStunt.Library.Runs
import ToastStunt.Maps.Iterators

/-!
The loops of execute.cc over strings, lists, maps and ranges, and what a pass through the body may
do to the state that they keep on the stack: anything that others can do to the heap, and a dump and
load of the database. A function fails where the source would follow a pointer to what is not there.
-/

namespace ToastStunt.Loops

open Counting Dbio ToastStunt.Execute ToastStunt.Lists Maps Numbers OrderedTable RedBlack
open ColorTree Runs

/-- A block of the heap. What an element refers to is part of its value. -/
inductive Collection
  | list (items : List Var)
  | map (map : RBTree Key Var)

inductive Value
  | str (str : CString)
  | block (content : Collection)
  | other (type : Int)

inductive Base
  | str (str : CString)
  | block (addr : Nat)
  | other (type : Int)

inductive Iter
  | none
  | key (key : Key)
  | clear
  | iter (trav : TravPointers)

inductive Slots
  | each (base : Base) (iter : Iter)
  | range (first last : Var)

structure Visit where
  value : Var
  index : Option Var

inductive Turn
  | over
  | mismatch (got : Int) (expected : List Int)
  | bind (visit : Visit) (slots : Slots)

def clearType : Int := 5

def typeOf : Var → Int
  | .int _ => 0
  | .obj _ => 1
  | .str _ => 2 + complexFlag
  | .err _ => 3
  | .list _ => 4 + complexFlag
  | .clear => clearType
  | .none => 6
  | .catchMark _ => 7
  | .finallyMark _ => 8
  | .float _ => 9
  | .map _ => 10 + complexFlag
  | .anon _ => 12 + complexFlag
  | .waif _ => 13 + complexFlag
  | .bool _ => 14

def keyVar : Key → Var
  | .int num => .int num
  | .obj obj => .obj obj
  | .str str => .str str
  | .err err => .err (errorNum err)
  | .float fnum => .float fnum
  | .bool truth => .bool truth
  | .anon anon => .anon anon
  | .waif waif => .waif waif

theorem maxint_low : (-2 ^ 63 : Int) ≤ 2 ^ 63 - 1 := by decide

theorem maxint_high : (2 ^ 63 - 1 : Int) < 2 ^ 63 := by decide

def maxint : Num := ⟨2 ^ 63 - 1, maxint_low, maxint_high⟩

def strget (str : CString) (i : Int) : Option Var := (element str i).map fun byte => .str [byte]

def started : Iter → Iter
  | .none => .key (.int (wrap 1))
  | iter => iter

def forPositions (base : Base) (len : Int) (element : Int → Option Var) (iter : Iter) :
    Option Turn :=
  match started iter with
  | .key (.int num) =>
      if num.val > len then some .over
      else
        (element num.val).map fun value =>
          .bind ⟨value, some (.int num)⟩ (.each base (.key (.int (wrap (num.val + 1)))))
  | _ => none

/-- `clear` is of no key's type, so that `compare` gives the difference of the types. -/
def seekClear (map : RBTree Key Var) : Option (Option (Trav Key Var)) :=
  rbseek (fun key _ => key.typeCode - clearType) (.bool false) map.root []

/-- `new_iter`, and `mapseek` for what is left of an iterator after a load. -/
def mapIter (map : RBTree Key Var) : Iter → Option (Option (Trav Key Var))
  | .none => (rbtfirst map).map some
  | .key key => mapseek map key
  | .clear => seekClear map
  | .iter trav => (trav.at map.root).map some

def forMap (base : Base) (map : RBTree Key Var) (iter : Iter) : Option Turn :=
  (mapIter map iter).bind fun
    | none => some .over
    | some trav =>
        match trav.it with
        | nil => some .over
        | node _ _ item _ =>
            (rbtnext trav).map fun trav =>
              .bind ⟨item.value, some (keyVar item.key)⟩ (.each base (.iter trav.pointers))

def forList (heap : Store Collection) (base : Base) (iter : Iter) : Option Turn :=
  match base with
  | .other type => some (.mismatch type [2 + complexFlag, 4 + complexFlag, 10 + complexFlag])
  | .str str => forPositions base (toInt str.length) (fun i => strget str (toInt i)) iter
  | .block addr =>
      (heap.content addr).bind fun
        | .list items => forPositions base (toInt items.length) (element items) iter
        | .map map => forMap base map iter

def countUp (make : Num → Var) (first last : Num) : Turn :=
  if first.val > last.val then .over
  else
    .bind ⟨make first, none⟩
      (if first.val < maxint.val then .range (make (wrap (first.val + 1))) (make last)
      else .range (make first) (make (wrap (last.val - 1))))

def forRange : Var → Var → Turn
  | .int first, .int last => countUp .int first last
  | .obj first, .obj last => countUp .obj first last
  | first, .int _ | first, .obj _ => .mismatch (typeOf first) [0, 1]
  | _, last => .mismatch (typeOf last) [0, 1]

def turn (heap : Store Collection) : Slots → Option Turn
  | .each base iter => forList heap base iter
  | .range first last => some (forRange first last)

/-- The variables of the loop; `EOP_FOR_LIST_1` and `OP_FOR_RANGE` have no `index`. -/
structure LoopVars where
  id : Nat
  index : Option Nat

def LoopVars.assign (vars : LoopVars) (visit : Visit) (env : Nat → Var) : Nat → Var :=
  let env := Function.update env vars.id visit.value
  match vars.index, visit.index with
  | some index, some value => Function.update env index value
  | _, _ => env

structure LoopState where
  heap : Store Collection
  others : List Nat
  env : Nat → Var
  slots : Slots

def LoopState.bound (s : LoopState) (vars : LoopVars) (visit : Visit) (slots : Slots) : LoopState :=
  { s with env := vars.assign visit s.env, slots := slots }

def Base.held : Base → List Nat
  | .block addr => [addr]
  | _ => []

def Base.value (heap : Store Collection) : Base → Option Value
  | .str text => some (.str text)
  | .block addr => (heap.content addr).map .block
  | .other type => some (.other type)

/-! Assignments to an element of a collection that the body holds. -/

def mapinsertHeld (heap : Store Collection) (addr : Nat) (key : Key) (value : Var) :
    Option (Store Collection × Nat) :=
  heap.change addr
    (fun
      | .map map => (mapDup (compare false) map).map .map
      | .list _ => none)
    (fun
      | .map map => (mapinsert false map key value).map .map
      | .list _ => none)

def listsetHeld (heap : Store Collection) (addr : Nat) (value : Var) (pos : Int) :
    Option (Store Collection × Nat) :=
  heap.change addr some
    (fun
      | .list items =>
          if 0 < pos ∧ pos ≤ items.length then some (.list (items.set (pos.toNat - 1) value))
          else none
      | .map _ => none)

/-- The list of the database in which `db_renumber_object` finds the old number, whoever holds it. -/
def renumberedIn (old new : Num) : List Var → List Var
  | [] => []
  | .obj oid :: rest =>
      if oid = old then .obj new :: rest else .obj oid :: renumberedIn old new rest
  | item :: rest => item :: renumberedIn old new rest

/-! Dumps and loads. -/

structure Codecs where
  dbioWriteFloat : Double → CString
  dbWriteAnonymous : Nat → CString
  writeWaif : Nat → CString
  dbioReadFloat : Reading Double
  dbReadAnonymous : Reading Nat
  readWaif : Reading Nat

namespace Codecs

variable (codecs : Codecs)

def writeVar (value : Var) : CString :=
  dbioWriteVar codecs.dbioWriteFloat codecs.dbWriteAnonymous codecs.writeWaif value

def writeKey (key : Key) : CString :=
  dbioWriteKey codecs.dbioWriteFloat codecs.dbWriteAnonymous codecs.writeWaif key

def readVar : Reading Var :=
  dbioReadVar codecs.dbioReadFloat codecs.dbReadAnonymous codecs.readWaif

def writeValue : Value → Option CString
  | .str str => some (codecs.writeVar (.str str))
  | .block (.list items) => some (codecs.writeVar (.list items))
  | .block (.map map) => some (codecs.writeVar (.map map.bindings))
  | .other _ => none

def writeIter : Value → Iter → Option CString
  | _, .none => some (dbioWriteType .none)
  | _, .key key => some (codecs.writeKey key)
  | _, .clear => some (dbioWriteType .clear)
  | .block (.map map), .iter trav =>
      (trav.at map.root).map fun trav =>
        match trav.it with
        | nil => dbioWriteType .clear
        | node _ _ item _ => codecs.writeKey item.key
  | _, .iter _ => none

def writeSlots (heap : Store Collection) : Slots → Option CString
  | .each base iter =>
      (base.value heap).bind fun value =>
        (codecs.writeValue value).bind fun text =>
          (codecs.writeIter value iter).map fun more => text ++ more
  | .range first last => some (codecs.writeVar first ++ codecs.writeVar last)

def readStr : Reading Value := do return .str (← dbioReadString)

def readList : Reading Value := do
  let l ← readInt
  if l < 0 then failure else return .block (.list (← readItems codecs.readVar l.toNat))

def readMap : Reading Value := do
  let l ← readInt
  return .block (.map (← readEntries codecs.readVar l.toNat true rbnew))

def readOther : Reading Value := do return .other (typeOf (← codecs.readVar))

def readValue : Reading Value := fun input =>
  (readType input).bind fun
    | (some .str, inside) => readStr inside
    | (some .list, inside) => codecs.readList inside
    | (some .map, inside) => codecs.readMap inside
    | _ => codecs.readOther input

def readIter : Reading Iter := do
  match ← codecs.readVar with
  | .none => return .none
  | .clear => return .clear
  | value => return .key (← lift (asKey value))

def readEach : Reading (Value × Iter) := do
  let value ← codecs.readValue
  let iter ← codecs.readIter
  return (value, iter)

def readRange : Reading (Var × Var) := do
  let first ← codecs.readVar
  let last ← codecs.readVar
  return (first, last)

end Codecs

/-! Runs of a loop. -/

inductive Event
  | moves
  | writes (addr : Nat) (content : Collection)
  | reload

/-- One step of a body that goes back to the top of the loop, or of other tasks while it is
suspended. `renumber` writes a new number into lists of parents, children and players that others
hold, and `mapdelete(@l)` changes the map in a list that others hold. After a load every reference
is counted. -/
inductive Body (codecs : Codecs) (s : LoopState) : Event → LoopState → Prop
  | moves {heap : Store Collection} {others : List Nat} (env : Nat → Var)
      (moves : Moves s.heap s.others heap others) :
      Body codecs s .moves ⟨heap, others, env, s.slots⟩
  | writes {addr : Nat} {content content' : Collection} (env : Nat → Var)
      (there : s.heap.content addr = some content) :
      Body codecs s (.writes addr content') ⟨s.heap.replace addr content', s.others, env, s.slots⟩
  | reload {heap : Store Collection} {others : List Nat} {base base' : Base} {iter iter' : Iter}
      {value : Value} {text rest rest' : CString} (env : Nat → Var)
      (slots : s.slots = .each base iter)
      (written : codecs.writeSlots s.heap s.slots = some text)
      (read : codecs.readEach (text ++ rest) = some ((value, iter'), rest'))
      (placed : base'.value heap = some value) (counted : Covered heap (base'.held ++ others)) :
      Body codecs s .reload ⟨heap, others, env, .each base' iter'⟩
  | reloadRange {heap : Store Collection} {others : List Nat} {first last first' last' : Var}
      {text rest rest' : CString} (env : Nat → Var) (slots : s.slots = .range first last)
      (written : codecs.writeSlots s.heap s.slots = some text)
      (read : codecs.readRange (text ++ rest) = some ((first', last'), rest'))
      (counted : Covered heap others) :
      Body codecs s .reload ⟨heap, others, env, .range first' last'⟩

/-- The loop has gone through its body for each of the visits and is at its top again. -/
inductive Goes (codecs : Codecs) (vars : LoopVars) (allowed : LoopState → Event → Prop)
    (start : LoopState) : List Visit → LoopState → Prop
  | enter : Goes codecs vars allowed start [] start
  | pass {visits : List Visit} {visit : Visit} {slots : Slots} {s s' : LoopState}
      (sofar : Goes codecs vars allowed start visits s)
      (bound : turn s.heap s.slots = some (.bind visit slots))
      (body : Reachable (s.bound vars visit slots)
        (fun s s' => ∃ event, allowed s event ∧ Body codecs s event s') s') :
      Goes codecs vars allowed start (visits ++ [visit]) s'

/-! What a loop should do. -/

inductive Subject
  | value (value : Value)
  | range (first last : Var)

inductive Enters (s : LoopState) : Subject → Prop
  | each {base : Base} {value : Value} (slots : s.slots = .each base .none)
      (there : base.value s.heap = some value) (counted : Covered s.heap (base.held ++ s.others)) :
      Enters s (.value value)
  | range {first last : Var} (slots : s.slots = .range first last) : Enters s (.range first last)

def numbered (items : List Var) : List Visit :=
  (items.zipIdx 1).map fun (value, i) => ⟨value, some (.int (natNum i))⟩

def chars (str : CString) : List Var := str.map fun byte => .str [byte]

def entryVisit (entry : Key × Var) : Visit := ⟨entry.2, some (keyVar entry.1)⟩

def upTo (first last : Num) : List Num :=
  (List.range (last.val - first.val + 1).toNat).map fun k : Nat => wrap (first.val + k)

inductive Elements : Subject → List Visit → Prop
  | str (str : CString) : Elements (.value (.str str)) (numbered (chars str))
  | list (items : List Var) : Elements (.value (.block (.list items))) (numbered items)
  | map {map : RBTree Key Var} {entries : List (Key × Var)} (same : entries.Perm map.bindings)
      (ascending : Sorted Key.order entries) :
      Elements (.value (.block (.map map))) (entries.map entryVisit)
  | ints (first last : Num) :
      Elements (.range (.int first) (.int last)) ((upTo first last).map fun num => ⟨.int num, none⟩)
  | objs (first last : Num) :
      Elements (.range (.obj first) (.obj last)) ((upTo first last).map fun obj => ⟨.obj obj, none⟩)

def Continues (s : LoopState) : List Visit → Prop
  | [] => turn s.heap s.slots = some .over
  | visit :: _ => ∃ slots, turn s.heap s.slots = some (.bind visit slots)

/-- However the body is run, the loop has visited the first elements and goes on with the next. -/
def LoopExact (codecs : Codecs) (vars : LoopVars) (allowed : LoopState → Event → Prop)
    (start : LoopState) (subject : Subject) : Prop :=
  ∃ elements, Elements subject elements ∧
    ∀ visits s, Goes codecs vars allowed start visits s →
      ∃ rest, elements = visits ++ rest ∧ Continues s rest

def Iterable (Used : Key → Prop) : Subject → Prop
  | .value (.str str) => strRoom str.length
  | .value (.block (.list items)) => listRoom items.length
  | .value (.block (.map map)) => Made Used map ∧ map.size < 2 ^ 31
  | .value (.other _) => False
  | .range first last =>
      (∃ start stop, first = .int start ∧ last = .int stop) ∨
        ∃ start stop, first = .obj start ∧ last = .obj stop

/-! What is read back as it was written. -/

def ReadsBack (codecs : Codecs) (value : Var) : Prop :=
  ∀ rest, codecs.readVar (codecs.writeVar value ++ rest) = some (value, rest)

def KeyReadsBack (codecs : Codecs) (key : Key) : Prop :=
  ∀ rest, ∃ value, codecs.readVar (codecs.writeKey key ++ rest) = some (value, rest) ∧
    asKey value = some key

def PartsReadBack (codecs : Codecs) : Value → Prop
  | .str str => ReadsBack codecs (.str str)
  | .block (.list items) => ∀ item ∈ items, ReadsBack codecs item
  | .block (.map map) => ∀ entry ∈ map.bindings, KeyReadsBack codecs entry.1 ∧ ReadsBack codecs entry.2
  | .other _ => True

end ToastStunt.Loops
