import ToastStunt.Dbio.Lines
import ToastStunt.Maps.Finite

/-!
`dbio_write_var` and `dbio_read_var` of db_io.cc, for a file of the current version and
with `waif_conversion_type` as it is initialized.
-/

namespace ToastStunt.Dbio

open Maps Json

inductive VarType
  | int | obj | str | err | list | clear | none | catchMark | finallyMark | float | map | iter
  | anon | waif | bool
  deriving DecidableEq

def VarType.code (type : VarType) : Nat := type.ctorIdx

def allTypes : List VarType :=
  [.int, .obj, .str, .err, .list, .clear, .none, .catchMark, .finallyMark, .float, .map, .iter,
    .anon, .waif, .bool]

/-- Values of the database file. A map is given by its bindings in the order in which it is
iterated; the iterators of a suspended task are left out. -/
inductive Var
  | int (num : Num)
  | obj (obj : Num)
  | str (str : CString)
  | err (num : Num)
  | list (items : List Var)
  | clear
  | none
  | catchMark (num : Num)
  | finallyMark (num : Num)
  | float (fnum : Double)
  | map (entries : List (Key × Var))
  | anon (anon : Nat)
  | waif (waif : Nat)
  | bool (truth : Bool)

def natNum (n : Nat) : Num := (clamp n).1

def errorNum (err : Error) : Num := natNum err.num

/-- An error is the low half of its number. `mapinsert` panics on a collection; the internal types
and numbers that are no error, which only a damaged file has as keys, are not told apart from
that. -/
def asKey : Var → Option Key
  | .int num => some (.int num)
  | .obj obj => some (.obj obj)
  | .str str => some (.str str)
  | .err num => (allErrors.find? fun err => (err.num : Int) = num.val.bmod (2 ^ 32)).map .err
  | .float fnum => some (.float fnum)
  | .bool truth => some (.bool truth)
  | .anon anon => some (.anon anon)
  | .waif waif => some (.waif waif)
  | _ => Option.none

def dbioWriteType (type : VarType) : CString := dbioWriteNum (natNum type.code)

section

-- What other functions write for a double, an anonymous object and a waif.
variable (dbioWriteFloat : Double → CString) (dbWriteAnonymous writeWaif : Nat → CString)

def dbioWriteKey : Key → CString
  | .int num => dbioWriteType .int ++ dbioWriteNum num
  | .obj obj => dbioWriteType .obj ++ dbioWriteNum obj
  | .str str => dbioWriteType .str ++ dbioWriteString str
  | .err err => dbioWriteType .err ++ dbioWriteNum (errorNum err)
  | .float fnum => dbioWriteType .float ++ dbioWriteFloat fnum
  | .bool truth => dbioWriteType .bool ++ dbioWriteNum (natNum truth.toNat)
  | .anon anon => dbioWriteType .anon ++ dbWriteAnonymous anon
  | .waif waif => dbioWriteType .waif ++ writeWaif waif

mutual

def dbioWriteVar : Var → CString
  | .clear => dbioWriteType .clear
  | .none => dbioWriteType .none
  | .str str => dbioWriteType .str ++ dbioWriteString str
  | .obj obj => dbioWriteType .obj ++ dbioWriteNum obj
  | .err num => dbioWriteType .err ++ dbioWriteNum num
  | .int num => dbioWriteType .int ++ dbioWriteNum num
  | .catchMark num => dbioWriteType .catchMark ++ dbioWriteNum num
  | .finallyMark num => dbioWriteType .finallyMark ++ dbioWriteNum num
  | .float fnum => dbioWriteType .float ++ dbioWriteFloat fnum
  | .map entries =>
      dbioWriteType .map ++ (dbioWriteNum (natNum entries.length) ++ dbioWriteEntries entries)
  | .list items =>
      dbioWriteType .list ++ (dbioWriteNum (natNum items.length) ++ dbioWriteItems items)
  | .anon anon => dbioWriteType .anon ++ dbWriteAnonymous anon
  | .waif waif => dbioWriteType .waif ++ writeWaif waif
  | .bool truth => dbioWriteType .bool ++ dbioWriteNum (natNum truth.toNat)

def dbioWriteItems : List Var → CString
  | [] => []
  | value :: rest => dbioWriteVar value ++ dbioWriteItems rest

def dbioWriteEntries : List (Key × Var) → CString
  | [] => []
  | (key, value) :: rest =>
      dbioWriteKey dbioWriteFloat dbWriteAnonymous writeWaif key ++
        (dbioWriteVar value ++ dbioWriteEntries rest)

end

end

def readInt : Reading Int := do return (← dbioReadNum).val.bmod (2 ^ 32)

def readType : Reading (Option VarType) := do
  let l ← readInt
  return allTypes.find? fun type => type.code = l

def lift {α : Type} (result : Option α) : Reading α := fun input => result.map (·, input)

def readItems (read : Reading Var) : Nat → Reading (List Var)
  | 0 => return []
  | count + 1 => do
      let value ← read
      let rest ← readItems read count
      return value :: rest

/-- `new_map()` is shared, and each later map of the loop is not. -/
def readEntries (read : Reading Var) : Nat → Bool → RBTree Key Var → Reading (RBTree Key Var)
  | 0, _, map => return map
  | count + 1, shared, map => do
      let key ← read
      let value ← read
      let key ← lift (asKey key)
      let map ← lift (mapinsert shared map key value)
      readEntries read count false map

section

variable (dbioReadFloat : Reading Double) (dbReadAnonymous readWaif : Reading Nat)

/-- A value inside another is on a later line, so `fuel` need not be more than the bytes. -/
def readVar : Nat → Reading Var
  | 0 => failure
  | fuel + 1 => do
      match ← readType with
      | some .clear => return .clear
      | some .none => return .none
      | some .str => return .str (← dbioReadString)
      | some .obj => return .obj (← dbioReadNum)
      | some .err => return .err (← dbioReadNum)
      | some .int => return .int (← dbioReadNum)
      | some .catchMark => return .catchMark (← dbioReadNum)
      | some .finallyMark => return .finallyMark (← dbioReadNum)
      | some .float => return .float (← dbioReadFloat)
      | some .map =>
          let l ← readInt
          return .map (← readEntries (readVar fuel) l.toNat true rbnew).bindings
      | some .list =>
          let l ← readInt
          if l < 0 then failure else return .list (← readItems (readVar fuel) l.toNat)
      | some .iter => readVar fuel
      | some .anon => return .anon (← dbReadAnonymous)
      | some .waif => return .waif (← readWaif)
      | some .bool => return .bool ((← dbioReadNum).val ≠ 0)
      | Option.none => return .int (natNum 0)

def dbioReadVar : Reading Var := fun input =>
  readVar dbioReadFloat dbReadAnonymous readWaif (input.length + 1) input

end

end ToastStunt.Dbio
