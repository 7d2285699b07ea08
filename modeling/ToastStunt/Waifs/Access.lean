import ToastStunt.Strings
import ToastStunt.Waifs.Loading
import ToastStunt.Waifs.Reconciling

/-!
The operations of waif.cc that make a waif, free it, assign to a property of it and count its
bytes.
-/

namespace ToastStunt.Waifs

open Packing

variable {C : Type}

def newWaif (w : Address) (classId owner : Int) (m : Memory C) : Except Crash (Memory C) :=
  match m.definitions classId with
  | none => .error .panic
  | some names =>
      let (p, m) := currentPropdefs classId names m
      let waif : Waif C :=
        { classId := classId
          owner := owner
          propdefs := some p
          propvals := allocWaifPropvals (m.propdefs p).length fun _ => 0
          map := fun _ => 0 }
      .ok { m.setWaif w waif with waifCount := m.waifCount + 1 }

def freeWaif (w : Address) (m : Memory C) : Except Crash (Memory C) := do
  let waif ← m.dereference w
  let (values, _) ← takeValues (countWaifPropvals m waif) (waif.propvals.getD [])
  return { m.free values with
    waif := Function.update m.waif w none, waifCount := m.waifCount - 1 }

structure PropHandle where
  builtIn : Bool
  owner : Int
  flags : Nat

/-- What the database says: the texts of the names, `db_find_property` on an object, and
`is_wizard`. -/
structure Lookups where
  text : Nat → CString
  findProperty : Int → CString → Option PropHandle
  isWizard : Int → Bool

def waifPropPrefix : UInt8 := 58

def fixedNames : List CString :=
  [[111, 119, 110, 101, 114], [99, 108, 97, 115, 115], [119, 105, 122, 97, 114, 100],
    [112, 114, 111, 103, 114, 97, 109, 109, 101, 114]]

def mappedOffset (map : PropMap) (i : Nat) : Nat :=
  ((List.range (i / 32)).map fun j => countSetBits (map j)).sum +
    if i % 32 = 0 then 0
    else countSetBits (map (i / 32) &&& 0xFFFFFFFF#64 >>> (32 - i % 32))

/-- The number of the property, and its place in the array if it has one. The result is `none` for
-2, and the place is `none` for -1. -/
def findPropvalOffset (text : Nat → CString) (waif : Waif C) (name : CString) (m : Memory C) :
    Except Crash (Option (Nat × Option Nat)) :=
  match waif.propdefs with
  | none => .error .nullDereference
  | some p =>
      match (m.propdefs p).findIdx? fun d =>
          strHash (text d) = strHash name && strcasecmp (text d) name = 0 with
      | none => .ok none
      | some i =>
          if nMappableProps ≤ i then
            .ok (some (i, some (i - nMappableProps + countMapped waif.map)))
          else if propMapped waif.map i then .ok (some (i, some (mappedOffset waif.map i)))
          else .ok (some (i, none))

def allocPropvalOffset (length : Nat) (waif : Waif C) (idx : Nat) :
    Except Crash (Waif C × Nat) :=
  if propMapped waif.map idx then .error .panic
  else do
    let map := mapProp waif.map idx
    let result := rank (propMapped map) 0 idx
    let behind := rank (propMapped map) (idx + 1) (nMappableProps - (idx + 1))
    let (front, old) ← takeValues result (waif.propvals.getD [])
    let (back, _) ← takeValues (behind + (length - nMappableProps)) old
    return ({ waif with map := map, propvals := some (front ++ .clear :: back) }, result)

/-- The bits of `PF_READ`, `PF_WRITE` and `PF_CHOWN`, 01, 02 and 04, are 0, 1 and 2. -/
def waifPropertyAllows (waif : Waif C) (h : PropHandle) (isWizard : Int → Bool) (progr : Int)
    (flag : Nat) : Bool :=
  h.flags.testBit flag || (if h.flags.testBit 2 then waif.owner else h.owner) = progr ||
    isWizard progr

def setPropval (w : Address) (waif : Waif C) (idx : Nat) (val : Value C) (m : Memory C) :
    Except Crash (Memory C) :=
  match (waif.propvals.getD [])[idx]? with
  | none => .error .outOfBounds
  | some old =>
      .ok ((m.setWaif w { waif with
        propvals := some ((waif.propvals.getD []).set idx val) }).free [old])

def storeProp (w : Address) (waif : Waif C) (pidx : Nat) (idx : Option Nat) (val : Value C)
    (m : Memory C) : Except Crash (Memory C) :=
  match idx with
  | some idx => setPropval w waif idx val m
  | none => do
      let (waif, idx) ← allocPropvalOffset (propdefsLength m waif) waif pidx
      setPropval w waif idx val m

inductive PutResult where
  | E_NONE | E_PERM | E_INVIND | E_PROPNF | E_RECMOVE
deriving DecidableEq

def assignProp (lookups : Lookups) (fuel : Nat) (w : Address) (waif : Waif C) (name : CString)
    (pidx : Nat) (idx : Option Nat) (val : Value C) (progr : Int) (m : Memory C) :
    Except Crash (PutResult × Memory C) :=
  match lookups.findProperty waif.classId name with
  | none => .error .panic
  | some h =>
      if h.builtIn then .error .panic
      else if !waifPropertyAllows waif h lookups.isWizard progr 1 then .ok (.E_PERM, m)
      else do
        if ← refersTo (waifRefersTo m w fuel) w val then return (.E_RECMOVE, m)
        else
          let m ← storeProp w waif pidx idx val m
          return (.E_NONE, m)

def waifPutProp (lookups : Lookups) (fuel : Nat) (w : Address) (name : CString) (val : Value C)
    (progr : Int) (m : Memory C) : Except Crash (PutResult × Memory C) := do
  let m ← updateWaifPropdefs w m
  let waif ← m.dereference w
  if fixedNames.any fun fixed => strcasecmp name fixed = 0 then return (.E_PERM, m)
  else if (m.definitions waif.classId).isNone then return (.E_INVIND, m)
  else
    match ← findPropvalOffset lookups.text waif (waifPropPrefix :: name) m with
    | none => return (.E_PROPNF, m)
    | some (pidx, idx) =>
        assignProp lookups fuel w waif (waifPropPrefix :: name) pidx idx val progr m

inductive GetResult (C : Type) where
  | obj (oid : Int)
  | zero
  | value (value : Value C)
  | E_PERM | E_INVIND | E_PROPNF

def fixedProp (waif : Waif C) (name : CString) : Option (GetResult C) :=
  match fixedNames.findIdx? fun fixed => strcasecmp name fixed = 0 with
  | none => none
  | some 0 => some (.obj waif.owner)
  | some 1 => some (.obj waif.classId)
  | some _ => some .zero

def propvalAt (waif : Waif C) (idx : Option Nat) : Except Crash (Value C) :=
  match idx with
  | none => .ok .clear
  | some idx =>
      match (waif.propvals.getD [])[idx]? with
      | none => .error .outOfBounds
      | some value => .ok value

section

variable (lookups : Lookups) (classValue : Int → CString → Value C)

/-- When the value is clear `db_find_property` gives that of the class. -/
def readProp (waif : Waif C) (name : CString) (value : Value C) (progr : Int) :
    Except Crash (GetResult C) :=
  match lookups.findProperty waif.classId name with
  | none => .error .panic
  | some h =>
      if h.builtIn then .error .panic
      else if !waifPropertyAllows waif h lookups.isWizard progr 0 then .ok .E_PERM
      else .ok (.value (if value.isClear then classValue waif.classId name else value))

def waifGetProp (w : Address) (name : CString) (progr : Int) (m : Memory C) :
    Except Crash (GetResult C × Memory C) := do
  let m ← updateWaifPropdefs w m
  let waif ← m.dereference w
  match fixedProp waif name with
  | some result => return (result, m)
  | none =>
      if (m.definitions waif.classId).isNone then return (.E_INVIND, m)
      else
        match ← findPropvalOffset lookups.text waif (waifPropPrefix :: name) m with
        | none => return (.E_PROPNF, m)
        | some (_, idx) =>
            let value ← propvalAt waif idx
            let result ← readProp lookups classValue waif (waifPropPrefix :: name) value progr
            return (result, m)

end

/-! The sizes of values. What a value takes without what is in it is a parameter, and the sizes
that lists and maps remember are left out: they only cut the walk short. -/

section

variable (own : Value C → Nat) (waifBytes : Address → Memory C → Except Crash (Nat × Memory C))

mutual

def valueBytes : Value C → Memory C → Except Crash (Nat × Memory C)
  | .list items, m => do
      let (size, m) ← itemsBytes items m
      return (own (.list items) + size, m)
  | .map items, m => do
      let (size, m) ← itemsBytes items m
      return (own (.map items) + size, m)
  | .waif w, m => do
      let (size, m) ← waifBytes w m
      return (own (.waif w) + size, m)
  | value, m => .ok (own value, m)

def itemsBytes : List (Value C) → Memory C → Except Crash (Nat × Memory C)
  | [], m => .ok (0, m)
  | value :: rest, m => do
      let (size, m) ← valueBytes value m
      let (more, m) ← itemsBytes rest m
      return (size + more, m)

end

end

def sizeofWaif : Nat := 56

/-- The values are counted from the last to the first. -/
def waifBytes (own : Value C → Nat) : Nat → Address → Memory C → Except Crash (Nat × Memory C)
  | 0, _, _ => .error .unbounded
  | fuel + 1, w, m => do
      let m ← updateWaifPropdefs w m
      let waif ← m.dereference w
      let (values, _) ← takeValues (countWaifPropvals m waif) (waif.propvals.getD [])
      let (size, m) ← itemsBytes own (waifBytes own fuel) values.reverse m
      return (sizeofWaif + size, m)

end ToastStunt.Waifs
