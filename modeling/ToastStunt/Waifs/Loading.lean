import ToastStunt.Waifs.Propdefs

/-!
`read_waif` and `waif_after_loading` of waif.cc, with `dbio_read_var`. The file is a list of
records, and the addresses that the loaded waifs get are a parameter.
-/

namespace ToastStunt.Waifs

open Packing

variable {C : Type}

inductive Record (C : Type) where
  | list (length : Nat)
  /-- The keys and the values together: in the file is the half of it. -/
  | map (length : Nat)
  | float (fnum : Maps.Double)
  | anon
  | waif
  | clear
  | other (content : C)
  | num (n : Int)
  | reference (index : Int)
  | creation (index : Int)
  | stop

structure Loading (C : Type) where
  rest : List (Record C)
  /-- The waifs read so far, as many as `waif_count` says. -/
  waifs : List (Waif C)

abbrev Read (C α : Type) := α × Loading C

def readRecord (l : Loading C) : Except Crash (Read C (Record C)) :=
  match l.rest with
  | [] => .error .panic
  | record :: rest => .ok (record, { l with rest := rest })

def readNum (l : Loading C) : Except Crash (Read C Int) := do
  match ← readRecord l with
  | (.num n, l) => return (n, l)
  | _ => .error .panic

def readStop (l : Loading C) : Except Crash (Loading C) := do
  match ← readRecord l with
  | (.stop, l) => return l
  | _ => .error .panic

section

variable (read : Loading C → Except Crash (Read C (Value C)))

def readItems : Nat → Loading C → Except Crash (Read C (List (Value C)))
  | 0, l => .ok ([], l)
  | count + 1, l => do
      let (value, l) ← read l
      let (rest, l) ← readItems count l
      return (value :: rest, l)

/-- The first loop of `read_waif`, with the place that is left in `packable`. The number that
ends it is part of the result. -/
def readPackable : Nat → List (Value C) → PropMap → Loading C →
    Except Crash (Read C (List (Value C) × PropMap × Int))
  | room, values, map, l => do
      let (cur, l) ← readNum l
      if 0 ≤ cur ∧ cur < nMappableProps then
        match room with
        | 0 => .error .outOfBounds
        | room + 1 => do
            let (value, l) ← read l
            readPackable room (values ++ [value]) (mapProp map cur.toNat) l
      else return ((values, map, cur), l)

/-- The second loop: `i` is the number of the next property, and each turn fills at least one of
the places that are left. -/
def readAllocated (len : Nat) : Nat → Nat → List (Value C) → Int → Loading C →
    Except Crash (Read C (List (Value C)))
  | room, i, values, cur, l =>
      if cur < 0 then .ok (values ++ List.replicate (len - i) .clear, l)
      else if len ≤ max i cur.toNat then .error .outOfBounds
      else
        match room with
        | 0 => .error .outOfBounds
        | room + 1 => do
            let (value, l) ← read l
            let (next, l) ← readNum l
            readAllocated len room (max i cur.toNat + 1)
              (values ++ List.replicate (cur.toNat - i) .clear ++ [value]) next l

def emptyWaif (classId owner : Int) : Waif C := ⟨classId, owner, none, none, fun _ => 0⟩

def readProperties (len : Nat) (l : Loading C) : Except Crash (Read C (List (Value C) × PropMap)) := do
  let ((packable, map, cur), l) ← readPackable read nMappableProps [] (fun _ => 0) l
  let (values, l) ← readAllocated read len (len - nMappableProps) nMappableProps [] cur l
  return ((packable ++ values, map), l)

/-- The waif is in the table before its values are read. -/
def readCreation (l : Loading C) : Except Crash (Loading C) := do
  let index := l.waifs.length
  let (classId, l) ← readNum l
  let (owner, l) ← readNum l
  let (len, l) ← readNum l
  let waif := emptyWaif classId owner
  let ((propvals, map), l) ← readProperties read len.toNat { l with waifs := l.waifs ++ [waif] }
  let l ← readStop l
  return { l with waifs := l.waifs.set index { waif with propvals := some propvals, map := map } }

variable (address : Nat → Address)

def readWaif (l : Loading C) : Except Crash (Read C (Value C)) := do
  match ← readRecord l with
  | (.reference index, l) => do
      let l ← readStop l
      if index.toNat < l.waifs.length then return (.waif (address index.toNat), l)
      else .error .panic
  | (.creation index, l) =>
      if index = l.waifs.length then do
        let l' ← readCreation read l
        return (.waif (address l.waifs.length), l')
      else .error .panic
  | _ => .error .panic

end

section

variable (address : Nat → Address)

def dbReadAnonymous (l : Loading C) : Except Crash (Read C (Value C)) := do
  let (oid, l) ← readNum l
  return (.anon (if oid = NOTHING then none else some oid.toNat), l)

def dbioReadVar : Nat → Loading C → Except Crash (Read C (Value C))
  | 0, _ => .error .unbounded
  | fuel + 1, l => do
      match ← readRecord l with
      | (.clear, l) => return (.clear, l)
      | (.float fnum, l) => return (.float fnum, l)
      | (.other content, l) => return (.other content, l)
      | (.list length, l) => do
          let (items, l) ← readItems (dbioReadVar fuel) length l
          return (.list items, l)
      | (.map length, l) => do
          let (items, l) ← readItems (dbioReadVar fuel) length l
          return (.map items, l)
      | (.anon, l) => dbReadAnonymous l
      | (.waif, l) => readWaif (dbioReadVar fuel) address l
      | _ => .error .panic

def readVars (count : Nat) (file : List (Record C)) : Except Crash (Read C (List (Value C))) :=
  readItems (dbioReadVar address file.length) count ⟨file, []⟩

end

/-! What the values of a waif refer to. -/

def fnumEqual (a b : Maps.Double) : Bool := !(a.isNaN || b.isNaN) && a.rank = b.rank

section

variable (waifRefers : Address → Except Crash Bool) (key : Address)

mutual

/-- The blocks of lists and strings have other addresses than that of a waif. -/
def refersTo : Value C → Except Crash Bool
  | .list items => itemsReferTo items
  | .map items => itemsReferTo items
  | .waif w => if w = key then .ok true else waifRefers w
  | .float fnum => .ok (fnumEqual fnum key)
  | _ => .ok false

def itemsReferTo : List (Value C) → Except Crash Bool
  | [] => .ok false
  | value :: rest => do
      if ← refersTo value then return true
      else itemsReferTo rest

end

end

def waifRefersTo (m : Memory C) (key : Address) : Nat → Address → Except Crash Bool
  | 0, _ => .error .unbounded
  | fuel + 1, w => do
      let waif ← m.dereference w
      let (values, _) ← takeValues (countWaifPropvals m waif) (waif.propvals.getD [])
      itemsReferTo (waifRefersTo m key fuel) key values

def checkWaif (fuel : Nat) (w : Address) (waif : Waif C) (m : Memory C) :
    Except Crash (Memory C) := do
  let m := m.setWaif w waif
  if ← waifRefersTo m w fuel w then invalidateWaif w waif m else return m

def linkWaif (fuel : Nat) (w : Address) (m : Memory C) : Except Crash (Memory C) := do
  let waif ← m.dereference w
  match m.definitions waif.classId with
  | none => return m
  | some names =>
      let (p, m) := currentPropdefs waif.classId names m
      checkWaif fuel w { waif with propdefs := some p } m

def waifAfterLoading (address : Nat → Address) (m : Memory C) : Except Crash (Memory C) :=
  (List.range m.waifCount).foldlM (fun m i => linkWaif (m.waifCount + 1) (address i) m) m

def allocate (address : Nat → Address) (waifs : List (Waif C)) (m : Memory C) : Memory C :=
  { m with
    waif := fun a => waifs[((List.range waifs.length).map address).idxOf a]?
    waifCount := waifs.length }

def loadWaifs (address : Nat → Address) (count : Nat) (file : List (Record C)) (m : Memory C) :
    Except Crash (List (Value C) × Memory C) := do
  let (roots, l) ← readVars address count file
  let m ← waifAfterLoading address (allocate address l.waifs m)
  return (roots, m)

end ToastStunt.Waifs
