import ToastStunt.Library.Failing
import ToastStunt.Waifs.Values

/-!
The definitions of a class that its waifs share, and how a waif is reconciled with them when
they have changed: `gen_waif_propdefs` and `update_waif_propdefs` of waif.cc.
-/

namespace ToastStunt.Waifs

open Packing

variable {C : Type}

structure Memory (C : Type) where
  /-- For each valid object, the names of the properties that start with `:` on the object and its
  ancestors, by the addresses of their texts. -/
  definitions : Int → Option (List Nat)
  waifPropdefs : Int → Option Nat
  /-- The `WaifPropdefs` by address; no address from `nextPropdefs` on is in use. -/
  propdefs : Nat → List Nat
  nextPropdefs : Nat
  waif : Address → Option (Waif C)
  waifCount : Nat
  /-- The values whose references `free_var` has given up. -/
  freed : List (Value C)

namespace Memory

def dereference (m : Memory C) (w : Address) : Except Crash (Waif C) :=
  match m.waif w with
  | none => .error .nullDereference
  | some waif => .ok waif

def setWaif (m : Memory C) (w : Address) (waif : Waif C) : Memory C :=
  { m with waif := Function.update m.waif w (some waif) }

def free (m : Memory C) (values : List (Value C)) : Memory C :=
  { m with freed := m.freed ++ values }

end Memory

def genWaifPropdefs (classId : Int) (names : List Nat) (m : Memory C) : Memory C :=
  { m with
    propdefs := Function.update m.propdefs m.nextPropdefs names
    nextPropdefs := m.nextPropdefs + 1
    waifPropdefs := Function.update m.waifPropdefs classId (some m.nextPropdefs) }

def countWaifPropvals (m : Memory C) (waif : Waif C) : Nat :=
  match waif.propdefs with
  | none => 0
  | some p => countPropvals (m.propdefs p).length waif.map

def takeValues (count : Nat) (values : List (Value C)) :
    Except Crash (List (Value C) × List (Value C)) :=
  if count ≤ values.length then .ok (values.splitAt count) else .error .outOfBounds

def invalidateWaif (w : Address) (waif : Waif C) (m : Memory C) : Except Crash (Memory C) := do
  let (values, _) ← takeValues (countWaifPropvals m waif) (waif.propvals.getD [])
  return (m.setWaif w { waif with propdefs := none, propvals := none, classId := NOTHING }).free values

def allocWaifPropvals (length : Nat) (map : PropMap) : Option (List (Value C)) :=
  if countPropvals length map = 0 then none
  else some (List.replicate (countPropvals length map) .clear)

def currentPropdefs (classId : Int) (names : List Nat) (m : Memory C) : Nat × Memory C :=
  match m.waifPropdefs classId with
  | some p => (p, m)
  | none => (m.nextPropdefs, genWaifPropdefs classId names m)

/-- What the loops over `a`, `b` and `ov` put in `xfer`, and the values that they free. The
first definition of `a` has number `idx`. -/
def transfer (map : PropMap) : Nat → List Nat → List Nat → List (Value C) →
    Except Crash (List (Value C) × List (Value C))
  | idx, a, [], ov => do
      let (freed, _) ← takeValues (rank (allocated map) idx a.length) ov
      return ([], freed)
  | idx, a, name :: b, ov =>
      if name ∈ a then do
        let k := a.idxOf name
        let (freed, ov) ← takeValues (rank (allocated map) idx k) ov
        let (copied, ov) ← takeValues (rank (allocated map) (idx + k) 1) ov
        let (xfer, later) ← transfer map (idx + k + 1) (a.drop (k + 1)) b ov
        return (copied.headD .clear :: xfer, freed ++ later)
      else do
        let (xfer, freed) ← transfer map idx a b ov
        return (.clear :: xfer, freed)

def mapOf (xfer : List (Value C)) : PropMap :=
  ((List.range nMappableProps).filter fun i => !(xfer.getD i .clear).isClear).foldl mapProp fun _ => 0

def repack (xfer : List (Value C)) (waif : Waif C) : Waif C :=
  { waif with
    map := mapOf xfer
    propvals :=
      if countPropvals xfer.length (mapOf xfer) = 0 then none
      else some ((xfer.take nMappableProps).filter (!·.isClear) ++ xfer.drop nMappableProps) }

def reconcile (w : Address) (waif : Waif C) (p : Nat) (m : Memory C) : Except Crash (Memory C) :=
  match waif.propvals with
  | none =>
      .ok (m.setWaif w { waif with
        propdefs := some p, propvals := allocWaifPropvals (m.propdefs p).length waif.map })
  | some ov =>
      match waif.propdefs with
      | none => .error .nullDereference
      | some old => do
          let (xfer, freed) ← transfer waif.map 0 (m.propdefs old) (m.propdefs p) ov
          return (m.setWaif w (repack xfer { waif with propdefs := some p })).free freed

def updateWaifPropdefs (w : Address) (m : Memory C) : Except Crash (Memory C) := do
  let waif ← m.dereference w
  match m.definitions waif.classId with
  | none => invalidateWaif w waif m
  | some names =>
      if waif.propdefs = m.waifPropdefs waif.classId then return m
      else
        let (p, m) := currentPropdefs waif.classId names m
        reconcile w waif p m

end ToastStunt.Waifs
