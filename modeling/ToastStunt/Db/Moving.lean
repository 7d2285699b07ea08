import ToastStunt.Db.Create

/-!
Moving and recycling objects, from objects.cc, with the verbs that are called on the way. A
built-in that has called a verb returns to the server and is resumed, at the program counter it
has asked for, when the verb is done; anything may have happened to the database until then.
-/

namespace ToastStunt

variable {V : Type}

def FAILED_MATCH : Int := -3

inductive MoveError where
  | E_INVARG | E_INVIND | E_PERM | E_NACC | E_RECMOVE | E_MAXREC
deriving DecidableEq, Repr

inductive Package (E D : Type) where
  | error (e : E)
  | noVar
  | call (pc : Nat) (data : D)
deriving DecidableEq, Repr

structure BfMoveData where
  what : Int
  place : Int
  position : Int
deriving DecidableEq, Repr

def acceptName : CString := [97, 99, 99, 101, 112, 116]

def exitfuncName : CString := [101, 120, 105, 116, 102, 117, 110, 99]

def enterfuncName : CString := [101, 110, 116, 101, 114, 102, 117, 110, 99]

def recycleName : CString := [114, 101, 99, 121, 99, 108, 101]

def dbObjectLocation (s : Db V) (oid : Int) : Except Crash Int := do
  let o ← s.dereference (.obj oid)
  return o.location

def violatesHierarchy (s : Db V) (what : Int) : Nat → Int → Except Crash Bool
  | 0, _ => .error .unbounded
  | fuel + 1, oid =>
      if oid = NOTHING then .ok false
      else if oid = what then .ok true
      else do violatesHierarchy s what fuel (← dbObjectLocation s oid)

def locationTurns (s : Db V) : Nat := s.numObjects.toNat + 1

section Move

variable (stackFull : Bool) (data : BfMoveData)

def hasEntered (s : Db V) (oldloc : Int) : Except Crash Bool := do
  if s.valid data.place && s.valid data.what && data.place ≠ oldloc then
    return (← dbObjectLocation s data.what) = data.place
  else
    return false

/-- `case 3`: returned from the call of `exitfunc`. -/
def moveEntered (s : Db V) (oldloc : Int) : Except Crash (Package MoveError BfMoveData × Db V) := do
  if ← hasEntered data s oldloc then
    match ← callVerb s stackFull data.place (.obj data.place) enterfuncName with
    | none => return (.call 4 data, s)
    | some .E_MAXREC => return (.error .E_MAXREC, s)
    | some _ => return (.noVar, s)
  else
    return (.noVar, s)

def moveChanged (s : Db V) : Except Crash (Package MoveError BfMoveData × Db V) := do
  let oldloc ← dbObjectLocation s data.what
  let s ← dbChangeLocation s data.what data.place data.position.toNat
  if data.place ≠ oldloc then
    match ← callVerb s stackFull oldloc (.obj oldloc) exitfuncName with
    | none => return (.call 3 data, s)
    | some .E_MAXREC => return (.error .E_MAXREC, s)
    | some _ => moveEntered stackFull data s oldloc
  else
    moveEntered stackFull data s oldloc

def acceptsDecided (s : Db V) (progr : Int) (accepts : Bool) :
    Except Crash (Package MoveError BfMoveData × Db V) := do
  if !isWizard s progr && !accepts then
    return (.error .E_NACC, s)
  if !s.valid data.what || (data.place ≠ NOTHING && !s.valid data.place) then
    return (.noVar, s)
  if (← dbObjectLocation s data.what) = data.place && data.position = 0 then
    return (.noVar, s)
  if ← violatesHierarchy s data.what (locationTurns s) data.place then
    return (.error .E_RECMOVE, s)
  moveChanged stackFull data s

/-- `case 1`. -/
def moveChecked (s : Db V) (progr : Int) : Except Crash (Package MoveError BfMoveData × Db V) := do
  if !s.valid data.what || (!s.valid data.place && data.place ≠ NOTHING) || data.position < 0 then
    return (.error .E_INVARG, s)
  if !(← controls2 s progr (.obj data.what)) then
    return (.error .E_PERM, s)
  if data.place = NOTHING || data.place = (← dbObjectLocation s data.what) then
    acceptsDecided stackFull data s progr true
  else if data.position > 0 && !(← controls2 s progr (.obj data.place)) then
    return (.error .E_PERM, s)
  else
    match ← callVerb s stackFull data.place (.obj data.place) acceptName with
    | none => return (.call 2 data, s)
    | some .E_VERBNF => acceptsDecided stackFull data s progr false
    | some .E_MAXREC => return (.error .E_MAXREC, s)
    | some .E_INVIND => return (.error .E_INVIND, s)

/-- `returned` is the truth of what the verb has returned. -/
def doMove (s : Db V) (progr : Int) (next : Nat) (returned : Bool) :
    Except Crash (Package MoveError BfMoveData × Db V) :=
  match next with
  | 1 => moveChecked stackFull data s progr
  | 2 => acceptsDecided stackFull data s progr returned
  | 3 => moveEntered stackFull data s FAILED_MATCH
  | 4 => .ok (.noVar, s)
  | _ => .error .panic

end Move

/-- A number of the language that is stored in a C `int`. -/
def toInt32 (n : Int) : Int := n.bmod (2 ^ 32)

def bfMove (s : Db V) (stackFull : Bool) (progr what place : Int) (position : Option Int) :
    Except Crash (Package MoveError BfMoveData × Db V) :=
  doMove stackFull ⟨what, place, toInt32 (position.getD 0)⟩ s progr 1 false

section Recycle

/-- `move_to_nothing`: whether `exitfunc` has been called. -/
def moveToNothingCalling (s : Db V) (stackFull : Bool) (oid : Int) : Except Crash (Bool × Db V) := do
  let oldloc ← dbObjectLocation s oid
  let s ← dbChangeLocation s oid NOTHING 0
  match ← callVerb s stackFull oldloc (.obj oldloc) exitfuncName with
  | none => return (true, s)
  | some _ => return (false, s)

def moveContentsCalling (stackFull : Bool) (oid : Int) : Nat → Db V → Except Crash (Bool × Db V)
  | 0, _ => .error .unbounded
  | fuel + 1, s => do
      let o ← s.dereference (.obj oid)
      match o.contents with
      | [] => return (false, s)
      | c :: _ =>
          match ← moveToNothingCalling s stackFull c with
          | (true, s) => return (true, s)
          | (false, s) => moveContentsCalling stackFull oid fuel s

def leaveLocationCalling (s : Db V) (stackFull : Bool) (oid : Int) : Except Crash (Bool × Db V) := do
  if (← dbObjectLocation s oid) ≠ NOTHING then moveToNothingCalling s stackFull oid
  else return (false, s)

def recycleEmptied (s : Db V) (oid : Int) : Except Crash (Package MoveError ObjVar × Db V) := do
  match ← reparentChildren oid (reparentTurns s oid + 1) s with
  | (false, s) => return (.error .E_INVARG, s)
  | (true, s) =>
      let (_, s) ← dbChangeParents s (.obj oid) (.obj NOTHING) []
      let s := dbFixupOwners s oid
      return (.noVar, ← dbDestroyObject s oid)

/-- From `moving_contents` on. -/
def recycleResumed (s : Db V) (stackFull : Bool) (obj : ObjVar) :
    Except Crash (Package MoveError ObjVar × Db V) := do
  if !isValid s obj then
    return (.error .E_INVARG, s)
  match obj with
  | .anon address => return (.noVar, ← dbDestroyAnonymousObject s address)
  | .obj oid =>
      let o ← s.dereference (.obj oid)
      match ← moveContentsCalling stackFull oid (o.contents.length + 1) s with
      | (true, s) => return (.call 2 obj, s)
      | (false, s) =>
          match ← leaveLocationCalling s stackFull oid with
          | (true, s) => return (.call 2 obj, s)
          | (false, s) => recycleEmptied s oid

def alreadyRecycled (s : Db V) : ObjVar → Bool
  | .obj _ => false
  | .anon address =>
      match s.object (.anon address) with
      | none => false
      | some o => .recycled ∈ o.flags

def flagRecycled (s : Db V) : ObjVar → Except Crash (Db V)
  | .obj _ => .ok s
  | .anon address =>
      s.modify (.anon address) fun o => { o with flags := insert .recycled o.flags }

def ObjVar.receiver : ObjVar → Int
  | .obj oid => oid
  | .anon _ => NOTHING

def recycleCalled (s : Db V) (stackFull : Bool) (progr : Int) (obj : ObjVar) :
    Except Crash (Package MoveError ObjVar × Db V) := do
  if !isValid s obj || alreadyRecycled s obj then
    return (.error .E_INVARG, s)
  if !(← controls2 s progr obj) then
    return (.error .E_PERM, s)
  let s ← flagRecycled s obj
  match ← callVerb s stackFull obj.receiver obj recycleName with
  | none => return (.call 2 obj, s)
  | some _ => recycleResumed s stackFull obj

end Recycle

section Locations

def collectLocations (s : Db V) (stop : Int → Except Crash Bool) :
    Nat → List Int → Int → Except Crash (List Int)
  | 0, _, _ => .error .unbounded
  | fuel + 1, locs, loc =>
      if !s.valid loc then .ok locs
      else do
        if ← stop loc then
          return locs
        collectLocations s stop fuel (setadd locs loc) (← dbObjectLocation s loc)

def locationsUntil (s : Db V) (stop : Int → Except Crash Bool) (what : Int) :
    Except Crash (Option (List Int)) :=
  if !s.valid what then .ok none
  else do
    let first ← dbObjectLocation s what
    let locs ← collectLocations s stop (locationTurns s) [] first
    return some locs

def bfLocations (s : Db V) (isa : Int → Int → Bool) (what base : Int) (checkParent : Bool) :
    Except Crash (Option (List Int)) :=
  locationsUntil s
    (fun loc => .ok (base ≠ 0 && if checkParent then isa loc base else loc = base)) what

end Locations

end ToastStunt
