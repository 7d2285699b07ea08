import Mathlib.Algebra.Order.Ring.Int
import ToastStunt.Db.Renumber

/-!
The built-in functions of objects.cc and property.cc that change the inheritance
graph and the properties defined on it. Verbs that a built-in calls run between
two of its steps: a step ends where the server would call `initialize`, `recycle`
or `exitfunc`, and `OWNERSHIP_QUOTA` is not defined, so quotas never refuse.
-/

namespace ToastStunt

open FirstVisit

variable {V : Type}

inductive MooError where
  | E_TYPE | E_PERM | E_PROPNF | E_VERBNF | E_RECMOVE | E_MAXREC | E_INVARG
deriving DecidableEq, Repr

inductive Outcome where
  | done
  | object (v : ObjVar)
  | error (e : MooError)
deriving DecidableEq, Repr

def dbObjectAllows (s : Db V) (v : ObjVar) (progr : Int) (flag : ObjectFlag) :
    Except Crash Bool := do
  if isWizard s progr then
    return true
  let o ← s.dereference v
  return progr = o.owner || flag ∈ o.flags

def controls2 (s : Db V) (who : Int) (what : ObjVar) : Except Crash Bool := do
  if isWizard s who then
    return true
  let o ← s.dereference what
  return who = o.owner

def unusableParents (s : Db V) : ObjOrList → Bool
  | .obj oid => !s.valid oid && oid ≠ NOTHING
  | .list oids => !oids.all s.valid

def parentsAllowed (s : Db V) (progr : Int) (flag : ObjectFlag) : ObjOrList → Except Crash Bool
  | .obj oid => if s.valid oid then dbObjectAllows s (.obj oid) progr flag else .ok true
  | .list oids => oids.allM fun oid => dbObjectAllows s (.obj oid) progr flag

def bfCreate (s : Db V) (progr : Int) (parents : ObjOrList) (owner : Int)
    (anonymous : Bool) : Except Crash (Outcome × Db V) := do
  if (anonymous && owner = NOTHING) || (!s.valid owner && owner ≠ NOTHING)
      || unusableParents s parents then
    return (.error .E_INVARG, s)
  if (progr ≠ owner && !isWizard s progr)
      || !(← parentsAllowed s progr (if anonymous then .anonymous else .fertile) parents) then
    return (.error .E_PERM, s)
  let last := dbLastUsedObjid s
  let (v, oid, s') := dbCreateObject s (-1) anonymous
  let s' ← dbSetObjectOwner s' v (if s.valid owner then owner else oid)
  match ← dbChangeParents s' v parents [] with
  | (false, s') =>
      let s' ← match v with
        | .anon address => dbDestroyAnonymousObject s' address
        | .obj oid => dbDestroyObject s' oid
      return (.error .E_INVARG, dbSetLastUsedObjid s' last)
  | (true, s') =>
      match v with
      | .anon address => return (.object v, ← dbMakeAnonymous s' address last)
      | .obj _ => return (.object v, s')

def bfRecreate (s : Db V) (progr old parent owner : Int) : Except Crash (Outcome × Db V) := do
  if old ≤ 0 || old > dbLastUsedObjid s || s.valid old then
    return (.error .E_INVARG, s)
  let owner := if s.valid owner then owner else progr
  if (progr ≠ owner && !isWizard s progr)
      || !(← parentsAllowed s progr .fertile (.obj parent)) then
    return (.error .E_PERM, s)
  let (v, oid, s') := dbCreateObject s old false
  let s' ← dbSetObjectOwner s' v (if s.valid owner then owner else oid)
  match ← dbChangeParents s' v (.obj parent) [] with
  | (false, s') => return (.error .E_INVARG, ← dbDestroyObject s' oid)
  | (true, s') => return (.object v, s')

def isADescendant (s : Db V) (this : Int) (obj : ObjVar) : Bool :=
  .obj this ∈ dbDescendants s obj true

def bfChparentChparents (s : Db V) (progr : Int) (obj : ObjVar) (what : ObjOrList) :
    Except Crash (Outcome × Db V) := do
  if !isValid s obj || unusableParents s what then
    return (.error .E_INVARG, s)
  if !(← controls2 s progr obj) || !(← parentsAllowed s progr .fertile what) then
    return (.error .E_PERM, s)
  if (enlistVar what).any fun parent => isADescendant s parent obj then
    return (.error .E_RECMOVE, s)
  match ← dbChangeParents s obj what [] with
  | (false, s) => return (.error .E_INVARG, s)
  | (true, s) => return (.done, s)

/-- `move_to_nothing` up to its call of `exitfunc`. -/
def moveToNothing (s : Db V) (oid : Int) : Except Crash (Db V) :=
  dbChangeLocation s oid NOTHING 0

def dbNextChild (s : Db V) (oid : Int) : Except Crash (Option ObjVar) := do
  let o ← s.dereference (.obj oid)
  match o.children with
  | child :: _ => return some (.obj child)
  | [] =>
      match s.anonymousObjects oid with
      | address :: _ => return some (.anon address)
      | [] => return none

/-- The parents of a child of `oid` with `oid` replaced by its own parents `op`. -/
def splicedParents (s : Db V) (oid : Int) (cp op : ObjOrList) : ObjOrList :=
  match cp with
  | .obj _ => op
  | .list parents =>
      let before := parents.takeWhile (· ≠ oid)
      let middle := match op with
        | .obj parent => if s.valid parent then [parent] else []
        | .list oids => oids
      let after := parents.drop (before.length + 1)
      .list (addAll (addAll (addAll [] before) middle) after)

/-- The loop over `db_next_child`. Each turn takes one occurrence of `oid` out of one child's
parents or fails. -/
def reparentChildren (oid : Int) : Nat → Db V → Except Crash (Bool × Db V)
  | 0, _ => .error .unbounded
  | fuel + 1, s => do
      match ← dbNextChild s oid with
      | none => return (true, s)
      | some child =>
          let c ← s.dereference child
          let o ← s.dereference (.obj oid)
          match ← dbChangeParents s child (splicedParents s oid c.parents o.parents) [] with
          | (false, s) => return (false, s)
          | (true, s) => reparentChildren oid fuel s

def parentSlots (s : Db V) (v : ObjVar) : Nat :=
  match s.object v with
  | none => 0
  | some o => (enlistVar o.parents).length

def reparentTurns (s : Db V) (oid : Int) : Nat :=
  match s.object (.obj oid) with
  | none => 0
  | some o =>
      (o.children.map fun child => parentSlots s (.obj child)).sum +
        ((s.anonymousObjects oid).map fun address => parentSlots s (.anon address)).sum

def moveContents (oid : Int) : Nat → Db V → Except Crash (Db V)
  | 0, _ => .error .unbounded
  | fuel + 1, s => do
      let o ← s.dereference (.obj oid)
      match o.contents with
      | [] => return s
      | c :: _ => moveContents oid fuel (← moveToNothing s c)

def leaveLocation (s : Db V) (oid : Int) : Except Crash (Db V) := do
  let o ← s.dereference (.obj oid)
  if o.location ≠ NOTHING then moveToNothing s oid else .ok s

def recycleObject (s : Db V) (oid : Int) : Except Crash (Outcome × Db V) := do
  let o ← s.dereference (.obj oid)
  let s ← moveContents oid (o.contents.length + 1) s
  let s ← leaveLocation s oid
  match ← reparentChildren oid (reparentTurns s oid + 1) s with
  | (false, s) => return (.error .E_INVARG, s)
  | (true, s) =>
      let (_, s) ← dbChangeParents s (.obj oid) (.obj NOTHING) []
      let s := dbFixupOwners s oid
      return (.done, ← dbDestroyObject s oid)

def bfRecycle (s : Db V) (progr : Int) (obj : ObjVar) : Except Crash (Outcome × Db V) := do
  if !isValid s obj then
    return (.error .E_INVARG, s)
  if !(← controls2 s progr obj) then
    return (.error .E_PERM, s)
  match obj with
  | .obj oid => recycleObject s oid
  | .anon address => return (.done, ← dbDestroyAnonymousObject s address)

def bfAddProp (s : Db V) (progr oid : Int) (pname : CString) (value : V) (owner : Int)
    (flags : Nat) : Except Crash (Outcome × Db V) := do
  if !s.valid owner || !s.valid oid then
    return (.error .E_INVARG, s)
  if !(← dbObjectAllows s (.obj oid) progr .write) || (progr ≠ owner && !isWizard s progr) then
    return (.error .E_PERM, s)
  match ← dbAddPropdef s (.obj oid) pname value owner flags with
  | (false, s) => return (.error .E_INVARG, s)
  | (true, s) => return (.done, s)

def bfDeleteProp (s : Db V) (progr oid : Int) (pname : CString) :
    Except Crash (Outcome × Db V) := do
  if !s.valid oid then
    return (.error .E_INVARG, s)
  if !(← dbObjectAllows s (.obj oid) progr .write) then
    return (.error .E_PERM, s)
  match ← dbDeletePropdef s (.obj oid) pname with
  | (false, s) => return (.error .E_PROPNF, s)
  | (true, s) => return (.done, s)

/-- The renaming of `set_prop_info`, whose further changes are to the owner and the permissions of
one slot. -/
def renameProp (s : Db V) (oid : Int) (old new : CString) : Except Crash (Outcome × Db V) := do
  if !s.valid oid then
    return (.error .E_INVARG, s)
  match ← dbRenamePropdef s (.obj oid) old new with
  | (false, s) => return (.error .E_INVARG, s)
  | (true, s) => return (.done, s)

def bfRenumber (s : Db V) (progr oid : Int) : Except Crash (Outcome × Db V) := do
  if !s.valid oid then
    return (.error .E_INVARG, s)
  if !isWizard s progr then
    return (.error .E_PERM, s)
  let (new, s) ← dbRenumberObject s oid
  return (.object (.obj new), s)

def bfResetMaxObject (s : Db V) (progr : Int) : Except Crash (Outcome × Db V) := do
  if !isWizard s progr then
    return (.error .E_PERM, s)
  return (.done, ← dbResetLastUsedObjid s)

end ToastStunt
