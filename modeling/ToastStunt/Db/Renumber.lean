import ToastStunt.Db.Objects

/-!
Giving an object the least free number, from db_objects.cc.
-/

namespace ToastStunt

variable {V : Type}

/-- `FOR_EACH` up to the first `old`, then an assignment at the index where the loop stopped: past
the end when there is none. -/
def replaceFirst (old new : Int) (list : List Int) : Except Crash (List Int) :=
  match list.findIdx? (· = old) with
  | some i => .ok (list.set i new)
  | none => .error .outOfBounds

def fixChildren (old new : Int) (s : Db V) (parent : Int) : Except Crash (Db V) := do
  let o ← s.dereference (.obj parent)
  let children ← replaceFirst old new o.children
  s.modify (.obj parent) fun o => { o with children := children }

def fixParents (old new : Int) (s : Db V) (child : Int) : Except Crash (Db V) := do
  let o ← s.dereference (.obj child)
  match o.parents with
  | .list parents =>
      let parents ← replaceFirst old new parents
      s.modify (.obj child) fun o => { o with parents := .list parents }
  | .obj _ => s.modify (.obj child) fun o => { o with parents := .obj new }

def fixContents (old new : Int) (s : Db V) (place : Int) : Except Crash (Db V) := do
  let o ← s.dereference (.obj place)
  let contents ← replaceFirst old new o.contents
  s.modify (.obj place) fun o => { o with contents := contents }

def fixPlace (old new : Int) (s : Db V) (location : Int) : Except Crash (Db V) :=
  if location = NOTHING then .ok s else fixContents old new s location

def fixLocation (new : Int) (s : Db V) (thing : Int) : Except Crash (Db V) :=
  s.modify (.obj thing) fun o => { o with location := new }

def fixAnonParents (old new : Int) (s : Db V) (address : Nat) : Except Crash (Db V) :=
  s.modify (.anon address) fun o =>
    { o with parents := match o.parents with
        | .obj parent => .obj (if parent = old then new else parent)
        | .list parents => .list (parents.map fun parent => if parent = old then new else parent) }

def renumberOwner (old new owner : Int) : Int :=
  if owner = new then NOTHING else if owner = old then new else owner

def renumberOwners (old new : Int) (o : Object V) : Object V :=
  { o with
    owner := renumberOwner old new o.owner
    verbdefs := o.verbdefs.map fun v => { v with owner := renumberOwner old new v.owner }
    propval := o.propval.map fun p => { p with owner := renumberOwner old new p.owner } }

/-- The loop over the anonymous objects leaves out their verbs. -/
def renumberAnonOwners (old new : Int) (o : Object V) : Object V :=
  { o with
    owner := renumberOwner old new o.owner
    propval := o.propval.map fun p => { p with owner := renumberOwner old new p.owner } }

/-- The members of the sets of the index, one parent after another; the keys of the index are
numbers of the table. -/
def indexedAnons (s : Db V) : List Nat :=
  (List.range s.numObjects.toNat).flatMap fun parent : Nat => s.anonymousObjects parent

def leastFree (s : Db V) (old : Int) : Option Nat :=
  (List.range old.toNat).find? fun new : Nat => !s.valid new

def changeIdentity (s : Db V) (old new : Int) (o : Object V) : Db V :=
  (s.setObject (.obj new) (some { o with id := new })).setObject (.obj old) none

/-- Nothing happens when the index has no entry for `old`. -/
def moveAnonIndex (s : Db V) (old new : Int) : Db V :=
  if s.anonymousObjects old = [] then s
  else
    { s with anonymousObjects := fun parent =>
        if parent = old then []
        else if parent = new then s.anonymousObjects old
        else s.anonymousObjects parent }

def fixRelatives (s : Db V) (old new : Int) (o : Object V) : Except Crash (Db V) := do
  let s ← o.parents.named.foldlM (fixChildren old new) s
  let o ← s.dereference (.obj new)
  let s ← o.children.foldlM (fixParents old new) s
  let s ← fixPlace old new s o.location
  let o ← s.dereference (.obj new)
  let s ← o.contents.foldlM (fixLocation new) s
  (s.anonymousObjects old).foldlM (fixAnonParents old new) s

def fixUsers (s : Db V) (old new : Int) : Db V :=
  if isUser s new then
    match s.allUsers.findIdx? (· = old) with
    | some i => { s with allUsers := s.allUsers.set i new }
    | none => s
  else s

def fixNumberedOwners (s : Db V) (old new : Int) : Db V :=
  { s with object := fun v =>
      match v with
      | .obj _ => (s.object v).map (renumberOwners old new)
      | .anon _ => s.object v }

def dbRenumberObject (s : Db V) (old : Int) : Except Crash (Int × Db V) := do
  match leastFree s old with
  | none => return (old, s)
  | some free =>
      let new : Int := free
      let o ← s.dereference (.obj old)
      let s ← fixRelatives (changeIdentity s old new o) old new o
      let s := fixNumberedOwners (fixUsers (moveAnonIndex s old new) old new) old new
      let s ← (indexedAnons s).foldlM
        (fun s address => s.modify (.anon address) (renumberAnonOwners old new)) s
      return (new, s)

end ToastStunt
