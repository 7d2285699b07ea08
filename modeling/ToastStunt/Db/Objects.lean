import ToastStunt.Db.Properties

/-!
Creating, re-parenting and destroying objects, from db_objects.cc.
-/

namespace ToastStunt

open FirstVisit

variable {V : Type}

def dbInitObject (id : Int) : Object V where
  id := id
  owner := NOTHING
  flags := ∅
  location := NOTHING
  contents := []
  parents := .obj NOTHING
  children := []
  propdefs := []
  propval := []
  verbdefs := []

/-- `db_create_object` with the number it settles on. An anonymous object takes up the next number
of the table until `db_make_anonymous` gives it back. -/
def dbCreateObject (s : Db V) (newObjid : Int) (anonymous : Bool) : ObjVar × Int × Db V :=
  let appended := newObjid ≤ 0 ∨ s.numObjects ≤ newObjid
  let oid := if appended then s.numObjects else newObjid
  let s := if appended then { s with numObjects := s.numObjects + 1 } else s
  if anonymous then
    (.anon s.nextAnon, oid,
      { s.setObject (.anon s.nextAnon) (some (dbInitObject oid)) with nextAnon := s.nextAnon + 1 })
  else (.obj oid, oid, s.setObject (.obj oid) (some (dbInitObject oid)))

def dbSetObjectOwner (s : Db V) (v : ObjVar) (owner : Int) : Except Crash (Db V) :=
  s.modify v fun o => { o with owner := owner }

/-- The loop stops at the last used number or at `oid`, so it runs at most as often as there are
numbers above `oid`. -/
def dbSetLastUsedObjid (s : Db V) (oid : Int) : Db V :=
  (List.range (s.numObjects - oid).toNat).foldl (fun s _ =>
    if !s.valid (s.numObjects - 1) && s.numObjects > oid then
      { s with numObjects := s.numObjects - 1 }
    else s) s

def dbLastUsedObjid (s : Db V) : Int := s.numObjects - 1

def resetLastUsed : Nat → Db V → Except Crash (Db V)
  | 0, _ => .error .outOfBounds
  | turns + 1, s =>
      if s.valid (s.numObjects - 1) then .ok s
      else resetLastUsed turns { s with numObjects := s.numObjects - 1 }

def dbResetLastUsedObjid (s : Db V) : Except Crash (Db V) := resetLastUsed s.numObjects.toNat s

def isUser (s : Db V) (oid : Int) : Bool :=
  match s.object (.obj oid) with
  | none => false
  | some o => .user ∈ o.flags

def isWizard (s : Db V) (oid : Int) : Bool :=
  match s.object (.obj oid) with
  | none => false
  | some o => .wizard ∈ o.flags

def dbDestroyObject (s : Db V) (oid : Int) : Except Crash (Db V) :=
  match s.object (.obj oid) with
  | none => .error .panic
  | some o =>
      if o.location ≠ NOTHING ∨ o.contents ≠ [] ∨ o.parents.named ≠ [] ∨ o.children ≠ [] then
        .error .panic
      else
        let users := if isUser s oid then setremove s.allUsers oid else s.allUsers
        .ok { s.setObject (.obj oid) none with allUsers := users }

def dbprivRemoveAnon (s : Db V) (parent : Int) (address : Nat) : Db V :=
  { s with anonymousObjects := fun p =>
      if p = parent then (s.anonymousObjects p).erase address else s.anonymousObjects p }

def dbprivAddAnon (s : Db V) (parent : Int) (address : Nat) : Db V :=
  { s with anonymousObjects := fun p =>
      if p = parent then addNew (s.anonymousObjects p) address else s.anonymousObjects p }

/-- The object is flagged invalid and everything it holds is freed: no later step can tell it from
one whose storage is gone. -/
def dbDestroyAnonymousObject (s : Db V) (address : Nat) : Except Crash (Db V) := do
  let o ← s.dereference (.anon address)
  let s := o.parents.named.foldl (fun s parent => dbprivRemoveAnon s parent address) s
  return s.setObject (.anon address) none

def dbMakeAnonymous (s : Db V) (address : Nat) (last : Int) : Except Crash (Db V) :=
  (dbSetLastUsedObjid s last).modify (.anon address) fun o =>
    { o with id := NOTHING, children := [], contents := [] }

/-- The inner loop starts at `i + i`. -/
def checkForDuplicates : ObjOrList → Bool
  | .obj _ => true
  | .list oids =>
      (List.range' 1 oids.length).all fun i =>
        (List.range' (i + i) (oids.length + 1 - (i + i))).all fun j =>
          oids.getD (i - 1) 0 ≠ oids.getD (j - 1) 0

def checkChildrenOfObject (s : Db V) (obj : ObjVar) (anonKids : List Nat) : Except Crash Bool := do
  let bad ← anonKids.anyM fun kid => do
    let o ← s.dereference (.anon kid)
    match o.parents with
    | .obj parent => return obj ≠ .obj parent
    | .list parents => return obj ∉ parents.map .obj
  return !bad

def relinkChildren (s : Db V) (oid : Int) (old new : ObjOrList) : Except Crash (Db V) := do
  let s ← old.named.foldlM (fun s parent =>
    s.modify (.obj parent) fun o => { o with children := setremove o.children oid }) s
  new.named.foldlM (fun s parent =>
    s.modify (.obj parent) fun o => { o with children := setadd o.children oid }) s

def relinkAnon (s : Db V) (address : Nat) (old new : ObjOrList) : Db V :=
  let s := old.named.foldl (fun s parent => dbprivRemoveAnon s parent address) s
  new.named.foldl (fun s parent => dbprivAddAnon s parent address) s

def relink (s : Db V) (v : ObjVar) (old new : ObjOrList) : Except Crash (Db V) :=
  match v with
  | .obj oid => relinkChildren s oid old new
  | .anon address => .ok (relinkAnon s address old new)

def gatheredKids (s : Db V) (v : ObjVar) (anonKids : List Nat) : List Nat :=
  if anonKids.isEmpty then
    match v with
    | .obj oid => s.anonymousObjects oid
    | .anon _ => []
  else anonKids

def dbChangeParents (s : Db V) (obj : ObjVar) (newParents : ObjOrList) (anonKids : List Nat) :
    Except Crash (Bool × Db V) := do
  if !checkForDuplicates newParents then
    return (false, s)
  let anonKids := gatheredKids s obj anonKids
  if !(← checkChildrenOfObject s obj anonKids) then
    return (false, s)
  if !(← dbprivCheckPropertiesForChparent s obj newParents anonKids) then
    return (false, s)
  let o ← s.dereference obj
  let oldAncestors := dbAncestors s obj true
  let s ← relink s obj o.parents newParents
  let s ← s.modify obj fun o => { o with parents := newParents }
  let newAncestors := dbAncestors s obj true
  let s ← dbprivFixPropertiesAfterChparent (traversalDepth s + 1) obj oldAncestors newAncestors
    anonKids s
  return (true, s)

def modifyValid (s : Db V) (oid : Int) (f : Object V → Object V) : Except Crash (Db V) :=
  if s.valid oid then s.modify (.obj oid) f else .ok s

def dbChangeLocation (s : Db V) (oid newLocation : Int) (position : Nat) :
    Except Crash (Db V) := do
  let o ← s.dereference (.obj oid)
  let s ← modifyValid s o.location fun l => { l with contents := setremove l.contents oid }
  let s ← modifyValid s newLocation fun l =>
    let position := if position = 0 then l.contents.length + 1 else position
    { l with contents := l.contents.insertIdx (min (position - 1) l.contents.length) oid }
  s.modify (.obj oid) fun o => { o with location := newLocation }

def fixupOwner (obj owner : Int) : Int := if owner = obj then NOTHING else owner

def doFixupOwners (obj : Int) (o : Object V) : Object V :=
  { o with
    owner := fixupOwner obj o.owner
    verbdefs := o.verbdefs.map fun v => { v with owner := fixupOwner obj v.owner }
    propval := o.propval.map fun p => { p with owner := fixupOwner obj p.owner } }

/-- Every numbered object, then every anonymous object of the index, whose keys are numbers of the
table. A second pass over an object with several parents finds nothing left to do. -/
def dbFixupOwners (s : Db V) (obj : Int) : Db V :=
  { s with object := fun v =>
      match v with
      | .obj _ => (s.object v).map (doFixupOwners obj)
      | .anon address =>
          if (List.range s.numObjects.toNat).any fun parent : Nat =>
              address ∈ s.anonymousObjects parent then
            (s.object v).map (doFixupOwners obj)
          else s.object v }

end ToastStunt
