import ToastStunt.Db.Types

/-!
`ng_validate_hierarchies` of db_file.cc, on the objects that `ng_read_object` has read.
-/

namespace ToastStunt.Dbio

open FirstVisit

/-- A value as these functions see it: an object number, or something else whose bits are
`bits` when they are taken for one. -/
inductive Item
  | obj (oid : Int)
  | other (bits : Int)
  deriving DecidableEq

inductive Field
  | item (value : Item)
  | list (items : List Item)
  deriving DecidableEq

def Item.vObj : Item → Int
  | .obj oid => oid
  | .other bits => bits

def Item.isObj : Item → Bool
  | .obj _ => true
  | .other _ => false

def isObj : Field → Bool
  | .item value => value.isObj
  | .list _ => false

def isListOfObjs : Field → Bool
  | .item _ => false
  | .list items => items.all Item.isObj

def isObjOrListOfObjs (field : Field) : Bool := isObj field || isListOfObjs field

def enlistField : Field → List Item
  | .item value => [value]
  | .list items => items

structure FileObject where
  location : Field
  contents : Field
  parents : Field
  children : Field
  deriving DecidableEq

/-- `objects[]`, up to `num_objects` and behind it, where the anonymous objects are. -/
structure FileDb where
  permanent : List (Option FileObject)
  anonymous : List (Option FileObject)
  deriving DecidableEq

def FileDb.find (db : FileDb) (oid : Int) : Option FileObject :=
  if oid < 0 then none else ((db.permanent ++ db.anonymous)[oid.toNat]?).join

def FileDb.valid (db : FileDb) (oid : Int) : Bool := (db.find oid).isSome

/-! Phase 1. -/

section

variable (valid : Int → Bool)

def invalidItem (item : Item) : Bool := item.vObj ≠ NOTHING && !valid item.vObj

/-- The count is taken before the first turn, and the body shortens the list. -/
def checkItems : Nat → Nat → List Item → Except Crash (List Item)
  | 0, _, items => .ok items
  | turns + 1, i, items =>
      match items[i]? with
      | none => .error .outOfBounds
      | some item =>
          checkItems turns (i + 1) (if invalidItem valid item then items.erase item else items)

def checkField : Field → Except Crash Field
  | .item value => .ok (.item (if invalidItem valid value then .obj NOTHING else value))
  | .list items => (checkItems valid items.length 0 items).map .list

def wellTyped (o : FileObject) : Bool :=
  isObjOrListOfObjs o.parents && isListOfObjs o.children && isObj o.location &&
    isListOfObjs o.contents

def checkFields (o : FileObject) : Except Crash FileObject := do
  let parents ← checkField valid o.parents
  let children ← checkField valid o.children
  let location ← checkField valid o.location
  let contents ← checkField valid o.contents
  return ⟨location, contents, parents, children⟩

/-- With `broken`, which is never reset. -/
def checkObjects : Bool → List (Option FileObject) →
    Except Crash (Bool × List (Option FileObject))
  | broken, [] => .ok (broken, [])
  | broken, none :: rest => do
      let (broken, rest) ← checkObjects broken rest
      return (broken, none :: rest)
  | broken, some o :: rest =>
      if broken || !wellTyped o then do
        let (broken, rest) ← checkObjects true rest
        return (broken, some o :: rest)
      else do
        let o ← checkFields valid o
        let (broken, rest) ← checkObjects broken rest
        return (broken, some o :: rest)

end

/-! Phase 2. -/

section

variable (db : FileDb)

def follow (field : FileObject → Field) (oid : Int) : List Int :=
  match db.find oid with
  | none => []
  | some o => ((enlistField (field o)).map Item.vObj).filter db.valid

def above (field : FileObject → Field) (oid : Int) : List Int :=
  visit (follow db field) (db.permanent.length + db.anonymous.length + 1) (follow db field oid) []

def permanentOids : List Int := (List.range db.permanent.length).map Int.ofNat

def hasCycle (oid : Int) : Bool :=
  db.valid oid && (oid ∈ above db FileObject.parents oid || oid ∈ above db FileObject.location oid)

/-! Phase 3. -/

/-- The loop ends with the first that does not know `oid`. -/
def checkLinks (oid : Int) (down : FileObject → Field) : List Item → Except Crash Bool
  | [] => .ok true
  | item :: rest =>
      if item.vObj = NOTHING then checkLinks oid down rest
      else
        match db.find item.vObj with
        | none => .error .nullDereference
        | some other =>
            if .obj oid ∈ enlistField (down other) then checkLinks oid down rest else .ok false

def checkObject (oid : Int) : Except Crash Bool :=
  match db.find oid with
  | none => .ok true
  | some o => do
      let located ← checkLinks db oid FileObject.contents (enlistField o.location)
      let contained ← checkLinks db oid FileObject.location (enlistField o.contents)
      let descended ← checkLinks db oid FileObject.children (enlistField o.parents)
      let inherited ← checkLinks db oid FileObject.parents (enlistField o.children)
      return located && contained && descended && inherited

def checkConsistent : List Int → Except Crash Bool
  | [] => .ok true
  | oid :: rest => do
      let here ← checkObject db oid
      let others ← checkConsistent rest
      return here && others

end

/-- The answer, and the objects as they are repaired. -/
def ngValidateHierarchies (db : FileDb) : Except Crash (Bool × FileDb) := do
  let (broken, permanent) ← checkObjects db.valid false db.permanent
  let db := { db with permanent }
  if broken then return (false, db)
  else if (permanentOids db).any (hasCycle db) then return (false, db)
  else do
    let consistent ← checkConsistent db (permanentOids db)
    return (consistent, db)

end ToastStunt.Dbio
