import ToastStunt.Db.Ancestors

/-!
Properties of database objects, from db_properties.cc: the names defined along
the inheritance graph, and the slots in which every object keeps its own value,
owner and permissions for each property that it or an ancestor defines.
-/

namespace ToastStunt

open FirstVisit

variable {V : Type}

def Propdef.named (p : Propdef) (name : CString) (hash : BitVec 32) : Bool :=
  p.hash = hash && strcasecmp p.name name = 0

def propertyDefinedAt (name : CString) (hash : BitVec 32) (o : Object V) : Bool :=
  o.propdefs.any fun p => p.named name hash

/-- The recursion follows `children` without marking, so it ends only on graphs without cycles. -/
def propertyDefinedAtOrBelow (s : Db V) (name : CString) (hash : BitVec 32) :
    Nat → ObjVar → Except Crash Bool
  | 0, _ => .error .unbounded
  | fuel + 1, v => do
      let o ← s.dereference v
      if propertyDefinedAt name hash o then
        return true
      o.children.anyM fun child => propertyDefinedAtOrBelow s name hash fuel (.obj child)

/-- The names of `BUILTIN_PROPERTIES`: name, owner, programmer, wizard, r, w, f, a, location,
last_move, contents. -/
def builtinProperties : List CString :=
  [[110, 97, 109, 101], [111, 119, 110, 101, 114],
    [112, 114, 111, 103, 114, 97, 109, 109, 101, 114], [119, 105, 122, 97, 114, 100],
    [114], [119], [102], [97], [108, 111, 99, 97, 116, 105, 111, 110],
    [108, 97, 115, 116, 95, 109, 111, 118, 101], [99, 111, 110, 116, 101, 110, 116, 115]]

inductive PropHandle where
  | builtIn (index : Nat)
  | slot (definer : ObjVar) (position : Nat)
deriving DecidableEq, Repr

def findSlot (s : Db V) (name : CString) (hash : BitVec 32) :
    List ObjVar → Nat → Option PropHandle
  | [], _ => none
  | definer :: rest, n =>
      match s.object definer with
      | none => findSlot s name hash rest n
      | some o =>
          match o.propdefs.findIdx? fun p => p.named name hash with
          | some i => some (.slot definer (n + i))
          | none => findSlot s name hash rest (n + o.propdefs.length)

/-- The handle of `db_find_property`; `none` is a null `h.ptr`. -/
def dbFindProperty (s : Db V) (obj : ObjVar) (name : CString) : Option PropHandle :=
  match builtinProperties.findIdx? fun builtin =>
      strHash builtin = strHash name && strcasecmp name builtin = 0 with
  | some index => some (.builtIn index)
  | none =>
      findSlot s name (strHash name)
        (obj :: (dbAncestors s obj false).filter (isValid s ·)) 0

def Pval.ownedBy (pval : Pval V) (owner : Int) : Pval V :=
  if pval.chown then { pval with owner := owner } else pval

def insertProp2 (s : Db V) (obj : ObjVar) (pos : Int) (pval : Pval V) : Except Crash (Db V) := do
  let o ← s.dereference obj
  if pos < 0 ∨ o.propval.length < pos then
    .error .outOfBounds
  else
    s.modify obj fun o => { o with propval := o.propval.insertIdx pos.toNat (pval.ownedBy o.owner) }

def offsetOrMinusOne (s : Db V) (target this : ObjVar) : Int :=
  match propertiesOffset s target this with
  | some offset => offset
  | none => -1

/-- The offsets of all descendants are computed before any slot is inserted. -/
def insertPropRecursively (s : Db V) (root : Int) (propPos : Nat) (pv : Pval V) :
    Except Crash (Db V) := do
  let s ← insertProp2 s (.obj root) propPos pv
  let pv := { pv with var := .clear }
  let offsets := (descendantsWithAnons s root).map fun v =>
    (v, offsetOrMinusOne s (.obj root) v)
  offsets.foldlM (fun s entry => insertProp2 s entry.1 (entry.2 + propPos) pv) s

def dbAddPropdef (s : Db V) (obj : ObjVar) (pname : CString) (value : V) (owner : Int)
    (flags : Nat) : Except Crash (Bool × Db V) := do
  let o ← s.dereference obj
  if (dbFindProperty s obj pname).isSome then
    return (false, s)
  if ← propertyDefinedAtOrBelow s pname (strHash pname) (traversalDepth s) obj then
    return (false, s)
  let pval : Pval V := { var := .value value, owner := owner, perms := flags }
  let s ← s.modify obj fun o => { o with propdefs := o.propdefs ++ [dbprivNewPropdef pname] }
  match obj with
  | .obj oid => return (true, ← insertPropRecursively s oid o.propdefs.length pval)
  | .anon _ => return (true, ← insertProp2 s obj o.propdefs.length pval)

def dbRenamePropdef (s : Db V) (obj : ObjVar) (old new : CString) : Except Crash (Bool × Db V) := do
  let o ← s.dereference obj
  match o.propdefs.findIdx? fun p => p.named old (strHash old) with
  | none => return (false, s)
  | some i =>
      if strcasecmp old new ≠ 0 then
        if (dbFindProperty s obj new).isSome then
          return (false, s)
        if ← propertyDefinedAtOrBelow s new (strHash new) (traversalDepth s) obj then
          return (false, s)
      let s ← s.modify obj fun o => { o with propdefs := o.propdefs.set i (dbprivNewPropdef new) }
      return (true, s)

def removeProp2 (s : Db V) (obj : ObjVar) (pos : Int) : Except Crash (Db V) := do
  let o ← s.dereference obj
  if pos < 0 ∨ o.propval.length ≤ pos then
    .error .outOfBounds
  else
    s.modify obj fun o => { o with propval := o.propval.eraseIdx pos.toNat }

def removePropRecursively (s : Db V) (root : Int) (propPos : Nat) : Except Crash (Db V) := do
  let s ← removeProp2 s (.obj root) propPos
  let offsets := (descendantsWithAnons s root).map fun v =>
    (v, offsetOrMinusOne s (.obj root) v)
  offsets.foldlM (fun s entry => removeProp2 s entry.1 (entry.2 + propPos)) s

def dbDeletePropdef (s : Db V) (obj : ObjVar) (pname : CString) : Except Crash (Bool × Db V) := do
  let o ← s.dereference obj
  match o.propdefs.findIdx? fun p => p.named pname (strHash pname) with
  | none => return (false, s)
  | some i =>
      let s ← s.modify obj fun o => { o with propdefs := o.propdefs.eraseIdx i }
      match obj with
      | .obj oid => return (true, ← removePropRecursively s oid i)
      | .anon _ => return (true, ← removeProp2 s obj i)

/-- The stack is popped at the front and the parents of the popped object are put back at the
front, so its contents are the recursion's pending calls. -/
def proposedAncestors (s : Db V) : Nat → List Int → List Int → Except Crash (List Int)
  | 0, _, _ => .error .unbounded
  | fuel + 1, stack, ancestors =>
      stack.foldlM (fun ancestors top =>
        match s.object (.obj top) with
        | none => .ok ancestors
        | some o => proposedAncestors s fuel (enlistVar o.parents) (setadd ancestors top)) ancestors

def dbprivCheckPropertiesForChparent (s : Db V) (obj : ObjVar) (parents : ObjOrList)
    (anonKids : List Nat) : Except Crash Bool := do
  let ancestors ← proposedAncestors s (traversalDepth s + 1) (enlistVar parents) []
  let below ← ancestors.anyM fun ancestor => do
    let o2 ← s.dereference (.obj ancestor)
    o2.propdefs.anyM fun p => do
      if ← propertyDefinedAtOrBelow s p.name p.hash (traversalDepth s) obj then
        return true
      anonKids.anyM fun kid => do
        let o3 ← s.dereference (.anon kid)
        return propertyDefinedAt p.name p.hash o3
  if below then
    return false
  let among ← ancestors.anyM fun ancestor => do
    let o2 ← s.dereference (.obj ancestor)
    ancestors.anyM fun other => do
      if other = ancestor then
        return false
      let o3 ← s.dereference (.obj other)
      return o2.propdefs.any fun p => propertyDefinedAt p.name p.hash o3
  return !among

def slotsAt (slots : List (Pval V)) (offset count : Nat) : Except Crash (List (Pval V)) :=
  if offset + count ≤ slots.length then .ok ((slots.drop offset).take count)
  else .error .outOfBounds

def parentWith (s : Db V) (ancestor : ObjVar) : List Int → Option (Int × Nat)
  | [] => none
  | parent :: rest =>
      if s.valid parent then
        match propertiesOffset s ancestor (.obj parent) with
        | some offset => some (parent, offset)
        | none => parentWith s ancestor rest
      else parentWith s ancestor rest

/-- The new slots of `me` for the properties of one ancestor. Slots that no parent can provide are
read from outside an array. -/
def slotsOf (s : Db V) (me : Object V) (oldAncestors : List ObjVar) (ancestor : ObjVar) :
    Except Crash (List (Pval V)) :=
  let count := propdefsLength s ancestor
  match offsetIn s ancestor oldAncestors with
  | some offset => slotsAt me.propval offset count
  | none =>
      if count = 0 then .ok []
      else
        match parentWith s ancestor (enlistVar me.parents) with
        | none => .error .outOfBounds
        | some (parent, offset) => do
            let op ← s.dereference (.obj parent)
            let inherited ← slotsAt op.propval offset count
            return inherited.map fun pv => { pv with var := .clear }.ownedBy me.owner

def countSlots (s : Db V) (ancestors : List ObjVar) : Nat :=
  Blocks.total (propdefsLength s) ancestors

def ancestorsThrough (s : Db V) (obj child : ObjVar) (oldAncestors newAncestors : List ObjVar) :
    Except Crash (List ObjVar × List ObjVar) := do
  let oc ← s.dereference child
  match oc.parents with
  | .list parents =>
      parents.foldlM (fun (lists : List ObjVar × List ObjVar) parent => do
        let op ← s.dereference (.obj parent)
        if .obj op.id = obj then
          return (addAll lists.1 oldAncestors, addAll lists.2 newAncestors)
        let all := dbAncestors s (.obj op.id) true
        return (addAll lists.1 all, addAll lists.2 all)) ([child], [child])
  | .obj _ => return (child :: oldAncestors, child :: newAncestors)

def childAnonKids (s : Db V) : ObjVar → List Nat
  | .obj oid => dbprivAppendAnonList s oid []
  | .anon _ => []

def dbprivFixPropertiesAfterChparent :
    Nat → ObjVar → List ObjVar → List ObjVar → List Nat → Db V → Except Crash (Db V)
  | 0, _, _, _, _, _ => .error .unbounded
  | fuel + 1, obj, oldAncestors, newAncestors, anonKids, s => do
      let me ← s.dereference obj
      if countSlots s oldAncestors ≠ me.propval.length then
        throw .assertion
      let newPropval ← newAncestors.mapM (slotsOf s me oldAncestors)
      let s ← s.modify obj fun o => { o with propval := newPropval.flatten }
      let children := me.children.map ObjVar.obj ++ anonKids.map ObjVar.anon
      children.foldlM (fun s child => do
        let (old, new) ← ancestorsThrough s obj child oldAncestors newAncestors
        dbprivFixPropertiesAfterChparent fuel child old new (childAnonKids s child) s) s

end ToastStunt
