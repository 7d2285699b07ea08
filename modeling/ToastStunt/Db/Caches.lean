import Mathlib.Control.Monad.Basic
import ToastStunt.Db.Verbs

/-!
The server with its two caches: the ancestors that db_objects.cc remembers
(`USE_ANCESTOR_CACHE`) and the verb lookups that db_verbs.cc remembers (`VERB_CACHE`).
Every function here is the one of the same name elsewhere, with the caches beside it.
-/

namespace ToastStunt

variable {V : Type}

/-- A `handle`: the definer by its address, the verb by its position there. -/
structure VerbHandle where
  definer : Nat
  verbdef : Nat
deriving DecidableEq, Repr

structure VcEntry where
  hash : BitVec 32
  object : Nat
  verbname : CString
  h : Option VerbHandle
deriving DecidableEq, Repr

/-- The caches, and where each object is in memory: renumbering an object moves it to another
number but not to another address. A `vc_table` that is not yet allocated has empty buckets. -/
structure Caches where
  address : ObjVar → Nat
  ancestorCache : Int → Option (List ObjVar)
  vcTable : Nat → List VcEntry

abbrev Cached : Type → Type := StateT Caches (Except Crash)

def VC_SIZE : Nat := 7507

/-- `str_hash(verb) ^ ~first_parent_with_verbs`, cut to an `unsigned int`. -/
def vcHash (verb : CString) (object : Nat) : BitVec 32 := strHash verb ^^^ ~~~(BitVec.ofNat 32 object)

def vcBucket (hash : BitVec 32) : Nat := hash.toNat % VC_SIZE

def VcEntry.isFor (vc : VcEntry) (hash : BitVec 32) (object : Nat) (verb : CString) : Bool :=
  hash = vc.hash && object = vc.object && strcasecmp verb vc.verbname = 0

namespace Caches

def empty : Caches where
  address _ := 0
  ancestorCache _ := none
  vcTable _ := []

def handle (c : Caches) (found : ObjVar × Nat) : VerbHandle := ⟨c.address found.1, found.2⟩

def placed (v : ObjVar) (pointer : Nat) (c : Caches) : Caches :=
  { c with address := fun w => if w = v then pointer else c.address w }

def remember (oid : Int) (ancestors : List ObjVar) (c : Caches) : Caches :=
  { c with ancestorCache := fun p => if p = oid then some ancestors else c.ancestorCache p }

def forget (descendants : List ObjVar) (c : Caches) : Caches :=
  { c with ancestorCache := fun p => if .obj p ∈ descendants then none else c.ancestorCache p }

def insert (vc : VcEntry) (c : Caches) : Caches :=
  { c with vcTable := fun bucket =>
      if bucket = vcBucket vc.hash then vc :: c.vcTable bucket else c.vcTable bucket }

def lookup (c : Caches) (object : Nat) (verb : CString) : Option VcEntry :=
  let hash := vcHash verb object
  (c.vcTable (vcBucket hash)).find? fun vc => vc.isFor hash object verb

def withoutAncestors (c : Caches) : Caches := { c with ancestorCache := fun _ => none }

def withoutVerbs (c : Caches) : Caches := { c with vcTable := fun _ => [] }

end Caches

namespace Cached

def dbClearAncestorCache : Cached Unit := modify Caches.withoutAncestors

def dbPrivAffectedCallableVerbLookup : Cached Unit := modify Caches.withoutVerbs

section Ancestors

def rememberedAncestors (s : Db V) (obj : ObjVar) (oid : Int) : Cached (List ObjVar) := do
  match (← get).ancestorCache oid with
  | some ancestors => return ancestors
  | none =>
      modify (Caches.remember oid (ToastStunt.dbAncestors s obj false))
      return ToastStunt.dbAncestors s obj false

/-- The test for `#-1` reads a list of parents as a number, which it never is. -/
def dbAncestors (s : Db V) (obj : ObjVar) (full : Bool) : Cached (List ObjVar) := do
  let o ← s.dereference obj
  match obj with
  | .anon _ => return ToastStunt.dbAncestors s obj full
  | .obj _ =>
      if o.parents = .obj NOTHING then
        return ToastStunt.dbAncestors s obj full
      else
        let ancestors ← rememberedAncestors s obj o.id
        return if full then obj :: ancestors else ancestors

def propertiesOffset (s : Db V) (target this : ObjVar) : Cached (Option Nat) := do
  return offsetIn s target (← dbAncestors s this true)

def parentWith (s : Db V) (ancestor : ObjVar) : List Int → Cached (Option (Int × Nat))
  | [] => return none
  | parent :: rest => do
      if s.valid parent then
        match ← propertiesOffset s ancestor (.obj parent) with
        | some offset => return some (parent, offset)
        | none => parentWith s ancestor rest
      else parentWith s ancestor rest

def slotsOf (s : Db V) (me : Object V) (oldAncestors : List ObjVar) (ancestor : ObjVar) :
    Cached (List (Pval V)) :=
  let count := propdefsLength s ancestor
  match offsetIn s ancestor oldAncestors with
  | some offset => liftM (slotsAt me.propval offset count)
  | none =>
      if count = 0 then return []
      else do
        match ← parentWith s ancestor (enlistVar me.parents) with
        | none => throw .outOfBounds
        | some (parent, offset) => do
            let op ← s.dereference (.obj parent)
            let inherited ← slotsAt op.propval offset count
            return inherited.map fun pv => { pv with var := .clear }.ownedBy me.owner

def ancestorsThrough (s : Db V) (obj child : ObjVar) (oldAncestors newAncestors : List ObjVar) :
    Cached (List ObjVar × List ObjVar) := do
  let oc ← s.dereference child
  match oc.parents with
  | .list parents =>
      parents.foldlM (fun (lists : List ObjVar × List ObjVar) parent => do
        let op ← s.dereference (.obj parent)
        if .obj op.id = obj then
          return (FirstVisit.addAll lists.1 oldAncestors, FirstVisit.addAll lists.2 newAncestors)
        let all ← dbAncestors s (.obj op.id) true
        return (FirstVisit.addAll lists.1 all, FirstVisit.addAll lists.2 all)) ([child], [child])
  | .obj _ => return (child :: oldAncestors, child :: newAncestors)

def dbprivFixPropertiesAfterChparent :
    Nat → ObjVar → List ObjVar → List ObjVar → List Nat → Db V → Cached (Db V)
  | 0, _, _, _, _, _ => throw .unbounded
  | fuel + 1, obj, oldAncestors, newAncestors, anonKids, s => do
      let me ← s.dereference obj
      if countSlots s oldAncestors ≠ me.propval.length then
        throw .assertion
      let newPropval ← newAncestors.mapM (slotsOf s me oldAncestors)
      let s ← s.modify obj fun o => { o with propval := newPropval.flatten }
      let children := me.children.map ObjVar.obj ++ anonKids.map ObjVar.anon
      children.foldlM (fun s child => do
        let (old, new) ← ancestorsThrough s obj child oldAncestors newAncestors
        dbprivFixPropertiesAfterChparent fuel child old new (childAnonKids s child) s) s

def affectedByParents (o : Object V) : Cached Unit :=
  if o.verbdefs = [] ∧ o.children = [] then return ()
  else dbPrivAffectedCallableVerbLookup

def forgetDescendants (s : Db V) : ObjVar → Cached Unit
  | .obj oid => modify (Caches.forget (dbDescendants s (.obj oid) true))
  | .anon _ => return ()

def dbChangeParents (s : Db V) (obj : ObjVar) (newParents : ObjOrList) (anonKids : List Nat) :
    Cached (Bool × Db V) := do
  if !checkForDuplicates newParents then
    return (false, s)
  let anonKids := gatheredKids s obj anonKids
  if !(← checkChildrenOfObject s obj anonKids) then
    return (false, s)
  if !(← dbprivCheckPropertiesForChparent s obj newParents anonKids) then
    return (false, s)
  let o ← s.dereference obj
  affectedByParents o
  let oldAncestors ← dbAncestors s obj true
  let s ← relink s obj o.parents newParents
  let s ← s.modify obj fun o => { o with parents := newParents }
  forgetDescendants s obj
  let newAncestors ← dbAncestors s obj true
  let s ← dbprivFixPropertiesAfterChparent (traversalDepth s + 1) obj oldAncestors newAncestors
    anonKids s
  return (true, s)

end Ancestors

section Objects

def dbCreateObject (s : Db V) (newObjid : Int) (anonymous : Bool) (pointer : Nat) :
    Cached (ObjVar × Int × Db V) := do
  let made := ToastStunt.dbCreateObject s newObjid anonymous
  modify (Caches.placed made.1 pointer)
  return made

def dbDestroyObject (s : Db V) (oid : Int) : Cached (Db V) := do
  dbPrivAffectedCallableVerbLookup
  ToastStunt.dbDestroyObject s oid

def dbResetLastUsedObjid (s : Db V) : Cached (Db V) := do
  let s ← ToastStunt.dbResetLastUsedObjid s
  dbClearAncestorCache
  return s

/-- The pointer of the object is what moves. -/
def dbRenumberObject (s : Db V) (old : Int) : Cached (Int × Db V) := do
  dbClearAncestorCache
  let (new, s) ← ToastStunt.dbRenumberObject s old
  modify fun c => c.placed (.obj new) (c.address (.obj old))
  return (new, s)

def bfCreate (s : Db V) (progr : Int) (parents : ObjOrList) (owner : Int) (anonymous : Bool)
    (pointer : Nat) : Cached (Outcome × Db V) := do
  if (anonymous && owner = NOTHING) || (!s.valid owner && owner ≠ NOTHING)
      || unusableParents s parents then
    return (.error .E_INVARG, s)
  if (progr ≠ owner && !isWizard s progr)
      || !(← parentsAllowed s progr (if anonymous then .anonymous else .fertile) parents) then
    return (.error .E_PERM, s)
  let last := dbLastUsedObjid s
  let (v, oid, s') ← dbCreateObject s (-1) anonymous pointer
  let s' ← dbSetObjectOwner s' v (if s.valid owner then owner else oid)
  match ← dbChangeParents s' v parents [] with
  | (false, s') =>
      let s' ← match v with
        | .anon address => dbDestroyAnonymousObject s' address
        | .obj oid => dbDestroyObject s' oid
      return (.error .E_INVARG, dbSetLastUsedObjid s' last)
  | (true, s') =>
      match v with
      | .anon address => return (.object v, ← dbMakeAnonymous s' address last)
      | .obj _ => return (.object v, s')

def bfRecreate (s : Db V) (progr old parent owner : Int) (pointer : Nat) :
    Cached (Outcome × Db V) := do
  if old ≤ 0 || old > dbLastUsedObjid s || s.valid old then
    return (.error .E_INVARG, s)
  let owner := if s.valid owner then owner else progr
  if (progr ≠ owner && !isWizard s progr)
      || !(← parentsAllowed s progr .fertile (.obj parent)) then
    return (.error .E_PERM, s)
  let (v, oid, s') ← dbCreateObject s old false pointer
  let s' ← dbSetObjectOwner s' v (if s.valid owner then owner else oid)
  match ← dbChangeParents s' v (.obj parent) [] with
  | (false, s') => return (.error .E_INVARG, ← dbDestroyObject s' oid)
  | (true, s') => return (.object v, s')

def bfChparentChparents (s : Db V) (progr : Int) (obj : ObjVar) (what : ObjOrList) :
    Cached (Outcome × Db V) := do
  if !isValid s obj || unusableParents s what then
    return (.error .E_INVARG, s)
  if !(← controls2 s progr obj) || !(← parentsAllowed s progr .fertile what) then
    return (.error .E_PERM, s)
  if (enlistVar what).any fun parent => isADescendant s parent obj then
    return (.error .E_RECMOVE, s)
  match ← dbChangeParents s obj what [] with
  | (false, s) => return (.error .E_INVARG, s)
  | (true, s) => return (.done, s)

def reparentChildren (oid : Int) : Nat → Db V → Cached (Bool × Db V)
  | 0, _ => throw .unbounded
  | fuel + 1, s => do
      match ← dbNextChild s oid with
      | none => return (true, s)
      | some child =>
          let c ← s.dereference child
          let o ← s.dereference (.obj oid)
          match ← dbChangeParents s child (splicedParents s oid c.parents o.parents) [] with
          | (false, s) => return (false, s)
          | (true, s) => reparentChildren oid fuel s

def recycleObject (s : Db V) (oid : Int) : Cached (Outcome × Db V) := do
  let o ← s.dereference (.obj oid)
  let s ← moveContents oid (o.contents.length + 1) s
  let s ← leaveLocation s oid
  match ← reparentChildren oid (reparentTurns s oid + 1) s with
  | (false, s) => return (.error .E_INVARG, s)
  | (true, s) =>
      let (_, s) ← dbChangeParents s (.obj oid) (.obj NOTHING) []
      let s := dbFixupOwners s oid
      return (.done, ← dbDestroyObject s oid)

def bfRecycle (s : Db V) (progr : Int) (obj : ObjVar) : Cached (Outcome × Db V) := do
  if !isValid s obj then
    return (.error .E_INVARG, s)
  if !(← controls2 s progr obj) then
    return (.error .E_PERM, s)
  match obj with
  | .obj oid => recycleObject s oid
  | .anon address => return (.done, ← dbDestroyAnonymousObject s address)

def bfRenumber (s : Db V) (progr oid : Int) : Cached (Outcome × Db V) := do
  if !s.valid oid then
    return (.error .E_INVARG, s)
  if !isWizard s progr then
    return (.error .E_PERM, s)
  let (new, s) ← dbRenumberObject s oid
  return (.object (.obj new), s)

def bfResetMaxObject (s : Db V) (progr : Int) : Cached (Outcome × Db V) := do
  if !isWizard s progr then
    return (.error .E_PERM, s)
  return (.done, ← dbResetLastUsedObjid s)

end Objects

section Verbs

def cachedVerbdef (s : Db V) (verb : Word) (top : ObjVar) : Cached (Option VerbHandle) := do
  let c ← get
  match c.lookup (c.address top) verb.text with
  | some vc => return vc.h
  | none =>
      let found ← findCallableVerbdef s top verb
      let h := found.map c.handle
      modify (Caches.insert ⟨vcHash verb.text (c.address top), c.address top, verb.text, h⟩)
      return h

/-- The parents of an object without verbs take its place on the stack, which is popped at the
front; the search goes on after an object that is known not to have the verb. -/
def searchStack (s : Db V) (verb : Word) : Nat → List ObjVar → Cached (Option VerbHandle)
  | 0, _ => throw .unbounded
  | fuel + 1, stack =>
      stack.foldlM (fun found top =>
        match found with
        | some h => return some h
        | none => do
            if isValid s top then
              let o ← s.dereference top
              if o.verbdefs = [] then
                searchStack s verb fuel ((enlistVar o.parents).map .obj)
              else cachedVerbdef s verb top
            else return none) none

def dbFindCallableVerb (s : Db V) (recv : ObjVar) (verb : Word) :
    Cached (Option VerbHandle) :=
  searchStack s verb (traversalDepth s + 1) [recv]

def dbAddVerb (s : Db V) (obj : ObjVar) (vnames : Word) (owner : Int) (flags : Nat)
    (dobj : ArgSpec) (prep : Int) (iobj : ArgSpec) : Cached (Db V) := do
  dbPrivAffectedCallableVerbLookup
  ToastStunt.dbAddVerb s obj vnames owner flags dobj prep iobj

def dbDeleteVerb (s : Db V) (h : ObjVar × Nat) : Cached (Db V) := do
  dbPrivAffectedCallableVerbLookup
  ToastStunt.dbDeleteVerb s h

def dbSetVerbFlags (s : Db V) (h : ObjVar × Nat) (flags : Nat) : Cached (Db V) := do
  dbPrivAffectedCallableVerbLookup
  ToastStunt.dbSetVerbFlags s h flags

def dbSetVerbNames (s : Db V) (h : ObjVar × Nat) (names : Word) : Cached (Db V) := do
  dbPrivAffectedCallableVerbLookup
  ToastStunt.dbSetVerbNames s h names

def dbSetVerbArgSpecs (s : Db V) (h : ObjVar × Nat) (dobj : ArgSpec) (prep : Int)
    (iobj : ArgSpec) : Cached (Db V) := do
  dbPrivAffectedCallableVerbLookup
  ToastStunt.dbSetVerbArgSpecs s h dobj prep iobj

def bfAddVerb (s : Db V) (progr oid owner : Int) (flags : Nat) (names : CString) (copy : Nat)
    (dobj : ArgSpec) (prep : Int) (iobj : ArgSpec) : Cached (Outcome × Db V) := do
  match validateVerbInfo s owner names copy with
  | none => return (.error .E_INVARG, s)
  | some names =>
      if !s.valid oid then
        return (.error .E_INVARG, s)
      if !(← dbObjectAllows s (.obj oid) progr .write) || (progr ≠ owner && !isWizard s progr) then
        return (.error .E_PERM, s)
      return (.done, ← dbAddVerb s (.obj oid) names owner flags dobj prep iobj)

def bfDeleteVerb (s : Db V) (progr oid : Int) (desc : VerbDesc) : Cached (Outcome × Db V) := do
  if !validateVerbDescriptor desc || !s.valid oid then
    return (.error .E_INVARG, s)
  if !(← dbObjectAllows s (.obj oid) progr .write) then
    return (.error .E_PERM, s)
  let o ← s.dereference (.obj oid)
  match findDescribedVerb o desc with
  | none => return (.error .E_VERBNF, s)
  | some i => return (.done, ← dbDeleteVerb s (.obj oid, i))

def bfSetVerbInfo (s : Db V) (progr oid : Int) (desc : VerbDesc) (owner : Int) (flags : Nat)
    (names : CString) (copy : Nat) : Cached (Outcome × Db V) := do
  if !validateVerbDescriptor desc || !s.valid oid then
    return (.error .E_INVARG, s)
  match validateVerbInfo s owner names copy with
  | none => return (.error .E_INVARG, s)
  | some names =>
      let o ← s.dereference (.obj oid)
      match findDescribedVerb o desc with
      | none => return (.error .E_VERBNF, s)
      | some i =>
          if !(← dbVerbAllows s (.obj oid, i) progr 1)
              || (!isWizard s progr && !verbOwnedBy o i owner) then
            return (.error .E_PERM, s)
          let s ← dbSetVerbOwner s (.obj oid, i) owner
          let s ← dbSetVerbFlags s (.obj oid, i) flags
          return (.done, ← dbSetVerbNames s (.obj oid, i) names)

def bfSetVerbArgs (s : Db V) (progr oid : Int) (desc : VerbDesc) (dobj : ArgSpec) (prep : Int)
    (iobj : ArgSpec) : Cached (Outcome × Db V) := do
  if !validateVerbDescriptor desc || !s.valid oid then
    return (.error .E_INVARG, s)
  let o ← s.dereference (.obj oid)
  match findDescribedVerb o desc with
  | none => return (.error .E_VERBNF, s)
  | some i =>
      if !(← dbVerbAllows s (.obj oid, i) progr 1) then
        return (.error .E_PERM, s)
      return (.done, ← dbSetVerbArgSpecs s (.obj oid, i) dobj prep iobj)

end Verbs

end Cached

end ToastStunt
