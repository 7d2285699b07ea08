import Mathlib.Data.Finset.Basic
import Mathlib.Data.Finset.Insert
import ToastStunt.Library.FirstVisit
import ToastStunt.Strings

/-!
The object table of the in-memory database: permanent objects by number,
anonymous objects by address, and the index of anonymous children. Property
values are an arbitrary type; memory management is not modelled.
-/

namespace ToastStunt

/-- An `Objid` of the source is an `Int`. -/
def NOTHING : Int := -1

/-- A `Var` that names an object: `TYPE_OBJ`, or `TYPE_ANON` with the object's address. -/
inductive ObjVar where
  | obj (oid : Int)
  | anon (address : Nat)
deriving DecidableEq, Repr

/-- A `Var` that is an object number or a list of object numbers. -/
inductive ObjOrList where
  | obj (oid : Int)
  | list (oids : List Int)
deriving DecidableEq, Repr

def enlistVar : ObjOrList → List Int
  | .obj oid => [oid]
  | .list oids => oids

/-- The entries that the code follows as parents: `#-1` alone stands for none. -/
def ObjOrList.named : ObjOrList → List Int
  | .obj oid => if oid = NOTHING then [] else [oid]
  | .list oids => oids

inductive ObjectFlag where
  | user | programmer | wizard | obsolete1 | read | write | obsolete2 | fertile | anonymous
  | invalid | recycled
deriving DecidableEq, Repr

inductive PropVar (V : Type) where
  | clear
  | value (v : V)
deriving DecidableEq, Repr

structure Pval (V : Type) where
  var : PropVar V
  owner : Int
  perms : Nat
deriving DecidableEq, Repr

def Pval.chown {V : Type} (pval : Pval V) : Bool := pval.perms.testBit 2

structure Propdef where
  name : CString
  hash : BitVec 32
deriving DecidableEq, Repr

def dbprivNewPropdef (name : CString) : Propdef := ⟨name, strHash name⟩

/-- A string in memory. A literal of the server and a fresh copy have an address that no other
string is asked for, and are given none. -/
structure Word where
  text : CString
  address : Option Nat
deriving DecidableEq, Repr

structure Verbdef where
  name : Word
  owner : Int
  perms : Nat
  prep : Int
deriving DecidableEq, Repr

structure Object (V : Type) where
  id : Int
  owner : Int
  flags : Finset ObjectFlag
  location : Int
  contents : List Int
  parents : ObjOrList
  children : List Int
  propdefs : List Propdef
  propval : List (Pval V)
  verbdefs : List Verbdef
deriving DecidableEq

/-- `object` holds both `objects[]` and the anonymous objects; an unused number or address
is `none`. `anonymousObjects` is the index of anonymous objects by parent. -/
@[ext] structure Db (V : Type) where
  object : ObjVar → Option (Object V)
  numObjects : Int
  nextAnon : Nat
  anonymousObjects : Int → List Nat
  allUsers : List Int

/-- How an operation can stop the server instead of returning. -/
inductive Crash where
  | nullDereference | outOfBounds | assertion | panic | unbounded
deriving DecidableEq, Repr

variable {V : Type}

namespace Db

def empty : Db V where
  object _ := none
  numObjects := 0
  nextAnon := 0
  anonymousObjects _ := []
  allUsers := []

def valid (s : Db V) (oid : Int) : Bool := (s.object (.obj oid)).isSome

def setObject (s : Db V) (v : ObjVar) (o : Option (Object V)) : Db V :=
  { s with object := fun w => if w = v then o else s.object w }

def modify (s : Db V) (v : ObjVar) (f : Object V → Object V) : Except Crash (Db V) :=
  match s.object v with
  | none => .error .nullDereference
  | some o => .ok (s.setObject v (some (f o)))

def dereference (s : Db V) (v : ObjVar) : Except Crash (Object V) :=
  match s.object v with
  | none => .error .nullDereference
  | some o => .ok o

end Db

def parentsOk (s : Db V) (o : Object V) : Bool :=
  match o.parents with
  | .list oids => oids.all s.valid
  | .obj oid => oid = NOTHING || s.valid oid

/-- `anon_valid`, less its side effect of flagging an object whose parents are gone. -/
def anonValid (s : Db V) : Option (Object V) → Bool
  | none => false
  | some o => !(.invalid ∈ o.flags) && parentsOk s o

def isValid (s : Db V) : ObjVar → Bool
  | .obj oid => s.valid oid
  | .anon address => anonValid s (s.object (.anon address))

section Lists

def setadd (list : List Int) (value : Int) : List Int := FirstVisit.addNew list value

def setremove (list : List Int) (value : Int) : List Int := list.erase value

end Lists

namespace Db

@[simp] theorem setObject_object (s : Db V) (v w : ObjVar) (o : Option (Object V)) :
    (s.setObject v o).object w = if w = v then o else s.object w := rfl

@[simp] theorem setObject_numObjects (s : Db V) (v : ObjVar) (o : Option (Object V)) :
    (s.setObject v o).numObjects = s.numObjects := rfl

@[simp] theorem setObject_nextAnon (s : Db V) (v : ObjVar) (o : Option (Object V)) :
    (s.setObject v o).nextAnon = s.nextAnon := rfl

@[simp] theorem setObject_anonymousObjects (s : Db V) (v : ObjVar) (o : Option (Object V)) :
    (s.setObject v o).anonymousObjects = s.anonymousObjects := rfl

@[simp] theorem setObject_allUsers (s : Db V) (v : ObjVar) (o : Option (Object V)) :
    (s.setObject v o).allUsers = s.allUsers := rfl

theorem modify_ok {s s' : Db V} {v : ObjVar} {f : Object V → Object V}
    (changed : s.modify v f = .ok s') :
    ∃ o, s.object v = some o ∧ s' = s.setObject v (some (f o)) := by
  unfold modify at changed
  split at changed
  · cases changed
  · rename_i o found
    exact ⟨o, found, by simpa using changed.symm⟩

theorem dereference_ok {s : Db V} {v : ObjVar} {o : Object V} :
    s.dereference v = .ok o ↔ s.object v = some o := by
  unfold dereference
  split <;> simp_all

theorem valid_iff {s : Db V} {oid : Int} :
    s.valid oid = true ↔ ∃ o, s.object (.obj oid) = some o := by
  rw [valid, Option.isSome_iff_exists]

end Db

end ToastStunt
