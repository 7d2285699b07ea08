import ToastStunt.Db.Types
import ToastStunt.Library.Blocks
import Mathlib.Data.Finset.Card
import Mathlib.Order.Interval.Finset.Nat

/-!
The traversals that db_objects.cc generates with `DEFUNC`, and what is known of
them when the inheritance graph has no cycle.
-/

namespace ToastStunt

open FirstVisit

variable {V : Type}

/-- `FOR_EACH(tmp, enlist_var(o->parents))` with the test `valid(tmp.v.obj)`. -/
def parentsOf (s : Db V) (v : ObjVar) : List ObjVar :=
  match s.object v with
  | none => []
  | some o => ((enlistVar o.parents).filter s.valid).map .obj

def childrenOf (s : Db V) (v : ObjVar) : List ObjVar :=
  match s.object v with
  | none => []
  | some o => (o.children.filter s.valid).map .obj

def traversalDepth (s : Db V) : Nat := s.numObjects.toNat + 1

/-- The early return for `#-1` and `{}` is the traversal of an empty list. The ancestor cache only
remembers results of this function. -/
def dbAncestors (s : Db V) (v : ObjVar) (full : Bool) : List ObjVar :=
  (if full then [v] else []) ++ visit (parentsOf s) (traversalDepth s) (parentsOf s v) []

def dbDescendants (s : Db V) (v : ObjVar) (full : Bool) : List ObjVar :=
  (if full then [v] else []) ++ visit (childrenOf s) (traversalDepth s) (childrenOf s v) []

def propdefsLength (s : Db V) (v : ObjVar) : Nat :=
  match s.object v with
  | none => 0
  | some o => o.propdefs.length

def offsetIn (s : Db V) (target : ObjVar) (ancestors : List ObjVar) : Option Nat :=
  Blocks.offset (propdefsLength s) target ancestors

/-- Where the source answers -1 this is `none`. -/
def propertiesOffset (s : Db V) (target this : ObjVar) : Option Nat :=
  offsetIn s target (dbAncestors s this true)

def dbprivAppendAnonList (s : Db V) (root : Int) (seen : List Nat) : List Nat :=
  addAll seen (s.anonymousObjects root)

/-- Everything that carries the properties of `root`: its permanent descendants and then the
anonymous children of `root` and of each of these. -/
def descendantsWithAnons (s : Db V) (root : Int) : List ObjVar :=
  let descendants := dbDescendants s (.obj root) false
  let anons := (ObjVar.obj root :: descendants).foldl (fun seen v =>
    match v with
    | .obj oid => dbprivAppendAnonList s oid seen
    | .anon _ => seen) []
  descendants ++ anons.map .anon

def Ancestor (s : Db V) : ObjVar → ObjVar → Prop := Reach (parentsOf s)

theorem Ancestor.self (s : Db V) (v : ObjVar) : Ancestor s v v := Relation.ReflTransGen.refl

theorem Ancestor.above {s : Db V} {v u w : ObjVar} (edge : u ∈ parentsOf s v)
    (path : Ancestor s u w) : Ancestor s v w :=
  Relation.ReflTransGen.head edge path

theorem mem_parentsOf {s : Db V} {v w : ObjVar} :
    w ∈ parentsOf s v ↔ ∃ o oid, s.object v = some o ∧ oid ∈ enlistVar o.parents ∧
      s.valid oid = true ∧ w = .obj oid := by
  unfold parentsOf
  cases found : s.object v with
  | none => simp
  | some o =>
      simp only [List.mem_map, List.mem_filter, Option.some.injEq]
      constructor
      · rintro ⟨oid, ⟨member, valid⟩, rfl⟩
        exact ⟨o, oid, rfl, member, valid, rfl⟩
      · rintro ⟨_, oid, rfl, member, valid, rfl⟩
        exact ⟨oid, ⟨member, valid⟩, rfl⟩

theorem mem_childrenOf {s : Db V} {v w : ObjVar} :
    w ∈ childrenOf s v ↔ ∃ o oid, s.object v = some o ∧ oid ∈ o.children ∧
      s.valid oid = true ∧ w = .obj oid := by
  unfold childrenOf
  cases found : s.object v with
  | none => simp
  | some o =>
      simp only [List.mem_map, List.mem_filter, Option.some.injEq]
      constructor
      · rintro ⟨oid, ⟨member, valid⟩, rfl⟩
        exact ⟨o, oid, rfl, member, valid, rfl⟩
      · rintro ⟨_, oid, rfl, member, valid, rfl⟩
        exact ⟨oid, ⟨member, valid⟩, rfl⟩

end ToastStunt
