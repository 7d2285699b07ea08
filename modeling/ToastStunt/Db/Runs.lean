import ToastStunt.Db.Steps
import ToastStunt.Library.Runs

/-!
Runs of the server from an empty object table: calls of the built-ins that change
the inheritance graph, and between them whatever else the server does to objects.
-/

namespace ToastStunt

open FirstVisit Runs

variable {V : Type}

inductive Call (V : Type) where
  | create (progr : Int) (parents : ObjOrList) (owner : Int) (anonymous : Bool)
  | recreate (progr old parent owner : Int)
  | chparents (progr : Int) (obj : ObjVar) (what : ObjOrList)
  | recycle (progr : Int) (obj : ObjVar)
  | addProperty (progr oid : Int) (pname : CString) (value : V) (owner : Int) (flags : Nat)
  | deleteProperty (progr oid : Int) (pname : CString)
  | renameProperty (oid : Int) (old new : CString)
  | renumber (progr oid : Int)

def Call.run (call : Call V) (s : Db V) : Except Crash (Outcome × Db V) :=
  match call with
  | .create progr parents owner anonymous => bfCreate s progr parents owner anonymous
  | .recreate progr old parent owner => bfRecreate s progr old parent owner
  | .chparents progr obj what => bfChparentChparents s progr obj what
  | .recycle progr obj => bfRecycle s progr obj
  | .addProperty progr oid pname value owner flags => bfAddProp s progr oid pname value owner flags
  | .deleteProperty progr oid pname => bfDeleteProp s progr oid pname
  | .renameProperty oid old new => renameProp s oid old new
  | .renumber progr oid => bfRenumber s progr oid

def Call.regraphs : Call V → Bool
  | .create .. | .recreate .. | .chparents .. | .recycle .. => true
  | _ => false

def Object.skeleton (o : Object V) :
    Int × ObjOrList × List Int × List Propdef × Nat :=
  (o.id, o.parents, o.children, o.propdefs, o.propval.length)

/-- What the server does to objects between two of the calls: it may assign owners, flags,
locations, verbs and the contents of slots, and the index may be hashed anew. -/
structure Unrelated (s s' : Db V) : Prop where
  view : ∀ v, (s'.object v).map Object.skeleton = (s.object v).map Object.skeleton
  numObjects : s'.numObjects = s.numObjects
  nextAnon : s'.nextAnon = s.nextAnon
  index : ∀ p, (s'.anonymousObjects p).Perm (s.anonymousObjects p)

/-- A call that returns, or an unrelated change. A call that crashes leaves no state. -/
def ServerStep (allowed : Call V → Db V → Prop) (s s' : Db V) : Prop :=
  (∃ call outcome, allowed call s ∧ call.run s = .ok (outcome, s')) ∨ Unrelated s s'

/-- States of the server after any sequence of calls, each `allowed` where it is made. -/
def ReachableBy (allowed : Call V → Db V → Prop) : Db V → Prop :=
  Reachable Db.empty (ServerStep allowed)

def runAll (calls : List (Call V)) (s : Db V) : Except Crash (Db V) :=
  calls.foldlM (fun s call => do return (← call.run s).2) s

theorem runAll_reachable {allowed : Call V → Db V → Prop} {calls : List (Call V)} {s s' : Db V}
    (reachable : ReachableBy allowed s) (every : ∀ call ∈ calls, ∀ s, allowed call s)
    (ran : runAll calls s = .ok s') : ReachableBy allowed s' := by
  unfold runAll at ran
  refine Failing.foldlM_invariant (ReachableBy allowed) ?_ reachable ran
  intro call member before after reached step
  obtain ⟨⟨outcome, next⟩, called, rest⟩ := Failing.bind_ok step
  cases rest
  exact .step reached (Or.inl ⟨call, outcome, every call member before, called⟩)

theorem empty_wellFormed : WellFormed (Db.empty : Db V) where
  table := Int.le_refl _
  numbered := by simp [Db.node, Db.empty]
  allocated := by simp [Db.node, Db.empty]
  childless := by simp [Db.node, Db.empty]
  parentsValid := by simp [Db.node, Db.empty]
  childrenValid := by simp [Db.node, Db.empty]
  mirrored := by simp [Db.node, Db.empty]
  childrenNodup := by simp [Db.node, Db.empty]
  indexed := by simp [Db.node, Db.empty]
  indexNodup := by simp [Db.empty]
  acyclic := ⟨fun _ => 0, fun v w edge => by simp [parentsOf, Db.empty] at edge⟩

theorem Unrelated.wellFormed {s s' : Db V} (change : Unrelated s s') (formed : WellFormed s) :
    WellFormed s' := by
  refine SameLinks.wellFormed ⟨fun v => ?_, fun oid n found => ?_, change.numObjects,
    change.nextAnon, change.index⟩ formed
  · have links := congrArg (Option.map fun look => (look.2.1, look.2.2.1)) (change.view v)
    rw [Option.map_map, Option.map_map] at links
    rw [Db.node, Db.node, Option.map_map, Option.map_map]
    exact links
  · have ids := congrArg (Option.map Prod.fst) (change.view (.obj oid))
    rw [Option.map_map, Option.map_map] at ids
    obtain ⟨o', found', rfl⟩ := node_some.mp found
    rw [found', Option.map_some, eq_comm, Option.map_eq_some_iff] at ids
    obtain ⟨o, foundO, same⟩ := ids
    have numbered := (formed.numbered oid o.node (node_some.mpr ⟨o, foundO, rfl⟩)).2.2
    exact same.symm.trans numbered

theorem regraph_wellFormed {s s' : Db V} (formed : WellFormed s) {call : Call V}
    (regraphs : call.regraphs = true) {outcome : Outcome} (ran : call.run s = .ok (outcome, s')) :
    WellFormed s' := by
  cases call with
  | create progr parents owner anonymous => exact (bfCreate_ok formed ran).1
  | recreate progr old parent owner => exact (bfRecreate_ok formed ran).1
  | chparents progr obj what => exact (bfChparentChparents_ok formed ran).1
  | recycle progr obj => exact (bfRecycle_ok formed ran).1
  | _ => cases regraphs

end ToastStunt
