import ToastStunt.Gc.Heap
import ToastStunt.Library.Runs

/-!
Lists, maps and anonymous objects in memory, and the operations that allocate, move, count
and free them: from storage.cc, list.cc, map.cc and utils.cc. An operation fails where the
source would follow a pointer to memory that is not allocated. The new addresses that
`malloc` and `realloc` return are arguments.
-/

namespace ToastStunt.Gc

open Painting

structure Block (A : Type) where
  type : Collection
  /-- The elements of a list, the values of a map or of the properties of an object; a value
  that is no collection is `none`. -/
  elements : List (Option A)
  /-- The keys of a map and the parents of an object, which the collector does not follow. -/
  others : List (Option A)
  recycled : Bool
  invalid : Bool
  deriving DecidableEq

/-- `marks` and `buffered` are the `var_metadata` in front of the blocks. -/
structure Store (A : Type) where
  block : A → Option (Block A)
  marks : Marks A
  buffered : A → Bool
  roots : List A
  queue : List A
  emptylist : A

variable {A : Type} [DecidableEq A]

/-- What is freed with the block, in order: key and value alternate in a map. -/
def Block.held (b : Block A) : List (Option A) :=
  match b.type with
  | .list => b.elements
  | .map => (b.others.zip b.elements).flatMap fun (key, value) => [key, value]
  | .anon => b.others ++ b.elements

namespace Store

variable (s : Store A)

def heap : Heap A := ⟨s.marks, s.buffered, s.roots, s.queue, []⟩

def values : Values A where
  type a := ((s.block a).map Block.type).getD .list
  contents a := ((s.block a).map fun b => b.elements.filterMap id).getD []
  recycled a := ((s.block a).map Block.recycled).getD false
  invalid a := ((s.block a).map Block.invalid).getD false

/-- What the collector leaves behind; the memory that `aux_free` has freed is gone. -/
def collected (h : Heap A) : Store A :=
  { s with
    block := fun a => if a ∈ h.freed then none else s.block a
    marks := h.marks, buffered := h.buffered, roots := h.roots, queue := h.queue }

def dereference (v : A) : Except Crash (Block A) :=
  match s.block v with
  | none => .error .nullDereference
  | some b => .ok b

def setBlock (v : A) (b : Option (Block A)) : Store A :=
  { s with block := Function.update s.block v b }

def modify (v : A) (f : Block A → Block A) : Except Crash (Store A) := do
  let b ← s.dereference v
  return s.setBlock v (some (f b))

def setColor (v : A) (color : Color) : Store A := { s with marks := s.marks.set v color }

def addref (v : A) : Store A := { s with marks := s.marks.add v 1 }

def delref (v : A) : Store A := { s with marks := s.marks.add v (-1) }

end Store

def mymalloc (a : A) (b : Block A) (color : Color) (s : Store A) : Except Crash (Store A) :=
  if (s.block a).isSome then .error .panic
  else .ok { s.setBlock a (some b) with
    marks := ⟨Function.update s.marks.color a color, Function.update s.marks.tally a 1⟩
    buffered := Function.update s.buffered a false }

/-- `memcpy` of the block with its header, where it does not stay in place. -/
def myrealloc (v a : A) (b : Block A) (s : Store A) : Except Crash (Store A) :=
  if a = v then .ok (s.setBlock v (some b))
  else if (s.block a).isSome then .error .panic
  else .ok { (s.setBlock v none).setBlock a (some b) with
    marks := ⟨Function.update s.marks.color a (s.marks.color v),
      Function.update s.marks.tally a (s.marks.tally v)⟩
    buffered := Function.update s.buffered a (s.buffered v) }

def varRef (v : A) (s : Store A) : Except Crash (Store A) := do
  let b ← s.dereference v
  return if b.type = .anon then (s.addref v).setColor v .black else s.addref v

def varRefEach (items : List (Option A)) (s : Store A) : Except Crash (Store A) :=
  items.foldlM (fun s item =>
    match item with
    | none => .ok s
    | some v => varRef v s) s

def possibleRoot (v : A) (s : Store A) : Store A :=
  let h := gcPossibleRoot v s.heap
  { s with marks := h.marks, buffered := h.buffered, roots := h.roots }

/-- A buffered value is left to the collector. -/
def discard (v : A) (s : Store A) : Store A :=
  if s.buffered v then s.setColor v .black else (s.setColor v .black).setBlock v none

section

variable (checked : Bool)

def queueAnonymous (v : A) (s : Store A) : Except Crash (Store A) := do
  let h ← queueAnonymousObject s.values checked v s.heap
  return { s with marks := h.marks, queue := h.queue }

def freeEach (free : A → Store A → Except Crash (Store A)) (items : List (Option A))
    (s : Store A) : Except Crash (Store A) :=
  items.foldlM (fun s item =>
    match item with
    | none => .ok s
    | some v => free v s) s

def destroyAnonymous (free : A → Store A → Except Crash (Store A)) (v : A) (b : Block A)
    (s : Store A) : Except Crash (Store A) := do
  let s ← freeEach free b.held s
  s.modify v fun b => { b with elements := [], invalid := true }

def release (free : A → Store A → Except Crash (Store A)) (v : A) (b : Block A) (s : Store A) :
    Except Crash (Store A) :=
  if s.marks.tally v ≠ 0 then .ok (possibleRoot v s)
  else
    match b.type with
    | .anon =>
        if b.recycled then .ok (discard v s)
        else if b.invalid then do
          let s ← destroyAnonymous free v b s
          return discard v s
        else queueAnonymous checked v s
    | _ => do
        let s ← freeEach free b.held s
        return discard v s

def freeVar : Nat → A → Store A → Except Crash (Store A)
  | 0, _, _ => .error .unbounded
  | fuel + 1, v, s => do
      let b ← s.dereference v
      if v = s.emptylist then return possibleRoot v s
      else release checked (freeVar fuel) v b (s.delref v)

def newList (a : A) (elements : List (Option A)) (s : Store A) : Except Crash (A × Store A) :=
  if elements = [] then do
    assertThat checked (s.marks.color s.emptylist = .green)
    return (s.emptylist, s.addref s.emptylist)
  else do
    let s ← mymalloc a ⟨.list, elements, [], false, false⟩ .green s
    return (a, s.setColor a .yellow)

def listDup (list a : A) (s : Store A) : Except Crash (A × Store A) := do
  let b ← s.dereference list
  let (new, s) ← newList checked a b.elements s
  let s ← varRefEach b.elements s
  return (new, s.setColor new (s.marks.color list))

def mapDup (map a : A) (s : Store A) : Except Crash (A × Store A) := do
  let b ← s.dereference map
  let s ← mymalloc a ⟨.map, b.elements, b.others, false, false⟩ .green s
  let s ← varRefEach b.held s
  return (a, s.setColor a (s.marks.color map))

def varDup (v a : A) (s : Store A) : Except Crash (A × Store A) := do
  let b ← s.dereference v
  match b.type with
  | .list => listDup checked v a s
  | .map => mapDup v a s
  | .anon => .error .panic

variable (fuel : Nat)

def privateCopy (v a : A) (s : Store A) : Except Crash (A × Store A) :=
  if 1 < (s.marks.tally v).toNat then do
    let (new, s) ← varDup checked v a s
    let s ← freeVar checked fuel v s
    return (new, s)
  else .ok (v, s)

def replace (new : A) (value : Option A) (pos : Nat) (s : Store A) : Except Crash (Store A) := do
  let b ← s.dereference new
  match b.elements[pos]? with
  | none => .error .outOfBounds
  | some old => do
      let s ← freeEach (freeVar checked fuel) [old] s
      s.modify new fun b => { b with elements := b.elements.set pos value }

def listset (list : A) (value : Option A) (pos : Nat) (a : A) (s : Store A) :
    Except Crash (Store A) := do
  let (new, s) ← privateCopy checked fuel list a s
  let s ← replace checked fuel new value pos s
  return s.setColor new .yellow

def extendsInPlace (s : Store A) (list : A) (pos : Nat) : Bool :=
  match s.block list with
  | none => false
  | some b => list ≠ s.emptylist && s.marks.tally list = 1 && pos = b.elements.length

def doinsert (list : A) (value : Option A) (pos : Nat) (a : A) (s : Store A) :
    Except Crash (Store A) := do
  let b ← s.dereference list
  if extendsInPlace s list pos then do
    let s ← myrealloc list a { b with elements := b.elements ++ [value] } s
    return s.setColor a .yellow
  else do
    let (new, s) ← newList checked a (b.elements.take pos ++ value :: b.elements.drop pos) s
    let s ← varRefEach b.elements s
    let s ← freeVar checked fuel list s
    return s.setColor new .yellow

def eraseBinding (map : A) (erased : Option Nat) (s : Store A) : Except Crash (Store A) := do
  let b ← s.dereference map
  match erased with
  | none => .ok s
  | some i => do
      let s ← freeEach (freeVar checked fuel) [b.others[i]?.join, b.elements[i]?.join] s
      s.modify map fun b =>
        { b with others := b.others.eraseIdx i, elements := b.elements.eraseIdx i }

/-- `pos` is where the binding comes in the order of the keys. -/
def mapinsert (map : A) (key value : Option A) (erased : Option Nat) (pos : Nat) (a : A)
    (s : Store A) : Except Crash (Store A) := do
  let (new, s) ← privateCopy checked fuel map a s
  let s ← eraseBinding checked fuel new erased s
  let s ← s.modify new fun b =>
    { b with others := b.others.insertIdx pos key, elements := b.elements.insertIdx pos value }
  return s.setColor new .yellow

def Store.followed [Fintype A] (s : Store A) : List A :=
  FirstVisit.visit (kids s.values s.heap) (depth A) (s.roots.filter (s.marks.color · = .purple)) []

/-- The elements of a dead value that waits in the buffer may be gone. -/
def gcCollectStore [Fintype A] (s : Store A) : Except Crash (Store A) :=
  if (∀ a ∈ s.roots, (s.block a).isSome) ∧
      ∀ a ∈ s.followed, ∀ v ∈ s.values.contents a, (s.block v).isSome then do
    let h ← gcCollect s.values checked s.heap
    return s.collected h
  else .error .nullDereference

inductive Op (A : Type)
  | varRef (v : A)
  | freeVar (v : A)
  | newList (elements : List (Option A)) (a : A)
  | doinsert (list : A) (value : Option A) (pos : Nat) (a : A)
  | listset (list : A) (value : Option A) (pos : Nat) (a : A)
  | listDup (list a : A)
  | emptyMap (a : A)
  | mapinsert (map : A) (key value : Option A) (erased : Option Nat) (pos : Nat) (a : A)
  | mapDup (map a : A)
  | newAnonymous (parents properties : List (Option A)) (a : A)
  | setProperty (object : A) (value : Option A) (i : Nat)
  | setFlags (object : A) (recycled invalid : Bool)
  | gcCollect

def runOp [Fintype A] : Op A → Store A → Except Crash (Store A)
  | .varRef v, s => varRef v s
  | .freeVar v, s => freeVar checked fuel v s
  | .newList elements a, s => (newList checked a elements s).map Prod.snd
  | .doinsert list value pos a, s => doinsert checked fuel list value pos a s
  | .listset list value pos a, s => listset checked fuel list value pos a s
  | .listDup list a, s => (listDup checked list a s).map Prod.snd
  | .emptyMap a, s => mymalloc a ⟨.map, [], [], false, false⟩ .green s
  | .mapinsert map key value erased pos a, s =>
      mapinsert checked fuel map key value erased pos a s
  | .mapDup map a, s => (mapDup map a s).map Prod.snd
  | .newAnonymous parents properties a, s =>
      mymalloc a ⟨.anon, properties, parents, false, false⟩ .black s
  | .setProperty object value i, s => replace checked fuel object value i s
  | .setFlags object recycled invalid, s => s.modify object ({ · with recycled, invalid })
  | .gcCollect, s => gcCollectStore checked s

end

def initialStore (emptylist : A) : Store A where
  block a := if a = emptylist then some ⟨.list, [], [], false, false⟩ else none
  marks := ⟨fun _ => .green, fun _ => 1⟩
  buffered _ := false
  roots := []
  queue := []
  emptylist := emptylist

end ToastStunt.Gc
