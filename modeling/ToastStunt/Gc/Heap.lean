import Mathlib.Data.BitVec
import ToastStunt.Db.Types
import ToastStunt.Library.Painting

/-!
The cycle collector of garbage.cc on a heap of lists, maps and anonymous objects.
Addresses are an arbitrary finite type; memory itself is not modelled. `checked` says
whether the server was compiled with its assertions.
-/

namespace ToastStunt.Gc

open Painting

inductive Color where
  | green | yellow | black | gray | white | purple | pink
deriving DecidableEq, Repr

inductive Collection where
  | list | map | anon
deriving DecidableEq, Repr

/-- What the collector reads of the values: `contents` are the collections among the elements, the
values of the map or the property values, in order and without null pointers. -/
structure Values (A : Type) where
  type : A → Collection
  contents : A → List A
  recycled : A → Bool
  invalid : A → Bool

abbrev Marks (A : Type) := Canvas A Color (BitVec 32)

/-- `roots` is the list from `pending_head` of garbage.cc and `queue` that of server.cc. -/
structure Heap (A : Type) where
  marks : Marks A
  buffered : A → Bool
  roots : List A
  queue : List A
  freed : List A

variable {A : Type} [DecidableEq A]

namespace Heap

def setBuffered (h : Heap A) (v : A) : Heap A :=
  { h with buffered := fun a => if a = v then true else h.buffered a }

def clearBuffered (h : Heap A) (v : A) : Heap A :=
  { h with buffered := fun a => if a = v then false else h.buffered a }

def onMarks (h : Heap A) (f : Marks A → Except Crash (Marks A)) : Except Crash (Heap A) := do
  return { h with marks := ← f h.marks }

end Heap

def gcPossibleRoot (v : A) (h : Heap A) : Heap A :=
  if h.marks.color v = .purple ∨ h.marks.color v = .green ∨ h.marks.color v = .yellow then h
  else
    let h := { h with marks := h.marks.set v .purple }
    if h.buffered v then h else { h.setBuffered v with roots := h.roots ++ [v] }

def assertThat (checked condition : Bool) : Except Crash Unit :=
  if checked && !condition then .error .assertion else .ok ()

theorem assertThat_holds {checked condition : Bool} (holds : checked = true → condition = true) :
    assertThat checked condition = .ok () := by
  cases checked with
  | false => rfl
  | true => simp [assertThat, holds rfl]

theorem assertThat_fails {condition : Bool} (fails : condition = false) :
    assertThat true condition = .error .assertion := by
  simp [assertThat, fails]

section Collector

variable [Fintype A] (values : Values A) (checked : Bool)

def depth (A : Type) [Fintype A] : Nat := Fintype.card A + 1

/-- `paint` makes the test before it goes on, not on entry. -/
def markGray (v : A) (s : Marks A) : Except Crash (Marks A) :=
  if s.color v ≠ .gray then
    paint values.contents .green .gray (-1) .unbounded (depth A) v s
  else .ok s

def scanBlack (v : A) (s : Marks A) : Except Crash (Marks A) :=
  paint values.contents .green .black 1 .unbounded (depth A) v s

def scan : Nat → A → Marks A → Except Crash (Marks A)
  | 0, _, _ => .error .unbounded
  | fuel + 1, v, s =>
      if s.color v = .gray then
        if s.tally v ≠ 0 then scanBlack values v s
        else forVisible Canvas.color .green (scan fuel) (values.contents v) (s.set v .white)
      else .ok s

def scanWhite (v : A) (s : Marks A) : Except Crash (Marks A) :=
  paint values.contents .green .pink 1 .unbounded (depth A) v s

def auxFree (v : A) (h : Heap A) : Except Crash (Heap A) := do
  assertThat checked (values.type v ≠ .anon || values.invalid v)
  return { h with freed := v :: h.freed }

/-- `FOR_EACH_ROOT` with `REMOVE_ROOT`: the entries up to `last` come first, the last one in front.
-/
def markRoots : List A → List A → Heap A → Except Crash (Heap A)
  | before, [], h => .ok { h with roots := before.reverse }
  | before, v :: rest, h =>
      if h.marks.color v = .purple then do
        markRoots (v :: before) rest (← h.onMarks (markGray values v))
      else if h.marks.color v = .black ∧ h.marks.tally v = 0 then do
        markRoots before rest (← auxFree values checked v (h.clearBuffered v))
      else markRoots before rest (h.clearBuffered v)

def scanRoots (h : Heap A) : Except Crash (Heap A) :=
  h.onMarks fun s => h.roots.foldlM (fun s v => scan values (depth A) v s) s

def restoreWhite (h : Heap A) : Except Crash (Heap A) :=
  h.onMarks fun s => h.roots.foldlM (fun s v =>
    if s.color v = .white then scanWhite values v s else .ok s) s

/-- Of server.cc. The reference that the queue takes makes the object black. -/
def queueAnonymousObject (v : A) (h : Heap A) : Except Crash (Heap A) := do
  assertThat checked (!values.recycled v && !values.invalid v && v ∉ h.queue)
  return { h with marks := (h.marks.add v 1).set v .black, queue := v :: h.queue }

def collectWhite : Nat → A → Heap A → Except Crash (Heap A)
  | 0, _, _ => .error .unbounded
  | fuel + 1, v, h =>
      if h.marks.color v = .pink ∧ h.buffered v = false then do
        let h ← forVisible (fun h => h.marks.color) .green (collectWhite fuel) (values.contents v)
          { h with marks := h.marks.set v .black }
        if values.type v = .anon then do
          assertThat checked (h.marks.tally v ≠ 0)
          queueAnonymousObject values checked v h
        else return h
      else .ok h

def collectRoots : List A → Heap A → Except Crash (Heap A)
  | [], h => .ok { h with roots := [] }
  | v :: rest, h => do
      collectRoots rest (← collectWhite values checked (depth A) v
        ({ h with roots := rest }.clearBuffered v))

def gcCollect (h : Heap A) : Except Crash (Heap A) :=
  if h.roots = [] then .ok h
  else do
    let h ← markRoots values checked [] h.roots h
    let h ← scanRoots values h
    let h ← restoreWhite values h
    collectRoots values checked h.roots h

end Collector

section Meaning

open FirstVisit

variable (values : Values A) (h : Heap A)

def shown (a : A) : Bool := h.marks.color a ≠ .green

def kids (v : A) : List A := visible values.contents (shown h) v

/-- The subgraph below the buffered roots that may head a cycle. -/
def Candidate (a : A) : Prop :=
  ∃ r ∈ h.roots, h.marks.color r = .purple ∧ Reach (kids values h) r a

variable [Fintype A]

open Classical in
noncomputable def candidates : Finset A := Finset.univ.filter (Candidate values h)

def HeldOutside (a : A) : Prop := edges (kids values h) (candidates values h) a < (h.marks.tally a).toNat

def Live (a : A) : Prop :=
  ∃ m, Candidate values h m ∧ HeldOutside values h m ∧ Reach (kids values h) m a

def Garbage (a : A) : Prop := Candidate values h a ∧ ¬Live values h a

def Color.idle (c : Color) : Prop := c ≠ .gray ∧ c ≠ .white ∧ c ≠ .pink

/-- Between two collections: no working colors, the buffer holds each buffered value once, and the
references in values and in the queue are counted. -/
structure Ready : Prop where
  colors : ∀ a, (h.marks.color a).idle
  rootsNodup : h.roots.Nodup
  buffered : ∀ a, h.buffered a = true ↔ a ∈ h.roots
  referenced : ∀ r ∈ h.roots, h.marks.color r = .purple → h.marks.tally r ≠ 0
  counted : ∀ a, edges values.contents Finset.univ a + h.queue.count a ≤ (h.marks.tally a).toNat

/-- What a collection should do. The queue holds one reference to each object `handed` to it. -/
structure Collects (h' : Heap A) (handed : List A) : Prop where
  queue : h'.queue = handed ++ h.queue
  nodup : handed.Nodup
  garbage : ∀ a, a ∈ handed ↔ values.type a = .anon ∧ Garbage values h a
  refcount : ∀ a, h'.marks.tally a = h.marks.tally a + handed.count a
  colors : ∀ a, (h'.marks.color a).idle
  roots : h'.roots = []
  buffered : ∀ a, h'.buffered a = false

/-- Garbage refers to live values only if these are lists or maps of nothing that is followed, and
no assertion is compiled in that fails. -/
structure Separated (checked : Bool) : Prop where
  apart : ∀ g, Garbage values h g → ∀ l ∈ kids values h g, ¬Garbage values h l →
    values.type l ≠ .anon ∧ kids values h l = []
  unrecycled : checked = true → ∀ g, Garbage values h g → values.type g = .anon →
    values.recycled g = false ∧ values.invalid g = false
  freedInvalid : checked = true → ∀ r ∈ h.roots, h.marks.color r = .black →
    h.marks.tally r = 0 → values.type r = .anon → values.invalid r = true

end Meaning

end ToastStunt.Gc
