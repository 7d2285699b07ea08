import ToastStunt.Db.Builtins
import ToastStunt.Db.WellFormed

/-!
Verbs of database objects, from db_verbs.cc and verbs.cc: how names are matched,
the search for a callable verb along the inheritance graph, and the functions that
add, remove and change verbs. Programs are not modelled.
-/

namespace ToastStunt

open FirstVisit

variable {V : Type}

section Names

inductive Star where
  | none | inner | end
deriving DecidableEq, Repr

/-- The loop over `'*'` (42); a star that is last in its name, before a blank (32) or the end, is
`end`. -/
def skipStars : CString → Star → CString × Star
  | [], star => ([], star)
  | a :: v, star =>
      if a = 42 then skipStars v (if v = [] ∨ v.head? = some 32 then .end else .inner)
      else (a :: v, star)

def matchName : CString → CString → Star → CString × CString × Star
  | v, [], star => ((skipStars v star).1, [], (skipStars v star).2)
  | v, b :: w, star =>
      match skipStars v star with
      | ([], star) => ([], b :: w, star)
      | (a :: v, star) =>
          if a = 32 ∨ cmap b ≠ cmap a then (a :: v, b :: w, star) else matchName v w star

def nameMatches : CString × CString × Star → Bool
  | (v, [], star) => star ≠ .none || v = [] || v.head? = some 32
  | (_, _ :: _, star) => star = .end

/-- The rest of the names after the one where `v` stands. Every turn of the loop over names takes
away at least one character. -/
def nextName (v : CString) : CString := (v.dropWhile (· ≠ 32)).dropWhile (· = 32)

def verbcasecmpFrom : Nat → CString → CString → Bool
  | 0, _, _ => false
  | turns + 1, v, word =>
      if v = [] then false
      else
        let matched := matchName v word .none
        nameMatches matched || verbcasecmpFrom turns (nextName matched.1) word

def namesMatch (verb word : CString) : Bool := verbcasecmpFrom verb.length verb word

/-- The two arguments of a call. One pointer is one text. -/
structure Operands where
  verb : CString
  word : CString
  onePointer : Bool
  consistent : onePointer = true → verb = word

def Operands.verbcasecmp (o : Operands) : Bool := o.onePointer || namesMatch o.verb o.word

def Word.operands (verb word : Word) : Operands where
  verb := verb.text
  word := word.text
  onePointer := verb.address.isSome && verb = word
  consistent one := by
    rw [Bool.and_eq_true, decide_eq_true_eq] at one
    rw [one.2]

end Names

section Search

def Verbdef.exec (v : Verbdef) : Bool := v.perms.testBit 2

def findVerbdefByName (o : Object V) (vname : Word) (checkXBit : Bool) : Option Nat :=
  o.verbdefs.findIdx? fun v => (v.name.operands vname).verbcasecmp && (!checkXBit || v.exec)

/-- The first of the objects on the stack, or of their ancestors, that has the verb. The stack is
popped at the front, where the parents of an object that has been looked at are put. -/
def searchParents (s : Db V) (verb : Word) :
    Nat → List Int → Except Crash (Option (ObjVar × Nat))
  | 0, _ => .error .unbounded
  | fuel + 1, stack =>
      stack.foldlM (fun found top =>
        match found, s.object (.obj top) with
        | some h, _ => .ok (some h)
        | none, none => .ok none
        | none, some o =>
            match findVerbdefByName o verb true with
            | some i => .ok (some (.obj top, i))
            | none => searchParents s verb fuel (enlistVar o.parents)) none

def findCallableVerbdef (s : Db V) (start : ObjVar) (verb : Word) :
    Except Crash (Option (ObjVar × Nat)) := do
  let o ← s.dereference start
  match findVerbdefByName o verb true with
  | some i => return some (start, i)
  | none => searchParents s verb (traversalDepth s + 1) (enlistVar o.parents)

def Object.firstCallable (o : Object V) (verb : CString) : Option Nat :=
  o.verbdefs.findIdx? fun v => namesMatch v.name.text verb && v.exec

def callableAt (s : Db V) (verb : CString) (v : ObjVar) : Option (ObjVar × Nat) :=
  match s.object v with
  | none => none
  | some o => (o.firstCallable verb).map fun i => (v, i)

def callableVerb (s : Db V) (recv : ObjVar) (verb : CString) : Option (ObjVar × Nat) :=
  if isValid s recv then (dbAncestors s recv true).findSome? (callableAt s verb) else none

/-- A callable verb that has the word for its names, as one string, also matches what it says. -/
def Object.NamedPlainly (o : Object V) (verb : Word) : Prop :=
  ∀ v ∈ o.verbdefs, v.exec = true → (v.name.operands verb).onePointer = true →
    namesMatch v.name.text verb.text = true

def NamedPlainly (s : Db V) (recv : ObjVar) (verb : Word) : Prop :=
  ∀ u o, Ancestor s recv u → s.object u = some o → o.NamedPlainly verb

theorem findVerbdefByName_plain {o : Object V} {verb : Word} (plain : o.NamedPlainly verb) :
    findVerbdefByName o verb true = o.firstCallable verb.text := by
  rw [findVerbdefByName, Object.firstCallable]
  refine findIdx_congr fun v member => ?_
  rw [Bool.not_true, Bool.false_or, Operands.verbcasecmp]
  cases exec : v.exec with
  | false => simp
  | true =>
      cases one : (v.name.operands verb).onePointer with
      | false => rfl
      | true => simp [plain v member exec one]

def Word.plain (word : Word) : Bool := word.address.isNone || namesMatch word.text word.text

theorem Object.namedPlainly_of_plain (o : Object V) {verb : Word} (plain : verb.plain = true) :
    o.NamedPlainly verb := by
  intro v _ _ one
  rw [Word.operands, Bool.and_eq_true, decide_eq_true_eq] at one
  obtain ⟨addressed, same⟩ := one
  rw [same] at addressed ⊢
  rw [Option.isSome_iff_ne_none] at addressed
  simpa [Word.plain, addressed] using plain

theorem namedPlainly_of_plain {verb : Word} (plain : verb.plain = true) (s : Db V) (recv : ObjVar) :
    NamedPlainly s recv verb :=
  fun _ o _ _ => o.namedPlainly_of_plain plain

theorem NamedPlainly.above {s : Db V} {v u : ObjVar} {verb : Word} (plain : NamedPlainly s v verb)
    (edge : u ∈ parentsOf s v) : NamedPlainly s u verb :=
  fun w o path => plain w o (Ancestor.above edge path)

theorem foldlM_first {α β : Type} {step : Option β → α → Except Crash (Option β)}
    {items : List α} (test : α → Option β) (skip : ∀ item b, step (some b) item = .ok (some b))
    (look : ∀ item ∈ items, step none item = .ok (test item)) :
    items.foldlM step none = .ok (items.findSome? test) := by
  induction items with
  | nil => rfl
  | cons item rest ih =>
      rw [List.foldlM_cons, look item (by simp), List.findSome?_cons]
      cases found : test item with
      | none => exact ih fun other member => look other (by simp [member])
      | some b =>
          show rest.foldlM step (some b) = .ok (some b)
          clear ih look
          induction rest with
          | nil => rfl
          | cons next rest ih =>
              rw [List.foldlM_cons, skip]
              exact ih

theorem findSome_valid {β : Type} (s : Db V) (test : ObjVar → Option β) (stack : List Int) :
    ((stack.filter s.valid).map ObjVar.obj).findSome? test =
      stack.findSome? fun top => if s.valid top then test (.obj top) else none := by
  induction stack with
  | nil => rfl
  | cons top rest ih =>
      rw [List.filter_cons, List.findSome?_cons]
      cases s.valid top with
      | false => simpa using ih
      | true =>
          rw [if_pos rfl, if_pos rfl, List.map_cons, List.findSome?_cons, ih]

theorem searchParents_eq {s : Db V} {rank : ObjVar → Nat} (ranked : Ranked (parentsOf s) rank)
    {verb : Word} {fuel : Nat} {stack : List Int}
    (plain : ∀ p ∈ stack, s.valid p = true → NamedPlainly s (.obj p) verb)
    (enough : ∀ p ∈ stack, s.valid p = true → rank (.obj p) < fuel) :
    searchParents s verb (fuel + 1) stack = .ok (firstFound (parentsOf s) (callableAt s verb.text)
      (fuel + 1) ((stack.filter s.valid).map .obj)) := by
  induction fuel generalizing stack with
  | zero =>
      have none (p : Int) (member : p ∈ stack) : s.object (.obj p) = none := by
        by_contra present
        obtain ⟨o, found⟩ := Option.ne_none_iff_exists'.mp present
        exact Nat.not_lt_zero _ (enough p member (Db.valid_iff.mpr ⟨o, found⟩))
      have empty : stack.filter s.valid = [] := by
        rw [List.filter_eq_nil_iff]
        intro p member
        simp [Db.valid, none p member]
      rw [empty, searchParents, foldlM_first (fun _ => Option.none) (fun _ _ => rfl)]
      · simp [firstFound]
      · intro p member
        simp only [none p member]
  | succ fuel ih =>
      rw [searchParents, firstFound, findSome_valid]
      refine foldlM_first _ (fun _ _ => rfl) fun p member => ?_
      cases found : s.object (.obj p) with
      | none => simp [Db.valid, found]
      | some o =>
          have valid : s.valid p = true := Db.valid_iff.mpr ⟨o, found⟩
          have bound := enough p member valid
          have here := findVerbdefByName_plain (plain p member valid _ o (Ancestor.self s _) found)
          simp only [valid, if_true, callableAt, found, here]
          cases own : o.firstCallable verb.text with
          | some i => simp
          | none =>
              simp only [Option.map_none, Option.none_or]
              have parents : parentsOf s (.obj p) =
                  ((enlistVar o.parents).filter s.valid).map .obj := by
                simp only [parentsOf, found]
              rw [parents]
              have edge {q : Int} (parent : q ∈ enlistVar o.parents) (validQ : s.valid q = true) :
                  .obj q ∈ parentsOf s (.obj p) :=
                mem_parentsOf.mpr ⟨o, q, found, parent, validQ, rfl⟩
              refine ih (fun q parent validQ => (plain p member valid).above (edge parent validQ))
                fun q parent validQ => ?_
              have := ranked _ _ (edge parent validQ)
              omega

theorem findCallableVerbdef_eq {s : Db V} (graph : WellFormed s) {start : ObjVar} {o : Object V}
    (found : s.object start = some o) {verb : Word} (plain : NamedPlainly s start verb) :
    findCallableVerbdef s start verb =
      .ok ((dbAncestors s start true).findSome? (callableAt s verb.text)) := by
  obtain ⟨rank, ranked, bounded⟩ := graph.bounded_rank
  have parents : parentsOf s start = ((enlistVar o.parents).filter s.valid).map .obj := by
    simp only [parentsOf, found]
  have order : (dbAncestors s start true).findSome? (callableAt s verb.text) =
      (callableAt s verb.text start).or (firstFound (parentsOf s) (callableAt s verb.text)
        (traversalDepth s + 1) (parentsOf s start)) := by
    have same := visit_next ranked (bounded start)
    simp only [dbAncestors, if_true, List.singleton_append]
    have enough : rank start < traversalDepth s + 1 + 1 := by
      have := bounded start
      omega
    rw [same, preorder_fuel ranked (bounded start) enough, preorder, List.findSome?_cons, findSome_addAll, List.nil_append, findSome_flatMap,
      firstFound_eq ranked _ fun u _ => Nat.lt_succ_of_lt (bounded u)]
    cases callableAt s verb.text start <;> rfl
  rw [findCallableVerbdef, Failing.bind_of_ok (Db.dereference_ok.mpr found), order]
  simp only [callableAt, found, findVerbdefByName_plain (plain start o (Ancestor.self s _) found)]
  cases o.firstCallable verb.text with
  | some i => rfl
  | none =>
      rw [parents]
      refine searchParents_eq ranked (fun p member valid => plain.above ?_) fun p _ _ => bounded _
      exact mem_parentsOf.mpr ⟨o, p, found, member, valid, rfl⟩

end Search

section Changes

inductive ArgSpec where
  | none | any | this
deriving DecidableEq, Repr

def ArgSpec.code : ArgSpec → Nat
  | .none => 0
  | .any => 1
  | .this => 2

def packedPerms (flags : Nat) (dobj iobj : ArgSpec) : Nat :=
  flags ||| (dobj.code <<< 4) ||| (iobj.code <<< 6)

def dbAddVerb (s : Db V) (obj : ObjVar) (vnames : Word) (owner : Int) (flags : Nat)
    (dobj : ArgSpec) (prep : Int) (iobj : ArgSpec) : Except Crash (Db V) :=
  s.modify obj fun o => { o with verbdefs := o.verbdefs ++
    [{ name := vnames, owner := owner, perms := packedPerms flags dobj iobj, prep := prep }] }

def dbDeleteVerb (s : Db V) (h : ObjVar × Nat) : Except Crash (Db V) :=
  s.modify h.1 fun o => { o with verbdefs := o.verbdefs.eraseIdx h.2 }

def changeVerbdef (s : Db V) (h : ObjVar × Nat) (f : Verbdef → Verbdef) : Except Crash (Db V) :=
  s.modify h.1 fun o => { o with verbdefs := o.verbdefs.modify h.2 f }

def dbSetVerbOwner (s : Db V) (h : ObjVar × Nat) (owner : Int) : Except Crash (Db V) :=
  changeVerbdef s h fun v => { v with owner := owner }

def dbSetVerbFlags (s : Db V) (h : ObjVar × Nat) (flags : Nat) : Except Crash (Db V) :=
  changeVerbdef s h fun v => { v with perms := ((v.perms >>> 4) <<< 4) ||| flags }

def dbSetVerbNames (s : Db V) (h : ObjVar × Nat) (names : Word) : Except Crash (Db V) :=
  changeVerbdef s h fun v => { v with name := names }

def dbSetVerbArgSpecs (s : Db V) (h : ObjVar × Nat) (dobj : ArgSpec) (prep : Int)
    (iobj : ArgSpec) : Except Crash (Db V) :=
  changeVerbdef s h fun v => { v with perms := packedPerms (v.perms % 16) dobj iobj, prep := prep }

/-- A name comes with the number that it spells, where the server takes such names for numbers. -/
inductive VerbDesc where
  | name (vname : Word) (num : Option Nat)
  | index (n : Int)
deriving DecidableEq, Repr

def validateVerbDescriptor : VerbDesc → Bool
  | .name _ _ => true
  | .index n => 0 < n

/-- An index is cut to the width of an `unsigned`. -/
def findDescribedVerb (o : Object V) : VerbDesc → Option Nat
  | .index n =>
      let index := n.toNat % 2 ^ 32
      if 0 < index ∧ index ≤ o.verbdefs.length then some (index - 1) else none
  | .name vname num =>
      (List.range o.verbdefs.length).find? fun i =>
        num = some i || (o.verbdefs[i]?).any fun v => (v.name.operands vname).verbcasecmp

def dbVerbAllows (s : Db V) (h : ObjVar × Nat) (progr : Int) (bit : Nat) : Except Crash Bool := do
  let o ← s.dereference h.1
  match o.verbdefs[h.2]? with
  | none => .error .outOfBounds
  | some v => return v.perms.testBit bit || progr = v.owner || isWizard s progr

def validateVerbInfo (s : Db V) (owner : Int) (names : CString) (copy : Nat) : Option Word :=
  if !s.valid owner then none
  else if names.dropWhile (· = 32) = [] then none
  else some ⟨names.dropWhile (· = 32), some copy⟩

def bfAddVerb (s : Db V) (progr oid owner : Int) (flags : Nat) (names : CString) (copy : Nat)
    (dobj : ArgSpec) (prep : Int) (iobj : ArgSpec) : Except Crash (Outcome × Db V) := do
  match validateVerbInfo s owner names copy with
  | none => return (.error .E_INVARG, s)
  | some names =>
      if !s.valid oid then
        return (.error .E_INVARG, s)
      if !(← dbObjectAllows s (.obj oid) progr .write) || (progr ≠ owner && !isWizard s progr) then
        return (.error .E_PERM, s)
      return (.done, ← dbAddVerb s (.obj oid) names owner flags dobj prep iobj)

def bfDeleteVerb (s : Db V) (progr oid : Int) (desc : VerbDesc) : Except Crash (Outcome × Db V) := do
  if !validateVerbDescriptor desc || !s.valid oid then
    return (.error .E_INVARG, s)
  if !(← dbObjectAllows s (.obj oid) progr .write) then
    return (.error .E_PERM, s)
  let o ← s.dereference (.obj oid)
  match findDescribedVerb o desc with
  | none => return (.error .E_VERBNF, s)
  | some i => return (.done, ← dbDeleteVerb s (.obj oid, i))

def verbOwnedBy (o : Object V) (i : Nat) (owner : Int) : Bool :=
  (o.verbdefs[i]?).any fun v => v.owner = owner

def bfSetVerbInfo (s : Db V) (progr oid : Int) (desc : VerbDesc) (owner : Int) (flags : Nat)
    (names : CString) (copy : Nat) : Except Crash (Outcome × Db V) := do
  if !validateVerbDescriptor desc || !s.valid oid then
    return (.error .E_INVARG, s)
  match validateVerbInfo s owner names copy with
  | none => return (.error .E_INVARG, s)
  | some names =>
      let o ← s.dereference (.obj oid)
      match findDescribedVerb o desc with
      | none => return (.error .E_VERBNF, s)
      | some i =>
          if !(← dbVerbAllows s (.obj oid, i) progr 1)
              || (!isWizard s progr && !verbOwnedBy o i owner) then
            return (.error .E_PERM, s)
          let s ← dbSetVerbOwner s (.obj oid, i) owner
          let s ← dbSetVerbFlags s (.obj oid, i) flags
          return (.done, ← dbSetVerbNames s (.obj oid, i) names)

def bfSetVerbArgs (s : Db V) (progr oid : Int) (desc : VerbDesc) (dobj : ArgSpec) (prep : Int)
    (iobj : ArgSpec) : Except Crash (Outcome × Db V) := do
  if !validateVerbDescriptor desc || !s.valid oid then
    return (.error .E_INVARG, s)
  let o ← s.dereference (.obj oid)
  match findDescribedVerb o desc with
  | none => return (.error .E_VERBNF, s)
  | some i =>
      if !(← dbVerbAllows s (.obj oid, i) progr 1) then
        return (.error .E_PERM, s)
      return (.done, ← dbSetVerbArgSpecs s (.obj oid, i) dobj prep iobj)

end Changes

end ToastStunt
