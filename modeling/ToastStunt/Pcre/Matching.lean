import Mathlib.Algebra.Order.Ring.Int
import ToastStunt.Library.Decimal
import ToastStunt.Maps.Finite

/-!
`bf_pcre_match` of pcre_moo.cc: the matches of a pattern in a subject, with a map of the groups of
each. What PCRE2 does is a parameter.
-/

namespace ToastStunt.Pcre

open ToastStunt.Maps

/-- What `pcre2_match` leaves: its return code, and pairs of offsets, where `none` is PCRE2_UNSET. -/
structure Match where
  rc : Nat
  ovector : Nat → Option (Nat × Nat)

namespace Match

def start (m : Match) : Nat := (m.ovector 0).elim 0 Prod.fst

def finish (m : Match) : Nat := (m.ovector 0).elim 0 Prod.snd

end Match

inductive Outcome
  | found (m : Match)
  | noMatch
  | failed (code : Int)

structure Compiled where
  nameTable : List (Nat × CString)
  pcre2Match : (subject : CString) → (offset : Nat) → Outcome

/-- The map that a group has: its position is a list of two numbers, and `text` is its match. -/
structure Group where
  position : Int × Int
  text : CString
  deriving DecidableEq, Repr

abbrev Groups := RBTree Key Group

/-- PCRE2_UNSET is the largest `size_t`, which becomes -1. -/
def resultIndices : Option (Nat × Nat) → Int × Int
  | none => (0, -1)
  | some (first, last) => (first + 1, last)

def substring (subject : CString) : Option (Nat × Nat) → CString
  | none => []
  | some (first, last) => (subject.drop first).take (last - first)

def group (subject : CString) (pair : Option (Nat × Nat)) : Group :=
  ⟨resultIndices pair, substring subject pair⟩

/-- `bits` are those that are set in an array of `m.rc` bytes; `none` is a write past it. -/
def storeNamed (subject : CString) (m : Match) :
    (nameTable : List (Nat × CString)) → (bits : List Nat) → Groups → Option (List Nat × Groups)
  | [], bits, named_groups => some (bits, named_groups)
  | (n, name) :: table, bits, named_groups => do
      let named_groups ← mapinsert false named_groups (.str name) (group subject (m.ovector n))
      if n / 8 < m.rc then storeNamed subject m table (n :: bits) named_groups else none

def storeNumbered (subject : CString) (m : Match) (bits : List Nat) :
    (numbers : List Nat) → Groups → Option Groups
  | [], named_groups => some named_groups
  | i :: numbers, named_groups =>
      if i ∈ bits then storeNumbered subject m bits numbers named_groups
      else if m.ovector i = none then storeNumbered subject m bits numbers named_groups
      else do
        let named_groups ←
          mapinsert false named_groups (.str (Decimal.digits i)) (group subject (m.ovector i))
        storeNumbered subject m bits numbers named_groups

def storeGroups (subject : CString) (nameTable : List (Nat × CString)) (m : Match) :
    Option Groups := do
  let (bits, named_groups) ← storeNamed subject m nameTable [] rbnew
  storeNumbered subject m bits (List.range m.rc) named_groups

inductive Answer
  | value (ret : List Groups)
  | invarg
  | compileError (error : CString)
  | matchError (code : Int)
  | maxrec (loops : Nat)

def totalLoops (option : Int) : Nat :=
  let total := (option % 2 ^ 32).toNat
  if total < 100 then 100 else if total ≥ 100000000 then 100000000 else total

def matchLoop (subject : CString) (compiled : Compiled) (findAll : Bool) (total : Nat) :
    (fuel loops offset : Nat) → List Groups → Option Answer
  | 0, _, _, _ => none
  | fuel + 1, loops, offset, ret =>
      if offset < subject.length then
        match compiled.pcre2Match subject offset with
        | .failed code => some (.matchError code)
        | .noMatch => some (.value ret)
        | .found m =>
            if loops + 1 ≥ total then some (.maxrec (loops + 1))
            else do
              let named_groups ← storeGroups subject compiled.nameTable m
              if findAll = false ∧ loops + 1 = 1 then some (.value (ret ++ [named_groups]))
              else
                matchLoop subject compiled findAll total fuel (loops + 1) m.finish
                  (ret ++ [named_groups])
      else some (.value ret)

/-- `getPcre` compiles with or without PCRE2_CASELESS; `option` is the server option
`pcre_match_max_iterations`. -/
def bfPcreMatch (getPcre : CString → (caseless : Bool) → Except CString Compiled) (option : Int)
    (subject pattern : CString) (caseMatters findAll : Option Int) : Option Answer :=
  if pattern = [] then some .invarg
  else
    match getPcre pattern (caseMatters.getD 0 = 0) with
    | .error error => some (.compileError error)
    | .ok compiled =>
        matchLoop subject compiled (findAll.getD 1 ≠ 0) (totalLoops option) (totalLoops option) 0 0
          []

/-! What is asked for. -/

/-- What PCRE2 documents: there is a match or none at each place, and the leftmost is found; the
return code is one more than the highest group that matched; and names do not begin with a digit. -/
structure Documented (subject : CString) (compiled : Compiled) (matchAt : Nat → Option Match) :
    Prop where
  leftmost : ∀ offset ≤ subject.length, compiled.pcre2Match subject offset =
    ((List.range' offset (subject.length + 1 - offset)).findSome? matchAt).elim .noMatch .found
  starts : ∀ i m, matchAt i = some m →
    ∃ finish, m.ovector 0 = some (i, finish) ∧ i ≤ finish ∧ finish ≤ subject.length
  highest : ∀ i m, matchAt i = some m →
    0 < m.rc ∧ m.ovector (m.rc - 1) ≠ none ∧ ∀ n ≥ m.rc, m.ovector n = none
  named : ∀ entry ∈ compiled.nameTable, 0 < entry.1 ∧
    ∃ c rest, entry.2 = c :: rest ∧ Decimal.isDigit c = false

def scan (matchAt : Nat → Option Match) : (places : List Nat) → (free : Nat) → List Match
  | [], _ => []
  | i :: places, free =>
      if i < free then scan matchAt places free
      else
        match matchAt i with
        | none => scan matchAt places free
        | some m => m :: scan matchAt places m.finish

def successive (matchAt : Nat → Option Match) (subject : CString) : List Match :=
  scan matchAt (List.range (subject.length + 1)) 0

def unnamed (nameTable : List (Nat × CString)) (m : Match) : List Nat :=
  (List.range m.rc).filter fun n => (m.ovector n).isSome ∧ n ∉ nameTable.map Prod.fst

def entries (subject : CString) (nameTable : List (Nat × CString)) (m : Match) :
    List (Key × Group) :=
  nameTable.map (fun (n, name) => (.str name, group subject (m.ovector n))) ++
    (unnamed nameTable m).map fun n => (.str (Decimal.digits n), group subject (m.ovector n))

def Shows (subject : CString) (nameTable : List (Nat × CString)) (m : Match) (map : Groups) : Prop :=
  map.bindings.Perm (entries subject nameTable m)

def Answers (subject : CString) (nameTable : List (Nat × CString)) (findAll : Bool) (limit : Nat)
    (matches_ : List Match) (result : Option Answer) : Prop :=
  (∃ maps, result = some (.value maps) ∧
    List.Forall₂ (Shows subject nameTable) (if findAll then matches_ else matches_.take 1) maps) ∨
  (findAll = true ∧ limit < matches_.length ∧ ∃ loops, result = some (.maxrec loops))

/-! When that is so. -/

def InArray (nameTable : List (Nat × CString)) (m : Match) : Prop :=
  ∀ entry ∈ nameTable, entry.1 / 8 < m.rc

def DistinctNames (nameTable : List (Nat × CString)) : Prop :=
  nameTable.Pairwise fun a b => caseFold a.2 ≠ caseFold b.2

/-- No match is empty but one at the end of the subject, and that one does not come after a match
that ends there. -/
def Advances (length : Nat) : (offset : Nat) → List Match → Prop
  | _, [] => True
  | offset, m :: rest =>
      offset < length ∧ (m.start < m.finish ∨ m.start = length) ∧ Advances length m.finish rest

/-- The matches up to the first that is empty, but for one at the end. -/
def upToEmpty (length : Nat) : List Match → List Match
  | [] => []
  | m :: rest =>
      if m.start < m.finish ∨ m.start = length then m :: upToEmpty length rest else [m]

def Answerable (subject : CString) (nameTable : List (Nat × CString)) (findAll : Bool)
    (limit : Nat) (matches_ : List Match) : Prop :=
  if findAll = false then
    ∀ m ∈ matches_.head?, subject ≠ [] ∧ InArray nameTable m ∧ DistinctNames nameTable
  else if limit < matches_.length then
    ∀ m ∈ (upToEmpty subject.length matches_).take (limit - 1), InArray nameTable m
  else
    matches_.length < limit ∧ Advances subject.length 0 matches_ ∧
      (∀ m ∈ matches_, InArray nameTable m) ∧ (matches_ ≠ [] → DistinctNames nameTable)

end ToastStunt.Pcre
