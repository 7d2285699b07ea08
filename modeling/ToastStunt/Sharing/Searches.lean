import ToastStunt.Execute.MapRanges
import ToastStunt.Sharing.Heap

/-!
The searches of `mapdelete` in a tree, and when they take out what is asked for. `compare` may miss
a key that is there or find one that is not, where two numbers are far apart or the keys are
booleans, waifs or anonymous objects.
-/

namespace ToastStunt.Sharing

open Maps RedBlack Counting OrderedTable

inductive Asked
  | one (v : Var)
  | each (vars : List Var)

def Asked.vars : Asked → List Var
  | .one v => [v]
  | .each vars => vars

/-- The error for a key that is not there is made of the key later. -/
inductive Refusal
  | error (err : MapdeleteError)
  | key (v : Var)

def searchEach : List Var → RBTree Key Held → Option (RBTree Key Held × Option Refusal)
  | [], tree => some (tree, none)
  | v :: rest, tree =>
      match v.scalar with
      | none => some (tree, some (.error .type))
      | some key =>
          (rberase (compare false) tree key).bind fun (tree, found) =>
            if found then searchEach rest tree else some (tree, some (.key v))

def searchOne (v : Var) (tree : RBTree Key Held) : Option (RBTree Key Held × Option Refusal) :=
  match v.scalar with
  | none => some (tree, some (.error .type))
  | some key =>
      (rberase (compare false) tree key).map fun (tree, found) =>
        (tree, if found then none else some (.error .range))

def searchAsked : Asked → RBTree Key Held → Option (RBTree Key Held × Option Refusal)
  | .one v => searchOne v
  | .each vars => searchEach vars

def TakesOut (tree : RBTree Key Held) (keys : Asked) : Prop :=
  ∃ v key left, keys.vars.head? = some v ∧ v.scalar = some key ∧
    rberase (compare false) tree key = some (left, true)

structure Searched (tree : RBTree Key Held) (keys : Asked) (left : RBTree Key Held) : Prop where
  apart : Apart left
  fewer : left.bindings.Subperm tree.bindings
  taken : TakesOut tree keys → left.bindings.length < tree.bindings.length
  untouched : ¬TakesOut tree keys → left.bindings = tree.bindings

theorem searched_none {tree : RBTree Key Held} {v : Var} (scalar : v.scalar = none)
    (apart : Apart tree) {keys : Asked} (first : keys.vars.head? = some v) :
    Searched tree keys tree := by
  refine ⟨apart, List.Subperm.refl _, ?_, fun _ => rfl⟩
  rintro ⟨w, key, left, head, some, _⟩
  rw [first, Option.some.injEq] at head
  rw [← head, scalar] at some
  cases some

theorem searched_found {tree left last : RBTree Key Held} {v : Var} {key : Key}
    (scalar : v.scalar = some key) (ran : rberase (compare false) tree key = some (left, true))
    (apart : Apart last) (fewer : last.bindings.Subperm left.bindings) (whole : Apart tree)
    {keys : Asked} (first : keys.vars.head? = some v) : Searched tree keys last := by
  refine ⟨apart, fewer.trans (rberase_subperm whole ran).1, fun _ => ?_, fun untaken => ?_⟩
  · exact Nat.lt_of_le_of_lt fewer.length_le (rberase_shorter ran)
  · exact absurd ⟨v, key, left, first, scalar, ran⟩ untaken

theorem searched_missed {tree left : RBTree Key Held} {v : Var} {key : Key}
    (scalar : v.scalar = some key) (ran : rberase (compare false) tree key = some (left, false))
    (whole : Apart tree) {keys : Asked} (first : keys.vars.head? = some v) :
    Searched tree keys left := by
  obtain ⟨fewer, apart⟩ := rberase_subperm whole ran
  refine ⟨apart, fewer, ?_, fun _ => rberase_missed ran⟩
  rintro ⟨w, key', left', head, some, found⟩
  rw [first, Option.some.injEq] at head
  rw [← head, scalar, Option.some.injEq] at some
  rw [← some, ran] at found
  cases found

theorem searchEach_searched {vars : List Var} {tree left : RBTree Key Held} {refused : Option Refusal}
    (apart : Apart tree) (ran : searchEach vars tree = some (left, refused)) :
    Searched tree (.each vars) left := by
  induction vars generalizing tree with
  | nil =>
      obtain ⟨rfl, _⟩ := Prod.mk.inj (Option.some.inj ran)
      refine ⟨apart, List.Subperm.refl _, ?_, fun _ => rfl⟩
      rintro ⟨v, key, left, head, _⟩
      cases head
  | cons v rest ih =>
      rw [searchEach] at ran
      cases scalar : v.scalar with
      | none =>
          rw [scalar] at ran
          obtain ⟨rfl, _⟩ := Prod.mk.inj (Option.some.inj ran)
          exact searched_none scalar apart rfl
      | some key =>
          rw [scalar] at ran
          obtain ⟨⟨next, found⟩, erased, ran⟩ := Option.bind_eq_some_iff.mp ran
          cases found with
          | false =>
              obtain ⟨rfl, _⟩ := Prod.mk.inj (Option.some.inj ran)
              exact searched_missed scalar erased apart rfl
          | true =>
              have later := ih (rberase_subperm apart erased).2 ran
              exact searched_found scalar erased later.apart later.fewer apart rfl

theorem searchAsked_searched {keys : Asked} {tree left : RBTree Key Held} {refused : Option Refusal}
    (apart : Apart tree) (ran : searchAsked keys tree = some (left, refused)) :
    Searched tree keys left := by
  cases keys with
  | each vars => exact searchEach_searched apart ran
  | one v =>
      rw [searchAsked, searchOne] at ran
      cases scalar : v.scalar with
      | none =>
          rw [scalar] at ran
          obtain ⟨rfl, _⟩ := Prod.mk.inj (Option.some.inj ran)
          exact searched_none scalar apart rfl
      | some key =>
          rw [scalar] at ran
          obtain ⟨⟨next, found⟩, erased, same⟩ := Option.map_eq_some_iff.mp ran
          obtain ⟨rfl, _⟩ := Prod.mk.inj same
          cases found with
          | false => exact searched_missed scalar erased apart rfl
          | true =>
              obtain ⟨fewer, left⟩ := rberase_subperm apart erased
              exact searched_found scalar erased left (List.Subperm.refl _) apart rfl

/-! What it should answer. -/

def without (key : Key) (entries : List (Key × Held)) : List (Key × Held) :=
  entries.filter fun entry => ¬SameKey entry.1 key

def Has (entries : List (Key × Held)) (key : Key) : Prop := ∃ entry ∈ entries, SameKey entry.1 key

instance (entries : List (Key × Held)) (key : Key) : Decidable (Has entries key) :=
  inferInstanceAs (Decidable (∃ entry ∈ entries, SameKey entry.1 key))

def Var.key : Var → Option Key
  | leaf key => some key
  | str _ text => some (.str text)
  | _ => none

def wantedEach : List (Key × Held) → List Var → Except MapdeleteError (List (Key × Held))
  | entries, [] => .ok entries
  | entries, v :: rest =>
      match v.key with
      | none => .error .type
      | some key =>
          if Has entries key then wantedEach (without key entries) rest
          else .error (.rangeWithKey key)

def wanted (entries : List (Key × Held)) : Asked → Except MapdeleteError (List (Key × Held))
  | .one v =>
      match v.key with
      | none => .error .type
      | some key => if Has entries key then .ok (without key entries) else .error .range
  | .each vars => wantedEach entries vars

theorem Var.key_of_scalar {v : Var} {key : Key} (scalar : v.scalar = some key) :
    v.key = some key := by
  cases v with
  | leaf key' => cases key' <;> simp_all [Var.scalar, Var.key]
  | str address text => exact scalar
  | emptylist => cases scalar
  | list _ => cases scalar
  | map _ => cases scalar

section

variable (lives : Nat → Prop)

/-- A waif cannot be copied into the error, nor a string that is freed with the list. -/
def Returnable : Var → Prop
  | .str address _ => lives address
  | .leaf (.waif _) => False
  | _ => True

def Refusal.Is (err : MapdeleteError) : Refusal → Prop
  | .error err' => err' = err
  | .key v => Returnable lives v ∧ ∃ key, v.scalar = some key ∧ .rangeWithKey key = err

def Matches (left : RBTree Key Held) (refused : Option Refusal) :
    Except MapdeleteError (List (Key × Held)) → Prop
  | .ok entries => refused = none ∧ left.bindings = entries
  | .error err => ∃ refusal, refused = some refusal ∧ refusal.Is lives err

def FailsAt (key : Key) : RBTree Key Held → List Var → Prop
  | _, [] => False
  | tree, v :: rest =>
      match v.scalar with
      | none => False
      | some key' =>
          match rberase (compare false) tree key' with
          | none => False
          | some (_, false) => Returnable lives v ∧ key' = key
          | some (left, true) => FailsAt key left rest

/-- An anonymous object is refused as if it were a list, which is right only if a later item is
wrong. -/
def RefusedEach (entries : List (Key × Held)) (v : Var) (rest : List Var) : Prop :=
  ∀ key, v.key = some key → Has entries key ∧ wantedEach (without key entries) rest = .error .type

/-- Each search finds something if and only if there is a binding of its key, and the searches
together take out the bindings of their keys. A wrong search does not show if the same key is listed
again and is then what the error is about. -/
def RightEach : RBTree Key Held → List (Key × Held) → List Var → Prop
  | tree, entries, [] => tree.bindings = entries
  | tree, entries, v :: rest =>
      match v.scalar with
      | none => RefusedEach entries v rest
      | some key =>
          match rberase (compare false) tree key with
          | none => False
          | some (_, false) => Returnable lives v ∧
              (Has entries key → wantedEach (without key entries) rest = .error (.rangeWithKey key))
          | some (left, true) =>
              if Has entries key then RightEach left (without key entries) rest
              else FailsAt lives key left rest

def RightOne (tree : RBTree Key Held) (entries : List (Key × Held)) (v : Var) : Prop :=
  match v.scalar with
  | none => v.key = none
  | some key =>
      match rberase (compare false) tree key with
      | none => False
      | some (_, false) => ¬Has entries key
      | some (left, true) => Has entries key ∧ left.bindings = without key entries

def Right (tree : RBTree Key Held) (entries : List (Key × Held)) : Asked → Prop
  | .one v => RightOne tree entries v
  | .each vars => RightEach lives tree entries vars

variable {lives}

theorem ended_iff {left : RBTree Key Held} {refused : Option Refusal}
    {answer : Except MapdeleteError (List (Key × Held))} :
    (∃ left' refused', some (left, refused) = some (left', refused') ∧
      Matches lives left' refused' answer) ↔ Matches lives left refused answer := by
  constructor
  · rintro ⟨_, _, same, correct⟩
    obtain ⟨rfl, rfl⟩ := Prod.mk.inj (Option.some.inj same)
    exact correct
  · intro correct
    exact ⟨left, refused, rfl, correct⟩

theorem matches_error {left : RBTree Key Held} {err : MapdeleteError}
    {answer : Except MapdeleteError (List (Key × Held))} :
    Matches lives left (some (.error err)) answer ↔ answer = .error err := by
  cases answer with
  | ok entries => simp [Matches]
  | error err' => simp [Matches, Refusal.Is, eq_comm]

theorem matches_key {left : RBTree Key Held} {v : Var} {key : Key} (scalar : v.scalar = some key)
    {answer : Except MapdeleteError (List (Key × Held))} :
    Matches lives left (some (.key v)) answer ↔
      Returnable lives v ∧ answer = .error (.rangeWithKey key) := by
  cases answer with
  | ok entries => simp [Matches]
  | error err' => simp [Matches, Refusal.Is, scalar, eq_comm]

theorem failsAt_iff {key : Key} {vars : List Var} {tree : RBTree Key Held} :
    (∃ left refused, searchEach vars tree = some (left, refused) ∧
      Matches lives left refused (.error (.rangeWithKey key))) ↔ FailsAt lives key tree vars := by
  induction vars generalizing tree with
  | nil => simp [searchEach, Matches, FailsAt]
  | cons v rest ih =>
      rw [searchEach, FailsAt]
      cases scalar : v.scalar with
      | none => simp [matches_error]
      | some key' =>
          simp only
          cases erased : rberase (compare false) tree key' with
          | none => simp
          | some both =>
              obtain ⟨next, found⟩ := both
              cases found with
              | false =>
                  simp only [Option.bind_some, Bool.false_eq_true, if_false, ended_iff,
                    matches_key scalar, Except.error.injEq, MapdeleteError.rangeWithKey.injEq]
                  rw [eq_comm (a := key)]
              | true => simpa using ih

theorem rightEach_iff {vars : List Var} {tree : RBTree Key Held} {entries : List (Key × Held)} :
    (∃ left refused, searchEach vars tree = some (left, refused) ∧
      Matches lives left refused (wantedEach entries vars)) ↔ RightEach lives tree entries vars := by
  induction vars generalizing tree entries with
  | nil => simp [searchEach, wantedEach, Matches, RightEach]
  | cons v rest ih =>
      rw [searchEach, RightEach]
      cases scalar : v.scalar with
      | none =>
          simp only [ended_iff, matches_error, RefusedEach]
          rw [wantedEach]
          cases asked : v.key with
          | none => simp
          | some key =>
              by_cases has : Has entries key
              · simp [has]
              · simp [has]
      | some key =>
          rw [wantedEach, Var.key_of_scalar scalar]
          simp only
          cases erased : rberase (compare false) tree key with
          | none => simp
          | some both =>
              obtain ⟨next, found⟩ := both
              cases found with
              | false =>
                  by_cases has : Has entries key
                  · simp [matches_key scalar, has]
                  · simp [matches_key scalar, has]
              | true =>
                  by_cases has : Has entries key
                  · simpa [has] using ih
                  · simpa [has] using failsAt_iff

/-- The searches end with what is wanted if and only if they are right. -/
theorem right_iff {keys : Asked} {tree : RBTree Key Held} {entries : List (Key × Held)} :
    (∃ left refused, searchAsked keys tree = some (left, refused) ∧
      Matches lives left refused (wanted entries keys)) ↔ Right lives tree entries keys := by
  cases keys with
  | each vars => exact rightEach_iff
  | one v =>
      rw [searchAsked, Right, RightOne, searchOne, wanted]
      cases scalar : v.scalar with
      | none =>
          simp only [ended_iff, matches_error]
          cases asked : v.key with
          | none => simp
          | some key =>
              by_cases has : Has entries key
              · simp [has]
              · simp [has]
      | some key =>
          rw [Var.key_of_scalar scalar]
          simp only
          cases erased : rberase (compare false) tree key with
          | none => simp
          | some both =>
              obtain ⟨next, found⟩ := both
              cases found with
              | false =>
                  by_cases has : Has entries key
                  · simp [matches_error, has]
                  · simp [matches_error, has]
              | true =>
                  by_cases has : Has entries key
                  · simp [Matches, has]
                  · simp [Matches, has]

end

/-! The deletion in a tree that nobody else holds. -/

def Asked.arg : Asked → MapdeleteArg
  | .one v => v.scalar.elim .map .key
  | .each vars => .list (vars.map Var.scalar)

/-- What a call answers after the searches, if every string that it reads is still there. -/
def outcome (left : RBTree Key Held) :
    Option Refusal → Option (Except MapdeleteError (RBTree Key Held))
  | none => some (.ok left)
  | some (.error err) => some (.error err)
  | some (.key v) => (v.scalar.bind refuseKey).map .error

theorem scalar_value {v : Var} {key : Key} (scalar : v.scalar = some key) :
    key.isCollection = false := by
  cases v with
  | leaf key' =>
      cases key' <;> simp only [Var.scalar, Option.some.injEq, reduceCtorEq] at scalar <;>
        subst scalar <;> rfl
  | str address text =>
      obtain rfl := Option.some.inj scalar
      rfl
  | emptylist => cases scalar
  | list _ => cases scalar
  | map _ => cases scalar

theorem deleteList_eq (vars : List Var) (tree : RBTree Key Held) :
    deleteList tree (vars.map Var.scalar) =
      (searchEach vars tree).bind fun (left, refused) => outcome left refused := by
  induction vars generalizing tree with
  | nil => rfl
  | cons v rest ih =>
      rw [searchEach, List.map_cons]
      cases scalar : v.scalar with
      | none => rfl
      | some key =>
          rw [deleteList, scalar_value scalar]
          simp only [Bool.false_eq_true, if_false]
          cases erased : rberase (compare false) tree key with
          | none => rfl
          | some both =>
              obtain ⟨next, found⟩ := both
              cases found with
              | false => simp [outcome, scalar]
              | true => simpa using ih next

theorem bfMapdelete_eq (shared : Bool) (map : RBTree Key Held) (keys : Asked) :
    Maps.bfMapdelete shared map keys.arg = (own shared map).bind fun own =>
      (searchAsked keys own).bind fun (left, refused) => outcome left refused := by
  rw [Maps.bfMapdelete]
  refine congrArg (Option.bind _) (funext fun own => ?_)
  cases keys with
  | each vars => exact deleteList_eq vars own
  | one v =>
      rw [Asked.arg, searchAsked, searchOne]
      cases scalar : v.scalar with
      | none => rfl
      | some key =>
          simp only [Option.elim_some, scalar_value scalar, Bool.false_eq_true, if_false]
          cases erased : rberase (compare false) own key with
          | none => rfl
          | some both =>
              obtain ⟨next, found⟩ := both
              cases found <;> rfl

end ToastStunt.Sharing
