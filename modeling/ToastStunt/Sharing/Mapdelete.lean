import ToastStunt.Sharing.Searches

/-!
`mapdelete` on maps and argument lists that others may hold.
-/

namespace ToastStunt.Sharing

open Maps RedBlack Counting OrderedTable

def deleteEach (r : Nat) : List Var → Heap → Option (Heap × Option Refusal)
  | [], s => some (s, none)
  | v :: rest, s =>
      match v.scalar with
      | none => some (s, some (.error .type))
      | some key =>
          (eraseKey s r key).bind fun (s, found) =>
            if found then deleteEach r rest s else some (s, some (.key v))

def deleteOne (r : Nat) (v : Var) (s : Heap) : Option (Heap × Option Refusal) :=
  match v.scalar with
  | none => some (s, some (.error .type))
  | some key =>
      (eraseKey s r key).map fun (s, found) => (s, if found then none else some (.error .range))

def asked (s : Heap) : Var → Option Asked
  | .emptylist => some (.each [])
  | .list keys =>
      match s.content keys with
      | some (.list items) => some (.each items)
      | _ => none
  | v => some (.one v)

def deleteAsked (r : Nat) : Asked → Heap → Option (Heap × Option Refusal)
  | .one v => deleteOne r v
  | .each vars => deleteEach r vars

/-- `var_dup` is called when the list of the key is freed: a string may be freed with it. -/
def Refusal.raised (s : Heap) : Refusal → Option MapdeleteError
  | .error err => some err
  | .key (.str address text) => (s.block address).bind fun _ => refuseKey (.str text)
  | .key v => v.scalar.bind refuseKey

def deleteFrom (arglist : Nat) (keyArg : Var) (r : Nat) (s : Heap) :
    Option (Heap × Except MapdeleteError Nat) :=
  (asked s keyArg).bind fun keys =>
    (deleteAsked r keys s).bind fun (s, refused) =>
      match refused with
      | none => (freeVars s [.list arglist]).map fun s => (s, .ok r)
      | some refusal =>
          (freeVars s [.map r, .list arglist]).bind fun s =>
            (refusal.raised s).map fun err => (s, .error err)

def bfMapdelete (s : Heap) (arglist : Nat) : Option (Heap × Except MapdeleteError Nat) :=
  match s.content arglist with
  | some (.list [.map address, keyArg]) =>
      match s.content address with
      | some (.map map) =>
          if s.tally address = 1 then deleteFrom arglist keyArg address (s.share address)
          else (mapDup s map).bind fun (s, r) => deleteFrom arglist keyArg r s
      | _ => none
  | _ => none

/-- The argument list of `f(@l)`: `OP_CHECK_LIST_FOR_SPLICE` leaves the list as it was pushed. -/
def spliceArgs (s : Heap) : Var → Option (Heap × Nat)
  | .list address => some (varRef s (.list address), address)
  | _ => none

/-! What a call should do. -/

def Answers (s : Heap) : Except MapdeleteError Nat → Except MapdeleteError (List (Key × Held)) → Prop
  | .ok r, .ok entries => shownAt s r = some (.map entries)
  | .error err, .error err' => err = err'
  | _, _ => False

def answerHolders : Except MapdeleteError Nat → List Nat
  | .ok r => [r]
  | .error _ => []

/-- The call returns, its answer is the one that is wanted, and no other holder sees a change. A
copy may have lost bindings, whose references are then never given up. -/
def DeletesByValue (s : Heap) (arglist : Nat) (others : List Nat)
    (wanted : Except MapdeleteError (List (Key × Held))) : Prop :=
  ∃ s' answer leaked, bfMapdelete s arglist = some (s', answer) ∧
    Even s' (answerHolders answer ++ (leaked ++ others)) ∧ Answers s' answer wanted ∧
    ∀ holder ∈ others, Unchanged s s' holder

inductive Inside (s : Heap) (a : Nat) : Nat → Prop
  | here : Inside s a a
  | step {b c : Nat} {body : Body} (inside : Inside s a b) (there : s.content b = some body)
      (value : body.isWaif = false) (held : c ∈ body.shown.addresses) : Inside s a c

/-- A call with a map and what to delete in its argument list, which the call itself holds. -/
structure Called (s : Heap) (arglist : Nat) (others : List Nat) (address : Nat)
    (map : RBTree Key Held) (keyArg : Var) (keys : Asked) : Prop where
  even : Even s (arglist :: others)
  tidy : Tidy s
  args : s.content arglist = some (.list [.map address, keyArg])
  asks : asked s keyArg = some keys
  body : s.content address = some (.map map)
  apart : Apart map
  acyclic : ¬Inside s address arglist

def Outlives (s : Heap) (arglist : Nat) (map own : RBTree Key Held) (a : Nat) : Prop :=
  ∀ s', freeVars (varRefEach s (lost map own)) [.list arglist] = some s' → s'.block a ≠ none

/-! The searches on the heap. -/

section

variable {r : Nat} {holders : List Nat}

theorem deleteEach_spec (member : r ∈ holders) (vars : List Var) :
    ∀ {s : Heap} {tree : RBTree Key Held}, Even s holders → s.content r = some (.map tree) →
      Apart tree → (searchEach vars tree = none → deleteEach r vars s = none) ∧
      ∀ left refused, searchEach vars tree = some (left, refused) →
        ∃ s', deleteEach r vars s = some (s', refused) ∧ Carried r holders s s' ∧
          s'.content r = some (.map left) := by
  induction vars with
  | nil =>
      intro s tree even body apart
      refine ⟨(fun none => by cases none), fun left refused ran => ?_⟩
      obtain ⟨rfl, rfl⟩ := Prod.mk.inj (Option.some.inj ran)
      exact ⟨s, rfl, .refl even, body⟩
  | cons v rest ih =>
      intro s tree even body apart
      rw [searchEach, deleteEach]
      cases scalar : v.scalar with
      | none =>
          refine ⟨(fun none => by cases none), fun left refused ran => ?_⟩
          obtain ⟨rfl, rfl⟩ := Prod.mk.inj (Option.some.inj ran)
          exact ⟨s, rfl, .refl even, body⟩
      | some key =>
          simp only
          cases erased : rberase (compare false) tree key with
          | none =>
              constructor
              · intro _
                rw [eraseKey, body]
                simp only [erased, Option.bind_none]
              · intro left refused ran
                simp only [Option.bind_none, reduceCtorEq] at ran
          | some both =>
              obtain ⟨next, found⟩ := both
              obtain ⟨s₁, ran₁, carried₁, body₁⟩ := eraseKey_spec even member body apart erased
              simp only [ran₁, Option.bind_some]
              cases found with
              | false =>
                  refine ⟨(fun none => by cases none), fun left refused ran => ?_⟩
                  obtain ⟨rfl, rfl⟩ := Prod.mk.inj (Option.some.inj ran)
                  exact ⟨s₁, rfl, carried₁, body₁⟩
              | true =>
                  obtain ⟨fails, runs⟩ := ih carried₁.even body₁ (rberase_subperm apart erased).2
                  refine ⟨fails, fun left refused ran => ?_⟩
                  obtain ⟨s', ran', carried, body'⟩ := runs left refused ran
                  exact ⟨s', ran', carried₁.trans carried, body'⟩

theorem deleteAsked_spec (member : r ∈ holders) (keys : Asked) {s : Heap} {tree : RBTree Key Held}
    (even : Even s holders) (body : s.content r = some (.map tree)) (apart : Apart tree) :
    (searchAsked keys tree = none → deleteAsked r keys s = none) ∧
    ∀ left refused, searchAsked keys tree = some (left, refused) →
      ∃ s', deleteAsked r keys s = some (s', refused) ∧ Carried r holders s s' ∧
        s'.content r = some (.map left) := by
  cases keys with
  | each vars => exact deleteEach_spec member vars even body apart
  | one v =>
      rw [searchAsked, deleteAsked, searchOne, deleteOne]
      cases scalar : v.scalar with
      | none =>
          refine ⟨(fun none => by cases none), fun left refused ran => ?_⟩
          obtain ⟨rfl, rfl⟩ := Prod.mk.inj (Option.some.inj ran)
          exact ⟨s, rfl, .refl even, body⟩
      | some key =>
          simp only
          cases erased : rberase (compare false) tree key with
          | none =>
              constructor
              · intro _
                rw [eraseKey, body]
                simp only [erased, Option.bind_none, Option.map_none]
              · intro left refused ran
                simp only [Option.map_none, reduceCtorEq] at ran
          | some both =>
              obtain ⟨next, found⟩ := both
              obtain ⟨s₁, ran₁, carried₁, body₁⟩ := eraseKey_spec even member body apart erased
              refine ⟨(fun none => by cases none), fun left refused ran => ?_⟩
              obtain ⟨rfl, rfl⟩ := Prod.mk.inj (Option.some.inj ran)
              exact ⟨s₁, by simp only [ran₁, Option.map_some], carried₁, body₁⟩

end

structure Prepared (s : Heap) (arglist : Nat) (others : List Nat) (address : Nat)
    (map : RBTree Key Held) (keyArg : Var) (keys : Asked) (s₁ : Heap) (r : Nat)
    (own : RBTree Key Held) : Prop where
  even : Even s₁ (r :: arglist :: ((lost map own).flatMap Var.addresses ++ others))
  same : ∀ a, a ≠ r → s₁.content a = s.content a
  tidy : Tidy s₁
  asks : asked s₁ keyArg = some keys
  body : s₁.content r = some (.map own)
  apart : Apart own
  fewer : own.bindings.Subperm map.bindings
  place : s.block r = none ∨ r = address ∧ own = map ∧ s.tally address = 1

theorem asked_congr {s s₁ : Heap} {keyArg : Var} {keys : Asked} (asks : asked s keyArg = some keys)
    (same : ∀ a items, s.content a = some (.list items) → s₁.content a = s.content a) :
    asked s₁ keyArg = some keys := by
  cases keyArg with
  | list a =>
      rw [asked] at asks ⊢
      split at asks
      · rename_i items there
        rw [same a items there, there]
        exact asks
      · cases asks
  | leaf key => exact asks
  | str a text => exact asks
  | emptylist => exact asks
  | map a => exact asks

section

variable {s : Heap} {arglist address : Nat} {others : List Nat} {map : RBTree Key Held}
  {keyArg : Var} {keys : Asked}

theorem lost_self (map : RBTree Key Held) : lost map map = [] := by
  rw [lost]
  induction map.bindings with
  | nil => rfl
  | cons entry rest ih => rw [List.diff_cons, List.erase_cons_head, ih]

theorem prepared_in_place (called : Called s arglist others address map keyArg keys)
    (sole : s.tally address = 1) :
    Prepared s arglist others address map keyArg keys (s.share address) address map := by
  obtain ⟨b, there, _⟩ := Option.map_eq_some_iff.mp called.body
  have same (a : Nat) : (s.share address).content a = s.content a := content_share s address a
  refine ⟨?_, fun a _ => same a, tidy_foldl_share [address] called.tidy,
    asked_congr called.asks fun a _ _ => same a, ?_, called.apart, List.Subperm.refl _,
    .inr ⟨rfl, rfl, sole⟩⟩
  · rw [lost_self]
    exact called.even.share there
  · rw [same, called.body]

theorem prepared_copy (called : Called s arglist others address map keyArg keys)
    {own : RBTree Key Held} (copied : Maps.mapDup (compare false) map = some own) :
    ∃ s₁ r, mapDup s map = some (s₁, r) ∧
      Prepared s arglist others address map keyArg keys s₁ r own := by
  obtain ⟨s₁, r, ran, fresh, even, same, body, tidy⟩ :=
    mapDup_spec called.even called.body called.apart copied
  obtain ⟨fewer, apart⟩ := mapDup_subperm called.apart copied
  refine ⟨s₁, r, ran, even.perm (List.perm_middle.cons r), same, tidy called.tidy, ?_, body, apart,
    fewer, .inl fresh⟩
  refine asked_congr called.asks fun a items there => same a ?_
  rintro rfl
  exact block_ne_none there fresh

/-! What outlives a call. -/

/-- When the references to the argument list and the map are given up, whatever was done to the map
at `r`. -/
structure Settled (r : Nat) (map : RBTree Key Held) (holders : List Nat) (s f : Heap) : Prop where
  even : Even f holders
  tidy : Tidy f
  calm : Calm r s f
  worked : ∀ body, f.content r = some body →
    body.isWaif = false ∧ body.shown.addresses ⊆ (Body.map map).shown.addresses
  lasting : ∀ Alive, ¬Alive r → Lasting s holders Alive → Lasting f holders Alive

theorem Settled.alive {r : Nat} {holders : List Nat} {f g : Heap}
    (first : Settled r map holders s f) (second : Settled r map holders s g)
    (gone : f.block r = none) {a : Nat} (there : f.block a ≠ none) : g.block a ≠ none := by
  have lasting : Lasting s holders fun c => f.block c ≠ none := by
    refine (first.even.upheld first.tidy).congr (fun c alive => ?_) (List.Subset.refl _)
    refine (first.calm c alive ?_).symm
    rintro rfl
    exact alive gone
  obtain ⟨body, found, _⟩ := second.lasting _ (fun alive => alive gone) lasting a there
  exact block_ne_none found

variable {f : Heap}

theorem Settled.copy_gone (called : Called s arglist others address map keyArg keys) {r : Nat}
    {leaked : List Nat} (settled : Settled r map (leaked ++ others) s f)
    (leaks : leaked ⊆ (Body.map map).shown.addresses) (fresh : s.block r = none) :
    f.block r = none := by
  refine gone_of_unheld settled.even settled.tidy ?_ ?_ fun body found =>
    (settled.worked body found).1
  · intro member
    rcases List.mem_append.mp member with lost | other
    · exact child_there called.even called.body (leaks lost) fresh
    · exact holder_there called.even (List.mem_cons_of_mem _ other) fresh
  · intro c body found held
    by_cases same : c = r
    · subst same
      exact child_there called.even called.body ((settled.worked body found).2 held) fresh
    · rw [settled.calm c (block_ne_none found) same] at found
      exact child_there called.even found held fresh

theorem held_args (address : Nat) (keyArg : Var) :
    address ∈ (Body.list [.map address, keyArg]).shown.addresses := by
  simp [Body.shown, Shown.addresses, Shown.vars, Var.addresses]

theorem Called.ne (called : Called s arglist others address map keyArg keys) :
    arglist ≠ address := by
  rintro rfl
  have body := called.body
  rw [called.args] at body
  cases body

theorem Settled.map_gone (called : Called s arglist others address map keyArg keys)
    (settled : Settled address map others s f) (sole : s.tally address = 1)
    (once : s.tally arglist = 1) : f.block address = none := by
  have counted := called.even arglist
  rw [once, List.count_cons_self] at counted
  have unheld : ∀ c body, s.content c = some body → arglist ∉ body.shown.addresses := by
    intro c body found held
    have positive := heldWithin_pos found held
    omega
  have listGone : f.block arglist = none := by
    refine gone_of_unheld settled.even settled.tidy ?_ ?_ fun body found => ?_
    · intro member
      have positive := List.count_pos_iff.mpr member
      omega
    · intro c body found held
      by_cases same : c = address
      · subst same
        exact unheld c _ called.body ((settled.worked body found).2 held)
      · rw [settled.calm c (block_ne_none found) same] at found
        exact unheld c body found held
    · rw [settled.calm arglist (block_ne_none found) called.ne, called.args] at found
      obtain rfl := Option.some.inj found
      rfl
  have countedMap := called.even address
  have positive := heldWithin_pos called.args (held_args address keyArg)
  rw [sole, List.count_cons] at countedMap
  have only : ∀ c body, s.content c = some body → address ∈ body.shown.addresses → c = arglist := by
    intro c body found held
    by_contra other
    obtain ⟨b, block, rfl⟩ := Option.map_eq_some_iff.mp found
    obtain ⟨b', block', same⟩ := Option.map_eq_some_iff.mp called.args
    have both := weigh_two (fun content => (Shown.addresses (Body.shown content)).count address)
      block block' other
    have first := List.count_pos_iff.mpr held
    have second := List.count_pos_iff.mpr (same ▸ (held_args address keyArg))
    rw [heldWithin] at countedMap
    omega
  refine gone_of_unheld settled.even settled.tidy ?_ ?_ fun body found =>
    (settled.worked body found).1
  · intro member
    have more := List.count_pos_iff.mpr member
    omega
  · intro c body found held
    by_cases same : c = address
    · subst same
      exact called.ne (only c _ called.body ((settled.worked body found).2 held)).symm
    · have there := block_ne_none found
      rw [settled.calm c there same] at found
      rw [only c body found held] at there
      exact there listGone

theorem Settled.list_there (called : Called s arglist others address map keyArg keys)
    (settled : Settled address map others s f) (shared : s.tally arglist ≠ 1) {k a : Nat}
    {items : List Var} (listed : keyArg = .list k) (there : s.content k = some (.list items))
    (held : a ∈ (Body.list items).shown.addresses) : f.block a ≠ none := by
  let Alive (c : Nat) : Prop :=
    ∃ body, s.content c = some body ∧ (body.isWaif = true ∨ ¬Inside s address c)
  have outside {c p : Nat} {parent : Body} (apart : ¬Inside s address c)
      (found : s.content p = some parent) (holds : c ∈ parent.shown.addresses) : Alive p := by
    cases waif : parent.isWaif with
    | true => exact ⟨parent, found, .inl waif⟩
    | false => exact ⟨parent, found, .inr fun inside => apart (.step inside found waif holds)⟩
  have dead : ¬Alive address := by
    rintro ⟨body, found, reason⟩
    obtain rfl := Option.some.inj (called.body.symm.trans found)
    rcases reason with waif | apart
    · cases waif
    · exact apart .here
  have lasting : Lasting s others Alive := by
    rintro c ⟨body, found, reason⟩
    refine ⟨body, found, ?_⟩
    rcases reason with waif | apart
    · exact .inl waif
    · by_cases own : c = arglist
      · subst own
        have counted := called.even c
        rw [List.count_cons_self] at counted
        by_cases member : c ∈ others
        · exact .inr (.inl member)
        · rw [List.count_eq_zero.mpr member] at counted
          obtain ⟨p, parent, found', holds⟩ := @exists_of_weigh _ s
            (fun content => (Shown.addresses (Body.shown content)).count c)
            (by rw [heldWithin] at counted; omega)
          have holds := List.count_pos_iff.mp holds
          exact .inr (.inr ⟨p, parent, outside apart found' holds, found', holds⟩)
      · obtain ⟨_, found', reason⟩ := called.even.upheld called.tidy c (block_ne_none found)
        obtain rfl := Option.some.inj (found.symm.trans found')
        rcases reason with waif | member | ⟨p, parent, _, found'', holds⟩
        · exact .inl waif
        · exact .inr (.inl ((List.mem_cons.mp member).resolve_left own))
        · exact .inr (.inr ⟨p, parent, outside apart found'' holds, found'', holds⟩)
  obtain ⟨body, found, _⟩ :=
    settled.lasting Alive dead lasting arglist ⟨_, called.args, .inr called.acyclic⟩
  have foundArgs := (settled.calm arglist (block_ne_none found) called.ne).trans called.args
  have keysThere : f.block k ≠ none := by
    apply child_there settled.even foundArgs
    simp [listed, Body.shown, Shown.addresses, Shown.vars, Var.addresses]
  have other : k ≠ address := by
    rintro rfl
    rw [called.body] at there
    cases there
  exact child_there settled.even ((settled.calm k keysThere other).trans there) held

variable {s₁ : Heap} {r : Nat} {own : RBTree Key Held}

theorem settled_call (prepared : Prepared s arglist others address map keyArg keys s₁ r own)
    {s₂ s₃ : Heap} {left : RBTree Key Held}
    (carried : Carried r (r :: arglist :: ((lost map own).flatMap Var.addresses ++ others)) s₁ s₂)
    (body : s₂.content r = some (.map left)) (fewer : left.bindings.Subperm own.bindings)
    (freed : Freed ((lost map own).flatMap Var.addresses ++ others) s₂ s₃) :
    Settled r map ((lost map own).flatMap Var.addresses ++ others) s s₃ := by
  have same₂ {a : Nat} (there : s₂.block a ≠ none) (other : a ≠ r) : s₂.content a = s.content a :=
    (carried.calm a there other).trans (prepared.same a other)
  refine ⟨freed.even, freed.tidy (carried.tidy prepared.tidy), ?_, ?_, ?_⟩
  · intro a there other
    have same := freed.same a there
    exact same.trans (same₂ (block_of_content same there) other)
  · intro body' found
    rw [freed.same r (block_ne_none found), body] at found
    obtain rfl := Option.some.inj found
    exact ⟨rfl, addresses_subset (fewer.trans prepared.fewer)⟩
  · intro Alive dead lasting
    have other {a : Nat} (alive : Alive a) : a ≠ r := fun same => dead (same ▸ alive)
    have lasting₂ := carried.lasting Alive dead (lasting.congr
      (fun a alive => prepared.same a (other alive))
      fun a member => List.mem_cons_of_mem _ (List.mem_cons_of_mem _ member))
    refine freed.lasting Alive (lasting.congr (fun a alive => ?_) (List.Subset.refl _))
    obtain ⟨body', found, _⟩ := lasting₂ a alive
    exact same₂ (block_ne_none found) (other alive)

theorem leaked_subset (prepared : Prepared s arglist others address map keyArg keys s₁ r own) :
    (lost map own).flatMap Var.addresses ⊆ (Body.map map).shown.addresses := by
  intro a member
  exact (addresses_perm prepared.fewer).mem_iff.mpr (List.mem_append_left _ member)

theorem settled_list (called : Called s arglist others address map keyArg keys)
    (prepared : Prepared s arglist others address map keyArg keys s₁ r own) :
    ∃ f, freeVars (varRefEach s (lost map own)) [.list arglist] = some f ∧
      Settled r map ((lost map own).flatMap Var.addresses ++ others) s f := by
  have shared := foldl_share_even _ called.even
    fun a member => child_there called.even called.body (leaked_subset prepared member)
  rw [← varRefEach_eq] at shared
  have same (a : Nat) : (varRefEach s (lost map own)).content a = s.content a := by
    rw [varRefEach_eq, content_foldl_share]
  have tidy : Tidy (varRefEach s (lost map own)) := by
    rw [varRefEach_eq]
    exact tidy_foldl_share _ called.tidy
  obtain ⟨f, ran, freed⟩ := freeVars_spec [.list arglist] (shared.perm List.perm_middle)
  refine ⟨f, ran, freed.even, freed.tidy tidy, ?_, ?_, ?_⟩
  · intro a there _
    exact (freed.same a there).trans (same a)
  · intro body found
    rw [freed.same r (block_ne_none found), same] at found
    rcases prepared.place with fresh | ⟨rfl, rfl, _⟩
    · exact absurd fresh (block_ne_none found)
    · rw [called.body] at found
      obtain rfl := Option.some.inj found
      exact ⟨rfl, List.Subset.refl _⟩
  · intro Alive _ lasting
    exact freed.lasting Alive (lasting.congr (fun a _ => same a) (List.Subset.refl _))

theorem outlives_iff (called : Called s arglist others address map keyArg keys)
    (prepared : Prepared s arglist others address map keyArg keys s₁ r own) {f : Heap}
    (settled : Settled r map ((lost map own).flatMap Var.addresses ++ others) s f) {k a : Nat}
    {items : List Var} (listed : keyArg = .list k) (there : s.content k = some (.list items))
    (held : a ∈ (Body.list items).shown.addresses) :
    f.block a ≠ none ↔ Outlives s arglist map own a := by
  obtain ⟨g, ran, settled'⟩ := settled_list called prepared
  have outlives : Outlives s arglist map own a ↔ g.block a ≠ none := by
    rw [Outlives, ran]
    simp
  rw [outlives]
  have both (gone : ∀ f, Settled r map ((lost map own).flatMap Var.addresses ++ others) s f →
      f.block r = none) : f.block a ≠ none ↔ g.block a ≠ none :=
    ⟨settled.alive settled' (gone f settled), settled'.alive settled (gone g settled')⟩
  rcases prepared.place with fresh | ⟨rfl, rfl, sole⟩
  · exact both fun f settled => settled.copy_gone called (leaked_subset prepared) fresh
  · by_cases once : s.tally arglist = 1
    · refine both fun f settled => ?_
      rw [lost_self] at settled
      exact settled.map_gone called sole once
    · rw [lost_self] at settled settled'
      exact iff_of_true (settled.list_there called once listed there held)
        (settled'.list_there called once listed there held)

/-! The call. -/

theorem raised_iff {refusal : Refusal} {lives : Nat → Prop} {err : MapdeleteError}
    (same : ∀ a text, refusal = .key (.str a text) → (f.block a ≠ none ↔ lives a)) :
    refusal.raised f = some err ↔ refusal.Is lives err := by
  cases refusal with
  | error err' => simp [Refusal.raised, Refusal.Is]
  | key v =>
      cases v with
      | str a text =>
          have same := same a text rfl
          rw [Refusal.Is, Returnable, ← same, Refusal.raised]
          cases found : f.block a with
          | none => simp
          | some b => simp [refuseKey, Var.scalar]
      | leaf key => cases key <;> simp [Refusal.raised, Refusal.Is, Returnable, Var.scalar, refuseKey]
      | emptylist => simp [Refusal.raised, Refusal.Is, Var.scalar]
      | list a => simp [Refusal.raised, Refusal.Is, Var.scalar]
      | map a => simp [Refusal.raised, Refusal.Is, Var.scalar]

theorem searchEach_key {vars : List Var} {tree left : RBTree Key Held} {v : Var}
    (ran : searchEach vars tree = some (left, some (.key v))) : v ∈ vars := by
  induction vars generalizing tree with
  | nil => cases ran
  | cons w rest ih =>
      rw [searchEach] at ran
      split at ran
      · cases ran
      · obtain ⟨⟨next, found⟩, _, ran⟩ := Option.bind_eq_some_iff.mp ran
        cases found with
        | false =>
            cases ran
            exact List.mem_cons_self
        | true => exact List.mem_cons_of_mem w (ih ran)

theorem searchAsked_key {keys : Asked} {tree left : RBTree Key Held} {v : Var}
    (ran : searchAsked keys tree = some (left, some (.key v))) :
    ∃ vars, keys = .each vars ∧ v ∈ vars := by
  cases keys with
  | each vars => exact ⟨vars, rfl, searchEach_key ran⟩
  | one w =>
      rw [searchAsked, searchOne] at ran
      split at ran
      · cases ran
      · obtain ⟨⟨next, found⟩, _, same⟩ := Option.map_eq_some_iff.mp ran
        cases found <;> cases same

theorem outcome_of_raised {refusal : Refusal} {err : MapdeleteError}
    (raised : refusal.raised f = some err) (left : RBTree Key Held) :
    outcome left (some refusal) = some (.error err) := by
  cases refusal with
  | error err' =>
      obtain rfl := Option.some.inj raised
      rfl
  | key v =>
      rw [outcome]
      cases v with
      | str a text =>
          obtain ⟨b, _, refused⟩ := Option.bind_eq_some_iff.mp raised
          obtain rfl := Option.some.inj refused
          rfl
      | leaf key => exact congrArg (Option.map Except.error) raised
      | emptylist => cases raised
      | list a => cases raised
      | map a => cases raised

def Stands (s : Heap) : Except MapdeleteError Nat → Except MapdeleteError (RBTree Key Held) → Prop
  | .ok r, .ok map => s.content r = some (.map map)
  | .error err, .error err' => err = err'
  | _, _ => False

structure Deleted (s : Heap) (r : Nat) (holders : List Nat) (own : RBTree Key Held) (keys : Asked)
    (s' : Heap) (answer : Except MapdeleteError Nat) : Prop where
  even : Even s' (answerHolders answer ++ holders)
  calm : Calm r s s'
  taken : TakesOut own keys → shownAt s' r ≠ some (.map own.bindings)
  kept : ¬TakesOut own keys → s'.block r ≠ none → shownAt s' r = some (.map own.bindings)
  stands : ∃ left refused answer', searchAsked keys own = some (left, refused) ∧
    outcome left refused = some answer' ∧ Stands s' answer answer'

theorem deleted_of_searched {s₂ s₃ : Heap} {left : RBTree Key Held} {refused : Option Refusal}
    {holders : List Nat} {answer : Except MapdeleteError Nat}
    {answer' : Except MapdeleteError (RBTree Key Held)} (apart : Apart own)
    (searching : searchAsked keys own = some (left, refused))
    (ends : outcome left refused = some answer') (stands : Stands s₃ answer answer')
    (even : Even s₃ (answerHolders answer ++ holders)) (calm : Calm r s s₂)
    (body : s₂.content r = some (.map left))
    (same : ∀ a, s₃.block a ≠ none → s₃.content a = s₂.content a) :
    Deleted s r holders own keys s₃ answer := by
  have searched := searchAsked_searched apart searching
  have showsLeft (there : s₃.block r ≠ none) : shownAt s₃ r = some (.map left.bindings) := by
    rw [shownAt, Store.shown, same r there, body]
    rfl
  refine ⟨even, calm.trans fun a there _ => same a there, ?_, ?_, left, refused, answer', searching,
    ends, stands⟩
  · intro takes unchanged
    have there : s₃.block r ≠ none := by
      intro gone
      rw [shownAt, Store.shown, Store.content, gone] at unchanged
      cases unchanged
    rw [showsLeft there, Option.some.injEq, Shown.map.injEq] at unchanged
    have fewer := searched.taken takes
    rw [unchanged] at fewer
    omega
  · intro untaken there
    rw [showsLeft there, searched.untouched untaken]

theorem deleteFrom_spec (called : Called s arglist others address map keyArg keys)
    (prepared : Prepared s arglist others address map keyArg keys s₁ r own) :
    ((∃ s' answer, deleteFrom arglist keyArg r s₁ = some (s', answer) ∧
      Answers s' answer (wanted map.bindings keys)) ↔
        Right (Outlives s arglist map own) own map.bindings keys) ∧
    ∀ s' answer, deleteFrom arglist keyArg r s₁ = some (s', answer) →
      Deleted s r ((lost map own).flatMap Var.addresses ++ others) own keys s' answer := by
  rw [← right_iff, deleteFrom, prepared.asks, Option.bind_some]
  obtain ⟨fails, runs⟩ :=
    deleteAsked_spec List.mem_cons_self keys prepared.even prepared.body prepared.apart
  cases searching : searchAsked keys own with
  | none =>
      rw [fails searching]
      simp
  | some both =>
      obtain ⟨left, refused⟩ := both
      obtain ⟨s₂, ran, carried, body⟩ := runs left refused searching
      have searched := searchAsked_searched prepared.apart searching
      have calm : Calm r s s₂ := fun a there other =>
        (carried.calm a there other).trans (prepared.same a other)
      rw [ran, Option.bind_some, ended_iff]
      cases refused with
      | none =>
          obtain ⟨s₃, freeing, freed⟩ :=
            freeVars_spec [.list arglist] (carried.even.perm (List.Perm.swap _ _ _))
          have there : s₃.block r ≠ none := holder_there freed.even List.mem_cons_self
          have stands : s₃.content r = some (.map left) := (freed.same r there).trans body
          simp only [freeing, Option.map_some]
          constructor
          · have shown : shownAt s₃ r = some (.map left.bindings) := by
              rw [shownAt, Store.shown, stands]
              rfl
            cases wanted map.bindings keys with
            | ok entries => simp [Answers, Matches, shown]
            | error err => simp [Answers, Matches]
          · rintro s' answer same
            obtain ⟨rfl, rfl⟩ := Prod.mk.inj (Option.some.inj same)
            exact deleted_of_searched prepared.apart searching rfl stands freed.even calm body
              freed.same
      | some refusal =>
          obtain ⟨s₃, freeing, freed⟩ := freeVars_spec [.map r, .list arglist] carried.even
          simp only [freeing, Option.bind_some]
          have settled := settled_call prepared carried body searched.fewer freed
          have raised {err : MapdeleteError} : refusal.raised s₃ = some err ↔
              refusal.Is (Outlives s arglist map own) err := by
            refine raised_iff fun a text same => ?_
            subst same
            obtain ⟨vars, rfl, member⟩ := searchAsked_key searching
            have asks := called.asks
            cases keyArg with
            | list k =>
                rw [asked] at asks
                split at asks
                · rename_i items there
                  cases asks
                  refine outlives_iff called prepared settled rfl there ?_
                  exact List.mem_flatMap.mpr ⟨_, member, List.mem_singleton_self a⟩
                · cases asks
            | emptylist =>
                cases asks
                cases member
            | leaf key => cases asks
            | str a text => cases asks
            | map a => cases asks
          constructor
          · cases wanted map.bindings keys with
            | ok entries =>
                cases refusal.raised s₃ <;> simp [Answers, Matches]
            | error err =>
                rw [Matches]
                simp only [Option.some.injEq, exists_eq_left']
                rw [← raised]
                cases refusal.raised s₃ <;> simp [Answers]
          · rintro s' answer same
            obtain ⟨err, raised, same⟩ := Option.map_eq_some_iff.mp same
            obtain ⟨rfl, rfl⟩ := Prod.mk.inj same
            exact deleted_of_searched prepared.apart searching (outcome_of_raised raised left) rfl
              freed.even calm body freed.same

theorem Called.runs_in_place (called : Called s arglist others address map keyArg keys)
    (sole : s.tally address = 1) :
    bfMapdelete s arglist = deleteFrom arglist keyArg address (s.share address) := by
  rw [bfMapdelete, called.args]
  simp only [called.body, sole, if_true]

theorem Called.runs_copied (called : Called s arglist others address map keyArg keys)
    (shared : s.tally address ≠ 1) : bfMapdelete s arglist =
      (mapDup s map).bind fun (s, r) => deleteFrom arglist keyArg r s := by
  rw [bfMapdelete, called.args]
  simp only [called.body, shared, if_false]

theorem Called.shown (called : Called s arglist others address map keyArg keys) :
    shownAt s address = some (.map map.bindings) := by
  rw [shownAt, Store.shown, called.body]
  rfl

theorem unchanged_in_place (called : Called s arglist others address map keyArg keys)
    (sole : s.tally address = 1) {leaked : List Nat} {s' : Heap}
    {answer : Except MapdeleteError Nat}
    (deleted : Deleted s address (leaked ++ others) map keys s' answer) :
    (∀ holder ∈ others, Unchanged s s' holder) ↔
      (TakesOut map keys → ∀ holder ∈ others, ¬Sees s holder arglist) := by
  have held := held_args address keyArg
  constructor
  · intro unchanged takes holder member sees
    have path := sees.trans (.step called.args held (.here address))
    have same : shownAt s' address = shownAt s address := unchanged holder member address path
    exact deleted.taken takes (same.trans called.shown)
  · intro apart holder member
    have still := List.mem_append_right (answerHolders answer) (List.mem_append_right leaked member)
    by_cases takes : TakesOut map keys
    · apply deleted.even.keeps (fun a => a = address) _ still
      · rintro a sees rfl
        apply apart takes holder member
        exact called.even.reaches_through called.args held (Nat.le_of_eq sole)
          (List.mem_cons_of_mem _ member) sees
      · intro a there other
        exact deleted.calm.shown there other
    · apply deleted.even.keeps (fun _ => False) _ still
      · intro a _ changed
        exact changed
      · intro a there _
        by_cases same : a = address
        · rw [same] at there ⊢
          exact (deleted.kept takes there).trans called.shown.symm
        · exact deleted.calm.shown there same

theorem unchanged_copied (called : Called s arglist others address map keyArg keys)
    (fresh : s.block r = none) {leaked : List Nat} {s' : Heap} {answer : Except MapdeleteError Nat}
    (deleted : Deleted s r (leaked ++ others) own keys s' answer) :
    ∀ holder ∈ others, Unchanged s s' holder := by
  intro holder member
  apply deleted.even.keeps fun a => a = r
  · intro a there other
    exact deleted.calm.shown there other
  · exact List.mem_append_right _ (List.mem_append_right leaked member)
  · rintro a sees rfl
    obtain ⟨b, there⟩ := called.even.reached (List.mem_cons_of_mem _ member) sees
    rw [fresh] at there
    cases there

theorem Called.runs (called : Called s arglist others address map keyArg keys) :
    (∃ own s₁ r, Maps.own (s.tally address ≠ 1) map = some own ∧
      bfMapdelete s arglist = deleteFrom arglist keyArg r s₁ ∧
      Prepared s arglist others address map keyArg keys s₁ r own ∧
      (s.tally address = 1 → r = address ∧ own = map)) ∨
    Maps.own (s.tally address ≠ 1) map = none ∧ bfMapdelete s arglist = none := by
  by_cases sole : s.tally address = 1
  · refine .inl ⟨map, s.share address, address, ?_, called.runs_in_place sole,
      prepared_in_place called sole, fun _ => ⟨rfl, rfl⟩⟩
    simp [Maps.own, sole]
  · have copies : Maps.own (s.tally address ≠ 1) map = Maps.mapDup (compare false) map := by
      simp [Maps.own, sole]
    rw [copies]
    cases copied : Maps.mapDup (compare false) map with
    | none =>
        refine .inr ⟨rfl, ?_⟩
        rw [called.runs_copied sole, mapDup, copied]
        rfl
    | some own =>
        obtain ⟨s₁, r, copying, prepared⟩ := prepared_copy called copied
        refine .inl ⟨own, s₁, r, rfl, ?_, prepared, fun same => absurd same sole⟩
        rw [called.runs_copied sole, copying, Option.bind_some]

theorem bfMapdelete_stands (called : Called s arglist others address map keyArg keys) {s' : Heap}
    {answer : Except MapdeleteError Nat} (ran : bfMapdelete s arglist = some (s', answer)) :
    ∃ answer', Maps.bfMapdelete (s.tally address ≠ 1) map keys.arg = some answer' ∧
      Stands s' answer answer' := by
  rcases called.runs with ⟨own, s₁, r, owned, runs, prepared, _⟩ | ⟨_, stuck⟩
  · have deleted := (deleteFrom_spec called prepared).2 s' answer (runs ▸ ran)
    obtain ⟨left, refused, answer', searching, ends, stands⟩ := deleted.stands
    refine ⟨answer', ?_, stands⟩
    rw [bfMapdelete_eq, owned, Option.bind_some, searching, Option.bind_some]
    exact ends
  · rw [stuck] at ran
    cases ran

end

def keyA : Key := .str [97]

def mapA : RBTree Key Held := Execute.single keyA ⟨some 2, .emptylist⟩

def twoHolders : Heap :=
  [some ⟨1, .list [.map 1, .str 2 [97]]⟩, some ⟨2, .map mapA⟩, some ⟨2, .str [97]⟩]

theorem twoHolders_called : Called twoHolders 0 [1] 1 mapA (.str 2 [97]) (.one (.str 2 [97])) := by
  refine ⟨?_, ?_, rfl, rfl, rfl, List.nodup_singleton 0, ?_⟩
  · intro a
    rcases a with _ | _ | _ | a
    · rfl
    · rfl
    · rfl
    · simp [Store.tally, Store.block, heldWithin, Store.weigh, twoHolders, Body.shown,
        Shown.addresses, Shown.vars, Var.addresses, mapA, Execute.single, RBTree.bindings,
        Node.binding, entryVars, keyVar, keyA]
  · intro a b there zero
    rcases a with _ | _ | _ | a
    · cases there
      cases zero
    · cases there
      cases zero
    · cases there
      cases zero
    · cases there
  · intro inside
    cases inside with
    | @step b _ body inside there value held =>
        rcases b with _ | _ | _ | b
        · cases there
          simp [Body.shown, Shown.addresses, Shown.vars, Var.addresses] at held
        · cases there
          simp [Body.shown, Shown.addresses, Shown.vars, Var.addresses, mapA, Execute.single,
            RBTree.bindings, Node.binding, entryVars, keyVar, keyA] at held
        · cases there
          cases held
        · cases there

def listed : Heap :=
  [some ⟨1, .list [.map 1, .str 2 [97]]⟩, some ⟨1, .map mapA⟩, some ⟨2, .str [97]⟩]

end ToastStunt.Sharing
