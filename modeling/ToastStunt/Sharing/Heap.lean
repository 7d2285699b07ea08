import Mathlib.Data.List.Count
import ToastStunt.Library.Sharing
import ToastStunt.Maps.Finite
import ToastStunt.Maps.Rebuilding

/-!
Strings, lists, maps and waifs that variables, properties, lists and the stack share by counting
their references.
-/

namespace ToastStunt.Sharing

open Maps RedBlack Counting OrderedTable

/-- A string, a list, a map or a waif is at an address. The one empty list is never freed, nor is a
string that is a `leaf`, such as the one empty string. -/
inductive Var
  | leaf (key : Key)
  | str (address : Nat) (text : CString)
  | emptylist
  | list (address : Nat)
  | map (address : Nat)
  deriving DecidableEq

/-- The key, unless it `is_collection`, as an anonymous object is too. -/
def Var.scalar : Var → Option Key
  | leaf (.anon _) => none
  | leaf key => some key
  | str _ text => some (.str text)
  | _ => none

def Var.addresses : Var → List Nat
  | leaf (.waif address) => [address]
  | str address _ => [address]
  | list address => [address]
  | map address => [address]
  | _ => []

structure Held where
  key : Option Nat
  value : Var
  deriving DecidableEq

inductive Body
  | str (text : CString)
  | list (items : List Var)
  | map (tree : RBTree Key Held)
  | waif (propvals : List Var)

inductive Shown
  | str (text : CString)
  | list (items : List Var)
  | map (entries : List (Key × Held))
  | waif (propvals : List Var)

def Body.shown : Body → Shown
  | str text => .str text
  | list items => .list items
  | map tree => .map tree.bindings
  | waif propvals => .waif propvals

def keyVar : Key → Option Nat → Var
  | .str text, some address => .str address text
  | key, _ => .leaf key

def entryVars (entry : Key × Held) : List Var := [keyVar entry.1 entry.2.key, entry.2.value]

def Shown.vars : Shown → List Var
  | str _ => []
  | list items => items
  | map entries => entries.flatMap entryVars
  | waif propvals => propvals

def Shown.addresses (shown : Shown) : List Nat := shown.vars.flatMap Var.addresses

/-- A waif without references waits for its `recycle` verb and is freed later. -/
def Body.isWaif : Body → Bool
  | waif _ => true
  | _ => false

abbrev Heap := Store Body

abbrev Even (s : Heap) (holders : List Nat) : Prop := Balanced Body.shown Shown.addresses s holders

abbrev Sees (s : Heap) (holder a : Nat) : Prop :=
  Counting.Reaches Body.shown Shown.addresses s holder a

abbrev Unchanged (s s' : Heap) (holder : Nat) : Prop :=
  Keeps Body.shown Shown.addresses s s' holder

abbrev Tidy (s : Heap) : Prop := Counted Body.isWaif s

abbrev Lasting (s : Heap) (holders : List Nat) (Alive : Nat → Prop) : Prop :=
  Upheld Body.shown Shown.addresses Body.isWaif s holders Alive

def shownAt (s : Heap) (a : Nat) : Option Shown := s.shown Body.shown a

def varRef (s : Heap) (v : Var) : Heap := v.addresses.foldl Store.share s

def varRefEach (s : Heap) (vars : List Var) : Heap := vars.foldl varRef s

def freeVars (s : Heap) (vars : List Var) : Option Heap :=
  giveUp Body.shown Shown.addresses Body.isWaif s.total (vars.flatMap Var.addresses) s

def mapDup (s : Heap) (map : RBTree Key Held) : Option (Heap × Nat) :=
  (Maps.mapDup (compare false) map).map fun new =>
    (varRefEach s (Shown.map map.bindings).vars).alloc (.map new)

def lost (map new : RBTree Key Held) : List Var :=
  (map.bindings.diff new.bindings).flatMap entryVars

def eraseKey (s : Heap) (r : Nat) (key : Key) : Option (Heap × Bool) :=
  match s.content r with
  | some (.map map) =>
      (rberase (compare false) map key).bind fun (new, found) =>
        (freeVars (s.replace r (.map new)) (lost map new)).map fun s => (s, found)
  | _ => none

/-! What the operations leave as it is. -/

/-- Whatever is still there is the same, but for the map that is worked on. -/
def Calm (r : Nat) (s s' : Heap) : Prop :=
  ∀ a, s'.block a ≠ none → a ≠ r → s'.content a = s.content a

theorem block_ne_none {s : Heap} {a : Nat} {body : Body} (there : s.content a = some body) :
    s.block a ≠ none := by
  intro gone
  rw [Store.content, gone] at there
  cases there

theorem content_ne_none {s : Heap} {a : Nat} (there : s.block a ≠ none) :
    ∃ body, s.content a = some body := by
  obtain ⟨b, found⟩ := Option.ne_none_iff_exists'.mp there
  exact ⟨b.content, content_of_block found⟩

theorem block_of_content {s s' : Heap} {a : Nat} (same : s'.content a = s.content a)
    (there : s'.block a ≠ none) : s.block a ≠ none := by
  obtain ⟨body, found⟩ := content_ne_none there
  exact block_ne_none (same.symm.trans found)

theorem Calm.refl (r : Nat) (s : Heap) : Calm r s s := fun _ _ _ => rfl

theorem Calm.trans {r : Nat} {s s' s'' : Heap} (first : Calm r s s') (second : Calm r s' s'') :
    Calm r s s'' := by
  intro a there other
  have same := second a there other
  rw [same]
  exact first a (block_of_content same there) other

theorem Calm.shown {r : Nat} {s s' : Heap} (calm : Calm r s s') {a : Nat}
    (there : s'.block a ≠ none) (other : a ≠ r) : shownAt s' a = shownAt s a := by
  rw [shownAt, shownAt, Store.shown, Store.shown, calm a there other]

theorem content_share (s : Heap) (a c : Nat) : (s.share a).content c = s.content c := by
  rw [Store.content, Store.content, Store.share, block_update]
  by_cases same : c = a
  · rw [if_pos same, same]
    cases s.block a with
    | none => rfl
    | some b => rfl
  · rw [if_neg same]

theorem content_foldl_share (addresses : List Nat) (s : Heap) (c : Nat) :
    (addresses.foldl Store.share s).content c = s.content c := by
  induction addresses generalizing s with
  | nil => rfl
  | cons a rest ih => rw [List.foldl_cons, ih, content_share]

theorem tidy_foldl_share (addresses : List Nat) {s : Heap} (tidy : Tidy s) :
    Tidy (addresses.foldl Store.share s) := by
  induction addresses generalizing s with
  | nil => exact tidy
  | cons a rest ih =>
      refine ih (tidy.update fun b b' _ changed zero => ?_)
      obtain rfl := Option.some.inj changed
      cases zero

theorem varRefEach_eq (s : Heap) (vars : List Var) :
    varRefEach s vars = (vars.flatMap Var.addresses).foldl Store.share s := by
  induction vars generalizing s with
  | nil => rfl
  | cons v rest ih =>
      rw [List.flatMap_cons, List.foldl_append]
      exact ih (varRef s v)

section

variable {s : Heap} {holders : List Nat}

theorem foldl_share_even (addresses : List Nat) (even : Even s holders)
    (there : ∀ a ∈ addresses, s.block a ≠ none) :
    Even (addresses.foldl Store.share s) (addresses ++ holders) := by
  induction addresses generalizing s holders with
  | nil => exact even
  | cons a rest ih =>
      obtain ⟨b, found⟩ := Option.ne_none_iff_exists'.mp (there a List.mem_cons_self)
      have shared := even.share found
      have tail := ih shared fun c member =>
        block_of_content (content_share s a c).symm (there c (List.mem_cons_of_mem a member))
      rw [List.foldl_cons]
      exact tail.perm List.perm_middle

theorem child_there (even : Even s holders) {a : Nat} {body : Body}
    (there : s.content a = some body) {c : Nat} (held : c ∈ body.shown.addresses) :
    s.block c ≠ none := by
  obtain ⟨b, found, rfl⟩ := Option.map_eq_some_iff.mp there
  obtain ⟨child, here⟩ := even.child found held
  rw [here]
  exact Option.some_ne_none child

theorem holder_there (even : Even s holders) {a : Nat} (member : a ∈ holders) :
    s.block a ≠ none := by
  obtain ⟨b, found, _⟩ := even.there member
  rw [found]
  exact Option.some_ne_none b

theorem gone_of_unheld (even : Even s holders) (tidy : Tidy s) {a : Nat} (absent : a ∉ holders)
    (unheld : ∀ c body, s.content c = some body → a ∉ body.shown.addresses)
    (value : ∀ body, s.content a = some body → body.isWaif = false) : s.block a = none := by
  by_contra there
  obtain ⟨body, found, reason⟩ := even.upheld tidy a there
  rcases reason with waif | member | ⟨c, parent, _, holds, held⟩
  · rw [value body found] at waif
    cases waif
  · exact absent member
  · exact unheld c parent holds held

structure Freed (holders : List Nat) (s s' : Heap) : Prop where
  even : Even s' holders
  same : ∀ a, s'.block a ≠ none → s'.content a = s.content a
  tidy : Tidy s → Tidy s'
  lasting : ∀ Alive, Lasting s holders Alive → Lasting s' holders Alive

theorem freeVars_spec (vars : List Var)
    (even : Even s (vars.flatMap Var.addresses ++ holders)) :
    ∃ s', freeVars s vars = some s' ∧ Freed holders s s' := by
  obtain ⟨s', ran, even', same⟩ := giveUp_spec _ _ even (Nat.le_refl _)
  exact ⟨s', ran, even', same, fun tidy => giveUp_counted _ _ tidy ran,
    fun _ lasting => giveUp_upheld _ _ even lasting ran⟩

structure Carried (r : Nat) (holders : List Nat) (s s' : Heap) : Prop where
  even : Even s' holders
  calm : Calm r s s'
  tidy : Tidy s → Tidy s'
  lasting : ∀ Alive, ¬Alive r → Lasting s holders Alive → Lasting s' holders Alive

theorem Carried.refl {r : Nat} (even : Even s holders) : Carried r holders s s :=
  ⟨even, .refl r s, id, fun _ _ lasting => lasting⟩

theorem Carried.trans {r : Nat} {s' s'' : Heap} (first : Carried r holders s s')
    (second : Carried r holders s' s'') : Carried r holders s s'' :=
  ⟨second.even, first.calm.trans second.calm, fun tidy => second.tidy (first.tidy tidy),
    fun Alive apart lasting => second.lasting Alive apart (first.lasting Alive apart lasting)⟩

theorem addresses_perm {map new : RBTree Key Held} (sub : new.bindings.Subperm map.bindings) :
    (Body.map map).shown.addresses.Perm
      ((lost map new).flatMap Var.addresses ++ (Body.map new).shown.addresses) := by
  have split : (map.bindings.diff new.bindings ++ new.bindings).Perm map.bindings :=
    List.perm_append_comm.trans (List.subperm_append_diff_self_of_count_le fun entry _ =>
      sub.count_le entry)
  have flat := (split.symm.flatMap_right entryVars).flatMap_right Var.addresses
  rw [List.flatMap_append, List.flatMap_append] at flat
  exact flat

theorem addresses_subset {map new : RBTree Key Held} (sub : new.bindings.Subperm map.bindings) :
    (Body.map new).shown.addresses ⊆ (Body.map map).shown.addresses := by
  intro a member
  exact (addresses_perm sub).mem_iff.mpr (List.mem_append_right _ member)

theorem content_replace {a c : Nat} {body : Body} (other : c ≠ a) :
    (s.replace a body).content c = s.content c := by
  rw [Store.content, Store.content, Store.replace, block_update, if_neg other]

theorem eraseKey_spec {r : Nat} {map new : RBTree Key Held} {key : Key} {found : Bool}
    (even : Even s holders) (member : r ∈ holders) (there : s.content r = some (.map map))
    (apart : Apart map) (ran : rberase (compare false) map key = some (new, found)) :
    ∃ s', eraseKey s r key = some (s', found) ∧ Carried r holders s s' ∧
      s'.content r = some (.map new) := by
  obtain ⟨b, block, body⟩ := Option.map_eq_some_iff.mp there
  have split : b.content.shown.addresses.Perm
      ((lost map new).flatMap Var.addresses ++ (Body.map new).shown.addresses) := by
    rw [body]
    exact addresses_perm (rberase_subperm apart ran).1
  obtain ⟨s', freed, left⟩ := freeVars_spec _ (even.replace block split)
  have inPlace : (s.replace r (.map new)).block r = some { b with content := .map new } := by
    rw [Store.replace, block_update, if_pos rfl, block]
    rfl
  have tidied (tidy : Tidy s) : Tidy (s.replace r (.map new)) := by
    apply tidy.update
    intro b₁ b₂ found changed zero
    obtain ⟨_, found', positive⟩ := even.there member
    obtain rfl := Option.some.inj (found.symm.trans found')
    obtain rfl := Option.some.inj changed
    simp only at zero
    omega
  refine ⟨s', ?_, ⟨left.even, ?_, fun tidy => left.tidy (tidied tidy), ?_⟩, ?_⟩
  · rw [eraseKey, there]
    simp only [ran, Option.bind_some, freed, Option.map_some]
  · intro a here other
    rw [left.same a here, content_replace other]
  · intro Alive dead lasting
    refine left.lasting Alive (lasting.congr (fun a alive => ?_) (List.Subset.refl _))
    exact content_replace fun same => dead (same ▸ alive)
  · rw [left.same r (holder_there left.even member), Store.content, inPlace]
    rfl

theorem length_foldl_share (addresses : List Nat) (s : Heap) :
    (addresses.foldl Store.share s).length = s.length := by
  induction addresses generalizing s with
  | nil => rfl
  | cons a rest ih =>
      rw [List.foldl_cons, ih]
      exact List.length_set

theorem block_alloc_eq (s : Heap) (body : Body) (a : Nat) :
    (s.alloc body).1.block a = if a = s.length then some ⟨1, body⟩ else s.block a := by
  rw [Store.alloc, Store.block, Store.block]
  rcases Nat.lt_trichotomy a s.length with before | rfl | after
  · rw [List.getElem?_append_left before, if_neg (by omega)]
  · simp
  · rw [List.getElem?_append_right (by omega), List.getElem?_eq_none (by simp; omega),
      List.getElem?_eq_none (by omega), if_neg (by omega)]

/-- A copy holds what it lists, and the references to what it does not list are never given up. -/
theorem mapDup_spec {a : Nat} {map new : RBTree Key Held} (even : Even s holders)
    (there : s.content a = some (.map map)) (apart : Apart map)
    (ran : Maps.mapDup (compare false) map = some new) :
    ∃ s' r, mapDup s map = some (s', r) ∧ s.block r = none ∧
      Even s' (r :: ((lost map new).flatMap Var.addresses ++ holders)) ∧
      (∀ c, c ≠ r → s'.content c = s.content c) ∧ s'.content r = some (.map new) ∧
      (Tidy s → Tidy s') := by
  let copied : Heap := (Shown.map map.bindings).addresses.foldl Store.share s
  have shared : Even copied ((Shown.map map.bindings).addresses ++ holders) :=
    foldl_share_even _ even fun c held => child_there even there held
  have split := (addresses_perm (mapDup_subperm apart ran).1).trans List.perm_append_comm
  have taken := shared.perm (split.append_right holders)
  rw [List.append_assoc] at taken
  have length : copied.length = s.length := length_foldl_share _ s
  refine ⟨(copied.alloc (.map new)).1, copied.length, ?_, ?_, taken.alloc, ?_, ?_, ?_⟩
  · rw [mapDup, ran, Option.map_some, varRefEach_eq]
    rfl
  · rw [length, Store.block, List.getElem?_eq_none (Nat.le_refl _)]
    rfl
  · intro c other
    rw [Store.content, block_alloc_eq, if_neg other]
    exact content_foldl_share _ s c
  · rw [Store.content, block_alloc_eq, if_pos rfl]
    rfl
  · intro tidy c b found zero
    rw [block_alloc_eq] at found
    split at found
    · obtain rfl := Option.some.inj found
      cases zero
    · exact tidy_foldl_share _ tidy c b found zero

end

end ToastStunt.Sharing
