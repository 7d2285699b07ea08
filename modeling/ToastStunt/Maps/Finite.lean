import ToastStunt.Maps.Keys
import ToastStunt.Maps.Operations

/-!
Maps of MOO values as finite maps: lookups and lengths over every run of insertions,
deletions and copies.
-/

namespace ToastStunt.Maps

open RedBlack ColorTree OrderedTable

variable {ν : Type}

def rbfind (caseMatters : Bool) (key : Key) : ColorTree (Node Key ν) → Option (Node Key ν)
  | nil => none
  | node _ left item right =>
      if compare caseMatters item.key key = 0 then some item
      else if compare false item.key key < 0 then rbfind caseMatters key right
      else rbfind caseMatters key left

def maplookup (map : RBTree Key ν) (key : Key) (caseMatters : Bool) : Option ν :=
  (rbfind caseMatters key map.root).map Node.value

def maplength (map : RBTree Key ν) : Nat := map.size

def own (shared : Bool) (map : RBTree Key ν) : Option (RBTree Key ν) :=
  if shared then mapDup (compare false) map else some map

def mapinsert (shared : Bool) (map : RBTree Key ν) (key : Key) (value : ν) :
    Option (RBTree Key ν) :=
  (own shared map).bind fun new =>
    (rberase (compare false) new key).bind fun (new, _) => rbinsert (compare false) new key value

inductive MapdeleteError
  | range
  | rangeWithKey (key : Key)
  | type
  deriving DecidableEq

/-- An anonymous object is a key for `mapinsert`. -/
def Key.isCollection : Key → Bool
  | .anon _ => true
  | _ => false

/-- A waif cannot be copied into the error. -/
def refuseKey : Key → Option MapdeleteError
  | .waif _ => none
  | key => some (.rangeWithKey key)

def deleteList (map : RBTree Key ν) :
    List (Option Key) → Option (Except MapdeleteError (RBTree Key ν))
  | [] => some (.ok map)
  | none :: _ => some (.error .type)
  | some key :: rest =>
      if key.isCollection then some (.error .type)
      else
        (rberase (compare false) map key).bind fun (map, found) =>
          if found then deleteList map rest else (refuseKey key).map .error

inductive MapdeleteArg
  | key (key : Key)
  | list (keys : List (Option Key))
  | map

def bfMapdelete (shared : Bool) (map : RBTree Key ν) (arg : MapdeleteArg) :
    Option (Except MapdeleteError (RBTree Key ν)) :=
  (own shared map).bind fun r =>
    match arg with
    | .list keys => deleteList r keys
    | .map => some (.error .type)
    | .key key =>
        if key.isCollection then some (.error .type)
        else
          (rberase (compare false) r key).map fun (r, found) =>
            if found then .ok r else .error .range

def MapdeleteArg.items : MapdeleteArg → List (Option Key)
  | .key only => [some only]
  | .list keys => keys
  | .map => [none]

def MapdeleteArg.keys (arg : MapdeleteArg) : List Key := arg.items.filterMap id

theorem deleteList_ok {map map' : RBTree Key ν} {key : Key} {rest : List (Option Key)}
    (ran : deleteList map (some key :: rest) = some (.ok map')) :
    ∃ erased, rberase (compare false) map key = some (erased, true) ∧
      deleteList erased rest = some (.ok map') := by
  rw [deleteList] at ran
  split at ran
  · cases ran
  · obtain ⟨⟨erased, found⟩, erasing, later⟩ := Option.bind_eq_some_iff.mp ran
    cases found with
    | false =>
        obtain ⟨err, _, same⟩ := Option.map_eq_some_iff.mp later
        cases same
    | true => exact ⟨erased, erasing, later⟩

theorem bfMapdelete_key_ok {shared : Bool} {map map' : RBTree Key ν} {key : Key}
    (ran : bfMapdelete shared map (.key key) = some (.ok map')) :
    ∃ owned, own shared map = some owned ∧ rberase (compare false) owned key = some (map', true) := by
  obtain ⟨owned, ranOwn, deleting⟩ := Option.bind_eq_some_iff.mp ran
  refine ⟨owned, ranOwn, ?_⟩
  simp only at deleting
  split at deleting
  · cases deleting
  · obtain ⟨⟨erased, found⟩, erasing, same⟩ := Option.map_eq_some_iff.mp deleting
    cases found with
    | false => cases same
    | true =>
        cases same
        exact erasing

/-! What the calls of a run have asked for, the last one first. -/

inductive Edit (ν : Type)
  | put (key : Key) (value : ν)
  | drop (key : Key)

/-- The value of the last insertion under the key that was not deleted since. -/
def lastInserted : List (Edit ν) → Key → Option ν
  | [], _ => none
  | .put key value :: earlier, asked =>
      if SameKey key asked then some value else lastInserted earlier asked
  | .drop key :: earlier, asked =>
      if SameKey key asked then none else lastInserted earlier asked

/-- Each item is a key that has a value when its turn comes, and no anonymous object. -/
def Deletes : List (Edit ν) → List (Option Key) → Prop
  | _, [] => True
  | _, none :: _ => False
  | edits, some key :: rest =>
      key.isCollection = false ∧ (lastInserted edits key).isSome ∧ Deletes (.drop key :: edits) rest

def RBTree.keys (map : RBTree Key ν) : List Key := map.bindings.map Prod.fst

/-- The maps that runs of calls make, where every call's key is `Allowed` beside those in the map. -/
inductive Run (Allowed : List Key → Key → Prop) : List (Edit ν) → RBTree Key ν → Prop
  | new : Run Allowed [] rbnew
  | insert {edits : List (Edit ν)} {map map' : RBTree Key ν} {key : Key} {value : ν} {shared : Bool}
      (run : Run Allowed edits map) (small : map.size < 2 ^ 31) (number : key.isNumber)
      (allowed : Allowed map.keys key) (ran : mapinsert shared map key value = some map') :
      Run Allowed (.put key value :: edits) map'
  | delete {edits : List (Edit ν)} {map map' : RBTree Key ν} {arg : MapdeleteArg} {shared : Bool}
      (run : Run Allowed edits map) (small : map.size < 2 ^ 31)
      (numbers : ∀ key ∈ arg.keys, key.isNumber) (allowed : ∀ key ∈ arg.keys, Allowed map.keys key)
      (ran : bfMapdelete shared map arg = some (.ok map')) :
      Run Allowed ((arg.keys.map Edit.drop).reverse ++ edits) map'
  | dup {edits : List (Edit ν)} {map map' : RBTree Key ν} (run : Run Allowed edits map)
      (small : map.size < 2 ^ 31) (ran : mapDup (compare false) map = some map') :
      Run Allowed edits map'

theorem SameKey.refl {a : Key} (number : a.isNumber) : SameKey a a := by
  refine ⟨rfl, ?_⟩
  cases a <;> simp_all [equality, Key.isNumber, strcasecmp_eq_zero]

theorem SameKey.symm {a b : Key} (same : SameKey a b) : SameKey b a := by
  obtain ⟨types, equal⟩ := same
  refine ⟨types.symm, ?_⟩
  cases a <;> cases b <;> simp only [Key.typeCode, complexFlag] at types <;> try omega
  all_goals simp_all [equality, strcasecmp_eq_zero]

theorem SameKey.trans {a b c : Key} (first : SameKey a b) (second : SameKey b c) : SameKey a c := by
  obtain ⟨types, equal⟩ := first
  obtain ⟨types', equal'⟩ := second
  refine ⟨types.trans types', ?_⟩
  cases a <;> cases b <;> simp only [Key.typeCode, complexFlag] at types <;> try omega
  all_goals cases c <;> simp only [Key.typeCode, complexFlag] at types' <;> try omega
  all_goals simp_all [equality, strcasecmp_eq_zero]

/-! One call on a map whose keys `compare` can tell apart. -/

/-- The keys of the map are pairwise comparable, and its bindings are what the run asked for. -/
structure Live (edits : List (Edit ν)) (map : RBTree Key ν) : Prop where
  well : WellFormed (compare false) map
  numbers : ∀ key ∈ map.keys, key.isNumber
  comparable : ∀ a ∈ map.keys, ∀ b ∈ map.keys, Comparable a b
  agrees : ∀ key value, lastInserted edits key = some value ↔
    ∃ other, (other, value) ∈ map.bindings ∧ SameKey other key

theorem mem_keys {map : RBTree Key ν} {entry : Key × ν} (member : entry ∈ map.bindings) :
    entry.1 ∈ map.keys := List.mem_map_of_mem member

section

variable {edits : List (Edit ν)} {map : RBTree Key ν}

theorem Live.order (live : Live edits map) {key : Key} (told : Told map.keys key) :
    TotalPreorder (compare false) fun other => other ∈ map.keys ∨ other = key := by
  refine totalPreorder_of_comparable ?_ ?_
  · rintro other (inside | rfl)
    · exact live.numbers other inside
    · exact told.1
  · rintro a b (insideA | rfl) (insideB | rfl)
    · exact live.comparable a insideA b insideB
    · exact told.2 a insideA
    · exact (told.2 b insideB).symm
    · exact Comparable.refl _

theorem Live.inUse (map : RBTree Key ν) (key : Key) :
    InUse (fun other => other ∈ map.keys ∨ other = key) map :=
  fun _ member => .inl (mem_keys member)

theorem Live.zero_iff (live : Live edits map) {key : Key} (told : Told map.keys key)
    {entry : Key × ν} (member : entry ∈ map.bindings) :
    compare false entry.1 key = 0 ↔ SameKey entry.1 key :=
  compare_zero (live.numbers _ (mem_keys member)) told.1 (told.2 _ (mem_keys member))

theorem Live.of_bindings (live : Live edits map) {map' : RBTree Key ν}
    (well : WellFormed (compare false) map') (same : map'.bindings = map.bindings) :
    Live edits map' := by
  have keys : map'.keys = map.keys := by rw [RBTree.keys, same, RBTree.keys]
  exact ⟨well, keys ▸ live.numbers, keys ▸ live.comparable, same ▸ live.agrees⟩

theorem Live.dup (live : Live edits map) (small : map.size < 2 ^ 31) :
    ∃ map', mapDup (compare false) map = some map' ∧ Live edits map' ∧
      map'.bindings = map.bindings := by
  have order : TotalPreorder (compare false) fun key => key ∈ map.keys :=
    totalPreorder_of_comparable live.numbers fun a b insideA insideB =>
      live.comparable a insideA b insideB
  obtain ⟨map', ran, well, same⟩ := mapDup_same order live.well (fun _ => mem_keys) small
  exact ⟨map', ran, live.of_bindings well same, same⟩

theorem Live.own (live : Live edits map) (small : map.size < 2 ^ 31) (shared : Bool) :
    ∃ map', own shared map = some map' ∧ Live edits map' ∧ map'.bindings = map.bindings := by
  cases shared with
  | false => exact ⟨map, rfl, live, rfl⟩
  | true => simpa [Maps.own] using live.dup small

theorem Live.erase (live : Live edits map) {key : Key} (told : Told map.keys key) :
    ∃ map' found, rberase (compare false) map key = some (map', found) ∧
      Live (.drop key :: edits) map' ∧ map'.bindings = remove (compare false) key map.bindings ∧
      (found = true ↔ ∃ other ∈ map.keys, SameKey other key) := by
  obtain ⟨map', found, ran, well, removed, answer⟩ :=
    rberase_remove (live.order told) live.well (Live.inUse map key) (.inr rfl)
  have kept : ∀ entry, entry ∈ map'.bindings ↔ entry ∈ map.bindings ∧ ¬SameKey entry.1 key := by
    intro entry
    rw [removed, remove, List.mem_filter]
    refine and_congr_right fun member => ?_
    simp [live.zero_iff told member]
  have fewer : ∀ other ∈ map'.keys, other ∈ map.keys := by
    intro other member
    obtain ⟨entry, inside, rfl⟩ := List.mem_map.mp member
    exact mem_keys ((kept entry).mp inside).1
  refine ⟨map', found, ran, ⟨well, fun other member => live.numbers other (fewer other member),
    fun a insideA b insideB => live.comparable a (fewer a insideA) b (fewer b insideB), ?_⟩,
    removed, ?_⟩
  · intro asked value
    rw [lastInserted]
    by_cases same : SameKey key asked
    · rw [if_pos same]
      refine ⟨(by rintro ⟨⟩), ?_⟩
      rintro ⟨other, member, sameOther⟩
      exact absurd (sameOther.trans same.symm) ((kept _).mp member).2
    · rw [if_neg same, live.agrees asked value]
      refine exists_congr fun other => and_congr_left fun sameOther => ?_
      rw [kept]
      exact ⟨fun member => ⟨member, fun sameKey => same (sameKey.symm.trans sameOther)⟩,
        fun member => member.1⟩
  · rw [answer]
    constructor
    · rintro ⟨entry, member, zero⟩
      exact ⟨entry.1, mem_keys member, (live.zero_iff told member).mp zero⟩
    · rintro ⟨other, member, same⟩
      obtain ⟨entry, inside, rfl⟩ := List.mem_map.mp member
      exact ⟨entry, inside, (live.zero_iff told inside).mpr same⟩

theorem mapinsert_put {Used : Key → Prop} (order : TotalPreorder (compare false) Used)
    (well : WellFormed (compare false) map) (all : InUse Used map) {key : Key} (value : ν)
    (used : Used key) :
    ∃ map', mapinsert false map key value = some map' ∧ WellFormed (compare false) map' ∧
      map'.bindings = put (compare false) key value map.bindings := by
  obtain ⟨erased, found, erasing, wellErased, removed, _⟩ := rberase_remove order well all used
  have kept : ∀ entry ∈ erased.bindings, Used entry.1 ∧ compare false entry.1 key ≠ 0 := by
    intro entry member
    rw [removed] at member
    obtain ⟨inside, other⟩ := List.mem_filter.mp member
    exact ⟨all entry inside, by simpa using other⟩
  obtain ⟨map', inserting, wellNew, bindings⟩ := rbinsert_put order wellErased
    (fun entry member => (kept entry member).1) value used fun entry member => (kept entry member).2
  exact ⟨map', by simp [mapinsert, Maps.own, erasing, inserting], wellNew,
    by rw [bindings, removed, put_remove]⟩

theorem Live.insert (live : Live edits map) {key : Key} (told : Told map.keys key) (value : ν)
    (small : map.size < 2 ^ 31) (shared : Bool) :
    ∃ map', mapinsert shared map key value = some map' ∧ Live (.put key value :: edits) map' ∧
      map'.bindings = put (compare false) key value map.bindings := by
  obtain ⟨owned, ranOwn, liveOwned, sameOwned⟩ := live.own small shared
  have keysOwned : owned.keys = map.keys := by rw [RBTree.keys, sameOwned, RBTree.keys]
  have toldOwned : Told owned.keys key := keysOwned ▸ told
  obtain ⟨erased, found, ranErase, liveErased, removed, _⟩ := liveOwned.erase toldOwned
  have fewer : ∀ entry ∈ erased.bindings, entry ∈ owned.bindings ∧ compare false entry.1 key ≠ 0 := by
    intro entry member
    rw [removed] at member
    obtain ⟨inside, other⟩ := List.mem_filter.mp member
    exact ⟨inside, by simpa using other⟩
  have toldErased : Told erased.keys key := by
    refine ⟨told.1, fun other member => ?_⟩
    obtain ⟨entry, inside, rfl⟩ := List.mem_map.mp member
    exact toldOwned.2 _ (mem_keys (fewer entry inside).1)
  obtain ⟨map', ranInsert, well, grown⟩ := rbinsert_put (liveErased.order toldErased)
    liveErased.well (Live.inUse erased key) value (.inr rfl) fun entry member => (fewer entry member).2
  have asPut : map'.bindings = put (compare false) key value map.bindings := by
    rw [grown, removed, put_remove, sameOwned]
  have members : ∀ entry, entry ∈ map'.bindings ↔
      entry = (key, value) ∨ entry ∈ map.bindings ∧ ¬SameKey entry.1 key := by
    intro entry
    simp only [asPut, put, List.mem_append, List.mem_cons, List.mem_filter, decide_eq_true_eq]
    constructor
    · rintro (⟨inside, less⟩ | rfl | ⟨inside, more⟩)
      · exact .inr ⟨inside, fun same => by have := (live.zero_iff told inside).mpr same; omega⟩
      · exact .inl rfl
      · exact .inr ⟨inside, fun same => by have := (live.zero_iff told inside).mpr same; omega⟩
    · rintro (rfl | ⟨inside, other⟩)
      · exact .inr (.inl rfl)
      · have := mt (live.zero_iff told inside).mp other
        by_cases less : compare false entry.1 key < 0
        · exact .inl ⟨inside, less⟩
        · exact .inr (.inr ⟨inside, by omega⟩)
  have used : ∀ other ∈ map'.keys, other ∈ map.keys ∨ other = key := by
    intro other member
    obtain ⟨entry, inside, rfl⟩ := List.mem_map.mp member
    rcases (members entry).mp inside with rfl | ⟨old, _⟩
    · exact .inr rfl
    · exact .inl (mem_keys old)
  refine ⟨map', by simp [mapinsert, ranOwn, ranErase, ranInsert], ⟨well, ?_, ?_, ?_⟩, asPut⟩
  · intro other member
    rcases used other member with inside | rfl
    · exact live.numbers other inside
    · exact told.1
  · intro a memberA b memberB
    rcases used a memberA with insideA | rfl <;> rcases used b memberB with insideB | rfl
    · exact live.comparable a insideA b insideB
    · exact told.2 a insideA
    · exact (told.2 b insideB).symm
    · exact Comparable.refl _
  · intro asked wanted
    rw [lastInserted]
    by_cases same : SameKey key asked
    · rw [if_pos same]
      constructor
      · rintro ⟨⟩
        exact ⟨key, (members _).mpr (.inl rfl), same⟩
      · rintro ⟨other, member, sameOther⟩
        rcases (members _).mp member with equal | ⟨_, different⟩
        · rw [(Prod.mk.inj equal).2]
        · exact absurd (sameOther.trans same.symm) different
    · rw [if_neg same, live.agrees asked wanted]
      refine exists_congr fun other => and_congr_left fun sameOther => ?_
      rw [members]
      constructor
      · exact fun member => .inr ⟨member, fun sameKey => same (sameKey.symm.trans sameOther)⟩
      · rintro (equal | ⟨member, _⟩)
        · exact absurd ((Prod.mk.inj equal).1 ▸ sameOther) same
        · exact member

theorem rbfind_spec {key : Key} {tree : ColorTree (Node Key ν)}
    (steered : tree.inorder.Pairwise fun first second =>
      compare false second.key key ≤ 0 → compare false first.key key < 0) :
    (∃ item ∈ tree.inorder, rbfind false key tree = some item ∧ compare false item.key key = 0) ∨
    rbfind false key tree = none ∧ ∀ item ∈ tree.inorder, compare false item.key key ≠ 0 := by
  induction tree with
  | nil => exact .inr ⟨rfl, fun _ member => absurd member List.not_mem_nil⟩
  | node red left item right left_ih right_ih =>
      rw [inorder_node, List.pairwise_append, List.pairwise_cons] at steered
      obtain ⟨leftSteered, ⟨itemFirst, rightSteered⟩, leftFirst⟩ := steered
      by_cases equal : compare false item.key key = 0
      · exact .inl ⟨item, by simp, by rw [rbfind, if_pos equal], equal⟩
      · by_cases larger : compare false item.key key < 0
        · rcases right_ih rightSteered with ⟨found, member, ran, zero⟩ | ⟨ran, absent⟩
          · exact .inl ⟨found, by simp [member], by simpa [rbfind, equal, larger] using ran, zero⟩
          · refine .inr ⟨by simpa [rbfind, equal, larger] using ran, fun other member => ?_⟩
            rcases List.mem_append.mp member with inside | inside
            · have := leftFirst other inside item (by simp) (by omega)
              omega
            · rcases List.mem_cons.mp inside with rfl | inside
              · exact equal
              · exact absent other inside
        · rcases left_ih leftSteered with ⟨found, member, ran, zero⟩ | ⟨ran, absent⟩
          · exact .inl ⟨found, by simp [member], by simpa [rbfind, equal, larger] using ran, zero⟩
          · refine .inr ⟨by simpa [rbfind, equal, larger] using ran, fun other member => ?_⟩
            rcases List.mem_append.mp member with inside | inside
            · exact absent other inside
            · rcases List.mem_cons.mp inside with rfl | inside
              · exact equal
              · intro zero
                exact larger (itemFirst other inside (by omega))

theorem Live.lookup (live : Live edits map) {key : Key} (told : Told map.keys key) :
    maplookup map key false = lastInserted edits key := by
  have steered := steered_of_sorted (live.order told) live.well.sorted (Live.inUse map key)
    (.inr rfl)
  rcases rbfind_spec steered with ⟨item, member, ran, zero⟩ | ⟨ran, absent⟩
  · have same := (live.zero_iff told (mem_bindings member)).mp zero
    rw [maplookup, ran, (live.agrees key item.value).mpr ⟨item.key, mem_bindings member, same⟩]
    rfl
  · rw [maplookup, ran]
    cases asked : lastInserted edits key with
    | none => rfl
    | some value =>
        obtain ⟨other, member, same⟩ := (live.agrees key value).mp asked
        exact absurd ((live.zero_iff told member).mpr same) (absent_bindings.mpr absent _ member)

theorem Live.distinct (live : Live edits map) :
    map.keys.Pairwise (fun a b => ¬SameKey a b) ∧ maplength map = map.keys.length ∧
      ∀ key, (lastInserted edits key).isSome ↔ ∃ other ∈ map.keys, SameKey other key := by
  refine ⟨?_, ?_, fun key => ?_⟩
  · rw [RBTree.keys, List.pairwise_map]
    refine live.well.sorted.imp_of_mem fun {a b} memberA memberB less same => ?_
    have zero := (compare_zero (live.numbers _ (mem_keys memberA))
      (live.numbers _ (mem_keys memberB))
      (live.comparable _ (mem_keys memberA) _ (mem_keys memberB))).mpr same
    omega
  · rw [maplength, live.well.size, ← inorder_length, RBTree.keys, RBTree.bindings]
    simp
  · rw [Option.isSome_iff_exists]
    constructor
    · rintro ⟨value, asked⟩
      obtain ⟨other, member, same⟩ := (live.agrees key value).mp asked
      exact ⟨other, mem_keys member, same⟩
    · rintro ⟨other, member, same⟩
      obtain ⟨entry, inside, rfl⟩ := List.mem_map.mp member
      exact ⟨entry.2, (live.agrees key entry.2).mpr ⟨entry.1, inside, same⟩⟩

theorem Live.isSome_iff (live : Live edits map) (key : Key) :
    (lastInserted edits key).isSome ↔ ∃ other ∈ map.keys, SameKey other key := live.distinct.2.2 key

def Deleted (edits : List (Edit ν)) (items : List (Option Key))
    (result : Option (Except MapdeleteError (RBTree Key ν))) : Prop :=
  (∀ map', result = some (.ok map') →
    Live (((items.filterMap id).map Edit.drop).reverse ++ edits) map') ∧
  ((∃ map', result = some (.ok map')) ↔ Deletes edits items)

theorem deleted_error {items : List (Option Key)} (result : Option MapdeleteError)
    (refused : ¬Deletes edits items) :
    Deleted edits items (result.map (Except.error (α := RBTree Key ν))) := by
  have failed (map' : RBTree Key ν) : result.map Except.error ≠ some (.ok map') := by
    cases result <;> rintro ⟨⟩
  exact ⟨fun map' ran => absurd ran (failed map'),
    iff_of_false (fun ⟨map', ran⟩ => failed map' ran) refused⟩

theorem deleted_type {items : List (Option Key)} (refused : ¬Deletes edits items) :
    Deleted edits items (some (.error .type) : Option (Except _ (RBTree Key ν))) :=
  deleted_error (some .type) refused

theorem Live.deleteList (live : Live edits map) (items : List (Option Key))
    (told : ∀ key, some key ∈ items → Told map.keys key) :
    Deleted edits items (deleteList map items) := by
  induction items generalizing map edits with
  | nil =>
      refine ⟨fun map' ran => ?_, iff_of_true ⟨map, rfl⟩ trivial⟩
      cases ran
      exact live
  | cons item rest ih =>
      cases item with
      | none => exact deleted_type id
      | some key =>
          rw [Maps.deleteList]
          cases collection : key.isCollection with
          | true =>
              rw [if_pos rfl]
              refine deleted_type fun deletes => ?_
              rw [Deletes, collection] at deletes
              cases deletes.1
          | false =>
              rw [if_neg Bool.false_ne_true]
              obtain ⟨erased, found, ran, liveErased, removed, wasThere⟩ :=
                live.erase (told key List.mem_cons_self)
              rw [ran, Option.bind_some]
              rw [← live.isSome_iff] at wasThere
              cases found with
              | false =>
                  change Deleted edits _ ((refuseKey key).map Except.error)
                  refine deleted_error _ fun deletes => ?_
                  cases wasThere.mpr deletes.2.1
              | true =>
                  change Deleted edits _ (Maps.deleteList erased rest)
                  have fewer : ∀ other ∈ erased.keys, other ∈ map.keys := by
                    intro other member
                    obtain ⟨entry, inside, rfl⟩ := List.mem_map.mp member
                    rw [removed] at inside
                    exact mem_keys (List.mem_filter.mp inside).1
                  obtain ⟨kept, succeeds⟩ := ih liveErased fun other member =>
                    have known := told other (List.mem_cons_of_mem _ member)
                    ⟨known.1, fun old inside => known.2 old (fewer old inside)⟩
                  refine ⟨fun map' ranRest => ?_, ?_⟩
                  · simpa using kept map' ranRest
                  · rw [succeeds, Deletes]
                    exact ⟨fun deletes => ⟨collection, wasThere.mp rfl, deletes⟩,
                      fun deletes => deletes.2.2⟩

theorem Live.delete (live : Live edits map) (small : map.size < 2 ^ 31) (shared : Bool)
    {arg : MapdeleteArg} (told : ∀ key ∈ arg.keys, Told map.keys key) :
    Deleted edits arg.items (bfMapdelete shared map arg) := by
  obtain ⟨owned, ranOwn, liveOwned, sameOwned⟩ := live.own small shared
  have keysOwned : owned.keys = map.keys := by rw [RBTree.keys, sameOwned, RBTree.keys]
  rw [← keysOwned] at told
  rw [bfMapdelete, ranOwn, Option.bind_some]
  cases arg with
  | map => exact deleted_type id
  | list items =>
      exact liveOwned.deleteList items fun key member =>
        told key (by simpa [MapdeleteArg.keys, MapdeleteArg.items] using member)
  | key key =>
      simp only [MapdeleteArg.items]
      cases collection : key.isCollection with
      | true =>
          rw [if_pos rfl]
          refine deleted_type fun deletes => ?_
          rw [Deletes, collection] at deletes
          cases deletes.1
      | false =>
          rw [if_neg Bool.false_ne_true]
          obtain ⟨erased, found, ran, liveErased, _, wasThere⟩ :=
            liveOwned.erase (told key (by simp [MapdeleteArg.keys, MapdeleteArg.items]))
          rw [ran, Option.map_some]
          rw [← liveOwned.isSome_iff] at wasThere
          cases found with
          | false =>
              refine deleted_error (some .range) fun deletes => ?_
              cases wasThere.mpr deletes.2.1
          | true =>
              refine ⟨fun map' same => ?_,
                iff_of_true ⟨erased, rfl⟩ ⟨collection, wasThere.mp rfl, trivial⟩⟩
              cases same
              exact liveErased

end

/-! Runs. -/

theorem wellFormed_live : Live ([] : List (Edit ν)) rbnew :=
  ⟨wellFormed_rbnew, by simp [RBTree.keys, RBTree.bindings, rbnew],
    by simp [RBTree.keys, RBTree.bindings, rbnew],
    by simp [lastInserted, RBTree.bindings, rbnew]⟩

theorem Run.live {edits : List (Edit ν)} {map : RBTree Key ν} (run : Run Told edits map) :
    Live edits map := by
  induction run with
  | new => exact wellFormed_live
  | insert _ small _ told ran live =>
      obtain ⟨_, ran', live', _⟩ := live.insert told _ small _
      exact Option.some.inj (ran.symm.trans ran') ▸ live'
  | delete _ small _ told ran live => exact (live.delete small _ told).1 _ ran
  | dup _ small ran live =>
      obtain ⟨_, ran', live', _⟩ := live.dup small
      exact Option.some.inj (ran.symm.trans ran') ▸ live'

/-- The map answers every lookup as the calls of its run ask, has one binding for each live key,
and takes the next call; `mapdelete` refuses the keys that are not live and anonymous objects. -/
structure IsFiniteMap (Allowed : List Key → Key → Prop) (edits : List (Edit ν))
    (map : RBTree Key ν) : Prop where
  lookup : ∀ key, key.isNumber → Allowed map.keys key →
    maplookup map key false = lastInserted edits key
  length : ∃ distinct : List Key, maplength map = distinct.length ∧
    distinct.Pairwise (fun a b => ¬SameKey a b) ∧
    ∀ key, (lastInserted edits key).isSome ↔ ∃ other ∈ distinct, SameKey other key
  insert : map.size < 2 ^ 31 → ∀ shared key value, key.isNumber → Allowed map.keys key →
    ∃ map', mapinsert shared map key value = some map'
  delete : map.size < 2 ^ 31 → ∀ shared (arg : MapdeleteArg), (∀ key ∈ arg.keys, key.isNumber) →
    (∀ key ∈ arg.keys, Allowed map.keys key) →
    ((∃ map', bfMapdelete shared map arg = some (.ok map')) ↔ Deletes edits arg.items)
  dup : map.size < 2 ^ 31 → ∃ map', mapDup (compare false) map = some map'

/-- Where every call's key is comparable with the keys of the map, maps are finite maps. -/
theorem run_isFiniteMap {edits : List (Edit ν)} {map : RBTree Key ν} (run : Run Told edits map) :
    IsFiniteMap Told edits map := by
  have live := run.live
  obtain ⟨distinct, length, asked⟩ := live.distinct
  refine ⟨fun key _ told => live.lookup told, ⟨map.keys, length, distinct, asked⟩, ?_, ?_, ?_⟩
  · intro small shared key value _ told
    obtain ⟨map', ran, _⟩ := live.insert told value small shared
    exact ⟨map', ran⟩
  · intro small shared arg _ told
    exact (live.delete small shared told).2
  · intro small
    obtain ⟨map', ran, _⟩ := live.dup small
    exact ⟨map', ran⟩

def zeroKey : Key := .int ⟨0, by decide, by decide⟩

def twoToThe32 : Key := .int ⟨2 ^ 32, by decide, by decide⟩

theorem run_isFiniteMap_single : IsFiniteMap Told [.put zeroKey 1]
    (⟨node false nil ⟨0, zeroKey, 1⟩ nil, 1⟩ : RBTree Key Nat) :=
  run_isFiniteMap (@Run.insert _ _ _ _ _ _ _ false .new (by decide) trivial
    ⟨trivial, fun _ member => absurd member List.not_mem_nil⟩ (by decide +kernel))

/-- The key 2^32 overwrites the binding of the key 0. -/
theorem mapinsert_overwrites : ¬∀ (edits : List (Edit Nat)) (map : RBTree Key Nat),
    Run (fun _ _ => True) edits map → IsFiniteMap (fun _ _ => True) edits map := by
  intro claimed
  have first : mapinsert false (rbnew : RBTree Key Nat) zeroKey 1 =
      some ⟨node false nil ⟨0, zeroKey, 1⟩ nil, 1⟩ := by decide +kernel
  have second : mapinsert false (⟨node false nil ⟨0, zeroKey, 1⟩ nil, 1⟩ : RBTree Key Nat)
      twoToThe32 2 = some ⟨node false nil ⟨0, twoToThe32, 2⟩ nil, 1⟩ := by decide +kernel
  have run : Run (fun _ _ => True) [.put twoToThe32 2, .put zeroKey 1] _ :=
    .insert (.insert .new (by decide) trivial trivial first) (by decide) trivial trivial second
  have answer := (claimed _ _ run).lookup zeroKey trivial trivial
  have wrong : maplookup (⟨node false nil ⟨0, twoToThe32, 2⟩ nil, 1⟩ : RBTree Key Nat) zeroKey false ≠
      lastInserted [.put twoToThe32 2, .put zeroKey 1] zeroKey := by decide +kernel
  exact wrong answer

end ToastStunt.Maps
