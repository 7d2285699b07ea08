import ToastStunt.Execute.Ranges
import ToastStunt.Maps.KeyOrder

/-!
Ranges of maps: `m[a..b]` and `m[a..b] = v` in the order of the keys.
-/

namespace ToastStunt.Execute

open Maps OrderedTable RedBlack ColorTree

variable {ν : Type} {Used : Key → Prop}

inductive Made (Used : Key → Prop) : RBTree Key ν → Prop
  | new : Made Used rbnew
  | insert {map map' : RBTree Key ν} {key : Key} {value : ν} {shared : Bool} (made : Made Used map)
      (small : map.size < 2 ^ 31) (used : Used key)
      (ran : mapinsert shared map key value = some map') : Made Used map'
  | delete {map map' : RBTree Key ν} {arg : MapdeleteArg} {shared : Bool} (made : Made Used map)
      (small : map.size < 2 ^ 31) (used : ∀ key ∈ arg.keys, Used key)
      (ran : bfMapdelete shared map arg = some (.ok map')) : Made Used map'
  | dup {map map' : RBTree Key ν} (made : Made Used map) (small : map.size < 2 ^ 31)
      (ran : mapDup (compare false) map = some map') : Made Used map'
  | range {map map' : RBTree Key ν} {first last : Key} (made : Made Used map)
      (small : map.size < 2 ^ 31) (usedFirst : Used first) (usedLast : Used last)
      (ran : mapRangeRef map first last = some (.value (.map map'))) : Made Used map'
  | rangeset {map value map' : RBTree Key ν} {first last : Key} {quotas : Quotas ν}
      (made : Made Used map) (madeValue : Made Used value) (small : map.size < 2 ^ 31)
      (smallValue : value.size < 2 ^ 31) (usedFirst : Used first) (usedLast : Used last)
      (ran : mapRangeSet quotas map first last value = some (.value (.map map'))) : Made Used map'

def IsKey (order : Key → Key → Int) (map : RBTree Key ν) (key : Key) : Prop :=
  ∃ entry ∈ map.bindings, order entry.1 key = 0

/-- `map[first..last]` and `map[first..last] = value`, where `order` tells which key comes first.
A result that is too large for the quota is not pushed. -/
structure MapRangesExact (order : Key → Key → Int) (map value : RBTree Key ν) (first last : Key) :
    Prop where
  reversed : 0 < order first last →
    rangeRef (.map map) (.key first) (.key last) = some (.value (.map rbnew))
  missing : order first last ≤ 0 → ¬(IsKey order map first ∧ IsKey order map last) →
    rangeRef (.map map) (.key first) (.key last) = some .range
  taken : order first last ≤ 0 → IsKey order map first → IsKey order map last →
    ∃ map', rangeRef (.map map) (.key first) (.key last) = some (.value (.map map')) ∧
      Maps.WellFormed order map' ∧ map'.bindings = rangeTaken order first last map.bindings
  unplaced : ¬(IsKey order map first ∧ IsKey order map last) → ∀ quotas,
    rangeSet quotas (.map map) (.key first) (.key last) (.map value) = some .range
  replaced : IsKey order map first → IsKey order map last →
    ∃ map', (∀ quotas, rangeSet quotas (.map map) (.key first) (.key last) (.map value) =
        some (pushMap quotas map')) ∧
      Maps.WellFormed order map' ∧
      map'.bindings = rangeReplaced order first last value.bindings map.bindings

structure Kept (Used : Key → Prop) (map : RBTree Key ν) : Prop where
  well : Maps.WellFormed (compare false) map
  all : InUse Used map

theorem kept_rbnew : Kept Used (rbnew : RBTree Key ν) :=
  ⟨wellFormed_rbnew, fun _ member => absurd member List.not_mem_nil⟩

theorem kept_put {map map' : RBTree Key ν} {key : Key} {value : ν} (kept : Kept Used map)
    (used : Used key) (well : Maps.WellFormed (compare false) map')
    (bindings : map'.bindings = put (compare false) key value map.bindings) : Kept Used map' := by
  refine ⟨well, ?_⟩
  rw [InUse, bindings]
  exact used_put used kept.all

theorem kept_remove {map map' : RBTree Key ν} {key : Key} (kept : Kept Used map)
    (well : Maps.WellFormed (compare false) map')
    (bindings : map'.bindings = remove (compare false) key map.bindings) : Kept Used map' := by
  refine ⟨well, fun entry member => ?_⟩
  rw [bindings] at member
  exact kept.all entry (List.mem_filter.mp member).1

theorem kept_taken {map map' : RBTree Key ν} {first last : Key} (kept : Kept Used map)
    (well : Maps.WellFormed (compare false) map')
    (bindings : map'.bindings = rangeTaken (compare false) first last map.bindings) :
    Kept Used map' := by
  refine ⟨well, fun entry member => ?_⟩
  rw [bindings] at member
  exact kept.all entry (List.mem_filter.mp member).1

theorem kept_replaced {map value map' : RBTree Key ν} {first last : Key} (kept : Kept Used map)
    (keptValue : Kept Used value) (well : Maps.WellFormed (compare false) map')
    (bindings : map'.bindings =
      rangeReplaced (compare false) first last value.bindings map.bindings) : Kept Used map' := by
  refine ⟨well, ?_⟩
  rw [InUse, bindings]
  exact putEntries_used
    (putEntries_used (fun entry member => kept.all entry (List.mem_filter.mp member).1)
      keptValue.all)
    fun entry member => kept.all entry (List.mem_filter.mp member).1

/-! The opcodes on maps, in the order that `compare` tells. -/

section

variable (order : TotalPreorder (compare false) Used) {map : RBTree Key ν}

include order

theorem Kept.dup (kept : Kept Used map) (small : map.size < 2 ^ 31) :
    ∃ map', mapDup (compare false) map = some map' ∧ Kept Used map' ∧
      map'.bindings = map.bindings := by
  obtain ⟨map', ran, well, same⟩ := mapDup_same order kept.well kept.all small
  refine ⟨map', ran, ⟨well, ?_⟩, same⟩
  rw [InUse, same]
  exact kept.all

theorem Kept.own (kept : Kept Used map) (small : map.size < 2 ^ 31) (shared : Bool) :
    ∃ map', own shared map = some map' ∧ Kept Used map' ∧ map'.bindings = map.bindings := by
  cases shared with
  | false => exact ⟨map, rfl, kept, rfl⟩
  | true => exact kept.dup order small

theorem Kept.erase (kept : Kept Used map) {key : Key} (used : Used key) :
    ∃ map' found, rberase (compare false) map key = some (map', found) ∧ Kept Used map' ∧
      map'.bindings = remove (compare false) key map.bindings := by
  obtain ⟨map', found, ran, well, bindings, _⟩ := rberase_remove order kept.well kept.all used
  exact ⟨map', found, ran, kept_remove kept well bindings, bindings⟩

theorem Kept.insert (kept : Kept Used map) (small : map.size < 2 ^ 31) (shared : Bool) {key : Key}
    (value : ν) (used : Used key) :
    ∃ map', mapinsert shared map key value = some map' ∧ Kept Used map' ∧
      map'.bindings = put (compare false) key value map.bindings := by
  obtain ⟨owned, ranOwn, keptOwned, same⟩ := kept.own order small shared
  obtain ⟨map', ran, well, bindings⟩ := mapinsert_put order keptOwned.well keptOwned.all value used
  have ranShared : mapinsert shared map key value = mapinsert false owned key value := by
    rw [mapinsert, ranOwn]
    rfl
  exact ⟨map', ranShared.trans ran, kept_put keptOwned used well bindings, by rw [bindings, same]⟩

theorem Kept.deleteList (kept : Kept Used map) (keys : List (Option Key))
    (used : ∀ key, some key ∈ keys → Used key) {map' : RBTree Key ν}
    (ran : deleteList map keys = some (.ok map')) : Kept Used map' := by
  induction keys generalizing map with
  | nil =>
      obtain rfl := Except.ok.inj (Option.some.inj ran)
      exact kept
  | cons item rest ih =>
      cases item with
      | none => cases ran
      | some key =>
          obtain ⟨erased, erasing, later⟩ := deleteList_ok ran
          obtain ⟨_, _, erasing', keptErased, _⟩ := kept.erase order (used key (by simp))
          cases erasing.symm.trans erasing'
          exact ih keptErased (fun other member => used other (by simp [member])) later

theorem Kept.delete (kept : Kept Used map) (small : map.size < 2 ^ 31) {shared : Bool}
    {arg : MapdeleteArg} (used : ∀ key ∈ arg.keys, Used key) {map' : RBTree Key ν}
    (ran : bfMapdelete shared map arg = some (.ok map')) : Kept Used map' := by
  obtain ⟨owned, ranOwn, keptOwned, _⟩ := kept.own order small shared
  cases arg with
  | map =>
      rw [bfMapdelete, ranOwn] at ran
      cases ran
  | list keys =>
      rw [bfMapdelete, ranOwn] at ran
      exact keptOwned.deleteList order keys
        (fun key member => used key (by simpa [MapdeleteArg.keys, MapdeleteArg.items] using member))
        ran
  | key key =>
      obtain ⟨_, ranOwn', erasing⟩ := bfMapdelete_key_ok ran
      cases ranOwn.symm.trans ranOwn'
      obtain ⟨_, _, erasing', keptErased, _⟩ :=
        keptOwned.erase order (used key (by simp [MapdeleteArg.keys, MapdeleteArg.items]))
      cases erasing.symm.trans erasing'
      exact keptErased

theorem Kept.seek (kept : Kept Used map) (small : map.size < 2 ^ 31) {key : Key} (used : Used key) :
    (∃ trav item rest, mapseek map key = some (some trav) ∧
      Reached map.root true trav (item :: rest) ∧ compare false item.key key = 0) ∨
    mapseek map key = some none ∧ ¬IsKey (compare false) map key := by
  rcases rbseek_reaches [] (Nat.le_of_lt (kept.well.low small))
    (steered_of_sorted order kept.well.sorted kept.all used) with found | ⟨ran, absent⟩
  · exact .inl found
  · refine .inr ⟨ran, ?_⟩
    rintro ⟨entry, member, zero⟩
    exact absent_bindings.mpr absent entry member zero

theorem Kept.found (kept : Kept Used map) (small : map.size < 2 ^ 31) {key : Key} (used : Used key)
    (isKey : IsKey (compare false) map key) :
    ∃ trav item rest, mapseek map key = some (some trav) ∧
      Reached map.root true trav (item :: rest) ∧ compare false item.key key = 0 := by
  rcases kept.seek order small used with found | ⟨_, absent⟩
  · exact found
  · exact absurd isKey absent

theorem Kept.missed (kept : Kept Used map) (small : map.size < 2 ^ 31) {first last : Key}
    (usedFirst : Used first) (usedLast : Used last)
    (missing : ¬(IsKey (compare false) map first ∧ IsKey (compare false) map last)) :
    ∃ iterfrom iterto, mapseek map first = some iterfrom ∧ mapseek map last = some iterto ∧
      (iterfrom = none ∨ iterto = none) := by
  have seekable {key : Key} (used : Used key) : ∃ iter, mapseek map key = some iter ∧
      (iter = none ∨ IsKey (compare false) map key) := by
    rcases kept.seek order small used with ⟨trav, item, rest, ran, reached, zero⟩ | ⟨ran, _⟩
    · exact ⟨_, ran, .inr ⟨item.binding, mem_bindings (reached.suffix.subset (by simp)), zero⟩⟩
    · exact ⟨_, ran, .inl rfl⟩
  obtain ⟨iterfrom, ranFrom, isFirst⟩ := seekable usedFirst
  obtain ⟨iterto, ranTo, isLast⟩ := seekable usedLast
  exact ⟨iterfrom, iterto, ranFrom, ranTo, by tauto⟩

theorem Kept.ranges {value : RBTree Key ν} (kept : Kept Used map) (keptValue : Kept Used value)
    (small : map.size < 2 ^ 31) (smallValue : value.size < 2 ^ 31) {first last : Key}
    (usedFirst : Used first) (usedLast : Used last) :
    MapRangesExact (compare false) map value first last := by
  refine ⟨fun reversed => ?_, fun ascending missing => ?_, fun ascending isFirst isLast => ?_,
    fun missing quotas => ?_, fun isFirst isLast => ?_⟩
  · have seekable {key : Key} (used : Used key) : ∃ iter, mapseek map key = some iter := by
      rcases kept.seek order small used with ⟨_, _, _, ran, _⟩ | ⟨ran, _⟩ <;> exact ⟨_, ran⟩
    obtain ⟨iterfrom, ranFrom⟩ := seekable usedFirst
    obtain ⟨iterto, ranTo⟩ := seekable usedLast
    have notAtMost : ¬compare false first last ≤ 0 := by omega
    simp only [rangeRef, mapRangeRef, ranFrom, ranTo, Option.bind_some]
    cases iterfrom <;> cases iterto <;> simp [reversed, notAtMost]
  · obtain ⟨iterfrom, iterto, ranFrom, ranTo, absent⟩ :=
      kept.missed order small usedFirst usedLast missing
    rcases absent with rfl | rfl
    · simp [rangeRef, mapRangeRef, ranFrom, ranTo, ascending]
    · cases iterfrom <;> simp [rangeRef, mapRangeRef, ranFrom, ranTo, ascending]
  · obtain ⟨iterfrom, _, _, ranFrom, atFirst, isFrom⟩ := kept.found order small usedFirst isFirst
    obtain ⟨iterto, _, _, ranTo, atLast, isTo⟩ := kept.found order small usedLast isLast
    obtain ⟨map', ran, well, bindings⟩ := maprange_takes order kept.well kept.all small usedFirst
      usedLast ascending atFirst atLast isFrom isTo
    refine ⟨map', ?_, well, bindings⟩
    simp [rangeRef, mapRangeRef, ranFrom, ranTo, Int.not_lt.mpr ascending, ran]
  · obtain ⟨iterfrom, iterto, ranFrom, ranTo, absent⟩ :=
      kept.missed order small usedFirst usedLast missing
    rcases absent with rfl | rfl
    · simp [rangeSet, mapRangeSet, ranFrom, ranTo]
    · cases iterfrom <;> simp [rangeSet, mapRangeSet, ranFrom, ranTo]
  · obtain ⟨iterfrom, _, _, ranFrom, atFirst, isFrom⟩ := kept.found order small usedFirst isFirst
    obtain ⟨iterto, _, _, ranTo, atLast, isTo⟩ := kept.found order small usedLast isLast
    obtain ⟨map', ran, well, bindings⟩ := maprangeset_replaces order kept.well keptValue.well
      kept.all keptValue.all small smallValue usedFirst usedLast atFirst atLast isFrom isTo
    refine ⟨map', fun quotas => ?_, well, bindings⟩
    simp [rangeSet, mapRangeSet, ranFrom, ranTo, ran]

theorem Made.kept (made : Made Used map) : Kept Used map := by
  induction made with
  | new => exact kept_rbnew
  | insert _ small used ran kept =>
      obtain ⟨_, ran', kept', _⟩ := kept.insert order small _ _ used
      exact Option.some.inj (ran.symm.trans ran') ▸ kept'
  | delete _ small used ran kept => exact kept.delete order small used ran
  | dup _ small ran kept =>
      obtain ⟨_, ran', kept', _⟩ := kept.dup order small
      exact Option.some.inj (ran.symm.trans ran') ▸ kept'
  | @range map map' first last _ small usedFirst usedLast ran kept =>
      have ranges := kept.ranges order kept small small usedFirst usedLast
      change rangeRef (.map map) (.key first) (.key last) = _ at ran
      by_cases reversed : 0 < compare false first last
      · rw [ranges.reversed reversed] at ran
        cases ran
        exact kept_rbnew
      · by_cases both : IsKey (compare false) map first ∧ IsKey (compare false) map last
        · obtain ⟨taken, ran', well, bindings⟩ := ranges.taken (by omega) both.1 both.2
          rw [ran'] at ran
          cases ran
          exact kept_taken kept well bindings
        · rw [ranges.missing (by omega) both] at ran
          cases ran
  | @rangeset map value map' first last quotas _ _ small smallValue usedFirst usedLast ran kept
      keptValue =>
      have ranges := kept.ranges order keptValue small smallValue usedFirst usedLast
      change rangeSet quotas (.map map) (.key first) (.key last) (.map value) = _ at ran
      by_cases both : IsKey (compare false) map first ∧ IsKey (compare false) map last
      · obtain ⟨replaced, ran', well, bindings⟩ := ranges.replaced both.1 both.2
        rw [ran', pushMap, unlessQuota, Option.some.injEq] at ran
        split at ran
        · cases ran
          exact kept_replaced kept keptValue well bindings
        · cases ran
      · rw [ranges.unplaced both] at ran
        cases ran

end

/-! Where `compare` tells the order of the keys. -/

section

variable (same : SameOrder (compare false) Key.order Used) {map value : RBTree Key ν}

include same

theorem wellFormed_same (well : Maps.WellFormed (compare false) map) (all : InUse Used map) :
    Maps.WellFormed Key.order map :=
  ⟨(same.sorted_iff all).mp well.sorted, well.black, well.valid, well.size, well.apart⟩

theorem isKey_same (all : InUse Used map) {key : Key} (used : Used key) :
    IsKey (compare false) map key ↔ IsKey Key.order map key :=
  exists_congr fun entry => and_congr_right fun member => same.eq entry.1 key (all entry member) used

theorem rangeTaken_same {table : List (Key × ν)} (all : ∀ entry ∈ table, Used entry.1)
    {first last : Key} (usedFirst : Used first) (usedLast : Used last) :
    rangeTaken (compare false) first last table = rangeTaken Key.order first last table := by
  refine List.filter_congr fun entry member => decide_eq_decide.mpr ?_
  have below := same.lt entry.1 first (all entry member) usedFirst
  have beyond := same.le (all entry member) usedLast
  omega

theorem putEntries_same {table entries : List (Key × ν)} (all : ∀ entry ∈ table, Used entry.1)
    (used : ∀ entry ∈ entries, Used entry.1) :
    entries.foldl (putEntry (compare false)) table = entries.foldl (putEntry Key.order) table := by
  induction entries generalizing table with
  | nil => rfl
  | cons entry rest ih =>
      have put := same.put_eq entry.2 (used entry (by simp)) all
      rw [List.foldl_cons, List.foldl_cons, putEntry, putEntry, put]
      exact ih (used_put (used entry (by simp)) all) fun other member => used other (by simp [member])

theorem rangeReplaced_same (all : InUse Used map) (allValue : InUse Used value)
    {first last : Key} (usedFirst : Used first) (usedLast : Used last) :
    rangeReplaced (compare false) first last value.bindings map.bindings =
      rangeReplaced Key.order first last value.bindings map.bindings := by
  have below : map.bindings.filter (fun entry => compare false entry.1 first < 0) =
      map.bindings.filter (fun entry => entry.1.order first < 0) :=
    List.filter_congr fun entry member =>
      decide_eq_decide.mpr (same.lt _ _ (all entry member) usedFirst)
  have beyond : map.bindings.filter (fun entry => 0 < compare false entry.1 last) =
      map.bindings.filter (fun entry => 0 < entry.1.order last) :=
    List.filter_congr fun entry member => decide_eq_decide.mpr (same.gt (all entry member) usedLast)
  have allBelow : ∀ entry ∈ map.bindings.filter (fun entry => entry.1.order first < 0),
      Used entry.1 := fun entry member => all entry (List.mem_filter.mp member).1
  have allBeyond : ∀ entry ∈ map.bindings.filter (fun entry => 0 < entry.1.order last),
      Used entry.1 := fun entry member => all entry (List.mem_filter.mp member).1
  rw [rangeReplaced, rangeReplaced, below, beyond, putEntries_same same allBelow allValue,
    putEntries_same same (putEntries_used allBelow allValue) allBeyond]

theorem ranges_same (kept : Kept Used map) (keptValue : Kept Used value) {first last : Key}
    (usedFirst : Used first) (usedLast : Used last)
    (ranges : MapRangesExact (compare false) map value first last) :
    MapRangesExact Key.order map value first last := by
  have isFirst := isKey_same same kept.all usedFirst
  have isLast := isKey_same same kept.all usedLast
  have before := same.le usedFirst usedLast
  have after := same.gt usedFirst usedLast
  refine ⟨fun reversed => ranges.reversed (after.mpr reversed),
    fun ascending missing => ranges.missing (before.mpr ascending) ?_, fun ascending isA isB => ?_,
    fun missing => ranges.unplaced ?_, fun isA isB => ?_⟩
  · rwa [isFirst, isLast]
  · obtain ⟨map', ran, well, bindings⟩ :=
      ranges.taken (before.mpr ascending) (isFirst.mpr isA) (isLast.mpr isB)
    exact ⟨map', ran, wellFormed_same same well (kept_taken kept well bindings).all,
      bindings.trans (rangeTaken_same same kept.all usedFirst usedLast)⟩
  · rwa [isFirst, isLast]
  · obtain ⟨map', ran, well, bindings⟩ := ranges.replaced (isFirst.mpr isA) (isLast.mpr isB)
    exact ⟨map', ran, wellFormed_same same well (kept_replaced kept keptValue well bindings).all,
      bindings.trans (rangeReplaced_same same kept.all keptValue.all usedFirst usedLast)⟩

end

/-! A map with one key shows how `compare` orders it and another. -/

def single (key : Key) (value : ν) : RBTree Key ν := ⟨node false nil ⟨0, key, value⟩ nil, 1⟩

theorem made_single {key : Key} (value : ν) (used : Used key) : Made Used (single key value) :=
  @Made.insert _ _ _ _ _ _ false .new (Nat.two_pow_pos 31) used rfl

theorem single_small (key : Key) (value : ν) : (single key value).size < 2 ^ 31 :=
  (by decide : 1 < 2 ^ 31)

theorem mapseek_single (key : Key) (value : ν) (asked : Key) :
    mapseek (single key value) asked =
      some (if compare false key asked = 0 then some ⟨(single key value).root, []⟩ else none) := by
  rw [mapseek, single, rbseek]
  by_cases found : compare false key asked = 0
  · simp [found]
  · by_cases below : compare false key asked < 0 <;> simp [found, below, pushPath, heightLimit, rbseek]

theorem mapRangeRef_single {key : Key} (value : ν) (self : compare false key key = 0)
    (other : Key) :
    mapRangeRef (single key value) key other = some
      (if compare false key other < 0 then .range
      else if compare false key other = 0 then .value (.map (single key value))
      else .value (.map rbnew)) := by
  rw [mapRangeRef, mapseek_single, mapseek_single, if_pos self]
  by_cases found : compare false key other = 0
  · have once : maprange (compare false) (single key value) ⟨(single key value).root, []⟩
        ⟨(single key value).root, []⟩ = some (single key value) := rfl
    simp [found, once]
  · by_cases below : compare false key other < 0
    · simp [found, below, Int.le_of_lt below]
    · have beyond : ¬compare false key other ≤ 0 := by omega
      simp [found, below, beyond]

theorem isKey_single {order : Key → Key → Int} {key : Key} (value : ν) {asked : Key} :
    IsKey order (single key value) asked ↔ order key asked = 0 := by
  simp [IsKey, RBTree.bindings, single, Maps.Node.binding]

theorem self_of_exact {key : Key} {value : ν}
    (exact' : MapRangesExact Key.order (single key value) (single key value) key key) :
    compare false key key = 0 := by
  have isKey := (isKey_single value).mpr (order_self key)
  obtain ⟨map', ran, _, bindings⟩ := exact'.taken (Int.le_of_eq (order_self key)) isKey isKey
  by_contra other
  rw [rangeRef, mapRangeRef, mapseek_single, if_neg other] at ran
  simp only [Option.bind_some] at ran
  split at ran
  · cases ran
  · cases ran
    simp [rangeTaken, RBTree.bindings, rbnew, single, Maps.Node.binding, order_self] at bindings

theorem agrees_of_exact {first last : Key} {value : ν} (self : compare false first first = 0)
    (exact' : MapRangesExact Key.order (single first value) (single first value) first last) :
    (compare false first last < 0 ↔ first.order last < 0) ∧
      (compare false first last = 0 ↔ first.order last = 0) := by
  have isFirst := (isKey_single value).mpr (order_self first)
  have ran := mapRangeRef_single value self last
  rcases Int.lt_trichotomy (first.order last) 0 with before | equal | after
  · have missing := exact'.missing (Int.le_of_lt before) fun both => by
      have := (isKey_single value).mp both.2
      omega
    rw [rangeRef, ran, Option.some.injEq] at missing
    split_ifs at missing
    omega
  · obtain ⟨map', taken, _, bindings⟩ :=
      exact'.taken (Int.le_of_eq equal) isFirst ((isKey_single value).mpr equal)
    rw [rangeRef, ran, Option.some.injEq] at taken
    split_ifs at taken
    · omega
    · cases taken
      simp [rangeTaken, RBTree.bindings, rbnew, single, Maps.Node.binding, order_self, equal] at bindings
  · have reversed := exact'.reversed after
    rw [rangeRef, ran, Option.some.injEq] at reversed
    split_ifs at reversed
    · cases reversed
    · omega

/-- The ranges of all maps of some keys are exact if and only if `compare` tells the order of
these keys. -/
theorem mapRanges_exact_iff [Inhabited ν] (Used : Key → Prop) :
    (∀ map value : RBTree Key ν, Made Used map → Made Used value → map.size < 2 ^ 31 →
      value.size < 2 ^ 31 → ∀ first last, Used first → Used last →
        MapRangesExact Key.order map value first last) ↔
    SameOrder (compare false) Key.order Used := by
  constructor
  · intro exact'
    have alone {first last : Key} (usedFirst : Used first) (usedLast : Used last) :=
      exact' (single first default) (single first default) (made_single default usedFirst)
        (made_single default usedFirst) (single_small _ _) (single_small _ _) first last usedFirst usedLast
    have agrees (first last : Key) (usedFirst : Used first) (usedLast : Used last) :=
      agrees_of_exact (self_of_exact (alone usedFirst usedFirst)) (alone usedFirst usedLast)
    exact ⟨fun first last usedFirst usedLast => (agrees first last usedFirst usedLast).1,
      fun first last usedFirst usedLast => (agrees first last usedFirst usedLast).2⟩
  · intro same map value made madeValue small smallValue first last usedFirst usedLast
    have order := same.totalPreorder (order_total Used)
    have kept := made.kept order
    have keptValue := madeValue.kept order
    exact ranges_same same kept keptValue usedFirst usedLast
      (kept.ranges order keptValue small smallValue usedFirst usedLast)

def twoBooleans : RBTree Key Nat :=
  ⟨node false (node true nil ⟨1, .bool true, 1⟩ nil) ⟨0, .bool false, 0⟩ nil, 2⟩

/-- `[false -> 0, true -> 1][false..true]` is the empty map. -/
theorem mapRangeRef_booleans : ¬∀ map value : RBTree Key Nat, Made (fun _ => True) map →
    Made (fun _ => True) value → map.size < 2 ^ 31 → value.size < 2 ^ 31 → ∀ first last,
      MapRangesExact Key.order map value first last := by
  intro all
  have made : Made (fun _ => True) twoBooleans :=
    @Made.insert _ _ _ _ (.bool true) 1 false (made_single 0 trivial)
      (single_small (.bool false) 0) trivial rfl
  have small : twoBooleans.size < 2 ^ 31 := (by decide : 2 < 2 ^ 31)
  obtain ⟨map', taken, _, bindings⟩ := (all _ _ made made small small (.bool false) (.bool true)).taken
    (by decide) ⟨(.bool false, 0), by decide, by decide⟩ ⟨(.bool true, 1), by decide, by decide⟩
  have ran : rangeRef (.map twoBooleans) (.key (.bool false)) (.key (.bool true)) =
      some (.value (.map rbnew)) := rfl
  rw [ran] at taken
  cases taken
  exact absurd bindings (by decide)

end ToastStunt.Execute
