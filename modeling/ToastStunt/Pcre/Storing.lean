import ToastStunt.Pcre.Matching

/-!
The map that one match has: when it can be made, and when it has an entry for each group.
-/

namespace ToastStunt.Pcre

open ToastStunt.Maps OrderedTable

def IsString (key : Key) : Prop := ∃ name, key = .str name

theorem strings_ordered : TotalPreorder (compare false) IsString := by
  refine totalPreorder_of_comparable ?_ ?_
  · rintro _ ⟨name, rfl⟩
    trivial
  · rintro _ _ ⟨name, rfl⟩ ⟨other, rfl⟩
    trivial

/-- The map is a red black search tree of these entries, put one after another. -/
structure Holds (put : List (Key × Group)) (map : Groups) : Prop where
  well : Maps.WellFormed (Maps.compare false) map
  strings : InUse IsString map
  bindings : map.bindings = putAll (compare false) put []

theorem Holds.new : Holds [] rbnew :=
  ⟨wellFormed_rbnew, fun _ none => absurd none List.not_mem_nil, rfl⟩

theorem Holds.insert {put : List (Key × Group)} {map : Groups} (holds : Holds put map)
    (name : CString) (value : Group) :
    ∃ map', mapinsert false map (.str name) value = some map' ∧
      Holds (put ++ [(.str name, value)]) map' := by
  have isString : IsString (.str name) := ⟨name, rfl⟩
  obtain ⟨map', ran, well, bindings⟩ :=
    mapinsert_put strings_ordered holds.well holds.strings value isString
  refine ⟨map', ran, well, ?_, ?_⟩
  · rw [InUse, bindings]
    exact used_put isString holds.strings
  · rw [bindings, holds.bindings, putAll, putAll, List.foldl_append]
    rfl

section

variable (subject : CString) {m : Match}

def namedEntries (subject : CString) (m : Match) (nameTable : List (Nat × CString)) :
    List (Key × Group) :=
  nameTable.map fun (n, name) => (.str name, group subject (m.ovector n))

def numberedEntries (subject : CString) (m : Match) (numbers : List Nat) : List (Key × Group) :=
  numbers.map fun n => (.str (Decimal.digits n), group subject (m.ovector n))

theorem storeNamed_spec (bits : List Nat) {nameTable : List (Nat × CString)}
    {put : List (Key × Group)} {named_groups : Groups} (holds : Holds put named_groups)
    (inArray : InArray nameTable m) :
    ∃ map, storeNamed subject m nameTable bits named_groups =
        some ((nameTable.map Prod.fst).reverse ++ bits, map) ∧
      Holds (put ++ namedEntries subject m nameTable) map := by
  induction nameTable generalizing bits put named_groups with
  | nil => exact ⟨named_groups, rfl, by simpa [namedEntries] using holds⟩
  | cons entry table ih =>
      obtain ⟨n, name⟩ := entry
      obtain ⟨inserted, ran, holds⟩ := holds.insert name (group subject (m.ovector n))
      obtain ⟨map, ranRest, holds⟩ := ih (n :: bits) holds fun entry member =>
        inArray entry (List.mem_cons_of_mem _ member)
      have fits : n / 8 < m.rc := inArray (n, name) List.mem_cons_self
      refine ⟨map, ?_, by simpa [namedEntries] using holds⟩
      simpa [storeNamed, ran, fits] using ranRest

theorem storeNamed_outside (bits : List Nat) {nameTable : List (Nat × CString)}
    {put : List (Key × Group)} {named_groups : Groups} (holds : Holds put named_groups)
    (outside : ¬InArray nameTable m) : storeNamed subject m nameTable bits named_groups = none := by
  induction nameTable generalizing bits put named_groups with
  | nil => exact absurd (fun _ none => absurd none List.not_mem_nil) outside
  | cons entry table ih =>
      obtain ⟨n, name⟩ := entry
      obtain ⟨inserted, ran, holds⟩ := holds.insert name (group subject (m.ovector n))
      by_cases fits : n / 8 < m.rc
      · have later : ¬InArray table m := fun all => outside fun entry member => by
          rcases List.mem_cons.mp member with rfl | member
          · exact fits
          · exact all entry member
        simpa [storeNamed, ran, fits] using ih (n :: bits) holds later
      · simp [storeNamed, ran, fits]

theorem storeNumbered_spec (bits numbers : List Nat) {put : List (Key × Group)}
    {named_groups : Groups} (holds : Holds put named_groups) :
    ∃ map, storeNumbered subject m bits numbers named_groups = some map ∧
      Holds (put ++ numberedEntries subject m
        (numbers.filter fun n => (m.ovector n).isSome ∧ n ∉ bits)) map := by
  induction numbers generalizing put named_groups with
  | nil => exact ⟨named_groups, rfl, by simpa [numberedEntries] using holds⟩
  | cons i numbers ih =>
      by_cases isNamed : i ∈ bits
      · obtain ⟨map, ran, holds⟩ := ih holds
        exact ⟨map, by simpa [storeNumbered, isNamed] using ran, by simpa [isNamed] using holds⟩
      · cases unset : m.ovector i with
        | none =>
            obtain ⟨map, ran, holds⟩ := ih holds
            exact ⟨map, by simpa [storeNumbered, isNamed, unset] using ran,
              by simpa [unset] using holds⟩
        | some pair =>
            obtain ⟨inserted, ran, holds⟩ := holds.insert (Decimal.digits i)
              (group subject (m.ovector i))
            obtain ⟨map, ranRest, holds⟩ := ih holds
            refine ⟨map, ?_, by simpa [numberedEntries, isNamed, unset] using holds⟩
            rw [unset] at ran
            simpa [storeNumbered, isNamed, unset, ran] using ranRest

variable {nameTable : List (Nat × CString)}

theorem entries_eq : entries subject nameTable m = namedEntries subject m nameTable ++
    numberedEntries subject m (unnamed nameTable m) := rfl

theorem storeGroups_spec (inArray : InArray nameTable m) :
    ∃ map, storeGroups subject nameTable m = some map ∧ Holds (entries subject nameTable m) map := by
  obtain ⟨named, ranNamed, holds⟩ :=
    storeNamed_spec subject [] Holds.new inArray
  obtain ⟨map, ran, holds⟩ := @storeNumbered_spec subject m
    ((nameTable.map Prod.fst).reverse ++ []) (List.range m.rc) _ _ holds
  have others : unnamed nameTable m = (List.range m.rc).filter fun n =>
      (m.ovector n).isSome ∧ n ∉ (nameTable.map Prod.fst).reverse ++ [] :=
    List.filter_congr fun n _ => by rw [List.append_nil]; simp only [List.mem_reverse]
  refine ⟨map, ?_, by rwa [entries_eq, others]⟩
  rw [storeGroups, ranNamed]
  exact ran

theorem storeGroups_outside (outside : ¬InArray nameTable m) :
    storeGroups subject nameTable m = none := by
  rw [storeGroups, storeNamed_outside subject [] Holds.new outside]
  rfl

end

/-! The keys of the groups. -/

theorem cmap_digit {byte : UInt8} (digit : Decimal.isDigit byte = true) : cmap byte = byte := by
  simp only [Decimal.isDigit, Bool.and_eq_true, decide_eq_true_eq] at digit
  have notLetter : ¬(65 ≤ byte ∧ byte ≤ 90) := by
    simp only [UInt8.le_iff_toNat_le] at digit ⊢
    have : (57 : UInt8).toNat = 57 := rfl
    have : (65 : UInt8).toNat = 65 := rfl
    omega
  rw [cmap, if_neg notLetter]

theorem isDigit_cmap (byte : UInt8) : Decimal.isDigit (cmap byte) = Decimal.isDigit byte := by
  cases digit : Decimal.isDigit byte with
  | true => rw [cmap_digit digit, digit]
  | false =>
      rw [cmap]
      split
      · rename_i letter
        simp only [UInt8.le_iff_toNat_le] at letter
        have : (65 : UInt8).toNat = 65 := rfl
        have : (90 : UInt8).toNat = 90 := rfl
        have moved : (byte + 32).toNat = byte.toNat + 32 := by
          rw [UInt8.toNat_add]
          have : (32 : UInt8).toNat = 32 := rfl
          omega
        have beyond : ¬byte + 32 ≤ 57 := by
          simp only [UInt8.le_iff_toNat_le, moved]
          have : (57 : UInt8).toNat = 57 := rfl
          omega
        simp [Decimal.isDigit, beyond]
      · exact digit

theorem caseFold_digits (n : Nat) : caseFold (Decimal.digits n) = Decimal.digits n := by
  obtain ⟨_, allDigits, _⟩ := Decimal.digits_spec n
  rw [caseFold]
  exact (List.map_congr_left fun byte member => cmap_digit (allDigits byte member)).trans
    (List.map_id _)

theorem digits_inj {a b : Nat} (same : Decimal.digits a = Decimal.digits b) : a = b := by
  have valueA := (Decimal.digits_spec a).1
  rw [same, (Decimal.digits_spec b).1] at valueA
  exact valueA.symm

theorem caseFold_ne_digits {name : CString}
    (named : ∃ c rest, name = c :: rest ∧ Decimal.isDigit c = false) (n : Nat) :
    caseFold name ≠ caseFold (Decimal.digits n) := by
  obtain ⟨c, rest, rfl, notDigit⟩ := named
  obtain ⟨byte, more, written, digit⟩ := Decimal.digits_head n
  rw [written]
  intro same
  have heads : cmap c = cmap byte := (List.cons.inj same).1
  have := isDigit_cmap c
  rw [heads, isDigit_cmap byte, digit, notDigit] at this
  cases this

theorem entries_apart_iff {subject : CString} {nameTable : List (Nat × CString)} {m : Match}
    (named : ∀ entry ∈ nameTable, ∃ c rest, entry.2 = c :: rest ∧ Decimal.isDigit c = false) :
    (entries subject nameTable m).Pairwise (fun a b => compare false a.1 b.1 ≠ 0) ↔
      DistinctNames nameTable := by
  have apart (a b : CString) :
      compare false (.str a) (.str b) ≠ 0 ↔ caseFold a ≠ caseFold b :=
    not_congr (strcasecmp_eq_zero a b)
  rw [entries_eq, List.pairwise_append, namedEntries, numberedEntries, List.pairwise_map,
    List.pairwise_map]
  simp only [apart]
  constructor
  · exact And.left
  · intro distinct
    refine ⟨distinct, ?_, ?_⟩
    · have once : (unnamed nameTable m).Nodup := List.nodup_range.filter _
      exact once.imp fun other same => other (digits_inj (by simpa [caseFold_digits] using same))
    · intro a memberA b memberB
      obtain ⟨entry, inTable, rfl⟩ := List.mem_map.mp memberA
      obtain ⟨n, _, rfl⟩ := List.mem_map.mp memberB
      exact (apart _ _).mpr (caseFold_ne_digits (named entry inTable) n)

/-- The map shows the match exactly if no two groups have one name. -/
theorem Holds.shows_iff {subject : CString} {nameTable : List (Nat × CString)} {m : Match}
    {map : Groups} (holds : Holds (entries subject nameTable m) map)
    (named : ∀ entry ∈ nameTable, ∃ c rest, entry.2 = c :: rest ∧ Decimal.isDigit c = false) :
    Shows subject nameTable m map ↔ DistinctNames nameTable := by
  rw [Shows, holds.bindings, ← @entries_apart_iff subject nameTable m named]
  refine putAll_perm_iff strings_ordered fun entry member => ?_
  rw [entries_eq] at member
  rcases List.mem_append.mp member with member | member
  · obtain ⟨_, _, rfl⟩ := List.mem_map.mp member
    exact ⟨_, rfl⟩
  · obtain ⟨_, _, rfl⟩ := List.mem_map.mp member
    exact ⟨_, rfl⟩

end ToastStunt.Pcre
