import Mathlib.Data.List.GetD
import ToastStunt.Waifs.Propdefs

/-!
What `update_waif_propdefs` does to the property values of a waif, read as one value for each
definition: a value stays with its definition if this is still there in the old order.
-/

namespace ToastStunt.Waifs

open Packing

variable {C : Type}

structure Packed (length : Nat) (waif : Waif C) : Prop where
  clean : Clean waif.map
  below : MappedBelow waif.map length
  size : (waif.propvals.getD []).length = countPropvals length waif.map

/-- The value of each property, which is clear if none is allocated. -/
def fields (length : Nat) (waif : Waif C) : List (Value C) :=
  unpack (allocated waif.map) .clear 0 length (waif.propvals.getD [])

def held (waif : Waif C) : List (Value C) := (waif.propvals.getD []).filter (!·.isClear)

/-- The values of the definitions `b`, which are clear where a definition is new. -/
def align (a : List Nat) (values : List (Value C)) : List Nat → List (Value C)
  | [] => []
  | name :: b =>
      if name ∈ a then
        let k := a.idxOf name
        values.getD k .clear :: align (a.drop (k + 1)) (values.drop (k + 1)) b
      else .clear :: align a values b

theorem align_length (a : List Nat) (values : List (Value C)) (b : List Nat) :
    (align a values b).length = b.length := by
  induction b generalizing a values with
  | nil => rfl
  | cons name b ih =>
      rw [align]
      split <;> simp [ih]

theorem align_self (a : List Nat) {values : List (Value C)} (size : values.length = a.length) :
    align a values a = values := by
  induction a generalizing values with
  | nil => exact (List.length_eq_zero_iff.mp size).symm
  | cons name a ih =>
      cases values with
      | nil => cases size
      | cons value values =>
          rw [align, if_pos List.mem_cons_self]
          simp [ih (Nat.succ.inj size)]

theorem align_clear (a b : List Nat) (n : Nat) :
    align a (List.replicate n (.clear : Value C)) b = List.replicate b.length .clear := by
  induction b generalizing a n with
  | nil => rfl
  | cons name b ih =>
      rw [align]
      split
      · dsimp only
        rw [List.drop_replicate, ih, List.getD_eq_getElem?_getD, List.getElem?_replicate]
        split <;> rfl
      · rw [ih]
        rfl

theorem takeValues_append {n : Nat} {xs : List (Value C)} (ys : List (Value C))
    (size : xs.length = n) : takeValues n (xs ++ ys) = .ok (xs, ys) := by
  subst size
  rw [takeValues, if_pos (by simp), List.splitAt_eq, List.take_left, List.drop_left]

theorem held_pack {map : PropMap} {idx : Nat} {values : List (Value C)}
    (blanks : ∀ j, (bound : j < values.length) → allocated map (idx + j) = false → values[j] = .clear) :
    (pack (allocated map) idx values).filter (!·.isClear) = values.filter (!·.isClear) := by
  have clear : (!Value.isClear (.clear : Value C)) = false := rfl
  exact filter_pack clear blanks

/-- The loop keeps the values that stay with their definitions and gives up the others. -/
theorem transfer_eq {map : PropMap} {idx : Nat} {a : List Nat} {values : List (Value C)}
    (b : List Nat) (size : values.length = a.length)
    (blanks : ∀ j, (bound : j < values.length) → allocated map (idx + j) = false → values[j] = .clear) :
    ∃ freed, transfer map idx a b (pack (allocated map) idx values) =
      .ok (align a values b, freed) ∧
      (values.filter (!·.isClear)).Perm
        ((align a values b).filter (!·.isClear) ++ freed.filter (!·.isClear)) := by
  induction b generalizing idx a values with
  | nil =>
      refine ⟨pack (allocated map) idx values, ?_, ?_⟩
      · have taken := takeValues_append [] (@length_pack _ (allocated map) idx values)
        rw [List.append_nil, size] at taken
        rw [transfer, taken]
        rfl
      · rw [align, List.filter_nil, List.nil_append, held_pack blanks]
  | cons name b ih =>
      rw [transfer, align]
      by_cases member : name ∈ a
      · rw [if_pos member, if_pos member]
        have here : a.idxOf name < values.length := size ▸ List.idxOf_lt_length_of_mem member
        generalize a.idxOf name = k at here
        obtain ⟨before, value, after, rfl, rfl⟩ : ∃ before value after,
            values = before ++ value :: after ∧ before.length = k :=
          ⟨values.take k, values[k], values.drop (k + 1), by simp, by simp; omega⟩
        have early : ∀ j, (bound : j < before.length) → allocated map (idx + j) = false →
            before[j] = .clear := by
          intro j bound off
          have same := blanks j (by simp only [List.length_append]; omega) off
          rwa [List.getElem_append_left bound] at same
        have later := @ih (idx + before.length + 1) (a.drop (before.length + 1)) after
          (by simp only [List.length_append, List.length_cons, List.length_drop] at size ⊢; omega)
          fun j bound off => by
            have same := blanks (before.length + 1 + j)
              (by simp only [List.length_append, List.length_cons]; omega)
              (by rw [← off]; congr 1; omega)
            rw [← same, List.getElem_append_right (by omega)]
            simp [Nat.add_assoc, Nat.add_comm 1]
        obtain ⟨freed, later, kept⟩ := later
        have one : takeValues (rank (allocated map) (idx + before.length) 1)
            (pack (allocated map) (idx + before.length) (value :: after)) =
            .ok (pack (allocated map) (idx + before.length) [value],
              pack (allocated map) (idx + before.length + 1) after) := by
          rw [← List.singleton_append, pack_append]
          exact takeValues_append _ (length_pack (idx + before.length) [value])
        have copied : (pack (allocated map) (idx + before.length) [value]).headD .clear = value := by
          rw [pack]
          split
          · rfl
          · rename_i off
            have same := blanks before.length (by simp) (by simpa using off)
            rw [List.getElem_append_right (Nat.le_refl _)] at same
            simpa [pack] using same.symm
        refine ⟨pack (allocated map) idx before ++ freed, ?_, ?_⟩
        · dsimp only
          rw [pack_append, takeValues_append _ (length_pack idx before)]
          simp only [bind, Except.bind, one, later, copied, pure, Except.pure]
          simp
        · have behind : (before ++ value :: after).drop (before.length + 1) = after := by
            simp [List.drop_append]
          have self : (before ++ value :: after).getD before.length .clear = value := by simp
          dsimp only
          rw [self, behind, List.filter_append, List.filter_append, held_pack early,
            ← List.singleton_append, ← @List.singleton_append _ value (align _ after b),
            List.filter_append, List.filter_append, List.append_assoc]
          refine ((kept.append_left _).append_left _).trans ?_
          rw [← List.append_assoc ([value].filter _)]
          refine (List.perm_append_comm_assoc _ _ _).trans ?_
          rw [List.append_assoc]
      · rw [if_neg member, if_neg member]
        obtain ⟨freed, later, kept⟩ := ih size blanks
        exact ⟨freed, by rw [later]; rfl, kept⟩

/-! The new bitmap and the new array. -/

theorem foldl_mapProp (bits : List Nat) (map : PropMap) (clean : Clean map) :
    Clean (bits.foldl mapProp map) ∧
      ∀ i, propMapped (bits.foldl mapProp map) i = (propMapped map i || decide (i ∈ bits)) := by
  induction bits generalizing map with
  | nil => exact ⟨clean, by simp⟩
  | cons bit bits ih =>
      obtain ⟨cleaner, mapped⟩ := ih (mapProp map bit) (clean.mapProp bit)
      refine ⟨cleaner, fun i => ?_⟩
      rw [List.foldl_cons, mapped, propMapped_mapProp, Bool.or_assoc]
      congr 1
      simp only [List.mem_cons, Bool.decide_or, eq_comm]

theorem clean_mapOf (xfer : List (Value C)) : Clean (mapOf xfer) := (foldl_mapProp _ _ clean_zero).1

theorem propMapped_mapOf (xfer : List (Value C)) (i : Nat) : propMapped (mapOf xfer) i =
    (decide (i < nMappableProps) && !(xfer.getD i .clear).isClear) := by
  rw [mapOf, (foldl_mapProp _ _ clean_zero).2, Bool.eq_iff_iff]
  simp [propMapped]

theorem mapOf_below (xfer : List (Value C)) : MappedBelow (mapOf xfer) xfer.length := by
  intro i _ mapped
  by_contra outside
  rw [propMapped_mapOf, List.getD_eq_default _ _ (Nat.le_of_not_lt outside)] at mapped
  simp [Value.isClear] at mapped

theorem Value.eq_clear {value : Value C} (isClear : value.isClear = true) : value = .clear := by
  cases value <;> first | rfl | cases isClear

theorem mapOf_blanks (xfer : List (Value C)) (j : Nat) (bound : j < xfer.length)
    (off : allocated (mapOf xfer) (0 + j) = false) : xfer[j] = .clear := by
  rw [Nat.zero_add, allocated, Bool.or_eq_false_iff, propMapped_mapOf] at off
  have small : j < nMappableProps := by simpa using off.1
  have isClear := off.2
  rw [List.getD_eq_getElem _ _ bound] at isClear
  exact Value.eq_clear (by simpa [small] using isClear)

theorem repack_values (xfer : List (Value C)) (waif : Waif C) :
    (repack xfer waif).propvals.getD [] = pack (allocated (mapOf xfer)) 0 xfer := by
  have whole : (xfer.take nMappableProps).filter (!·.isClear) ++ xfer.drop nMappableProps =
      pack (allocated (mapOf xfer)) 0 xfer := by
    have parts := @pack_append _ (allocated (mapOf xfer)) 0 (xfer.take nMappableProps)
      (xfer.drop nMappableProps)
    rw [List.take_append_drop] at parts
    rw [parts]
    congr 1
    · refine (pack_filter fun j bound => ?_).symm
      have inside : j < nMappableProps ∧ j < xfer.length := by simpa using bound
      rw [List.getElem_take, allocated, propMapped_mapOf, Nat.zero_add,
        List.getD_eq_getElem _ _ inside.2]
      simp [inside.1, Nat.not_le_of_lt inside.1]
    · by_cases short : xfer.length ≤ nMappableProps
      · rw [List.drop_eq_nil_of_le short]
        rfl
      · refine (pack_all fun j later => ?_).symm
        rw [List.length_take_of_le (Nat.le_of_not_le short)] at later
        simp [allocated, show nMappableProps ≤ j by omega]
  rw [repack]
  simp only
  split
  · rename_i none
    rw [countPropvals_eq (clean_mapOf xfer) (mapOf_below xfer), ← length_pack] at none
    exact (List.length_eq_zero_iff.mp none).symm
  · exact whole

theorem held_repack (xfer : List (Value C)) (waif : Waif C) :
    held (repack xfer waif) = xfer.filter (!·.isClear) := by
  rw [held, repack_values]
  exact held_pack fun j bound off => mapOf_blanks xfer j bound off

theorem packed_of_pack {waif : Waif C} {values : List (Value C)} (clean : Clean waif.map)
    (below : MappedBelow waif.map values.length)
    (array : waif.propvals.getD [] = pack (allocated waif.map) 0 values)
    (blanks : ∀ j, (bound : j < values.length) → allocated waif.map (0 + j) = false →
      values[j] = .clear) :
    Packed values.length waif ∧ fields values.length waif = values := by
  refine ⟨⟨clean, below, ?_⟩, ?_⟩
  · rw [array, length_pack]
    exact (countPropvals_eq clean below).symm
  · rw [fields, array]
    exact unpack_pack blanks

theorem repack_packed (xfer : List (Value C)) (waif : Waif C) :
    Packed xfer.length (repack xfer waif) ∧ fields xfer.length (repack xfer waif) = xfer :=
  packed_of_pack (clean_mapOf xfer) (mapOf_below xfer) (repack_values xfer waif)
    fun j bound off => mapOf_blanks xfer j bound off

section

variable {length : Nat} {waif : Waif C}

theorem Packed.pack_fields (packed : Packed length waif) :
    pack (allocated waif.map) 0 (fields length waif) = waif.propvals.getD [] :=
  pack_unpack (packed.size.trans (countPropvals_eq packed.clean packed.below))

theorem fields_length (length : Nat) (waif : Waif C) : (fields length waif).length = length :=
  length_unpack 0 length _

theorem Packed.blanks (packed : Packed length waif) (j : Nat)
    (bound : j < (fields length waif).length) (off : allocated waif.map (0 + j) = false) :
    (fields length waif)[j] = .clear := by
  have inside : j < length := by rwa [fields_length] at bound
  have here := @getElem?_unpack _ (allocated waif.map) .clear 0 length _
    (packed.size.trans (countPropvals_eq packed.clean packed.below)) j inside
  rw [off] at here
  exact List.getElem_eq_iff bound |>.mpr here

theorem Packed.held_eq (packed : Packed length waif) :
    held waif = (fields length waif).filter (!·.isClear) := by
  rw [held, ← packed.pack_fields]
  exact held_pack packed.blanks

theorem allocWaifPropvals_values (length : Nat) (map : PropMap) :
    (allocWaifPropvals (C := C) length map).getD [] =
      List.replicate (countPropvals length map) .clear := by
  unfold allocWaifPropvals
  split
  · rename_i empty
    simp only [empty, Option.getD_none, List.replicate_zero]
  · rw [Option.getD_some]

theorem Packed.alloc (packed : Packed length waif) (none : waif.propvals = none) {longer : Nat}
    {waif' : Waif C} (map : waif'.map = waif.map)
    (array : waif'.propvals = allocWaifPropvals longer waif.map) :
    Packed longer waif' ∧ fields longer waif' = List.replicate longer .clear ∧
      fields length waif = List.replicate length .clear := by
  have zero : countPropvals length waif.map = 0 := by rw [← packed.size, none]; rfl
  have unmapped : rank (propMapped waif.map) 0 nMappableProps = 0 := by
    rw [← countMapped_eq packed.clean]
    rw [countPropvals] at zero
    omega
  have below : MappedBelow waif.map longer := by
    intro i small mapped
    have split := @rank_add (propMapped waif.map) 0 i (nMappableProps - i)
    obtain ⟨more, rest⟩ : ∃ more, nMappableProps - i = more + 1 := ⟨nMappableProps - i - 1, by omega⟩
    rw [show i + (nMappableProps - i) = nMappableProps by omega, unmapped, rest, rank, Nat.zero_add,
      if_pos mapped] at split
    omega
  refine ⟨⟨map ▸ packed.clean, map ▸ below, ?_⟩, ?_, ?_⟩
  · rw [array, allocWaifPropvals_values, List.length_replicate, map]
  · rw [fields, map, array, allocWaifPropvals_values, unpack_blank]
  · rw [fields, none]
    exact unpack_blank 0 length 0

end

/-! The update in memory. -/

/-- The definitions that the classes remember are those that they have. -/
structure Consistent (m : Memory C) : Prop where
  nothing : m.definitions NOTHING = none
  cached : ∀ c names p, m.definitions c = some names → m.waifPropdefs c = some p →
    m.propdefs p = names ∧ p < m.nextPropdefs

def WaifOk (m : Memory C) (waif : Waif C) : Prop :=
  match waif.propdefs with
  | some p => p < m.nextPropdefs ∧ Packed (m.propdefs p).length waif
  | none => m.definitions waif.classId = none

def currentClass (m : Memory C) (waif : Waif C) : Int :=
  if (m.definitions waif.classId).isSome then waif.classId else NOTHING

def currentFields (m : Memory C) (waif : Waif C) : List (Value C) :=
  match m.definitions waif.classId, waif.propdefs with
  | some names, some p => align (m.propdefs p) (fields (m.propdefs p).length waif) names
  | _, _ => []

def propdefsLength (m : Memory C) (waif : Waif C) : Nat := (waif.propdefs.elim [] m.propdefs).length

structure Updated (m : Memory C) (w : Address) (waif : Waif C) (m' : Memory C) (waif' : Waif C) :
    Prop where
  waifs : m'.waif = Function.update m.waif w (some waif')
  definitions : m'.definitions = m.definitions
  waifCount : m'.waifCount = m.waifCount
  propdefs : ∀ p, p < m.nextPropdefs → m'.propdefs p = m.propdefs p
  nextPropdefs : m.nextPropdefs ≤ m'.nextPropdefs
  consistent : Consistent m'
  ok : WaifOk m' waif'
  classId : waif'.classId = currentClass m waif
  owner : waif'.owner = waif.owner
  linked : waif'.propdefs = (m.definitions waif.classId).bind fun _ => m'.waifPropdefs waif.classId
  values : fields (propdefsLength m' waif') waif' = currentFields m waif
  /-- What is not kept is given up, and nothing is given up twice. -/
  freed : waif.propdefs.isSome = true → ∃ freed, m'.freed = m.freed ++ freed ∧
    (held waif).Perm (held waif' ++ freed.filter (!·.isClear))

section

variable {m : Memory C} {w : Address} {waif : Waif C}

theorem currentPropdefs_spec (consistent : Consistent m) {c : Int} {names : List Nat}
    (valid : m.definitions c = some names) :
    ∃ p m', currentPropdefs c names m = (p, m') ∧ m'.propdefs p = names ∧ p < m'.nextPropdefs ∧
      m'.waif = m.waif ∧ m'.definitions = m.definitions ∧ m'.waifCount = m.waifCount ∧
      (∀ q, q < m.nextPropdefs → m'.propdefs q = m.propdefs q) ∧
      m.nextPropdefs ≤ m'.nextPropdefs ∧ Consistent m' := by
  rw [currentPropdefs]
  cases found : m.waifPropdefs c with
  | some p =>
      obtain ⟨same, used⟩ := consistent.cached c names p valid found
      exact ⟨p, m, rfl, same, used, rfl, rfl, rfl, fun _ _ => rfl, Nat.le_refl _, consistent⟩
  | none =>
      have others : ∀ q, q < m.nextPropdefs → (genWaifPropdefs c names m).propdefs q = m.propdefs q :=
        fun q used => Function.update_of_ne (Nat.ne_of_lt used) _ _
      have self : (genWaifPropdefs c names m).propdefs m.nextPropdefs = names :=
        Function.update_self _ _ _
      refine ⟨m.nextPropdefs, genWaifPropdefs c names m, rfl, self, Nat.lt_succ_self _, rfl, rfl, rfl,
        others, Nat.le_succ _, consistent.nothing, fun d other p valid' cached => ?_⟩
      by_cases same : d = c
      · subst same
        obtain rfl := Option.some.inj (valid.symm.trans valid')
        have here : some m.nextPropdefs = some p := by
          simpa [genWaifPropdefs] using cached
        obtain rfl := Option.some.inj here
        exact ⟨self, Nat.lt_succ_self _⟩
      · have before : m.waifPropdefs d = some p := by simpa [genWaifPropdefs, same] using cached
        obtain ⟨sameNames, used⟩ := consistent.cached d other p valid' before
        exact ⟨(others p used).trans sameNames, Nat.lt_succ_of_lt used⟩

theorem currentPropdefs_cached (c : Int) (names : List Nat) (m : Memory C) :
    (currentPropdefs c names m).2.waifPropdefs c = some (currentPropdefs c names m).1 ∧
      (currentPropdefs c names m).2.freed = m.freed := by
  rw [currentPropdefs]
  cases found : m.waifPropdefs c with
  | some p => exact ⟨found, rfl⟩
  | none => exact ⟨Function.update_self _ _ _, rfl⟩

theorem free_nil (m : Memory C) : m.free [] = m := by
  rw [Memory.free, List.append_nil]

theorem reconcile_spec {p q : Nat} (propdefs : waif.propdefs = some q)
    (packed : Packed (m.propdefs q).length waif) :
    ∃ waif' freed, reconcile w waif p m = .ok ((m.setWaif w waif').free freed) ∧
      waif'.classId = waif.classId ∧ waif'.owner = waif.owner ∧ waif'.propdefs = some p ∧
      Packed (m.propdefs p).length waif' ∧ fields (m.propdefs p).length waif' =
        align (m.propdefs q) (fields (m.propdefs q).length waif) (m.propdefs p) ∧
      (held waif).Perm (held waif' ++ freed.filter (!·.isClear)) := by
  rw [reconcile]
  cases array : waif.propvals with
  | none =>
      let waif' : Waif C := { waif with
        propdefs := some p, propvals := allocWaifPropvals (m.propdefs p).length waif.map }
      have map' : waif'.map = waif.map := rfl
      have array' : waif'.propvals = allocWaifPropvals (m.propdefs p).length waif.map := by
        dsimp only [waif']
      obtain ⟨packed', fields', old⟩ := packed.alloc array map' array'
      refine ⟨waif', [], ?_, rfl, rfl, rfl, packed', ?_, ?_⟩
      · rw [free_nil]
      · rw [fields', old, align_clear]
      · rw [packed.held_eq, packed'.held_eq, fields', old]
        simp [Value.isClear]
  | some ov =>
      have inside : ov = pack (allocated waif.map) 0 (fields (m.propdefs q).length waif) := by
        rw [packed.pack_fields, array]
        rfl
      obtain ⟨freed, ran, kept⟩ := transfer_eq (m.propdefs p) (fields_length _ waif) packed.blanks
      have size : (align (m.propdefs q) (fields (m.propdefs q).length waif) (m.propdefs p)).length =
          (m.propdefs p).length := align_length _ _ _
      obtain ⟨packed', fields'⟩ := repack_packed
        (align (m.propdefs q) (fields (m.propdefs q).length waif) (m.propdefs p))
        { waif with propdefs := some p }
      rw [size] at packed' fields'
      refine ⟨repack (align (m.propdefs q) (fields (m.propdefs q).length waif) (m.propdefs p))
        { waif with propdefs := some p }, freed, ?_, rfl, rfl, rfl, packed', fields', ?_⟩
      · simp only [propdefs]
        rw [inside, ran]
        rfl
      · rw [packed.held_eq, held_repack]
        exact kept

theorem invalidateWaif_spec (consistent : Consistent m) (ok : WaifOk m waif)
    (gone : m.definitions waif.classId = none) :
    ∃ m' waif', invalidateWaif w waif m = .ok m' ∧ Updated m w waif m' waif' := by
  have size : countWaifPropvals m waif ≤ (waif.propvals.getD []).length ∧
      (waif.propdefs.isSome = true → (waif.propvals.getD []).length ≤ countWaifPropvals m waif) := by
    rw [countWaifPropvals]
    rw [WaifOk] at ok
    cases known : waif.propdefs with
    | none => exact ⟨Nat.zero_le _, Bool.noConfusion⟩
    | some p =>
        rw [known] at ok
        exact ⟨Nat.le_of_eq ok.2.size.symm, fun _ => Nat.le_of_eq ok.2.size⟩
  let waif' : Waif C := { waif with propdefs := none, propvals := none, classId := NOTHING }
  let freed := (waif.propvals.getD []).take (countWaifPropvals m waif)
  have nothing : currentFields m waif = [] := by rw [currentFields, gone]
  refine ⟨(m.setWaif w waif').free freed, waif', ?_, ?_⟩
  · simp only [invalidateWaif, takeValues, if_pos size.1, List.splitAt_eq]
    rfl
  · refine ⟨rfl, rfl, rfl, fun _ _ => rfl, Nat.le_refl _, ⟨consistent.nothing, consistent.cached⟩,
      consistent.nothing, ?_, rfl, ?_, ?_, fun linked => ⟨freed, rfl, ?_⟩⟩
    · rw [currentClass, gone]
      rfl
    · rw [gone]
      rfl
    · rw [nothing]
      rfl
    · have whole : freed = waif.propvals.getD [] := List.take_of_length_le (size.2 linked)
      rw [whole]
      exact List.Perm.refl _

/-- Bringing a waif up to date keeps the value of each property whose definition is still there
behind those of the properties before it, and loses no other reference. -/
theorem updateWaifPropdefs_spec (consistent : Consistent m) (found : m.waif w = some waif)
    (ok : WaifOk m waif) :
    ∃ m' waif', updateWaifPropdefs w m = .ok m' ∧ Updated m w waif m' waif' := by
  have self : m.dereference w = .ok waif := by rw [Memory.dereference, found]
  rw [updateWaifPropdefs, self]
  simp only [bind, Except.bind]
  cases valid : m.definitions waif.classId with
  | none => exact invalidateWaif_spec consistent ok valid
  | some names =>
      obtain ⟨q, known⟩ : ∃ q, waif.propdefs = some q := by
        rw [WaifOk] at ok
        cases known : waif.propdefs with
        | none =>
            rw [known, valid] at ok
            cases ok
        | some q => exact ⟨q, rfl⟩
      have whole := ok
      rw [WaifOk, known] at ok
      have class' : currentClass m waif = waif.classId := by
        rw [currentClass, valid]
        rfl
      have values : currentFields m waif =
          align (m.propdefs q) (fields (m.propdefs q).length waif) names := by
        rw [currentFields, valid, known]
      simp only
      split
      · rename_i synced
        obtain ⟨rfl, used⟩ := consistent.cached waif.classId names q valid (synced.symm.trans known)
        rw [align_self _ (fields_length _ waif)] at values
        refine ⟨m, waif, rfl, ?_⟩
        refine ⟨?_, rfl, rfl, fun _ _ => rfl, Nat.le_refl _, consistent, whole, class'.symm, rfl, ?_, ?_,
          fun _ => ⟨[], (List.append_nil _).symm, ?_⟩⟩
        · rw [← found, Function.update_eq_self]
        · rw [valid]
          exact synced
        · rw [propdefsLength, known, values]
          rfl
        · rw [List.filter_nil, List.append_nil]
      · obtain ⟨p, m', current, names', used, waifs, definitions, waifCount, others, next,
          consistent'⟩ := currentPropdefs_spec consistent valid
        have old : m'.propdefs q = m.propdefs q := others q ok.1
        obtain ⟨cached, freed₀⟩ := currentPropdefs_cached waif.classId names m
        rw [current] at cached freed₀
        obtain ⟨waif', freed, ran, classId, owner, propdefs, packed, fields', kept⟩ :=
          reconcile_spec (m := m') (w := w) (p := p) known (old ▸ ok.2)
        rw [old] at fields'
        rw [current]
        refine ⟨(m'.setWaif w waif').free freed, waif', ran, ?_⟩
        refine ⟨?_, definitions, waifCount, others, next, ⟨consistent'.nothing, consistent'.cached⟩, ?_,
          classId.trans class'.symm, owner, ?_, ?_, fun _ => ⟨freed, ?_, kept⟩⟩
        · rw [← waifs]
          rfl
        · rw [WaifOk, propdefs]
          exact ⟨used, packed⟩
        · rw [valid, propdefs]
          exact cached.symm
        · rw [propdefsLength, propdefs, values, ← names']
          exact fields'
        · exact congrArg (· ++ freed) freed₀

end

end ToastStunt.Waifs
