import ToastStunt.Waifs.Shrinking

/-!
Making waifs, freeing them and assigning to their properties: no waif comes to contain itself.
-/

namespace ToastStunt.Waifs

open Packing FirstVisit

variable {C : Type}

structure Loopless (m : Memory C) : Prop extends Sound m where
  acyclic : ∃ rank, Ranked (contained m) rank

section

variable {m m' : Memory C} {w : Address} {waif waif' : Waif C}

theorem Shrinks.loopless (shrinks : Shrinks m m') (loopless : Loopless m) : Loopless m' := by
  obtain ⟨rank, ranked⟩ := loopless.acyclic
  exact ⟨shrinks.sound loopless.toSound, rank, shrinks.ranked ranked⟩

theorem Loopless.free (loopless : Loopless m) (values : List (Value C)) :
    Loopless (m.free values) := (loopless.toSound.same.free values).loopless loopless

theorem followed_subset (m : Memory C) (key v : Address) : followed m key v ⊆ contained m v := by
  rw [followed]
  split
  · exact List.nil_subset _
  · exact List.Subset.refl _

theorem contained_elsewhere (m : Memory C) (w : Address) (waif : Waif C) {v : Address}
    (other : v ≠ w) : contained (m.setWaif w waif) v = followed m w v := by
  rw [contained_setWaif, if_neg other, followed, if_neg other]

theorem followed_setWaif (m : Memory C) (w : Address) (waif : Waif C) :
    followed (m.setWaif w waif) w = followed m w := by
  funext v
  by_cases here : v = w
  · rw [followed, followed, if_pos here, if_pos here]
  · rw [followed, if_neg here, contained_elsewhere m w waif here]

theorem Sound.hold (sound : Sound m) (found : m.waif w = some waif) (stocked : Stocked m waif')
    (alive : ∀ u ∈ containedIn m waif', (m.waif u).isSome = true) : Sound (m.setWaif w waif') := by
  have there (v : Address) : ((m.setWaif w waif').waif v).isSome = (m.waif v).isSome := by
    rw [setWaif_apply]
    split
    · rename_i here
      rw [here, found]
      rfl
    · rfl
  refine ⟨sound.cached, fun v other => sound.setWaif_stocked stocked, fun v u member => ?_⟩
  rw [there]
  rw [contained_setWaif] at member
  split at member
  · exact alive u member
  · exact sound.live v u member

/-- A waif may hold any value from which there is no way to it. -/
theorem Sound.hold_away (sound : Sound m) {rank : Address → Nat}
    (ranked : Ranked (followed m w) rank) (found : m.waif w = some waif) (stocked : Stocked m waif')
    (alive : ∀ u ∈ containedIn m waif', (m.waif u).isSome = true)
    (away : ∀ u ∈ containedIn m waif', ¬Reach (followed m w) u w) :
    Loopless (m.setWaif w waif') := by
  refine ⟨sound.hold found stocked alive,
    @Ranked.redirect _ _ _ _ ranked w (fun v other => ?_) fun u member => ?_⟩
  · rw [contained_elsewhere m w waif' other]
    exact List.Subset.refl _
  · rw [contained_setWaif, if_pos rfl] at member
    exact away u member

theorem Loopless.newWaif (loopless : Loopless m) {classId owner : Int}
    (ran : newWaif w classId owner m = .ok m') : Loopless m' := by
  rw [Waifs.newWaif] at ran
  cases valid : m.definitions classId with
  | none =>
      rw [valid] at ran
      cases ran
  | some names =>
      cases current : currentPropdefs classId names m with
      | mk p m₁ =>
          simp only [valid, current, Except.ok.injEq] at ran
          subst ran
          obtain ⟨shrinks, _, used, _, _⟩ := currentPropdefs_keeps loopless.toSound current
          have before := shrinks.loopless loopless
          obtain ⟨rank, ranked⟩ := before.acyclic
          generalize empty : (⟨classId, owner, some p,
            allocWaifPropvals (m₁.propdefs p).length fun _ => 0, fun _ => 0⟩ : Waif C) = waif
          have count : countWaifPropvals m₁ waif =
              countPropvals (m₁.propdefs p).length fun _ => 0 := by
            rw [countWaifPropvals, ← empty]
          have values : waif.propvals.getD [] =
              List.replicate (countWaifPropvals m₁ waif) .clear := by
            rw [count, ← empty, allocWaifPropvals_values]
          have stocked : Stocked m₁ waif := by
            refine ⟨?_, fun q linked => ?_, ?_⟩
            · rw [← empty]
              exact clean_zero
            · rw [← empty] at linked
              cases linked
              exact used
            · rw [values, List.length_replicate]
          have nothing : containedIn m₁ waif = [] := by
            have fewer : containedIn m₁ waif ⊆ waifsIn ([] : List (Value C)) :=
              waifsIn_subset fun value member => .inl ?_
            · exact List.subset_nil.mp fewer
            have inside := List.mem_of_mem_take member
            rw [values] at inside
            exact List.eq_of_mem_replicate inside
          have fewer (v : Address) : contained (m₁.setWaif w waif) v ⊆ contained m₁ v := by
            rw [contained_setWaif, nothing]
            split
            · exact List.nil_subset _
            · exact List.Subset.refl _
          have sound : Sound (m₁.setWaif w waif) := by
            refine ⟨before.cached, fun v other => before.setWaif_stocked stocked, fun v u member => ?_⟩
            rw [setWaif_apply]
            split
            · rfl
            · exact before.live v u (fewer v member)
          exact ⟨⟨sound.cached, fun v other found =>
            ⟨(sound.stocked v other found).clean, (sound.stocked v other found).used,
              (sound.stocked v other found).enough⟩, sound.live⟩, rank, ranked.mono fewer⟩

theorem Loopless.freeWaif (loopless : Loopless m) (unused : ∀ v, w ∉ contained m v)
    (ran : freeWaif w m = .ok m') : Loopless m' := by
  obtain ⟨_, _, ran⟩ := Failing.bind_ok ran
  obtain ⟨⟨values, _⟩, _, ran⟩ := Failing.bind_ok ran
  cases ran
  have there (v : Address) : Function.update m.waif w none v = if v = w then none else m.waif v :=
    Function.update_apply _ _ _ _
  generalize freed : ({ m.free values with
    waif := Function.update m.waif w none, waifCount := m.waifCount - 1 } : Memory C) = m'
  have waifs (v : Address) : m'.waif v = if v = w then none else m.waif v := by
    rw [← freed]
    exact there v
  have same (other : Waif C) : containedIn m' other = containedIn m other := by
    rw [← freed]
    rfl
  have fewer (v : Address) : contained m' v ⊆ contained m v := by
    cases found : m'.waif v with
    | none =>
        rw [contained_none found]
        exact List.nil_subset _
    | some other =>
        have before : m.waif v = some other := by
          rw [waifs] at found
          split at found
          · cases found
          · exact found
        rw [contained_eq found, contained_eq before, same]
        exact List.Subset.refl _
  obtain ⟨rank, ranked⟩ := loopless.acyclic
  refine ⟨⟨?_, fun v other found => ?_, fun v u member => ?_⟩, rank, ranked.mono fewer⟩
  · rw [← freed]
    exact loopless.cached
  · rw [waifs] at found
    split at found
    · cases found
    · have stocked := loopless.stocked v other found
      rw [← freed]
      exact ⟨stocked.clean, stocked.used, stocked.enough⟩
  · have apart : u ≠ w := by
      rintro rfl
      exact unused v (fewer v member)
    rw [waifs, if_neg apart]
    exact loopless.live v u (fewer v member)

/-! Assignment. -/

theorem propvals_set (stocked : Stocked m waif) (idx : Nat) (val : Value C) {waif' : Waif C}
    (map : waif'.map = waif.map) (propdefs : waif'.propdefs = waif.propdefs)
    (array : waif'.propvals = some ((waif.propvals.getD []).set idx val)) :
    Stocked m waif' ∧
      ∀ u ∈ containedIn m waif', u ∈ containedIn m waif ∨ u ∈ waifsIn [val] := by
  have count : countWaifPropvals m waif' = countWaifPropvals m waif := by
    rw [countWaifPropvals, countWaifPropvals, map, propdefs]
  refine ⟨⟨map ▸ stocked.clean, propdefs ▸ stocked.used, ?_⟩, fun u member => ?_⟩
  · rw [count, array, Option.getD_some, List.length_set]
    exact stocked.enough
  · rw [containedIn, heldBy, count, array, Option.getD_some, List.take_set, mem_waifsIn,
      mem_leavesOf] at member
    obtain ⟨value, inside, leaf⟩ := member
    rcases List.mem_or_eq_of_mem_set inside with old | rfl
    · exact .inl (mem_waifsIn.mpr (mem_leavesOf.mpr ⟨value, old, leaf⟩))
    · exact .inr (mem_waifsIn.mpr (mem_leavesOf.mpr ⟨value, List.mem_cons_self, leaf⟩))

theorem allocPropvalOffset_ok {length idx offset : Nat}
    (ran : allocPropvalOffset length waif idx = .ok (waif', offset)) :
    propMapped waif.map idx = false ∧ waif'.map = mapProp waif.map idx ∧
      waif'.propdefs = waif.propdefs ∧ ∃ front back, waif'.propvals = some (front ++ .clear :: back) ∧
        front.length = rank (propMapped waif.map) 0 idx ∧
        back.length = rank (propMapped waif.map) (idx + 1) (nMappableProps - (idx + 1)) +
          (length - nMappableProps) ∧
        ∀ value, value ∈ front ∨ value ∈ back →
          value ∈ (waif.propvals.getD []).take (front.length + back.length) := by
  rw [allocPropvalOffset] at ran
  split at ran
  · cases ran
  · rename_i unmapped
    obtain ⟨⟨front, old⟩, first, ran⟩ := Failing.bind_ok ran
    obtain ⟨⟨back, rest⟩, second, ran⟩ := Failing.bind_ok ran
    obtain ⟨before, behind⟩ := rank_mapProp waif.map idx
    cases ran
    refine ⟨by simpa using unmapped, rfl, rfl, front, back, rfl,
      (takeValues_length first).trans before, ?_, fun value inside => ?_⟩
    · rw [takeValues_length second, behind]
    · rw [takeValues_length first, takeValues_length second]
      obtain ⟨rfl, rfl⟩ := takeValues_ok first
      obtain ⟨rfl, _⟩ := takeValues_ok second
      rcases inside with front | back
      · exact List.take_subset_take_left _ (Nat.le_add_right _ _) front
      · exact mem_take_of_drop back

theorem allocPropvalOffset_keeps (stocked : Stocked m waif) {idx : Nat}
    (low : idx < nMappableProps) {offset : Nat}
    (ran : allocPropvalOffset (propdefsLength m waif) waif idx = .ok (waif', offset)) :
    Stocked m waif' ∧ containedIn m waif' ⊆ containedIn m waif := by
  obtain ⟨unmapped, map, propdefs, front, back, array, first, second, kept⟩ :=
    allocPropvalOffset_ok ran
  have clean : Clean waif'.map := map ▸ stocked.clean.mapProp idx
  have used : ∀ p, waif'.propdefs = some p → p < m.nextPropdefs := propdefs ▸ stocked.used
  cases linked : waif.propdefs with
  | none =>
      have unlinked : waif'.propdefs = none := propdefs.trans linked
      rw [containedIn_unlinked m unlinked]
      refine ⟨⟨clean, used, ?_⟩, List.nil_subset _⟩
      rw [countWaifPropvals, unlinked]
      exact Nat.zero_le _
  | some p =>
      have length : propdefsLength m waif = (m.propdefs p).length := by
        rw [propdefsLength, linked]
        rfl
      have oldCount : countWaifPropvals m waif = front.length + back.length := by
        rw [countWaifPropvals, linked, first, second, length]
        simp only
        rw [countPropvals, countMapped_eq stocked.clean, mapped_split low, unmapped,
          if_neg Bool.false_ne_true]
        omega
      have newCount : countWaifPropvals m waif' = front.length + back.length + 1 := by
        have here : propMapped waif'.map idx = true := by simp [map, propMapped_mapProp]
        obtain ⟨before, behind⟩ := rank_mapProp waif.map idx
        rw [← map] at before behind
        rw [countWaifPropvals, propdefs, linked, first, second, length]
        simp only
        rw [countPropvals, countMapped_eq clean, mapped_split low, here, if_pos rfl, before, behind]
        omega
      refine ⟨⟨clean, used, ?_⟩, waifsIn_subset fun value member => ?_⟩
      · rw [newCount, array, Option.getD_some, List.length_append, List.length_cons]
        omega
      · have inside := List.mem_of_mem_take member
        rw [array, Option.getD_some, List.mem_append, List.mem_cons] at inside
        rw [heldBy, oldCount]
        rcases inside with front | clear | back
        · exact .inr (kept value (.inl front))
        · exact .inl clear
        · exact .inr (kept value (.inr back))

theorem findPropvalOffset_low {text : Nat → CString} {name : CString} {pidx : Nat}
    (ran : findPropvalOffset text waif name m = .ok (some (pidx, none))) : pidx < nMappableProps := by
  rw [findPropvalOffset] at ran
  split at ran
  · cases ran
  · split at ran
    · cases ran
    · split at ran
      · cases ran
      · rename_i low
        split at ran <;> cases ran
        exact Nat.lt_of_not_le low

theorem setPropval_ok {idx : Nat} {val : Value C} (ran : setPropval w waif idx val m = .ok m') :
    ∃ old, m' = (m.setWaif w { waif with
      propvals := some ((waif.propvals.getD []).set idx val) }).free [old] := by
  rw [setPropval] at ran
  split at ran
  · cases ran
  · cases ran
    exact ⟨_, rfl⟩

theorem storeProp_ok (stocked : Stocked m waif) {pidx : Nat} {idx : Option Nat} {val : Value C}
    (low : idx = none → pidx < nMappableProps) (ran : storeProp w waif pidx idx val m = .ok m') :
    ∃ waif' old, m' = (m.setWaif w waif').free [old] ∧ Stocked m waif' ∧
      ∀ u ∈ containedIn m waif', u ∈ containedIn m waif ∨ u ∈ waifsIn [val] := by
  cases idx with
  | some idx =>
      obtain ⟨old, rfl⟩ := setPropval_ok ran
      exact ⟨_, old, rfl, propvals_set stocked idx val rfl rfl rfl⟩
  | none =>
      obtain ⟨⟨wider, offset⟩, allocated, ran⟩ := Failing.bind_ok ran
      obtain ⟨old, rfl⟩ := setPropval_ok ran
      obtain ⟨stocked', fewer⟩ := allocPropvalOffset_keeps stocked (low rfl) allocated
      refine ⟨{ wider with propvals := some ((wider.propvals.getD []).set offset val) }, old, rfl, ?_⟩
      obtain ⟨stocked'', either⟩ := @propvals_set _ _ _ stocked' offset val
        { wider with propvals := some ((wider.propvals.getD []).set offset val) } rfl rfl rfl
      exact ⟨stocked'', fun u member => (either u member).imp_left fun kept => fewer kept⟩

theorem Loopless.storeProp (loopless : Loopless m) (found : m.waif w = some waif) {pidx fuel : Nat}
    {idx : Option Nat} {val : Value C} (low : idx = none → pidx < nMappableProps)
    (alive : ∀ u ∈ waifsIn [val], (m.waif u).isSome = true)
    (missed : refersTo (waifRefersTo m w fuel) w val = .ok false)
    (ran : storeProp w waif pidx idx val m = .ok m') : Loopless m' := by
  obtain ⟨waif', old, rfl, stocked, either⟩ :=
    storeProp_ok (loopless.stocked w waif found) low ran
  obtain ⟨rank, ranked⟩ := loopless.acyclic
  have missed' : itemsReferTo (waifRefersTo m w fuel) w [val] = .ok false := by
    rw [itemsReferTo, missed]
    rfl
  refine (loopless.toSound.hold_away (ranked.mono (followed_subset m w)) found stocked
    (fun u member => ?_) fun u member path => ?_).free [old]
  · rcases either u member with before | new
    · exact loopless.live w u (contained_eq found ▸ before)
    · exact alive u new
  · rcases either u member with before | new
    · have edge : u ∈ contained m w := contained_eq found ▸ before
      exact ranked.no_return edge (Reach.mono (followed_subset m w) path)
    · exact loopless.toSound.missed alive missed' u new path

/-- An assignment brings the waif up to date; after that it is refused, or the value is stored. -/
theorem waifPutProp_ok {lookups : Lookups} {fuel : Nat} {name : CString} {val : Value C}
    {progr : Int} {result : PutResult}
    (ran : waifPutProp lookups fuel w name val progr m = .ok (result, m')) :
    ∃ m₁ waif, updateWaifPropdefs w m = .ok m₁ ∧ m₁.waif w = some waif ∧
      (result ≠ .E_NONE ∧ m' = m₁ ∨ result = .E_NONE ∧ ∃ pidx idx,
        findPropvalOffset lookups.text waif (waifPropPrefix :: name) m₁ = .ok (some (pidx, idx)) ∧
        refersTo (waifRefersTo m₁ w fuel) w val = .ok false ∧
        storeProp w waif pidx idx val m₁ = .ok m') := by
  obtain ⟨m₁, updated, ran⟩ := Failing.bind_ok ran
  obtain ⟨waif, found, ran⟩ := Failing.bind_ok ran
  refine ⟨m₁, waif, updated, dereference_ok found, ?_⟩
  split at ran
  · cases ran
    exact .inl ⟨by decide, rfl⟩
  split at ran
  · cases ran
    exact .inl ⟨by decide, rfl⟩
  obtain ⟨place, located, ran⟩ := Failing.bind_ok ran
  cases place with
  | none =>
      cases ran
      exact .inl ⟨by decide, rfl⟩
  | some place =>
      obtain ⟨pidx, idx⟩ := place
      simp only [assignProp] at ran
      split at ran
      · cases ran
      split at ran
      · cases ran
      split at ran
      · cases ran
        exact .inl ⟨by decide, rfl⟩
      obtain ⟨refers, searched, ran⟩ := Failing.bind_ok ran
      cases refers with
      | true =>
          cases ran
          exact .inl ⟨by decide, rfl⟩
      | false =>
          obtain ⟨m₂, stored, ran⟩ := Failing.bind_ok ran
          cases ran
          exact .inr ⟨rfl, pidx, idx, located, searched, stored⟩

/-- The assignment leaves no loop, whatever is assigned. -/
theorem Loopless.waifPutProp (loopless : Loopless m) {lookups : Lookups} {fuel : Nat}
    {name : CString} {val : Value C} {progr : Int} {result : PutResult}
    (alive : ∀ u ∈ waifsIn [val], (m.waif u).isSome = true)
    (ran : waifPutProp lookups fuel w name val progr m = .ok (result, m')) : Loopless m' := by
  obtain ⟨m₁, waif, updated, known, ends⟩ := waifPutProp_ok ran
  have shrinks := updateWaifPropdefs_keeps loopless.toSound updated
  have before := shrinks.loopless loopless
  rcases ends with ⟨_, rfl⟩ | ⟨_, pidx, idx, located, searched, stored⟩
  · exact before
  · refine before.storeProp known (fun none => ?_) (fun u member => ?_) searched stored
    · subst none
      exact findPropvalOffset_low located
    · rw [shrinks.alive]
      exact alive u member

/-! The classes. -/

/-- What may become of the classes: objects come, go and are renumbered, their definitions change,
and what is renamed may be renamed where it is. -/
structure Reclassed (m m' : Memory C) : Prop where
  waif : m'.waif = m.waif
  nextPropdefs : m'.nextPropdefs = m.nextPropdefs
  renamed : ∀ p, p < m.nextPropdefs → (m'.propdefs p).length = (m.propdefs p).length
  cached : ∀ c p, m'.waifPropdefs c = some p → ∃ c', m.waifPropdefs c' = some p

theorem Reclassed.shrinks (reclassed : Reclassed m m') (sound : Sound m) : Shrinks m m' := by
  have same (v : Address) (waif : Waif C) (found : m.waif v = some waif) :=
    @containedIn_congr C m m' waif fun p linked =>
      reclassed.renamed p ((sound.stocked v waif found).used p linked)
  refine ⟨fun v => ?_, fun v => by rw [reclassed.waif], fun c p here => ?_, fun v waif found => ?_⟩
  · cases found : m.waif v with
    | none =>
        rw [contained_none (reclassed.waif ▸ found)]
        exact List.nil_subset _
    | some waif =>
        rw [contained_eq found, contained_eq (m := m') (reclassed.waif ▸ found), (same v waif found).2]
        exact List.Subset.refl _
  · obtain ⟨c', before⟩ := reclassed.cached c p here
    rw [reclassed.nextPropdefs]
    exact sound.cached c' p before
  · rw [reclassed.waif] at found
    have stocked := sound.stocked v waif found
    refine ⟨stocked.clean, fun p linked => ?_, ?_⟩
    · rw [reclassed.nextPropdefs]
      exact stocked.used p linked
    · rw [(same v waif found).1]
      exact stocked.enough

end

end ToastStunt.Waifs
