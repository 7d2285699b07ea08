import ToastStunt.Waifs.Assigning

/-!
What `read_waif` builds, whatever the file says, and how `waif_after_loading` takes the loops out
of it.
-/

namespace ToastStunt.Waifs

open Packing FirstVisit Failing

variable {C : Type}

section

variable (address : Nat → Address)

def Within (count : Nat) (items : List (Value C)) : Prop :=
  ∀ u ∈ waifsIn items, ∃ k, k < count ∧ u = address k

structure Legible (l : Loading C) : Prop where
  clean : ∀ waif ∈ l.waifs, Clean waif.map
  unlinked : ∀ waif ∈ l.waifs, waif.propdefs = none
  within : ∀ waif ∈ l.waifs, Within address l.waifs.length (waif.propvals.getD [])

structure ReadOn (l : Loading C) (values : List (Value C)) (l' : Loading C) : Prop where
  legible : Legible address l'
  grown : l.waifs.length ≤ l'.waifs.length
  within : Within address l'.waifs.length values

def ReadsWell (read : Loading C → Except Crash (Read C (Value C))) : Prop :=
  ∀ l value l', Legible address l → read l = .ok (value, l') → ReadOn address l [value] l'

end

section

variable {address : Nat → Address} {l l' l'' : Loading C} {values more : List (Value C)}
  {read : Loading C → Except Crash (Read C (Value C))}

theorem Within.append {count : Nat} (first : Within address count values)
    (second : Within address count more) : Within address count (values ++ more) := by
  intro u member
  rw [waifsIn_append] at member
  rcases List.mem_append.mp member with here | there
  · exact first u here
  · exact second u there

theorem Within.mono {count longer : Nat} (within : Within address count values)
    (grown : count ≤ longer) : Within address longer values := by
  intro u member
  obtain ⟨k, low, rfl⟩ := within u member
  exact ⟨k, Nat.lt_of_lt_of_le low grown, rfl⟩

theorem within_nil (count : Nat) : Within address count ([] : List (Value C)) := nofun

theorem within_blank (count n : Nat) : Within address count (List.replicate n (.clear : Value C)) := by
  intro u member
  rw [mem_waifsIn, mem_leavesOf] at member
  obtain ⟨value, inside, leaf⟩ := member
  rw [List.eq_of_mem_replicate inside] at leaf
  simp [leaves] at leaf

theorem Legible.same (legible : Legible address l) (same : l'.waifs = l.waifs) :
    Legible address l' := by
  refine ⟨?_, ?_, ?_⟩ <;> rw [same]
  · exact legible.clean
  · exact legible.unlinked
  · exact legible.within

theorem ReadOn.append (first : ReadOn address l values l') (second : ReadOn address l' more l'') :
    ReadOn address l (values ++ more) l'' :=
  ⟨second.legible, Nat.le_trans first.grown second.grown,
    (first.within.mono second.grown).append second.within⟩

theorem readRecord_ok {record : Record C} (ran : readRecord l = .ok (record, l')) :
    l'.waifs = l.waifs := by
  rw [readRecord] at ran
  split at ran
  · cases ran
  · cases ran
    rfl

theorem readNum_ok {n : Int} (ran : readNum l = .ok (n, l')) : l'.waifs = l.waifs := by
  obtain ⟨⟨record, l₁⟩, first, ran⟩ := bind_ok ran
  cases record <;> cases ran
  exact readRecord_ok first

theorem readStop_ok (ran : readStop l = .ok l') : l'.waifs = l.waifs := by
  obtain ⟨⟨record, l₁⟩, first, ran⟩ := bind_ok ran
  cases record <;> cases ran
  exact readRecord_ok first

theorem readItems_on (well : ReadsWell address read) {count : Nat} (legible : Legible address l)
    (ran : readItems read count l = .ok (values, l')) : ReadOn address l values l' := by
  induction count generalizing l values with
  | zero =>
      cases ran
      exact ⟨legible, Nat.le_refl _, within_nil _⟩
  | succ count ih =>
      obtain ⟨⟨value, l₁⟩, first, ran⟩ := bind_ok ran
      obtain ⟨⟨rest, l₂⟩, second, ran⟩ := bind_ok ran
      cases ran
      have here := well l value l₁ legible first
      exact here.append (ih here.legible second)

theorem readPackable_on (well : ReadsWell address read) {room : Nat} {done : List (Value C)}
    {map map' : PropMap} {cur : Int} (legible : Legible address l) (clean : Clean map)
    (within : Within address l.waifs.length done)
    (ran : readPackable read room done map l = .ok ((values, map', cur), l')) :
    ReadOn address l values l' ∧ Clean map' := by
  induction room generalizing l done map with
  | zero =>
      rw [readPackable] at ran
      obtain ⟨⟨n, l₁⟩, first, ran⟩ := bind_ok ran
      have same := readNum_ok first
      by_cases inside : 0 ≤ n ∧ n < nMappableProps
      · simp only [if_pos inside] at ran
        cases ran
      · simp only [if_neg inside] at ran
        cases ran
        exact ⟨⟨legible.same same, Nat.le_of_eq (by rw [same]), same ▸ within⟩, clean⟩
  | succ room ih =>
      rw [readPackable] at ran
      obtain ⟨⟨n, l₁⟩, first, ran⟩ := bind_ok ran
      have same := readNum_ok first
      by_cases inside : 0 ≤ n ∧ n < nMappableProps
      · simp only [if_pos inside] at ran
        obtain ⟨⟨value, l₂⟩, second, ran⟩ := bind_ok ran
        have here := well l₁ value l₂ (legible.same same) second
        have grown : l.waifs.length ≤ l₂.waifs.length := same ▸ here.grown
        obtain ⟨later, clean'⟩ := ih here.legible (clean.mapProp n.toNat)
          ((within.mono grown).append here.within) ran
        exact ⟨⟨later.legible, Nat.le_trans grown later.grown, later.within⟩, clean'⟩
      · simp only [if_neg inside] at ran
        cases ran
        exact ⟨⟨legible.same same, Nat.le_of_eq (by rw [same]), same ▸ within⟩, clean⟩

theorem readAllocated_on (well : ReadsWell address read) {len room i : Nat}
    {done : List (Value C)} {cur : Int} (legible : Legible address l)
    (within : Within address l.waifs.length done)
    (ran : readAllocated read len room i done cur l = .ok (values, l')) :
    ReadOn address l values l' := by
  induction room generalizing l i done cur with
  | zero =>
      rw [readAllocated] at ran
      split at ran
      · cases ran
        exact ⟨legible, Nat.le_refl _, within.append (within_blank _ _)⟩
      · split at ran <;> cases ran
  | succ room ih =>
      rw [readAllocated] at ran
      split at ran
      · cases ran
        exact ⟨legible, Nat.le_refl _, within.append (within_blank _ _)⟩
      · split at ran
        · cases ran
        · obtain ⟨⟨value, l₁⟩, first, ran⟩ := bind_ok ran
          obtain ⟨⟨next, l₂⟩, second, ran⟩ := bind_ok ran
          have here := well l value l₁ legible first
          have same := readNum_ok second
          have known := here.legible.same same
          have later := ih known
            (same ▸ ((within.mono here.grown).append (within_blank _ _)).append here.within) ran
          have grown : l₁.waifs.length ≤ l'.waifs.length := same ▸ later.grown
          exact ⟨later.legible, Nat.le_trans here.grown grown, later.within⟩

theorem readProperties_on (well : ReadsWell address read) {len : Nat} {map : PropMap}
    (legible : Legible address l)
    (ran : readProperties read len l = .ok ((values, map), l')) :
    ReadOn address l values l' ∧ Clean map := by
  obtain ⟨⟨⟨packable, map', cur⟩, l₁⟩, first, ran⟩ := bind_ok ran
  obtain ⟨⟨allocated, l₂⟩, second, ran⟩ := bind_ok ran
  cases ran
  obtain ⟨here, clean⟩ := readPackable_on well legible clean_zero (within_nil _) first
  exact ⟨here.append (readAllocated_on well here.legible (within_nil _) second), clean⟩

theorem Legible.push (legible : Legible address l) (classId owner : Int) :
    Legible address { l with waifs := l.waifs ++ [emptyWaif classId owner] } := by
  have cases' {waif : Waif C} (member : waif ∈ l.waifs ++ [emptyWaif classId owner]) :
      waif ∈ l.waifs ∨ waif = emptyWaif classId owner := by
    simpa using member
  refine ⟨fun waif member => ?_, fun waif member => ?_, fun waif member => ?_⟩
  · rcases cases' member with old | rfl
    · exact legible.clean waif old
    · exact clean_zero
  · rcases cases' member with old | rfl
    · exact legible.unlinked waif old
    · rfl
  · rcases cases' member with old | rfl
    · exact (legible.within waif old).mono (by simp)
    · exact within_nil _

theorem readCreation_on (well : ReadsWell address read) (legible : Legible address l)
    (ran : readCreation read l = .ok l') :
    Legible address l' ∧ l.waifs.length < l'.waifs.length := by
  obtain ⟨⟨classId, l₁⟩, first, ran⟩ := bind_ok ran
  obtain ⟨⟨owner, l₂⟩, second, ran⟩ := bind_ok ran
  obtain ⟨⟨len, l₃⟩, third, ran⟩ := bind_ok ran
  obtain ⟨⟨⟨propvals, map⟩, l₄⟩, fourth, ran⟩ := bind_ok ran
  obtain ⟨l₅, fifth, ran⟩ := bind_ok ran
  cases ran
  have same : l₃.waifs = l.waifs :=
    (readNum_ok third).trans ((readNum_ok second).trans (readNum_ok first))
  have last := readStop_ok fifth
  obtain ⟨here, clean⟩ := readProperties_on well ((legible.same same).push classId owner) fourth
  have grown : l.waifs.length < l₅.waifs.length := by
    have := here.grown
    simp only [List.length_append, List.length_singleton, same] at this
    rw [last]
    omega
  have known := here.legible.same last
  refine ⟨⟨fun waif member => ?_, fun waif member => ?_, fun waif member => ?_⟩, ?_⟩
  · rcases List.mem_or_eq_of_mem_set member with old | rfl
    · exact known.clean waif old
    · exact clean
  · rcases List.mem_or_eq_of_mem_set member with old | rfl
    · exact known.unlinked waif old
    · rfl
  · rw [List.length_set]
    rcases List.mem_or_eq_of_mem_set member with old | rfl
    · exact known.within waif old
    · rw [last]
      exact here.within
  · rw [List.length_set]
    exact grown

theorem within_waif {count k : Nat} (low : k < count) :
    Within address count [(.waif (address k) : Value C)] := by
  intro u member
  rw [mem_waifsIn] at member
  have same : u = address k := by simpa [leavesOf, leaves] using member
  exact ⟨k, low, same⟩

theorem readWaif_on (well : ReadsWell address read) : ReadsWell address (readWaif read address) := by
  intro l value l' legible ran
  obtain ⟨⟨record, l₁⟩, first, ran⟩ := bind_ok ran
  have same := readRecord_ok first
  cases record with
  | reference index =>
      obtain ⟨l₂, second, ran⟩ := bind_ok ran
      have last := (readStop_ok second).trans same
      split at ran
      · rename_i low
        cases ran
        exact ⟨legible.same last, Nat.le_of_eq (by rw [last]), within_waif low⟩
      · cases ran
  | creation index =>
      simp only at ran
      split at ran
      · obtain ⟨l₂, second, ran⟩ := bind_ok ran
        cases ran
        obtain ⟨known, grown⟩ := readCreation_on well (legible.same same) second
        exact ⟨known, Nat.le_of_lt (same ▸ grown), within_waif grown⟩
      · cases ran
  | _ => cases ran

theorem within_leaf {count : Nat} {value : Value C} (leaf : ∀ u, .waif u ∉ leaves value) :
    Within address count [value] := by
  intro u member
  rw [mem_waifsIn, leavesOf, leavesOf, List.append_nil] at member
  exact absurd member (leaf u)

theorem waifsIn_single (items : List (Value C)) {value : Value C}
    (same : leaves value = leavesOf items) :
    waifsIn [value] = waifsIn items := by
  rw [waifsIn, leavesOf, leavesOf, List.append_nil, same]
  rfl

theorem dbioReadVar_on (fuel : Nat) : ReadsWell (C := C) address (dbioReadVar address fuel) := by
  induction fuel with
  | zero => exact fun _ _ _ _ ran => nomatch ran
  | succ fuel ih =>
      intro l value l' legible ran
      obtain ⟨⟨record, l₁⟩, first, ran⟩ := bind_ok ran
      have same := readRecord_ok first
      have known := legible.same same
      have flat {value : Value C} (leaf : ∀ u, .waif u ∉ leaves value) : ReadOn address l [value] l₁ :=
        ⟨known, Nat.le_of_eq (by rw [same]), within_leaf leaf⟩
      cases record with
      | clear =>
          cases ran
          exact flat (by simp [leaves])
      | float fnum =>
          cases ran
          exact flat (by simp [leaves])
      | other content =>
          cases ran
          exact flat (by simp [leaves])
      | list length =>
          obtain ⟨⟨items, l₂⟩, second, ran⟩ := bind_ok ran
          cases ran
          obtain ⟨legible', grown, within⟩ := readItems_on ih known second
          refine ⟨legible', same ▸ grown, ?_⟩
          rwa [Within, waifsIn_single items rfl]
      | map length =>
          obtain ⟨⟨items, l₂⟩, second, ran⟩ := bind_ok ran
          cases ran
          obtain ⟨legible', grown, within⟩ := readItems_on ih known second
          refine ⟨legible', same ▸ grown, ?_⟩
          rwa [Within, waifsIn_single items rfl]
      | anon =>
          obtain ⟨⟨oid, l₂⟩, second, ran⟩ := bind_ok ran
          cases ran
          have same' := (readNum_ok second).trans same
          exact ⟨legible.same same', Nat.le_of_eq (by rw [same']), within_leaf (by simp [leaves])⟩
      | waif =>
          obtain ⟨legible', grown, within⟩ := readWaif_on ih l₁ value l' known ran
          exact ⟨legible', same ▸ grown, within⟩
      | num n => cases ran
      | reference index => cases ran
      | creation index => cases ran
      | stop => cases ran

theorem readVars_legible {count : Nat} {file : List (Record C)} {roots : List (Value C)}
    (ran : readVars address count file = .ok (roots, l)) : Legible address l :=
  (readItems_on (dbioReadVar_on file.length) (by constructor <;> simp) ran).legible

end

/-! The check of one waif after the other. -/

section

variable {m m' : Memory C} {w : Address} {waif waif' : Waif C}

structure Checked (m : Memory C) (w : Address) (m' : Memory C) : Prop where
  loopless : Loopless m'
  definitions : m'.definitions = m.definitions
  waifPropdefs : m'.waifPropdefs = m.waifPropdefs
  propdefs : m'.propdefs = m.propdefs
  nextPropdefs : m'.nextPropdefs = m.nextPropdefs
  waifCount : m'.waifCount = m.waifCount
  others : ∀ v, v ≠ w → m'.waif v = m.waif v
  kept : (m'.waif w).isSome = true

theorem setWaif_checked (loopless : Loopless (m.setWaif w waif)) : Checked m w (m.setWaif w waif) :=
  ⟨loopless, rfl, rfl, rfl, rfl, rfl, fun v other => by rw [setWaif_apply, if_neg other],
    by rw [setWaif_apply, if_pos rfl]; rfl⟩

/-- The loop through a waif is broken where it is found, so that there is none after the check. -/
theorem checkWaif_checked (loopless : Loopless m) (found : m.waif w = some waif)
    (stocked : Stocked m waif') (alive : ∀ u ∈ containedIn m waif', (m.waif u).isSome = true)
    {waifs : Finset Address} (all : ∀ v, (m.waif v).isSome = true → v ∈ waifs) {count : Nat}
    (few : waifs.card ≤ count) :
    ∃ m', checkWaif (count + 1) w waif' m = .ok m' ∧ Checked m w m' := by
  have sound := loopless.toSound.hold found stocked alive
  have here : (m.setWaif w waif').waif w = some waif' := by rw [setWaif_apply, if_pos rfl]
  have self : contained (m.setWaif w waif') w = containedIn m waif' := by
    rw [contained_setWaif, if_pos rfl]
  obtain ⟨_, ranked⟩ := loopless.acyclic
  obtain ⟨rank, ranked, low⟩ :=
    @Ranked.bounded _ _ _ (ranked.mono (followed_subset m w)) waifs fun v u member =>
      all u (loopless.live v u (followed_subset m w v member))
  have alive' : ∀ u ∈ waifsIn (heldBy (m.setWaif w waif') waif'),
      ((m.setWaif w waif').waif u).isSome = true := fun u member =>
    sound.live w u (self ▸ member)
  obtain ⟨refers, searched⟩ := @Sound.ends _ _ w rank sound (followed_setWaif m w waif' ▸ ranked) count _
    alive' fun u member =>
      Nat.lt_of_lt_of_le (low u (all u (alive u member))) few
  rw [checkWaif]
  simp only [waifRefersTo_eq sound here, searched, bind, Except.bind]
  cases refers with
  | false =>
      have away := sound.missed alive' searched
      rw [followed_setWaif] at away
      exact ⟨_, rfl, setWaif_checked (loopless.toSound.hold_away ranked found stocked alive away)⟩
  | true =>
      have enough := (sound.stocked w waif' here).enough
      let gone : Waif C := { waif' with propdefs := none, propvals := none, classId := NOTHING }
      let freed := (waif'.propvals.getD []).take (countWaifPropvals (m.setWaif w waif') waif')
      have ran : invalidateWaif w waif' (m.setWaif w waif') =
          .ok (((m.setWaif w waif').setWaif w gone).free freed) := by
        rw [invalidateWaif, takeValues, if_pos enough, List.splitAt_eq]
        rfl
      obtain ⟨shrinks, empty⟩ := invalidateWaif_keeps sound here ran
      have loopless' : Loopless (((m.setWaif w waif').setWaif w gone).free freed) := by
        refine ⟨shrinks.sound sound, rank, ranked.mono fun v => ?_⟩
        by_cases same : v = w
        · rw [same, empty]
          exact List.nil_subset _
        · refine List.Subset.trans (shrinks.fewer v) ?_
          rw [contained_elsewhere m w waif' same]
          exact List.Subset.refl _
      refine ⟨_, ran, loopless', rfl, rfl, rfl, rfl, rfl, fun v other => ?_, ?_⟩
      · exact ((setWaif_apply _ w gone v).trans (if_neg other)).trans
          ((setWaif_apply m w waif' v).trans (if_neg other))
      · exact congrArg Option.isSome ((setWaif_apply _ w gone w).trans (if_pos rfl))

/-! The loop over the waifs. -/

variable {address : Nat → Address} {waifs : List (Waif C)}

/-- For each waif of a class the file has as many values as the class calls for. -/
def Complete (m : Memory C) (waifs : List (Waif C)) : Prop :=
  ∀ waif ∈ waifs, ∀ names, m.definitions waif.classId = some names →
    countPropvals names.length waif.map ≤ (waif.propvals.getD []).length

def Apart (address : Nat → Address) (count : Nat) : Prop :=
  ∀ i j, i < count → j < count → address i = address j → i = j

structure Linking (address : Nat → Address) (waifs : List (Waif C)) (rest : List Nat)
    (m : Memory C) : Prop where
  loopless : Loopless m
  consistent : Consistent m
  complete : Complete m waifs
  waifCount : m.waifCount = waifs.length
  there : ∀ v, (m.waif v).isSome = true ↔ ∃ k, k < waifs.length ∧ v = address k
  waiting : ∀ i ∈ rest, ∃ waif, waifs[i]? = some waif ∧ m.waif (address i) = some waif
  nodup : rest.Nodup

theorem Linking.next {rest : List Nat} {i : Nat} (apart : Apart address waifs.length)
    (linking : Linking address waifs (i :: rest) m) (loopless : Loopless m')
    (consistent : Consistent m') (definitions : m'.definitions = m.definitions)
    (waifCount : m'.waifCount = m.waifCount)
    (others : ∀ v, v ≠ address i → m'.waif v = m.waif v)
    (kept : (m'.waif (address i)).isSome = true) : Linking address waifs rest m' := by
  obtain ⟨absent, nodup⟩ := List.nodup_cons.mp linking.nodup
  obtain ⟨waif, here, found⟩ := linking.waiting i List.mem_cons_self
  refine ⟨loopless, consistent, ?_, waifCount.trans linking.waifCount, fun v => ?_, fun j member => ?_,
    nodup⟩
  · rw [Complete, definitions]
    exact linking.complete
  · rw [← linking.there v]
    by_cases same : v = address i
    · rw [same, kept, found]
      rfl
    · rw [others v same]
  · obtain ⟨other, there, known⟩ := linking.waiting j (List.mem_cons_of_mem _ member)
    refine ⟨other, there, ?_⟩
    rw [others, known]
    intro same
    have both := apart j i (List.getElem?_eq_some_iff.mp there).1
      (List.getElem?_eq_some_iff.mp here).1 same
    exact absent (both ▸ member)

theorem linkWaif_links (apart : Apart address waifs.length) (clean : ∀ waif ∈ waifs, Clean waif.map)
    (within : ∀ waif ∈ waifs, Within address waifs.length (waif.propvals.getD []))
    {rest : List Nat} {i : Nat} (linking : Linking address waifs (i :: rest) m) :
    ∃ m', linkWaif (m.waifCount + 1) (address i) m = .ok m' ∧ Linking address waifs rest m' := by
  obtain ⟨waif, here, found⟩ := linking.waiting i List.mem_cons_self
  have member : waif ∈ waifs := List.mem_of_getElem? here
  rw [linkWaif, Memory.dereference, found]
  simp only [bind, Except.bind]
  cases valid : m.definitions waif.classId with
  | none =>
      exact ⟨m, rfl, linking.next apart linking.loopless linking.consistent rfl rfl (fun _ _ => rfl)
        (by rw [found]; rfl)⟩
  | some names =>
      obtain ⟨p, m₁, current, names', used, waifs', definitions, waifCount, _, _, consistent⟩ :=
        currentPropdefs_spec linking.consistent valid
      have shrinks := (currentPropdefs_keeps linking.loopless.toSound current).1
      simp only [current]
      rw [← waifs'] at found
      have count : countWaifPropvals m₁ { waif with propdefs := some p } =
          countPropvals names.length waif.map := by
        rw [countWaifPropvals, ← names']
      have enough := linking.complete waif member names valid
      have inside : ∀ u ∈ containedIn m₁ { waif with propdefs := some p },
          (m₁.waif u).isSome = true := by
        intro u contains
        have listed := containedIn_subset m₁ { waif with propdefs := some p } contains
        obtain ⟨k, low, rfl⟩ := within waif member u listed
        rw [waifs']
        exact (linking.there _).mpr ⟨k, low, rfl⟩
      have all : ∀ v, (m₁.waif v).isSome = true →
          v ∈ (Finset.range waifs.length).image address := by
        intro v alive
        rw [waifs'] at alive
        obtain ⟨k, low, rfl⟩ := (linking.there v).mp alive
        exact Finset.mem_image_of_mem _ (Finset.mem_range.mpr low)
      have few : ((Finset.range waifs.length).image address).card ≤ m.waifCount := by
        rw [linking.waifCount]
        exact Finset.card_image_le.trans (Nat.le_of_eq (Finset.card_range _))
      have stocked : Stocked m₁ { waif with propdefs := some p } :=
        ⟨clean waif member, fun q linked => Option.some.inj linked ▸ used, count ▸ enough⟩
      obtain ⟨m', ran, checked⟩ := checkWaif_checked (shrinks.loopless linking.loopless) found stocked
        inside all few
      refine ⟨m', ran, linking.next apart checked.loopless ⟨?_, ?_⟩
        (checked.definitions.trans definitions) (checked.waifCount.trans waifCount) ?_ checked.kept⟩
      · rw [checked.definitions]
        exact consistent.nothing
      · rw [checked.definitions, checked.waifPropdefs, checked.propdefs, checked.nextPropdefs]
        exact consistent.cached
      · intro v other
        rw [checked.others v other, waifs']

theorem allocate_linking {count : Nat} {file : List (Record C)} {roots : List (Value C)}
    {l : Loading C} (read : readVars address count file = .ok (roots, l))
    (apart : Apart address l.waifs.length) (fresh : ∀ c, m.waifPropdefs c = none)
    (nothing : m.definitions NOTHING = none) (complete : Complete m l.waifs) :
    Linking address l.waifs (List.range l.waifs.length) (allocate address l.waifs m) := by
  have legible := readVars_legible read
  have indices : ((List.range l.waifs.length).map address).Nodup := by
    refine List.nodup_range.map_on fun i low j low' same => ?_
    exact apart i j (List.mem_range.mp low) (List.mem_range.mp low') same
  have place (k : Nat) (low : k < l.waifs.length) :
      (allocate address l.waifs m).waif (address k) = l.waifs[k]? := by
    have index := indices.idxOf_getElem k (by simpa using low)
    rw [List.getElem_map, List.getElem_range] at index
    exact congrArg (fun i => l.waifs[i]?) index
  have found (v : Address) (waif : Waif C) (here : (allocate address l.waifs m).waif v = some waif) :
      waif ∈ l.waifs ∧ ∃ k, k < l.waifs.length ∧ v = address k := by
    have member := List.mem_of_getElem? here
    refine ⟨member, ?_⟩
    obtain ⟨low, _⟩ := List.getElem?_eq_some_iff.mp here
    have inside : v ∈ (List.range l.waifs.length).map address := by
      by_contra outside
      rw [List.idxOf_eq_length outside, List.length_map, List.length_range] at low
      exact Nat.lt_irrefl _ low
    obtain ⟨k, range, same⟩ := List.mem_map.mp inside
    exact ⟨k, List.mem_range.mp range, same.symm⟩
  have empty (v : Address) : contained (allocate address l.waifs m) v = [] := by
    cases known : (allocate address l.waifs m).waif v with
    | none => exact contained_none known
    | some waif =>
        rw [contained_eq known]
        exact containedIn_unlinked _ (legible.unlinked waif (found v waif known).1)
  refine ⟨⟨⟨fun c p here => ?_, fun v waif known => ?_, fun v u member => ?_⟩, fun _ => 0,
    fun v u member => ?_⟩, ⟨nothing, fun c names p _ here => ?_⟩, complete, rfl, fun v => ?_,
    fun i member => ?_, List.nodup_range⟩
  · exact nomatch (fresh c).symm.trans here
  · have unlinked := legible.unlinked waif (found v waif known).1
    refine ⟨legible.clean waif (found v waif known).1, fun p linked => ?_, ?_⟩
    · exact nomatch unlinked.symm.trans linked
    · rw [countWaifPropvals, unlinked]
      exact Nat.zero_le _
  · rw [empty] at member
    cases member
  · rw [empty] at member
    cases member
  · exact nomatch (fresh c).symm.trans here
  · constructor
    · intro alive
      obtain ⟨waif, known⟩ := Option.isSome_iff_exists.mp alive
      exact (found v waif known).2
    · rintro ⟨k, low, rfl⟩
      rw [place k low, List.getElem?_eq_getElem low]
      rfl
  · have low := List.mem_range.mp member
    refine ⟨l.waifs[i], List.getElem?_eq_getElem low, ?_⟩
    rw [place i low, List.getElem?_eq_getElem low]

/-- All the waifs of a file are linked, and none contains itself after that. -/
theorem waifAfterLoading_links {count : Nat} {file : List (Record C)} {roots : List (Value C)}
    {l : Loading C} (read : readVars address count file = .ok (roots, l))
    (apart : Apart address l.waifs.length) (fresh : ∀ c, m.waifPropdefs c = none)
    (nothing : m.definitions NOTHING = none) (complete : Complete m l.waifs) :
    ∃ m', loadWaifs address count file m = .ok (roots, m') ∧ Loopless m' := by
  have legible := readVars_legible read
  obtain ⟨m', ran, linking⟩ := foldlM_total (Linking address l.waifs)
    (fun i rest before linking => linkWaif_links apart legible.clean legible.within linking)
    (allocate_linking read apart fresh nothing complete)
  refine ⟨m', ?_, linking.loopless⟩
  have loaded : waifAfterLoading address (allocate address l.waifs m) = .ok m' := ran
  rw [loadWaifs, read]
  simp only [bind, Except.bind, loaded]
  rfl

end

end ToastStunt.Waifs
