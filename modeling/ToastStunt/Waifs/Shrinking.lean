import ToastStunt.Waifs.Access
import ToastStunt.Waifs.Contents

/-!
`update_waif_propdefs` never gives a waif a value that it did not have, whatever the class has
been through in the meantime.
-/

namespace ToastStunt.Waifs

open Packing FirstVisit

variable {C : Type}

/-- No waif contains anything that it did not contain. -/
structure Shrinks (m m' : Memory C) : Prop where
  fewer : ∀ v, contained m' v ⊆ contained m v
  alive : ∀ v, (m'.waif v).isSome = (m.waif v).isSome
  cached : ∀ c p, m'.waifPropdefs c = some p → p < m'.nextPropdefs
  stocked : ∀ w waif, m'.waif w = some waif → Stocked m' waif

section

variable {m m' m'' : Memory C} {w : Address} {waif : Waif C}

theorem Sound.same (sound : Sound m) : Shrinks m m :=
  ⟨fun _ => List.Subset.refl _, fun _ => rfl, sound.cached, sound.stocked⟩

theorem Shrinks.sound (shrinks : Shrinks m m') (sound : Sound m) : Sound m' := by
  refine ⟨shrinks.cached, shrinks.stocked, fun w u member => ?_⟩
  rw [shrinks.alive]
  exact sound.live w u (shrinks.fewer w member)

theorem Shrinks.trans (first : Shrinks m m') (second : Shrinks m' m'') : Shrinks m m'' :=
  ⟨fun v => List.Subset.trans (second.fewer v) (first.fewer v),
    fun v => (second.alive v).trans (first.alive v), second.cached, second.stocked⟩

theorem Shrinks.ranked {rank : Address → Nat} (shrinks : Shrinks m m')
    (ranked : Ranked (contained m) rank) : Ranked (contained m') rank := ranked.mono shrinks.fewer

theorem Shrinks.free (shrinks : Shrinks m m') (values : List (Value C)) :
    Shrinks m (m'.free values) :=
  ⟨shrinks.fewer, shrinks.alive, shrinks.cached, fun w waif found =>
    ⟨(shrinks.stocked w waif found).clean, (shrinks.stocked w waif found).used,
      (shrinks.stocked w waif found).enough⟩⟩

theorem Sound.setWaif_stocked (sound : Sound m) {waif' : Waif C} (stocked : Stocked m waif')
    {v : Address} {other : Waif C} (found : (m.setWaif w waif').waif v = some other) :
    Stocked (m.setWaif w waif') other := by
  have kept : Stocked m other := by
    rw [setWaif_apply] at found
    split at found
    · rwa [← Option.some.inj found]
    · exact sound.stocked v other found
  exact ⟨kept.clean, kept.used, kept.enough⟩

theorem Sound.setWaif (sound : Sound m) (found : m.waif w = some waif) {waif' : Waif C}
    (stocked : Stocked m waif') (fewer : containedIn m waif' ⊆ containedIn m waif) :
    Shrinks m (m.setWaif w waif') := by
  refine ⟨fun v => ?_, fun v => ?_, sound.cached, fun v other => sound.setWaif_stocked stocked⟩
  · rw [contained_setWaif]
    split
    · rename_i here
      rw [here, contained_eq found]
      exact fewer
    · exact List.Subset.refl _
  · rw [setWaif_apply]
    split
    · rename_i here
      rw [here, found]
      rfl
    · rfl

theorem currentPropdefs_keeps (sound : Sound m) {c : Int} {names : List Nat} {p : Nat}
    (current : currentPropdefs c names m = (p, m')) :
    Shrinks m m' ∧ m'.waif = m.waif ∧ p < m'.nextPropdefs ∧ m.nextPropdefs ≤ m'.nextPropdefs ∧
      ∀ q, q < m.nextPropdefs → m'.propdefs q = m.propdefs q := by
  rw [currentPropdefs] at current
  cases known : m.waifPropdefs c with
  | some q =>
      rw [known] at current
      cases current
      exact ⟨sound.same, rfl, sound.cached c p known, Nat.le_refl _, fun _ _ => rfl⟩
  | none =>
      rw [known] at current
      cases current
      have others : ∀ q, q < m.nextPropdefs → (genWaifPropdefs c names m).propdefs q = m.propdefs q :=
        fun q used => Function.update_of_ne (Nat.ne_of_lt used) _ _
      have lengths (waif : Waif C) (stocked : Stocked m waif) (p : Nat)
          (linked : waif.propdefs = some p) :
          ((genWaifPropdefs c names m).propdefs p).length = (m.propdefs p).length :=
        congrArg List.length (others p (stocked.used p linked))
      refine ⟨⟨fun v => ?_, fun _ => rfl, fun d q cached => ?_, fun v waif found => ?_⟩, rfl,
        Nat.lt_succ_self _, Nat.le_succ _, others⟩
      · cases found : m.waif v with
        | none =>
            rw [contained_none (m := genWaifPropdefs c names m) found]
            exact List.nil_subset _
        | some waif =>
            rw [contained_eq (m := genWaifPropdefs c names m) found, contained_eq found,
              (containedIn_congr (lengths waif (sound.stocked v waif found))).2]
            exact List.Subset.refl _
      · by_cases here : d = c
        · subst here
          have this : some m.nextPropdefs = some q := by simpa [genWaifPropdefs] using cached
          cases this
          exact Nat.lt_succ_self _
        · have before : m.waifPropdefs d = some q := by simpa [genWaifPropdefs, here] using cached
          exact Nat.lt_succ_of_lt (sound.cached d q before)
      · have stocked := sound.stocked v waif found
        refine ⟨stocked.clean, fun p linked => Nat.lt_succ_of_lt (stocked.used p linked), ?_⟩
        rw [(containedIn_congr (lengths waif stocked)).1]
        exact stocked.enough

end

/-! The loop over the definitions. -/

theorem takeValues_ok {n : Nat} {values front back : List (Value C)}
    (taken : takeValues n values = .ok (front, back)) :
    front = values.take n ∧ back = values.drop n := by
  rw [takeValues] at taken
  split at taken
  · rw [List.splitAt_eq] at taken
    cases taken
    exact ⟨rfl, rfl⟩
  · cases taken

theorem takeValues_length {n : Nat} {values front back : List (Value C)}
    (taken : takeValues n values = .ok (front, back)) : front.length = n := by
  rw [takeValues] at taken
  split at taken
  · rename_i enough
    rw [List.splitAt_eq] at taken
    cases taken
    exact List.length_take_of_le enough
  · cases taken

theorem mem_take_of_drop {value : Value C} {values : List (Value C)} {n k : Nat}
    (member : value ∈ (values.drop n).take k) : value ∈ values.take (n + k) := by
  rw [List.take_drop] at member
  exact List.mem_of_mem_drop member

theorem transfer_kept {map : PropMap} {idx : Nat} {a b : List Nat} {ov xfer freed : List (Value C)}
    (ran : transfer map idx a b ov = .ok (xfer, freed)) :
    xfer.length = b.length ∧
      ∀ value ∈ xfer, value = .clear ∨ value ∈ ov.take (rank (allocated map) idx a.length) := by
  induction b generalizing idx a ov xfer freed with
  | nil =>
      rw [transfer] at ran
      obtain ⟨_, _, ran⟩ := Failing.bind_ok ran
      cases ran
      exact ⟨rfl, by rintro _ ⟨⟩⟩
  | cons name b ih =>
      rw [transfer] at ran
      split at ran
      · rename_i member
        obtain ⟨⟨skipped, ov₁⟩, first, ran⟩ := Failing.bind_ok ran
        obtain ⟨⟨copied, ov₂⟩, second, ran⟩ := Failing.bind_ok ran
        obtain ⟨⟨rest, later⟩, third, ran⟩ := Failing.bind_ok ran
        cases ran
        obtain ⟨_, rfl⟩ := takeValues_ok first
        obtain ⟨rfl, rfl⟩ := takeValues_ok second
        obtain ⟨size, kept⟩ := ih third
        have inside := List.idxOf_lt_length_of_mem member
        generalize a.idxOf name = k at *
        have whole : rank (allocated map) idx a.length = rank (allocated map) idx k +
            (rank (allocated map) (idx + k) 1 +
              rank (allocated map) (idx + k + 1) (a.drop (k + 1)).length) := by
          rw [List.length_drop, ← rank_add, ← rank_add]
          congr 1
          omega
        refine ⟨by rw [List.length_cons, size, List.length_cons], fun value there => ?_⟩
        rw [whole]
        rcases List.mem_cons.mp there with rfl | there
        · cases front : (List.take (rank (allocated map) (idx + k) 1)
              (ov.drop (rank (allocated map) idx k))) with
          | nil => exact .inl rfl
          | cons value more =>
              refine .inr (mem_take_of_drop ?_)
              rw [List.take_add, front]
              simp
        · rcases kept value there with rfl | there
          · exact .inl rfl
          · exact .inr (mem_take_of_drop (mem_take_of_drop there))
      · obtain ⟨⟨rest, later⟩, third, ran⟩ := Failing.bind_ok ran
        cases ran
        obtain ⟨size, kept⟩ := ih third
        refine ⟨by rw [List.length_cons, size, List.length_cons], fun value there => ?_⟩
        rcases List.mem_cons.mp there with rfl | there
        · exact .inl rfl
        · exact kept value there

theorem rank_allocated_le {map : PropMap} (clean : Clean map) (length : Nat) :
    rank (allocated map) 0 length ≤ countPropvals length map := by
  rw [countPropvals, countMapped_eq clean]
  by_cases short : length ≤ nMappableProps
  · obtain ⟨more, split⟩ := Nat.exists_eq_add_of_le short
    have same : rank (allocated map) 0 length = rank (propMapped map) 0 length := by
      refine rank_congr fun j _ high => ?_
      have inside : ¬nMappableProps ≤ j := by omega
      simp [allocated, inside]
    rw [same, split, rank_add]
    omega
  · obtain ⟨more, rfl⟩ := Nat.exists_eq_add_of_le (Nat.le_of_not_le short)
    have same : rank (allocated map) 0 nMappableProps = rank (propMapped map) 0 nMappableProps := by
      refine rank_congr fun j _ high => ?_
      have inside : ¬nMappableProps ≤ j := by omega
      simp [allocated, inside]
    have rest := @rank_le (allocated map) (0 + nMappableProps) more
    rw [rank_add, same]
    omega

section

variable {m m' : Memory C} {w : Address} {waif : Waif C}

theorem invalidateWaif_keeps (sound : Sound m) (found : m.waif w = some waif)
    (ran : invalidateWaif w waif m = .ok m') : Shrinks m m' ∧ contained m' w = [] := by
  obtain ⟨⟨values, _⟩, _, ran⟩ := Failing.bind_ok ran
  cases ran
  let waif' : Waif C := { waif with propdefs := none, propvals := none, classId := NOTHING }
  have empty : containedIn m waif' = [] := containedIn_unlinked m rfl
  have stocked : Stocked m waif' := ⟨(sound.stocked w waif found).clean, nofun, Nat.zero_le _⟩
  refine ⟨(sound.setWaif found stocked (empty ▸ List.nil_subset _)).free values, ?_⟩
  have here := contained_setWaif m w waif' w
  rw [if_pos rfl, empty] at here
  exact here

theorem Sound.blank (sound : Sound m) (found : m.waif w = some waif) {p : Nat}
    (used : p < m.nextPropdefs) {waif' : Waif C} (linked : waif'.propdefs = some p)
    (map : waif'.map = waif.map)
    (array : waif'.propvals = allocWaifPropvals (m.propdefs p).length waif.map) :
    Shrinks m (m.setWaif w waif') := by
  have count : countWaifPropvals m waif' = countPropvals (m.propdefs p).length waif.map := by
    rw [countWaifPropvals, linked, map]
  refine sound.setWaif found ⟨map ▸ (sound.stocked w waif found).clean, fun q here => ?_, ?_⟩ ?_
  · obtain rfl := Option.some.inj (linked.symm.trans here)
    exact used
  · rw [count, array, allocWaifPropvals_values, List.length_replicate]
  · refine waifsIn_subset fun value member => .inl ?_
    have inside := List.mem_of_mem_take member
    rw [array, allocWaifPropvals_values] at inside
    exact List.eq_of_mem_replicate inside

theorem Sound.repacked (sound : Sound m) (found : m.waif w = some waif) {p : Nat}
    (used : p < m.nextPropdefs) {xfer : List (Value C)} (size : xfer.length = (m.propdefs p).length)
    (kept : ∀ value ∈ xfer, value = .clear ∨ value ∈ heldBy m waif) :
    Shrinks m (m.setWaif w (repack xfer { waif with propdefs := some p })) := by
  have packed := (repack_packed xfer { waif with propdefs := some p }).1
  rw [size] at packed
  have linked : (repack xfer { waif with propdefs := some p }).propdefs = some p := rfl
  have values := repack_values xfer { waif with propdefs := some p }
  generalize repack xfer { waif with propdefs := some p } = waif' at *
  refine sound.setWaif found ⟨packed.clean, fun q here => ?_, ?_⟩
    (waifsIn_subset fun value member => ?_)
  · obtain rfl := Option.some.inj (linked.symm.trans here)
    exact used
  · rw [countWaifPropvals, linked]
    exact Nat.le_of_eq packed.size.symm
  · have inside := List.mem_of_mem_take member
    rw [values] at inside
    exact kept value (mem_of_mem_pack inside)

theorem reconcile_keeps (sound : Sound m) (found : m.waif w = some waif) {p : Nat}
    (used : p < m.nextPropdefs) (ran : reconcile w waif p m = .ok m') : Shrinks m m' := by
  rw [reconcile] at ran
  have stocked := sound.stocked w waif found
  cases array : waif.propvals with
  | none =>
      simp only [array] at ran
      cases ran
      refine sound.blank found used ?_ ?_ ?_ <;> dsimp only
  | some ov =>
      simp only [array] at ran
      cases linked : waif.propdefs with
      | none =>
          simp only [linked] at ran
          cases ran
      | some old =>
          simp only [linked] at ran
          obtain ⟨⟨xfer, freed⟩, moved, ran⟩ := Failing.bind_ok ran
          cases ran
          obtain ⟨size, kept⟩ := transfer_kept moved
          refine (sound.repacked found used size fun value member => ?_).free freed
          refine (kept value member).imp_right fun there => ?_
          rw [heldBy, countWaifPropvals, linked, array]
          exact List.take_subset_take_left _ (rank_allocated_le stocked.clean _) there

theorem updateWaifPropdefs_keeps (sound : Sound m) (ran : updateWaifPropdefs w m = .ok m') :
    Shrinks m m' := by
  obtain ⟨waif, found, ran⟩ := Failing.bind_ok ran
  have known := dereference_ok found
  cases valid : m.definitions waif.classId with
  | none =>
      simp only [valid] at ran
      exact (invalidateWaif_keeps sound known ran).1
  | some names =>
      simp only [valid] at ran
      split at ran
      · cases ran
        exact sound.same
      · cases current : currentPropdefs waif.classId names m with
        | mk p m₁ =>
            rw [current] at ran
            obtain ⟨shrinks, waifs, used, _, _⟩ := currentPropdefs_keeps sound current
            exact shrinks.trans (reconcile_keeps (shrinks.sound sound) (waifs ▸ known) used ran)

end

end ToastStunt.Waifs
