import ToastStunt.Waifs.Assigning

/-!
`waif_bytes` comes to an end where no waif contains itself, although every waif that it meets is
updated on the way.
-/

namespace ToastStunt.Waifs

open Packing FirstVisit Failing

variable {C : Type}

def Ends {α : Type} (x : Except Crash α) : Prop := Avoids (fun e => e = .unbounded) x

theorem takeValues_bounded (n : Nat) (values : List (Value C)) : Ends (takeValues n values) := by
  rw [takeValues]
  split
  · exact Avoids.ok _
  · exact Avoids.error (by rintro ⟨⟩)

theorem dereference_bounded (m : Memory C) (w : Address) : Ends (m.dereference w) := by
  rw [Memory.dereference]
  split
  · exact Avoids.error (by rintro ⟨⟩)
  · exact Avoids.ok _

theorem transfer_bounded (map : PropMap) (idx : Nat) (a b : List Nat) (ov : List (Value C)) :
    Ends (transfer map idx a b ov) := by
  induction b generalizing idx a ov with
  | nil =>
      rw [transfer]
      exact Avoids.bind (takeValues_bounded _ _) fun _ _ => Avoids.ok _
  | cons name b ih =>
      rw [transfer]
      split
      · refine Avoids.bind (takeValues_bounded _ _) fun _ _ => ?_
        refine Avoids.bind (takeValues_bounded _ _) fun _ _ => ?_
        exact Avoids.bind (ih _ _ _) fun _ _ => Avoids.ok _
      · exact Avoids.bind (ih _ _ _) fun _ _ => Avoids.ok _

theorem reconcile_bounded (w : Address) (waif : Waif C) (p : Nat) (m : Memory C) :
    Ends (reconcile w waif p m) := by
  rw [reconcile]
  split
  · exact Avoids.ok _
  · split
    · exact Avoids.error (by rintro ⟨⟩)
    · exact Avoids.bind (transfer_bounded _ _ _ _ _) fun _ _ => Avoids.ok _

theorem updateWaifPropdefs_bounded (w : Address) (m : Memory C) : Ends (updateWaifPropdefs w m) := by
  refine Avoids.bind (dereference_bounded m w) fun waif _ => ?_
  split
  · exact Avoids.bind (takeValues_bounded _ _) fun _ _ => Avoids.ok _
  · split
    · exact Avoids.ok _
    · exact reconcile_bounded _ _ _ _

section

variable {rank : Address → Nat} {own : Value C → Nat}

/-- The walk comes to an end and only shrinks what the waifs contain. -/
def Walked (walk : Memory C → Except Crash (Nat × Memory C)) (m : Memory C) : Prop :=
  Ends (walk m) ∧ ∀ size m', walk m = .ok (size, m') → Shrinks m m'

theorem Walked.ok {m : Memory C} (sound : Sound m) (size : Nat) :
    Walked (fun m => .ok (size, m)) m := by
  refine ⟨Avoids.ok _, ?_⟩
  rintro _ _ ⟨⟩
  exact sound.same

theorem Walked.bind {walk : Memory C → Except Crash (Nat × Memory C)}
    (more : Nat → Memory C → Except Crash (Nat × Memory C)) {m : Memory C} (first : Walked walk m)
    (second : ∀ size m', Shrinks m m' → Walked (more size) m') :
    Walked (fun m => walk m >>= fun r => more r.1 r.2) m := by
  refine ⟨Avoids.bind first.1 fun r ran => (second r.1 r.2 (first.2 _ _ ran)).1, fun size m' ran => ?_⟩
  obtain ⟨⟨before, m₁⟩, one, ran⟩ := bind_ok ran
  exact (first.2 _ _ one).trans ((second _ _ (first.2 _ _ one)).2 _ _ ran)

theorem Walked.add {walk : Memory C → Except Crash (Nat × Memory C)} {m : Memory C} (sound : Sound m)
    (first : Walked walk m) (more : Nat) :
    Walked (fun m => walk m >>= fun r => .ok (more + r.1, r.2)) m :=
  Walked.bind (fun size m => .ok (more + size, m)) first fun size _ shrinks =>
    Walked.ok (shrinks.sound sound) (more + size)

variable {waifBytes : Address → Memory C → Except Crash (Nat × Memory C)}

mutual

theorem valueBytes_walked : ∀ (value : Value C) (m : Memory C), Sound m →
    Ranked (contained m) rank →
    (∀ u, .waif u ∈ leaves value → ∀ m', Shrinks m m' → Walked (waifBytes u) m') →
    Walked (valueBytes own waifBytes value) m
  | .list items, m, sound, ranked, below =>
      (itemsBytes_walked items m sound ranked below).add sound (own (.list items))
  | .map items, m, sound, ranked, below =>
      (itemsBytes_walked items m sound ranked below).add sound (own (.map items))
  | .waif u, m, sound, _, below =>
      (below u List.mem_cons_self m sound.same).add sound (own (.waif u))
  | .float _, _, sound, _, _ => Walked.ok sound _
  | .anon _, _, sound, _, _ => Walked.ok sound _
  | .clear, _, sound, _, _ => Walked.ok sound _
  | .other _, _, sound, _, _ => Walked.ok sound _

theorem itemsBytes_walked : ∀ (items : List (Value C)) (m : Memory C), Sound m →
    Ranked (contained m) rank →
    (∀ u, .waif u ∈ leavesOf items → ∀ m', Shrinks m m' → Walked (waifBytes u) m') →
    Walked (itemsBytes own waifBytes items) m
  | [], m, sound, _, _ => Walked.ok sound 0
  | value :: rest, m, sound, ranked, below => by
      have both : Walked (fun m => valueBytes own waifBytes value m >>= fun r =>
          itemsBytes own waifBytes rest r.2 >>= fun s => .ok (r.1 + s.1, s.2)) m := by
        refine Walked.bind
          (fun size m => itemsBytes own waifBytes rest m >>= fun s => .ok (size + s.1, s.2))
          (valueBytes_walked value m sound ranked fun u member =>
            below u (List.mem_append_left _ member)) fun size m₁ shrinks => ?_
        refine (itemsBytes_walked rest m₁ (shrinks.sound sound) (shrinks.ranked ranked)
          fun u member m' later => ?_).add (shrinks.sound sound) size
        exact below u (List.mem_append_right _ member) m' (shrinks.trans later)
      exact both

end

theorem leavesOf_reverse {leaf : Value C} {items : List (Value C)} :
    leaf ∈ leavesOf items.reverse ↔ leaf ∈ leavesOf items := by
  simp only [mem_leavesOf, List.mem_reverse]

theorem waifBytes_walked {fuel : Nat} {w : Address} {m : Memory C} (sound : Sound m)
    (ranked : Ranked (contained m) rank) (enough : rank w < fuel) :
    Walked (Waifs.waifBytes own fuel w) m := by
  induction fuel generalizing w m with
  | zero => omega
  | succ fuel ih =>
      have walked (m₁ : Memory C) (waif : Waif C) (shrinks : Shrinks m m₁)
          (found : m₁.waif w = some waif) :
          Walked (itemsBytes own (Waifs.waifBytes own fuel) (heldBy m₁ waif).reverse) m₁ := by
        refine itemsBytes_walked _ m₁ (shrinks.sound sound) (shrinks.ranked ranked)
          fun u member m' later => ih (later.sound (shrinks.sound sound))
            (later.ranked (shrinks.ranked ranked)) ?_
        have inside : u ∈ contained m₁ w :=
          contained_eq found ▸ mem_waifsIn.mpr (leavesOf_reverse.mp member)
        have below := ranked w u (shrinks.fewer w inside)
        omega
      refine ⟨?_, fun size m' ran => ?_⟩
      · refine Avoids.bind (updateWaifPropdefs_bounded w m) fun m₁ updated => ?_
        refine Avoids.bind (dereference_bounded m₁ w) fun waif found => ?_
        refine Avoids.bind (takeValues_bounded _ _) fun taken first => ?_
        have shrinks := updateWaifPropdefs_keeps sound updated
        obtain ⟨values, _⟩ := taken
        obtain ⟨rfl, _⟩ := takeValues_ok first
        exact Avoids.bind (walked m₁ waif shrinks (dereference_ok found)).1 fun _ _ => Avoids.ok _
      · obtain ⟨m₁, updated, ran⟩ := bind_ok ran
        obtain ⟨waif, found, ran⟩ := bind_ok ran
        obtain ⟨⟨values, _⟩, first, ran⟩ := bind_ok ran
        obtain ⟨⟨size, m₂⟩, counted, ran⟩ := bind_ok ran
        cases ran
        have shrinks := updateWaifPropdefs_keeps sound updated
        obtain ⟨rfl, _⟩ := takeValues_ok first
        exact shrinks.trans ((walked m₁ waif shrinks (dereference_ok found)).2 _ _ counted)

end

end ToastStunt.Waifs
