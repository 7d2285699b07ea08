import ToastStunt.Gc.Heap

/-!
A collection leaves nothing buffered and makes nothing purple.
-/

namespace ToastStunt.Gc

open Painting

variable {A : Type}

variable {values : Values A} {checked : Bool}

def NoPurple (s s' : Marks A) : Prop := ∀ a, s'.color a = .purple → s.color a = .purple

theorem NoPurple.refl (s : Marks A) : NoPurple s s := fun _ => id

theorem NoPurple.trans {s s' s'' : Marks A} (first : NoPurple s s') (second : NoPurple s' s'') :
    NoPurple s s'' := fun a purple => first a (second a purple)

variable [DecidableEq A]

theorem noPurple_set (s : Marks A) (v : A) {ink : Color} (other : ink ≠ .purple) :
    NoPurple s (s.set v ink) := by
  intro a purple
  by_cases same : a = v
  · simp [Canvas.set, same, other] at purple
  · simpa [Canvas.set, same] using purple

omit [DecidableEq A] in
theorem forVisible_noPurple {f : A → Marks A → Except Crash (Marks A)}
    (each : ∀ c s s', f c s = .ok s' → NoPurple s s') {items : List A} {s s' : Marks A}
    (ran : forVisible Canvas.color .green f items s = .ok s') : NoPurple s s' := by
  refine Failing.foldlM_invariant (NoPurple s) ?_ (NoPurple.refl s) ran
  intro c _ before after soFar step
  split at step
  · exact Except.ok.inj step ▸ soFar
  · exact soFar.trans (each c before after step)

theorem paint_noPurple {ink : Color} {d : BitVec 32} (other : ink ≠ .purple) {fuel : Nat} {v : A}
    {s s' : Marks A}
    (ran : paint values.contents .green ink d Crash.unbounded fuel v s = .ok s') : NoPurple s s' := by
  induction fuel generalizing v s s' with
  | zero => cases ran
  | succ fuel ih =>
      rw [paint] at ran
      refine (noPurple_set s v other).trans (forVisible_noPurple ?_ ran)
      intro c before after step
      split at step
      · exact fun a purple => ih step a purple
      · exact Except.ok.inj step ▸ fun a purple => purple

theorem scan_noPurple [Fintype A] {fuel : Nat} {v : A} {s s' : Marks A}
    (ran : scan values fuel v s = .ok s') : NoPurple s s' := by
  induction fuel generalizing v s s' with
  | zero => cases ran
  | succ fuel ih =>
      rw [scan] at ran
      split at ran
      · split at ran
        · exact paint_noPurple (by decide) ran
        · exact (noPurple_set s v (by decide)).trans
            (forVisible_noPurple (fun c before after step => ih step) ran)
      · exact Except.ok.inj ran ▸ NoPurple.refl s

structure Calmer (h h' : Heap A) : Prop where
  colors : NoPurple h.marks h'.marks
  buffered : ∀ a, h'.buffered a = true → h.buffered a = true

omit [DecidableEq A] in
theorem Calmer.refl (h : Heap A) : Calmer h h := ⟨NoPurple.refl _, fun _ => id⟩

omit [DecidableEq A] in
theorem Calmer.trans {h h' h'' : Heap A} (first : Calmer h h') (second : Calmer h' h'') :
    Calmer h h'' :=
  ⟨first.colors.trans second.colors, fun a on => first.buffered a (second.buffered a on)⟩

theorem clearBuffered_calmer (h : Heap A) (v : A) : Calmer h (h.clearBuffered v) := by
  refine ⟨NoPurple.refl _, fun a on => ?_⟩
  simp only [Heap.clearBuffered] at on
  split at on
  · cases on
  · exact on

omit [DecidableEq A] in
theorem onMarks_calmer {h h' : Heap A} {f : Marks A → Except Crash (Marks A)}
    (each : ∀ s s', f s = .ok s' → NoPurple s s') (ran : h.onMarks f = .ok h') :
    Calmer h h' ∧ h'.roots = h.roots ∧ ∃ s, f h.marks = .ok s ∧ h'.marks = s := by
  obtain ⟨s, step, same⟩ := Failing.bind_ok ran
  obtain rfl := Except.ok.inj same
  exact ⟨⟨each _ _ step, fun _ => id⟩, rfl, s, step, rfl⟩

omit [DecidableEq A] in
theorem auxFree_ok {v : A} {h h' : Heap A} (ran : auxFree values checked v h = .ok h') :
    h' = { h with freed := v :: h.freed } := by
  obtain ⟨_, _, same⟩ := Failing.bind_ok ran
  exact (Except.ok.inj same).symm

theorem queueAnonymousObject_calmer {v : A} {h h' : Heap A}
    (ran : queueAnonymousObject values checked v h = .ok h') :
    Calmer h h' ∧ h'.roots = h.roots := by
  obtain ⟨_, _, same⟩ := Failing.bind_ok ran
  obtain rfl := Except.ok.inj same
  exact ⟨⟨noPurple_set (h.marks.add v 1) v (by decide), fun _ => id⟩, rfl⟩

theorem collectWhite_calmer {fuel : Nat} {v : A} {h h' : Heap A}
    (ran : collectWhite values checked fuel v h = .ok h') : Calmer h h' ∧ h'.roots = h.roots := by
  induction fuel generalizing v h h' with
  | zero => cases ran
  | succ fuel ih =>
      rw [collectWhite] at ran
      split at ran
      · obtain ⟨middle, step, ran⟩ := Failing.bind_ok ran
        let start : Heap A := { h with marks := h.marks.set v .black }
        have below : Calmer start middle ∧ middle.roots = start.roots := by
          refine Failing.foldlM_invariant (fun h' => Calmer start h' ∧ h'.roots = start.roots) ?_
            ⟨Calmer.refl _, rfl⟩ step
          intro c _ before after soFar step
          split at step
          · exact Except.ok.inj step ▸ soFar
          · obtain ⟨calm, roots⟩ := ih step
            exact ⟨soFar.1.trans calm, roots.trans soFar.2⟩
        have first : Calmer h start := ⟨noPurple_set h.marks v (by decide), fun _ => id⟩
        split at ran
        · obtain ⟨_, _, ran⟩ := Failing.bind_ok ran
          obtain ⟨calm, roots⟩ := queueAnonymousObject_calmer ran
          exact ⟨(first.trans below.1).trans calm, roots.trans below.2⟩
        · obtain rfl := Except.ok.inj ran
          exact ⟨first.trans below.1, below.2⟩
      · obtain rfl := Except.ok.inj ran
        exact ⟨Calmer.refl h, rfl⟩

variable [Fintype A]

theorem markGray_grays {v : A} {s s' : Marks A} (ran : markGray values v s = .ok s') :
    NoPurple s s' ∧ (s.color v = .purple → s'.color v ≠ .purple) := by
  rw [markGray] at ran
  split at ran
  · refine ⟨paint_noPurple (by decide) ran, fun _ purple => ?_⟩
    rw [depth, paint] at ran
    have kept := forVisible_noPurple (s := s.set v .gray) ?_ ran v purple
    · simp [Canvas.set] at kept
    · intro c before after step
      split at step
      · exact fun a purple => paint_noPurple (by decide) step a purple
      · exact Except.ok.inj step ▸ fun a purple => purple
  · rename_i gray
    obtain rfl := Except.ok.inj ran
    refine ⟨NoPurple.refl s, fun purple => absurd purple ?_⟩
    rw [not_not.mp gray]
    decide

/-- Each root is removed or no longer purple. -/
structure RootsMarked (h h' : Heap A) (before rest : List A) : Prop where
  calmer : Calmer h h'
  kept : ∀ v ∈ before, v ∈ h'.roots
  colors : ∀ v ∈ rest, h'.marks.color v ≠ .purple
  removed : ∀ v ∈ rest, v ∈ h'.roots ∨ h'.buffered v = false

theorem markRoots_rootsMarked {before rest : List A} {h h' : Heap A}
    (ran : markRoots values checked before rest h = .ok h') : RootsMarked h h' before rest := by
  induction rest generalizing before h with
  | nil =>
      obtain rfl := Except.ok.inj ran
      exact ⟨⟨NoPurple.refl _, fun _ => id⟩, fun v member => by simpa using member, nofun, nofun⟩
  | cons v rest ih =>
      rw [markRoots] at ran
      split at ran
      · rename_i purple
        obtain ⟨middle, step, ran⟩ := Failing.bind_ok ran
        obtain ⟨calm, _, s, gray, same⟩ :=
          onMarks_calmer (fun s s' step => (markGray_grays step).1) step
        have marked := ih ran
        have gone : middle.marks.color v ≠ .purple := same ▸ (markGray_grays gray).2 purple
        refine ⟨calm.trans marked.calmer, fun u member => marked.kept u (by simp [member]), ?_, ?_⟩
        · intro u member
          rcases List.mem_cons.mp member with rfl | later
          · exact mt (marked.calmer.colors u) gone
          · exact marked.colors u later
        · intro u member
          rcases List.mem_cons.mp member with rfl | later
          · exact .inl (marked.kept u (by simp))
          · exact marked.removed u later
      · rename_i notPurple
        obtain ⟨freed, ran⟩ : ∃ freed, markRoots values checked before rest
            { h.clearBuffered v with freed } = .ok h' := by
          split at ran
          · obtain ⟨middle, step, ran⟩ := Failing.bind_ok ran
            rw [auxFree_ok step] at ran
            exact ⟨_, ran⟩
          · exact ⟨_, ran⟩
        have marked := ih ran
        have calm : Calmer h { h.clearBuffered v with freed } :=
          ⟨(clearBuffered_calmer h v).colors, (clearBuffered_calmer h v).buffered⟩
        refine ⟨calm.trans marked.calmer, marked.kept, ?_, ?_⟩
        · intro u member
          rcases List.mem_cons.mp member with rfl | later
          · exact mt (marked.calmer.colors u) notPurple
          · exact marked.colors u later
        · intro u member
          rcases List.mem_cons.mp member with rfl | later
          · right
            have off := mt (marked.calmer.buffered u) (by simp [Heap.clearBuffered])
            simpa using off
          · exact marked.removed u later

theorem collectRoots_calmer {rest : List A} {h h' : Heap A}
    (ran : collectRoots values checked rest h = .ok h') :
    Calmer h h' ∧ h'.roots = [] ∧ ∀ v ∈ rest, h'.buffered v = false := by
  induction rest generalizing h with
  | nil =>
      obtain rfl := Except.ok.inj ran
      exact ⟨⟨NoPurple.refl _, fun _ => id⟩, rfl, nofun⟩
  | cons v rest ih =>
      obtain ⟨middle, step, ran⟩ := Failing.bind_ok ran
      obtain ⟨later, roots, cleared⟩ := ih ran
      obtain ⟨calm, _⟩ := collectWhite_calmer step
      have first : Calmer h middle :=
        ⟨fun a purple => calm.colors a purple, fun a on =>
          (clearBuffered_calmer h v).buffered a (calm.buffered a on)⟩
      refine ⟨first.trans later, roots, fun u member => ?_⟩
      rcases List.mem_cons.mp member with rfl | other
      · have off := mt (fun on => calm.buffered u (later.buffered u on)) (by simp [Heap.clearBuffered])
        simpa using off
      · exact cleared u other

theorem gcCollect_clears {h h' : Heap A} (ran : gcCollect values checked h = .ok h') :
    h'.roots = [] ∧ Calmer h h' ∧
      ∀ v ∈ h.roots, h'.buffered v = false ∧ h'.marks.color v ≠ .purple := by
  rw [gcCollect] at ran
  split at ran
  · rename_i none
    obtain rfl := Except.ok.inj ran
    exact ⟨none, Calmer.refl h, by simp [none]⟩
  · obtain ⟨h₁, mark, ran⟩ := Failing.bind_ok ran
    obtain ⟨h₂, scanned, ran⟩ := Failing.bind_ok ran
    obtain ⟨h₃, restored, ran⟩ := Failing.bind_ok ran
    have marked := markRoots_rootsMarked mark
    have scanEach : ∀ s s', h₁.roots.foldlM (fun s v => scan values (depth A) v s) s = .ok s' →
        NoPurple s s' := by
      intro s s' step
      refine Failing.foldlM_invariant (NoPurple s) ?_ (NoPurple.refl s) step
      exact fun v _ before after soFar step => soFar.trans (scan_noPurple step)
    obtain ⟨scans, scanned, _⟩ := onMarks_calmer scanEach scanned
    have restoreEach : ∀ s s', h₂.roots.foldlM (fun s v =>
        if s.color v = .white then scanWhite values v s else .ok s) s = .ok s' →
        NoPurple s s' := by
      intro s s' step
      refine Failing.foldlM_invariant (NoPurple s) ?_ (NoPurple.refl s) step
      intro v _ before after soFar step
      split at step
      · exact soFar.trans (paint_noPurple (by decide) step)
      · exact Except.ok.inj step ▸ soFar
    obtain ⟨restores, restored, _⟩ := onMarks_calmer restoreEach restored
    obtain ⟨collects, roots, cleared⟩ := collectRoots_calmer ran
    have rest : Calmer h₁ h' := (scans.trans restores).trans collects
    refine ⟨roots, marked.calmer.trans rest, fun v root => ⟨?_, ?_⟩⟩
    · rcases marked.removed v root with kept | off
      · exact cleared v (by rw [restored, scanned]; exact kept)
      · have := mt (rest.buffered v) (by simp [off])
        simpa using this
    · exact mt (rest.colors v) (marked.colors v root)

end ToastStunt.Gc
