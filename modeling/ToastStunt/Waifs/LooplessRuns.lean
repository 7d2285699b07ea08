import ToastStunt.Library.Runs
import ToastStunt.Waifs.Unlooping
import ToastStunt.Waifs.Walking

/-!
A server that has loaded its waifs and runs: waifs are made, assigned to, brought up to date and
freed, and their classes change. In no state does a waif contain itself.
-/

namespace ToastStunt.Waifs

open Packing FirstVisit Failing Runs

variable {C : Type}

inductive Step : Memory C → Memory C → Prop where
  | made {m m' w classId owner} (fresh : m.waif w = none)
      (ran : newWaif w classId owner m = .ok m') : Step m m'
  /-- Any value there is may be assigned: what lists and maps are made of is not restricted. -/
  | put {m m' w lookups fuel name val progr result}
      (alive : ∀ u ∈ waifsIn [val], (m.waif u).isSome = true)
      (ran : waifPutProp lookups fuel w name val progr m = .ok (result, m')) : Step m m'
  /-- Reading a property, counting bytes and saving begin with this. -/
  | updated {m m' w} (ran : updateWaifPropdefs w m = .ok m') : Step m m'
  | freed {m m' w} (unused : ∀ v, w ∉ contained m v) (ran : freeWaif w m = .ok m') : Step m m'
  | reclassed {m m'} (reclassed : Reclassed m m') : Step m m'

def ContainsItself (m : Memory C) (w : Address) : Prop :=
  ∃ u ∈ contained m w, Reach (contained m) u w

/-- The search of `waif_put_prop` for any waif in any value gives an answer. -/
def SearchesEnd (m : Memory C) : Prop :=
  ∀ key (value : Value C), (∀ u, .waif u ∈ leaves value → (m.waif u).isSome = true) →
    ∃ fuel found, refersTo (waifRefersTo m key fuel) key value = .ok found

def WalksEnd (m : Memory C) : Prop := ∀ own w, ∃ fuel, Ends (waifBytes own fuel w m)

structure WithoutLoops (m : Memory C) : Prop where
  apart : ∀ w, ¬ContainsItself m w
  descents : WellFounded fun u w => u ∈ contained m w
  searches : SearchesEnd m
  walks : WalksEnd m

section

variable {m m' : Memory C}

theorem Step.loopless (step : Step m m') (loopless : Loopless m) : Loopless m' := by
  cases step with
  | made _ ran => exact loopless.newWaif ran
  | put alive ran => exact loopless.waifPutProp alive ran
  | updated ran => exact (updateWaifPropdefs_keeps loopless.toSound ran).loopless loopless
  | freed unused ran => exact loopless.freeWaif unused ran
  | reclassed reclassed => exact (reclassed.shrinks loopless.toSound).loopless loopless

theorem Loopless.withoutLoops (loopless : Loopless m) : WithoutLoops m := by
  obtain ⟨rank, ranked⟩ := loopless.acyclic
  refine ⟨fun w => ?_, ?_, fun key value alive => ?_, fun own w => ?_⟩
  · rintro ⟨u, member, back⟩
    exact ranked.no_return member back
  · exact Subrelation.wf (fun {u w} member => ranked w u member) (measure rank).wf
  · have bound : ∃ fuel, ∀ u ∈ waifsIn [value], rank u < fuel := by
      refine ⟨(waifsIn [value]).toFinset.sup rank + 1, fun u member => Nat.lt_succ_of_le ?_⟩
      exact Finset.le_sup (f := rank) (List.mem_toFinset.mpr member)
    obtain ⟨fuel, enough⟩ := bound
    have same {u : Address} (member : .waif u ∈ leaves value) : u ∈ waifsIn [value] := by
      rw [mem_waifsIn, leavesOf, leavesOf, List.append_nil]
      exact member
    obtain ⟨found, ran⟩ := @refersTo_ends _ (waifRefersTo m key fuel) key value
      fun u member other => waifRefersTo_ends loopless.toSound
        (ranked.mono (followed_subset m key)) (alive u member) other (enough u (same member))
    exact ⟨fuel, found, ran⟩
  · exact ⟨rank w + 1, (waifBytes_walked loopless.toSound ranked (Nat.lt_succ_self _)).1⟩

end

theorem waifs_without_loops {address : Nat → Address} {m : Memory C} {count : Nat}
    {file : List (Record C)} {roots : List (Value C)} {l : Loading C}
    (read : readVars address count file = .ok (roots, l))
    (apart : Apart address l.waifs.length) (fresh : ∀ c, m.waifPropdefs c = none)
    (nothing : m.definitions NOTHING = none) (complete : Complete m l.waifs) :
    ∃ loaded, loadWaifs address count file m = .ok (roots, loaded) ∧
      ∀ m', Reachable loaded Step m' → WithoutLoops m' := by
  obtain ⟨loaded, ran, loopless⟩ := waifAfterLoading_links read apart fresh nothing complete
  refine ⟨loaded, ran, fun m' reachable => Loopless.withoutLoops ?_⟩
  exact reachable.invariant Loopless loopless fun _ _ before step => step.loopless before

def classOf (count : Nat) : Memory Unit where
  definitions c := if c = 0 then some (List.range count) else none
  waifPropdefs _ := none
  propdefs _ := []
  nextPropdefs := 0
  waif _ := none
  waifCount := 0
  freed := []

def selfishFile : List (Record Unit) :=
  [.waif, .creation 0, .num 0, .num 0, .num 1, .num 0, .waif, .reference 0, .stop, .num (-1), .stop]

theorem selfishFile_loaded :
    ∃ roots loaded, loadWaifs (BitVec.ofNat 64) 1 selfishFile (classOf 1) = .ok (roots, loaded) ∧
      ∀ m', Reachable loaded Step m' → WithoutLoops m' := by
  obtain ⟨⟨roots, l⟩, read, checked⟩ := Failing.of_okAnd
    (x := readVars (BitVec.ofNat 64) 1 selfishFile)
    (p := fun r => r.2.waifs.length = 1 && r.2.waifs.all fun waif =>
      countPropvals 1 waif.map ≤ (waif.propvals.getD []).length) (by decide +kernel)
  simp only [Bool.and_eq_true, decide_eq_true_eq, List.all_eq_true] at checked
  have complete : Complete (classOf 1) l.waifs := by
    intro waif member names valid
    have one : names.length = 1 := by
      simp only [classOf, Option.ite_none_right_eq_some, Option.some.injEq] at valid
      rw [← valid.2]
      rfl
    rw [one]
    exact checked.2 waif member
  have apart : Apart (BitVec.ofNat 64) l.waifs.length := fun i j low low' _ => by omega
  obtain ⟨loaded, ran, run⟩ := waifs_without_loops read apart (fun _ => rfl) rfl complete
  exact ⟨roots, loaded, ran, run⟩

/-- A waif with no values of a class with one more definition than can be mapped. -/
def shortFile : List (Record Unit) :=
  [.waif, .creation 0, .num 0, .num 0, .num 0, .num (-1), .stop]

theorem shortFile_readsPast : ¬∀ roots l, readVars (BitVec.ofNat 64) 1 shortFile = .ok (roots, l) →
    ∃ loaded, loadWaifs (BitVec.ofNat 64) 1 shortFile (classOf 97) = .ok (roots, loaded) ∧
      ∀ m', Reachable loaded Step m' → WithoutLoops m' := by
  intro every
  obtain ⟨⟨roots, l⟩, read, _⟩ := Failing.of_okAnd
    (x := readVars (BitVec.ofNat 64) 1 shortFile) (p := fun _ => true) (by decide +kernel)
  obtain ⟨loaded, ran, _⟩ := every roots l read
  have past : okAnd (loadWaifs (BitVec.ofNat 64) 1 shortFile (classOf 97)) (fun _ => true) = false := by
    decide +kernel
  rw [ran] at past
  cases past

end ToastStunt.Waifs
