import ToastStunt.Db.SlotRenaming

/-!
Renumbering as the inheritance graph sees it, wherever the objects are and whoever
owns them: a database stripped of everything else is renumbered like the whole one.
-/

namespace ToastStunt

open FirstVisit

variable {V : Type}

/-- What is left: the number, the relations, and the verbs without their owners. -/
def Object.bare (o : Object V) : Object V :=
  { o with
    owner := NOTHING
    flags := ∅
    location := NOTHING
    contents := []
    propdefs := []
    propval := []
    verbdefs := o.verbdefs.map fun v => { v with owner := NOTHING } }

def Db.bare (s : Db V) : Db V :=
  { s with object := fun v => (s.object v).map Object.bare, allUsers := [] }

section Stripping

variable {s s' : Db V}

theorem bare_object {v : ObjVar} {o : Object V} (found : s.object v = some o) :
    s.bare.object v = some o.bare := by
  simp only [Db.bare, found, Option.map_some]

theorem bare_back {v : ObjVar} {q : Object V} (found : s.bare.object v = some q) :
    ∃ o, s.object v = some o ∧ q = o.bare := by
  obtain ⟨o, before, rfl⟩ := Option.map_eq_some_iff.mp found
  exact ⟨o, before, rfl⟩

theorem bare_graph (s : Db V) : SameGraph s s.bare where
  view v := by
    simp only [Db.bare, Option.map_map]
    rfl
  numObjects := rfl
  nextAnon := rfl
  index := rfl

theorem bare_modify {v : ObjVar} {f g : Object V → Object V} (same : ∀ o, g o.bare = (f o).bare)
    (changed : s.modify v f = .ok s') : s.bare.modify v g = .ok s'.bare := by
  obtain ⟨o, found, rfl⟩ := Db.modify_ok changed
  simp only [Db.modify, bare_object found, same]
  congr 1
  refine Db.ext ?_ rfl rfl rfl rfl
  funext w
  simp only [Db.setObject_object, Db.bare]
  split <;> rfl

theorem bare_unseen {v : ObjVar} {f : Object V → Object V} (changed : s.modify v f = .ok s')
    (same : ∀ o, (f o).bare = o.bare) : s'.bare = s.bare := by
  obtain ⟨o, found, rfl⟩ := Db.modify_ok changed
  refine Db.ext ?_ rfl rfl rfl rfl
  funext w
  simp only [Db.bare, Db.setObject_object]
  split
  · rename_i self
    rw [self, found, Option.map_some, Option.map_some, same]
  · rfl

theorem bare_foldlM {ι : Type} (step : Db V → ι → Except Crash (Db V)) {items : List ι}
    (steps : ∀ item before after, step before item = .ok after →
      step before.bare item = .ok after.bare) {s s' : Db V} (ran : items.foldlM step s = .ok s') :
    items.foldlM step s.bare = .ok s'.bare := by
  induction items generalizing s with
  | nil =>
      cases ran
      rfl
  | cons item rest ih =>
      obtain ⟨middle, first, later⟩ := Failing.foldlM_cons_ok ran
      rw [List.foldlM_cons, Failing.bind_of_ok (steps item s middle first)]
      exact ih later

end Stripping

section Renumber

variable {s s' : Db V} {old new : Int}

theorem bare_fixChildren (p : Int) (ran : fixChildren old new s p = .ok s') :
    fixChildren old new s.bare p = .ok s'.bare := by
  obtain ⟨o, found, ran⟩ := Failing.bind_ok ran
  obtain ⟨children, replaced, ran⟩ := Failing.bind_ok ran
  rw [Db.dereference_ok] at found
  rw [fixChildren, Failing.bind_of_ok (Db.dereference_ok.mpr (bare_object found)),
    Failing.bind_of_ok (show replaceFirst old new o.bare.children = .ok children from replaced)]
  exact bare_modify (fun _ => rfl) ran

theorem bare_fixParents (c : Int) (ran : fixParents old new s c = .ok s') :
    fixParents old new s.bare c = .ok s'.bare := by
  obtain ⟨o, found, ran⟩ := Failing.bind_ok ran
  rw [Db.dereference_ok] at found
  rw [fixParents, Failing.bind_of_ok (Db.dereference_ok.mpr (bare_object found))]
  have parents : o.bare.parents = o.parents := rfl
  rw [parents]
  split at ran
  · rename_i oids _
    obtain ⟨replacedOids, replaced, ran⟩ := Failing.bind_ok ran
    rw [Failing.bind_of_ok replaced]
    exact bare_modify (fun _ => rfl) ran
  · exact bare_modify (fun _ => rfl) ran

theorem bare_fixPlace (location : Int) (ran : fixPlace old new s location = .ok s') :
    s'.bare = s.bare := by
  unfold fixPlace at ran
  split at ran
  · cases ran
    rfl
  · obtain ⟨o, -, ran⟩ := Failing.bind_ok ran
    obtain ⟨contents, -, ran⟩ := Failing.bind_ok ran
    exact bare_unseen ran fun _ => rfl

theorem bare_fixLocations {things : List Int} (ran : things.foldlM (fixLocation new) s = .ok s') :
    s'.bare = s.bare := by
  refine Failing.foldlM_invariant (fun middle => middle.bare = s.bare) ?_ rfl ran
  intro thing _ before after same step
  exact (bare_unseen step fun _ => rfl).trans same

theorem bare_fixAnonParents (a : Nat) (ran : fixAnonParents old new s a = .ok s') :
    fixAnonParents old new s.bare a = .ok s'.bare :=
  bare_modify (fun _ => rfl) ran

theorem bare_changeIdentity (s : Db V) (old new : Int) (o : Object V) :
    changeIdentity s.bare old new o.bare = (changeIdentity s old new o).bare := by
  refine Db.ext ?_ rfl rfl rfl rfl
  funext w
  simp only [changeIdentity, Db.setObject_object, Db.bare]
  split
  · rfl
  · split <;> rfl

theorem bare_fixRelatives {o : Object V} (ran : fixRelatives s old new o = .ok s') :
    fixRelatives s.bare old new o.bare = .ok s'.bare := by
  obtain ⟨s1, above, ran⟩ := Failing.bind_ok ran
  obtain ⟨o1, found1, ran⟩ := Failing.bind_ok ran
  obtain ⟨s2, below, ran⟩ := Failing.bind_ok ran
  obtain ⟨s3, around, ran⟩ := Failing.bind_ok ran
  obtain ⟨o3, found3, ran⟩ := Failing.bind_ok ran
  obtain ⟨s4, inside, ran⟩ := Failing.bind_ok ran
  rw [Db.dereference_ok] at found1 found3
  have above' : o.bare.parents.named.foldlM (fixChildren old new) s.bare = .ok s1.bare :=
    bare_foldlM (fixChildren old new) (fun p _ _ => bare_fixChildren p) above
  have below' : o1.bare.children.foldlM (fixParents old new) s1.bare = .ok s2.bare :=
    bare_foldlM (fixParents old new) (fun c _ _ => bare_fixParents c) below
  have same : s4.bare = s2.bare := (bare_fixLocations inside).trans (bare_fixPlace _ around)
  have anons := bare_foldlM (fixAnonParents old new) (fun a _ _ => bare_fixAnonParents a) ran
  have around' : fixPlace old new s2.bare o1.bare.location = .ok s2.bare := rfl
  have inside' : o3.bare.contents.foldlM (fixLocation new) s2.bare = .ok s2.bare := rfl
  have found' : s2.bare.object (.obj new) = some o3.bare := by
    rw [← bare_fixPlace _ around]
    exact bare_object found3
  rw [fixRelatives, Failing.bind_of_ok above',
    Failing.bind_of_ok (Db.dereference_ok.mpr (bare_object found1)), Failing.bind_of_ok below',
    Failing.bind_of_ok around', Failing.bind_of_ok (Db.dereference_ok.mpr found'),
    Failing.bind_of_ok inside']
  have index : s2.bare.anonymousObjects = s4.anonymousObjects :=
    (show s4.bare.anonymousObjects = s2.bare.anonymousObjects by rw [same]).symm
  rw [index, ← same]
  exact anons

theorem bare_moveAnonIndex (s : Db V) (old new : Int) :
    moveAnonIndex s.bare old new = (moveAnonIndex s old new).bare := by
  have index : s.bare.anonymousObjects = s.anonymousObjects := rfl
  unfold moveAnonIndex
  rw [index]
  split <;> rfl

theorem bare_nobody (s : Db V) (oid : Int) : isUser s.bare oid = false := by
  unfold isUser
  split
  · rfl
  · rename_i q found
    obtain ⟨o, -, rfl⟩ := bare_back found
    simp [Object.bare]

theorem bare_fixUsers (s : Db V) (old new : Int) :
    fixUsers s.bare old new = (fixUsers s old new).bare := by
  rw [fixUsers, bare_nobody, if_neg Bool.false_ne_true]
  unfold fixUsers
  split
  · split <;> rfl
  · rfl

theorem renumberOwner_nothing (real : old ≠ NOTHING) : renumberOwner old new NOTHING = NOTHING := by
  unfold renumberOwner
  split
  · rfl
  · exact if_neg fun same => real same.symm

theorem bare_renumberOwners (real : old ≠ NOTHING) (o : Object V) :
    renumberOwners old new o.bare = (renumberOwners old new o).bare := by
  simp only [renumberOwners, Object.bare, renumberOwner_nothing real, List.map_map, List.map_nil,
    Function.comp_def]

theorem bare_renumberAnonOwners (real : old ≠ NOTHING) (o : Object V) :
    renumberAnonOwners old new o.bare = (renumberAnonOwners old new o).bare := by
  simp only [renumberAnonOwners, Object.bare, renumberOwner_nothing real, List.map_nil]

theorem bare_fixNumberedOwners (real : old ≠ NOTHING) (s : Db V) :
    fixNumberedOwners s.bare old new = (fixNumberedOwners s old new).bare := by
  refine Db.ext ?_ rfl rfl rfl rfl
  funext v
  cases v with
  | obj p =>
      simp only [fixNumberedOwners, Db.bare, Option.map_map, Function.comp_def,
        bare_renumberOwners real]
  | anon a => rfl

theorem bare_leastFree (s : Db V) (old : Int) : leastFree s.bare old = leastFree s old := by
  have valid : s.bare.valid = s.valid := (bare_graph s).valid
  rw [leastFree, leastFree, valid]

theorem bare_renumber (real : old ≠ NOTHING) (ran : dbRenumberObject s old = .ok (new, s')) :
    dbRenumberObject s.bare old = .ok (new, s'.bare) := by
  unfold dbRenumberObject at ran ⊢
  rw [bare_leastFree]
  cases least : leastFree s old with
  | none =>
      rw [least] at ran
      cases ran
      rfl
  | some free =>
      simp only [least] at ran ⊢
      obtain ⟨o, found, ran⟩ := Failing.bind_ok ran
      obtain ⟨s1, relatives, ran⟩ := Failing.bind_ok ran
      obtain ⟨s2, anons, ran⟩ := Failing.bind_ok ran
      cases ran
      rw [Db.dereference_ok] at found
      have relatives' := bare_fixRelatives relatives
      rw [← bare_changeIdentity] at relatives'
      rw [Failing.bind_of_ok (Db.dereference_ok.mpr (bare_object found)),
        Failing.bind_of_ok relatives', bare_moveAnonIndex, bare_fixUsers,
        bare_fixNumberedOwners real]
      have anons' := bare_foldlM
        (fun s a => s.modify (.anon a) (renumberAnonOwners old free))
        (fun a _ _ step => bare_modify (bare_renumberAnonOwners real) step) anons
      exact Failing.bind_of_ok anons' _

def NamedOnce (s : Db V) (oid : Int) : Prop :=
  ∀ c q, s.object (.obj c) = some q → (enlistVar q.parents).count oid ≤ 1

theorem bare_consistent (graph : WellFormed s) : Consistent s.bare where
  graph := (bare_graph s).wellFormed graph
  located c q found away := by
    obtain ⟨o, -, rfl⟩ := bare_back found
    exact absurd rfl away
  contained p l found c member := by
    obtain ⟨o, -, rfl⟩ := bare_back found
    cases member
  contentsNodup p l found := by
    obtain ⟨o, -, rfl⟩ := bare_back found
    exact List.nodup_nil
  notInItself p l found := by
    obtain ⟨o, before, rfl⟩ := bare_back found
    have real := graph.not_nothing (Db.valid_iff.mpr ⟨o, before⟩)
    exact fun same => real same.symm
  nowhere a q found := by
    obtain ⟨o, -, rfl⟩ := bare_back found
    exact ⟨rfl, rfl⟩
  users oid := by
    rw [bare_nobody]
    exact ⟨nofun, nofun⟩
  usersNodup := List.nodup_nil

/-- Where nobody names the object twice, renumbering renames the bare database. -/
theorem renumber_bare (graph : WellFormed s) (valid : s.valid old = true)
    (once : leastFree s old ≠ none → NamedOnce s old)
    (ran : dbRenumberObject s old = .ok (new, s')) :
    new = old ∧ s' = s ∨ ∃ o, Moving s.bare old new o ∧ s'.bare = renamed old new s.bare := by
  have real := graph.not_nothing valid
  obtain ⟨o, found⟩ := Db.valid_iff.mp valid
  cases least : leastFree s old with
  | none =>
      unfold dbRenumberObject at ran
      rw [least] at ran
      cases ran
      exact Or.inl ⟨rfl, rfl⟩
  | some free =>
      right
      have ranBare := bare_renumber real ran
      have leastBare : leastFree s.bare old = some free := (bare_leastFree s old).trans least
      obtain ⟨leastN, below, absent⟩ := leastFree_some leastBare
      have moving : Moving s.bare old free o.bare :=
        ⟨bare_consistent graph, bare_object found, absent, by omega, below⟩
      have validBare : s.bare.valid old = true := Db.valid_iff.mpr ⟨_, bare_object found⟩
      have nodup : o.bare.parents.named.Nodup := by
        have linked := ranBare
        unfold dbRenumberObject at linked
        rw [leastBare] at linked
        obtain ⟨o', found', linked⟩ := Failing.bind_ok linked
        rw [Db.dereference_ok, bare_object found] at found'
        cases found'
        obtain ⟨s1, relatives, -⟩ := Failing.bind_ok linked
        exact moving.renumber_ok_nodup relatives
      have unowned (owner : Int) (nobody : owner = NOTHING) : owner ≠ old ∧ owner ≠ free := by
        rw [nobody]
        exact ⟨fun same => real same.symm, by unfold NOTHING; omega⟩
      have fits : Renumberable s.bare old free := by
        constructor
        · intro q foundQ
          rw [bare_object found] at foundQ
          cases foundQ
          exact (enlistVar_nodup _).mpr nodup
        · intro c q foundQ
          obtain ⟨q, before, rfl⟩ := bare_back foundQ
          exact once (by simp [least]) c q before
        · intro a q foundQ owner member
          obtain ⟨q, -, rfl⟩ := bare_back foundQ
          have nobody := unowned owner (List.mem_singleton.mp member)
          exact ⟨fun _ => nobody, fun _ => nobody.1⟩
        · intro a q foundQ v member
          obtain ⟨q, -, rfl⟩ := bare_back foundQ
          obtain ⟨before, -, rfl⟩ := List.mem_map.mp member
          exact unowned NOTHING rfl
      rw [moving.renumber_runs nodup leastBare rfl, (reowned_eq_renamed moving nodup).mpr fits]
        at ranBare
      simp only [Except.ok.injEq, Prod.mk.injEq] at ranBare
      obtain ⟨rfl, renamedBare⟩ := ranBare
      exact ⟨o.bare, moving, renamedBare.symm⟩

end Renumber

end ToastStunt
