import ToastStunt.Waifs.Assigning
import ToastStunt.Waifs.Places

/-!
A waif as what it is for, a record with a value for each definition. The packed waifs behave
like such records in every run, whatever the classes become in between.
-/

namespace ToastStunt.Waifs

open Packing Failing

variable {C : Type}

structure View (C : Type) where
  classId : Int
  owner : Int
  names : Option (List Nat)
  values : List (Value C)

def view (m : Memory C) (w : Address) : Option (View C) :=
  (m.waif w).map fun waif =>
    ⟨waif.classId, waif.owner, waif.propdefs.map m.propdefs, fields (propdefsLength m waif) waif⟩

/-- Each definition of the class keeps its value if it is behind those that keep theirs. -/
def View.sync (definitions : Int → Option (List Nat)) (v : View C) : View C :=
  match definitions v.classId with
  | none => ⟨NOTHING, v.owner, none, []⟩
  | some names => { v with names := some names, values := align (v.names.getD []) v.values names }

def numberOf (text : Nat → CString) (names : List Nat) (name : CString) : Option Nat :=
  names.findIdx? fun d => strHash (text d) = strHash name && strcasecmp (text d) name = 0

section

variable (lookups : Lookups) (classValue : Int → CString → Value C)

def View.get (v : View C) (name : CString) (progr : Int) : Except Crash (GetResult C) :=
  match fixedProp (emptyWaif v.classId v.owner) name with
  | some result => .ok result
  | none =>
      match v.names with
      | none => .ok .E_INVIND
      | some names =>
          match numberOf lookups.text names (waifPropPrefix :: name) with
          | none => .ok .E_PROPNF
          | some i =>
              readProp lookups classValue (emptyWaif v.classId v.owner) (waifPropPrefix :: name)
                (v.values.getD i .clear) progr

end

def View.put (text : Nat → CString) (name : CString) (val : Value C) (v : View C) : View C :=
  match v.names.bind fun names => numberOf text names (waifPropPrefix :: name) with
  | none => v
  | some i => { v with values := v.values.set i val }

/-- What there is between two operations on waifs. -/
structure Tidy (m : Memory C) : Prop where
  consistent : Consistent m
  ok : ∀ w waif, m.waif w = some waif → WaifOk m waif

section

variable {m m' : Memory C} {w : Address} {waif : Waif C}

theorem WaifOk.congr (ok : WaifOk m waif) (definitions : m'.definitions = m.definitions)
    (propdefs : ∀ p, p < m.nextPropdefs → m'.propdefs p = m.propdefs p)
    (next : m.nextPropdefs ≤ m'.nextPropdefs) : WaifOk m' waif := by
  rw [WaifOk] at ok ⊢
  cases known : waif.propdefs with
  | none =>
      rw [known] at ok
      exact definitions ▸ ok
  | some p =>
      rw [known] at ok
      exact ⟨Nat.lt_of_lt_of_le ok.1 next, (propdefs p ok.1).symm ▸ ok.2⟩

theorem view_congr (tidy : Tidy m) {v : Address} (waif : m'.waif v = m.waif v)
    (propdefs : ∀ p, p < m.nextPropdefs → m'.propdefs p = m.propdefs p) :
    view m' v = view m v := by
  rw [view, view, waif]
  cases found : m.waif v with
  | none => rfl
  | some waif =>
      have ok := tidy.ok v waif found
      rw [WaifOk] at ok
      rw [Option.map_some, Option.map_some, propdefsLength, propdefsLength]
      cases linked : waif.propdefs with
      | none => rfl
      | some p =>
          rw [linked] at ok
          rw [Option.map_some, Option.map_some, Option.elim_some, Option.elim_some, propdefs p ok.1]

theorem Updated.synced {waif' : Waif C} (updated : Updated m w waif m' waif') {names : List Nat}
    (valid : m.definitions waif.classId = some names) :
    ∃ p, waif'.propdefs = some p ∧ m'.waifPropdefs waif'.classId = some p ∧
      waif'.classId = waif.classId ∧ m'.definitions waif'.classId = some names ∧
      m'.propdefs p = names := by
  have same : waif'.classId = waif.classId := by
    rw [updated.classId, currentClass, valid]
    rfl
  have valid' : m'.definitions waif'.classId = some names := by
    rw [updated.definitions, same, valid]
  have linked := updated.linked
  have ok := updated.ok
  rw [valid, Option.bind_some, ← same] at linked
  rw [WaifOk] at ok
  cases known : waif'.propdefs with
  | none =>
      rw [known, valid'] at ok
      cases ok
  | some p =>
      have cached := linked.symm.trans known
      exact ⟨p, rfl, cached, same, valid', (updated.consistent.cached _ _ _ valid' cached).1⟩

theorem Updated.view {waif' : Waif C} (updated : Updated m w waif m' waif')
    (found : m.waif w = some waif) (ok : WaifOk m waif) :
    view m' w = (view m w).map (View.sync m.definitions) := by
  have here : m'.waif w = some waif' := by rw [updated.waifs, Function.update_self]
  rw [Waifs.view, Waifs.view, here, found, Option.map_some, Option.map_some, Option.map_some, View.sync,
    updated.owner]
  cases valid : m.definitions waif.classId with
  | none =>
      have linked := updated.linked
      have classId := updated.classId
      rw [valid] at linked
      rw [currentClass, valid] at classId
      rw [propdefsLength, linked, classId]
      rfl
  | some names =>
      obtain ⟨p, linked, _, class', _, names'⟩ := updated.synced valid
      have values := updated.values
      rw [WaifOk] at ok
      cases known : waif.propdefs with
      | none =>
          rw [known, valid] at ok
          cases ok
      | some q =>
          rw [currentFields, valid, known] at values
          simp only at values
          rw [values, class', linked, Option.map_some, Option.map_some, names', propdefsLength, known]
          rfl

theorem Updated.tidy {waif' : Waif C} (tidy : Tidy m) (updated : Updated m w waif m' waif') :
    Tidy m' ∧ ∀ v, v ≠ w → Waifs.view m' v = Waifs.view m v := by
  have others : ∀ v, v ≠ w → m'.waif v = m.waif v := fun v other => by
    rw [updated.waifs, Function.update_of_ne other]
  refine ⟨⟨updated.consistent, fun v waif found => ?_⟩, fun v other =>
    view_congr tidy (others v other) updated.propdefs⟩
  by_cases here : v = w
  · rw [here, updated.waifs, Function.update_self] at found
    obtain rfl := Option.some.inj found
    exact updated.ok
  · rw [others v here] at found
    exact (tidy.ok v waif found).congr updated.definitions updated.propdefs updated.nextPropdefs

theorem Tidy.update (tidy : Tidy m) (ran : updateWaifPropdefs w m = .ok m') :
    Tidy m' ∧ m'.definitions = m.definitions ∧ (∀ v, v ≠ w → view m' v = view m v) ∧
      view m' w = (view m w).map (View.sync m.definitions) ∧
      ∃ waif waif', m.waif w = some waif ∧ m'.waif w = some waif' ∧ Updated m w waif m' waif' := by
  cases found : m.waif w with
  | none =>
      rw [updateWaifPropdefs, Memory.dereference, found] at ran
      cases ran
  | some waif =>
      have ok := tidy.ok w waif found
      obtain ⟨m₁, waif', ran', updated⟩ := updateWaifPropdefs_spec tidy.consistent found ok
      rw [ran'] at ran
      cases ran
      obtain ⟨tidy', others⟩ := updated.tidy tidy
      exact ⟨tidy', updated.definitions, others, updated.view found ok, waif, waif', rfl,
        by rw [updated.waifs, Function.update_self], updated⟩

theorem findPropvalOffset_eq (text : Nat → CString) (name : CString) {p : Nat}
    (linked : waif.propdefs = some p) : findPropvalOffset text waif name m =
      .ok ((numberOf text (m.propdefs p) name).map fun i => (i, placeOf waif.map i)) := by
  cases number : numberOf text (m.propdefs p) name <;>
    simp only [findPropvalOffset, linked, (show List.findIdx? _ _ = _ from number)]
  case none => rfl
  case some i =>
    rw [Option.map_some, placeOf]
    split
    · rfl
    · split <;> rfl

theorem numberOf_lt {text : Nat → CString} {names : List Nat} {name : CString} {i : Nat}
    (found : numberOf text names name = some i) : i < names.length :=
  (List.findIdx?_eq_some_iff_findIdx_eq.mp found).1

theorem prop_congr (lookups : Lookups) (classValue : Int → CString → Value C) {waif' : Waif C} (classId : waif'.classId = waif.classId)
    (owner : waif'.owner = waif.owner) (name : CString) :
    fixedProp waif' name = fixedProp waif name ∧ ∀ prefixed value progr,
      readProp lookups classValue waif' prefixed value progr =
        readProp lookups classValue waif prefixed value progr := by
  obtain ⟨c, o, _, _, _⟩ := waif
  obtain ⟨c', o', _, _, _⟩ := waif'
  obtain rfl : c' = c := classId
  obtain rfl : o' = o := owner
  exact ⟨rfl, fun _ _ _ => rfl⟩

theorem waifGetProp_view (lookups : Lookups) (classValue : Int → CString → Value C) (tidy : Tidy m)
    {v : View C} (seen : view m w = some v) (name : CString) (progr : Int) :
    (waifGetProp lookups classValue w name progr m).map Prod.fst =
      (v.sync m.definitions).get lookups classValue name progr := by
  obtain ⟨waif, found, rfl⟩ := Option.map_eq_some_iff.mp seen
  have ok := tidy.ok w waif found
  obtain ⟨m', waif', ran, updated⟩ := updateWaifPropdefs_spec tidy.consistent found ok
  have here : m'.waif w = some waif' := by rw [updated.waifs, Function.update_self]
  have self : m'.dereference w = .ok waif' := by rw [Memory.dereference, here]
  have after := updated.view found ok
  rw [seen, view, here, Option.map_some, Option.map_some] at after
  rw [← Option.some.inj after, View.get]
  obtain ⟨fixed, alike⟩ := @prop_congr _ (emptyWaif waif'.classId waif'.owner) lookups classValue waif'
    rfl rfl name
  simp only [waifGetProp, ran, self, bind, Except.bind]
  cases known : fixedProp (emptyWaif waif'.classId waif'.owner : Waif C) name with
  | some result =>
      simp only [fixed, known]
      rfl
  | none =>
      simp only [fixed, known]
      cases valid : m.definitions waif.classId with
      | none =>
          have linked := updated.linked
          have gone := updated.ok
          rw [valid, Option.bind_none] at linked
          rw [WaifOk, linked] at gone
          simp only [gone, linked]
          rfl
      | some names =>
          obtain ⟨p, linked, _, _, valid', _⟩ := updated.synced valid
          have packed := updated.ok
          rw [WaifOk, linked] at packed
          rw [valid', findPropvalOffset_eq _ _ linked]
          simp only [linked, Option.map_some]
          cases number : numberOf lookups.text (m'.propdefs p) (waifPropPrefix :: name) with
          | none => rfl
          | some i =>
              have read := propvalAt_placeOf packed.2 (numberOf_lt number)
              simp only [Option.map_some, Option.isNone_some, Bool.false_eq_true, if_false, read,
                alike, propdefsLength, linked, Option.elim_some]
              generalize readProp lookups classValue _ (waifPropPrefix :: name) _ progr = result
              cases result <;> rfl

theorem waifGetProp_ok {lookups : Lookups} {classValue : Int → CString → Value C} {name : CString}
    {progr : Int} {result : GetResult C}
    (ran : waifGetProp lookups classValue w name progr m = .ok (result, m')) :
    updateWaifPropdefs w m = .ok m' := by
  obtain ⟨m₁, updated, ran⟩ := bind_ok ran
  obtain ⟨waif, _, ran⟩ := bind_ok ran
  rw [updated]
  split at ran
  · cases ran
    rfl
  split at ran
  · cases ran
    rfl
  obtain ⟨place, _, ran⟩ := bind_ok ran
  cases place with
  | none =>
      cases ran
      rfl
  | some place =>
      obtain ⟨value, _, ran⟩ := bind_ok ran
      obtain ⟨result', _, ran⟩ := bind_ok ran
      cases ran
      rfl

theorem Tidy.store (tidy : Tidy m) (found : m.waif w = some waif) {p i : Nat}
    (linked : waif.propdefs = some p) (bound : i < (m.propdefs p).length) (val : Value C)
    (ran : storeProp w waif i (placeOf waif.map i) val m = .ok m') :
    Tidy m' ∧ m'.definitions = m.definitions ∧ (∀ v, v ≠ w → view m' v = view m v) ∧
      view m' w = (view m w).map fun v => { v with values := v.values.set i val } := by
  have ok := tidy.ok w waif found
  rw [WaifOk, linked] at ok
  have size : propdefsLength m waif = (m.propdefs p).length := by
    rw [propdefsLength, linked, Option.elim_some]
  obtain ⟨waif', ran', stored⟩ := storeProp_spec w val size ok.2 bound
  rw [ran'] at ran
  cases ran
  have linked' := stored.propdefs.trans linked
  have self : (m.setWaif w waif').waif w = some waif' := by rw [setWaif_apply, if_pos rfl]
  have others : ∀ v, v ≠ w → (m.setWaif w waif').waif v = m.waif v := fun v other => by
    rw [setWaif_apply, if_neg other]
  refine ⟨⟨⟨tidy.consistent.nothing, tidy.consistent.cached⟩, fun v other known => ?_⟩, rfl,
    fun v other => view_congr tidy (others v other) fun _ _ => rfl, ?_⟩
  · by_cases here : v = w
    · subst here
      obtain rfl := Option.some.inj (self.symm.trans known)
      rw [WaifOk, linked']
      exact ⟨ok.1, stored.packed⟩
    · exact (tidy.ok v other ((others v here).symm.trans known)).congr rfl (fun _ _ => rfl)
        (Nat.le_refl _)
  · have length' : propdefsLength m waif' = propdefsLength m waif := by
      rw [propdefsLength, propdefsLength, stored.propdefs]
    rw [view, view, found]
    show ((m.setWaif w waif').waif w).map _ = _
    rw [self, Option.map_some, Option.map_some, Option.map_some, stored.owner, stored.classId,
      stored.propdefs]
    show some (View.mk _ _ _ (fields (propdefsLength m waif') waif')) = _
    rw [length', size, stored.values]
    rfl

theorem Tidy.put (tidy : Tidy m) {lookups : Lookups} {fuel : Nat} {name : CString} {val : Value C}
    {progr : Int} {result : PutResult}
    (ran : waifPutProp lookups fuel w name val progr m = .ok (result, m')) :
    Tidy m' ∧ m'.definitions = m.definitions ∧ (∀ v, v ≠ w → view m' v = view m v) ∧
      view m' w = (view m w).map fun v =>
        if result = .E_NONE then (v.sync m.definitions).put lookups.text name val
        else v.sync m.definitions := by
  obtain ⟨m₁, waif₁, updated, known, ends⟩ := waifPutProp_ok ran
  obtain ⟨tidy₁, same, others, synced, waif, waif', found, known', up⟩ := tidy.update updated
  rcases ends with ⟨refused, rfl⟩ | ⟨rfl, i, place, located, _, stored⟩
  · simp only [if_neg refused]
    exact ⟨tidy₁, same, others, synced⟩
  · obtain rfl := Option.some.inj (known'.symm.trans known)
    cases linked : waif'.propdefs with
    | none =>
        rw [findPropvalOffset, linked] at located
        cases located
    | some p =>
        rw [findPropvalOffset_eq _ _ linked] at located
        cases number : numberOf lookups.text (m₁.propdefs p) (waifPropPrefix :: name) with
        | none =>
            rw [number] at located
            cases located
        | some j =>
            rw [number, Option.map_some] at located
            cases located
            obtain ⟨tidy', same', others', self⟩ :=
              tidy₁.store known linked (numberOf_lt number) val stored
            refine ⟨tidy', same'.trans same, fun v other => (others' v other).trans (others v other), ?_⟩
            have seen : view m₁ w = some ⟨waif'.classId, waif'.owner, some (m₁.propdefs p),
                fields (propdefsLength m₁ waif') waif'⟩ := by
              rw [view, known, Option.map_some, linked, Option.map_some]
            have put : (view m₁ w).map (View.put lookups.text name val) =
                (view m₁ w).map fun v => { v with values := v.values.set i val } := by
              rw [seen, Option.map_some, Option.map_some, View.put, Option.bind_some, number]
            rw [self, ← put, synced, Option.map_map]
            rfl

theorem Tidy.make (tidy : Tidy m) {classId owner : Int} (fresh : m.waif w = none)
    (ran : newWaif w classId owner m = .ok m') :
    Tidy m' ∧ m'.definitions = m.definitions ∧ (∀ v, v ≠ w → view m' v = view m v) := by
  rw [newWaif] at ran
  cases valid : m.definitions classId with
  | none =>
      rw [valid] at ran
      cases ran
  | some names =>
      obtain ⟨p, m₁, current, names', used, waifs, definitions, _, propdefs, next, consistent⟩ :=
        currentPropdefs_spec tidy.consistent valid
      rw [valid] at ran
      simp only [current, names', Except.ok.injEq] at ran
      subst ran
      let blank : Waif C := ⟨classId, owner, some p, allocWaifPropvals names.length fun _ => 0, fun _ => 0⟩
      have packed : Packed names.length blank := by
        refine ⟨clean_zero, fun i _ on => ?_, ?_⟩
        · rw [propMapped_zero] at on
          cases on
        · rw [allocWaifPropvals_values, List.length_replicate]
      have others : ∀ v, v ≠ w → (m₁.setWaif w blank).waif v = m.waif v := fun v other => by
        rw [setWaif_apply, if_neg other, waifs]
      refine ⟨⟨⟨consistent.nothing, consistent.cached⟩, fun v other known => ?_⟩, definitions,
        fun v other => view_congr tidy (others v other) propdefs⟩
      by_cases here : v = w
      · subst here
        have self : (m₁.setWaif v blank).waif v = some blank := by rw [setWaif_apply, if_pos rfl]
        obtain rfl := Option.some.inj (self.symm.trans known)
        exact ⟨used, names'.symm ▸ packed⟩
      · exact (tidy.ok v other ((others v here).symm.trans known)).congr definitions propdefs next

structure Redefined (m m' : Memory C) : Prop where
  waif : m'.waif = m.waif
  propdefs : ∀ p, p < m.nextPropdefs → m'.propdefs p = m.propdefs p
  nextPropdefs : m.nextPropdefs ≤ m'.nextPropdefs
  /-- A class forgets its definitions when they change. -/
  consistent : Consistent m'
  /-- The number of a class whose waifs were loaded without it is not used again. -/
  lost : ∀ w waif, m.waif w = some waif → waif.propdefs = none →
    m'.definitions waif.classId = none

theorem Tidy.redefine (tidy : Tidy m) (redefined : Redefined m m') :
    Tidy m' ∧ ∀ v, view m' v = view m v := by
  have same : ∀ v, m'.waif v = m.waif v := fun v => congrFun redefined.waif v
  refine ⟨⟨redefined.consistent, fun v waif known => ?_⟩, fun v =>
    view_congr tidy (same v) redefined.propdefs⟩
  rw [same] at known
  have ok := tidy.ok v waif known
  rw [WaifOk] at ok ⊢
  cases linked : waif.propdefs with
  | none => exact redefined.lost v waif known linked
  | some p =>
      rw [linked] at ok
      exact ⟨Nat.lt_of_lt_of_le ok.1 redefined.nextPropdefs, (redefined.propdefs p ok.1).symm ▸ ok.2⟩

end

/-! Runs. -/

inductive Event (C : Type) where
  | synced (w : Address)
  | put (w : Address) (name : CString) (val : Value C)
  | redefined (definitions : Int → Option (List Nat))

/-- What an event is for the waif at `w`, the definitions being those that the classes have. -/
def Event.apply (text : Nat → CString) (w : Address) :
    (Int → Option (List Nat)) × View C → Event C → (Int → Option (List Nat)) × View C
  | (definitions, v), .synced u => (definitions, if u = w then v.sync definitions else v)
  | (definitions, v), .put u name val =>
      (definitions, if u = w then (v.sync definitions).put text name val else v)
  | (_, v), .redefined definitions => (definitions, v)

/-- What is done to waifs, with what the database answers at each step. -/
inductive Used (text : Nat → CString) (m : Memory C) : List (Event C) → Memory C → Prop
  | start : Used text m [] m
  | made {log m₁ m₂ w classId owner} (before : Used text m log m₁) (fresh : m₁.waif w = none)
      (ran : newWaif w classId owner m₁ = .ok m₂) : Used text m log m₂
  | updated {log m₁ m₂ w} (before : Used text m log m₁) (ran : updateWaifPropdefs w m₁ = .ok m₂) :
      Used text m (log ++ [.synced w]) m₂
  | got {log m₁ m₂ w lookups classValue name progr result} (before : Used text m log m₁)
      (ran : waifGetProp lookups classValue w name progr m₁ = .ok (result, m₂)) :
      Used text m (log ++ [.synced w]) m₂
  | put {log m₁ m₂ w lookups fuel name val progr} (before : Used text m log m₁)
      (texts : lookups.text = text)
      (ran : waifPutProp lookups fuel w name val progr m₁ = .ok (.E_NONE, m₂)) :
      Used text m (log ++ [.put w name val]) m₂
  | refused {log m₁ m₂ w lookups fuel name val progr result} (before : Used text m log m₁)
      (ran : waifPutProp lookups fuel w name val progr m₁ = .ok (result, m₂))
      (refused : result ≠ .E_NONE) : Used text m (log ++ [.synced w]) m₂
  | redefined {log m₁ m₂} (before : Used text m log m₁) (redefined : Redefined m₁ m₂) :
      Used text m (log ++ [.redefined m₂.definitions]) m₂

section

variable {m m' : Memory C} {w : Address} {text : Nat → CString} {log : List (Event C)}

def Follows (m : Memory C) (w : Address) (s : (Int → Option (List Nat)) × View C) : Prop :=
  m.definitions = s.1 ∧ view m w = some s.2

theorem Follows.step {s : (Int → Option (List Nat)) × View C} (follows : Follows m w s)
    {u : Address} {change : View C → View C} (same : m'.definitions = m.definitions)
    (others : ∀ v, v ≠ u → view m' v = view m v) (self : view m' u = (view m u).map change) :
    Follows m' w (s.1, if u = w then change s.2 else s.2) := by
  refine ⟨same.trans follows.1, ?_⟩
  by_cases here : u = w
  · subst here
    rw [self, follows.2, if_pos rfl]
    rfl
  · rw [others w (Ne.symm here), follows.2, if_neg here]

theorem Used.follows (tidy : Tidy m) (used : Used text m log m') :
    Tidy m' ∧ ∀ w v, view m w = some v →
      Follows m' w (log.foldl (Event.apply text w) (m.definitions, v)) := by
  induction used with
  | start => exact ⟨tidy, fun _ _ seen => ⟨rfl, seen⟩⟩
  | @made log m₁ m₂ u classId owner _ fresh ran ih =>
      obtain ⟨tidy₁, before⟩ := ih
      obtain ⟨tidy₂, same, others⟩ := tidy₁.make fresh ran
      refine ⟨tidy₂, fun w v seen => ?_⟩
      obtain ⟨known, seen₁⟩ := before w v seen
      refine ⟨same.trans known, (others w ?_).trans seen₁⟩
      rintro rfl
      rw [view, fresh] at seen₁
      cases seen₁
  | updated _ ran ih =>
      obtain ⟨tidy₁, before⟩ := ih
      obtain ⟨tidy₂, same, others, self, _⟩ := tidy₁.update ran
      refine ⟨tidy₂, fun w v seen => ?_⟩
      rw [(before w v seen).1] at self
      rw [List.foldl_append]
      exact (before w v seen).step same others self
  | got _ ran ih =>
      obtain ⟨tidy₁, before⟩ := ih
      obtain ⟨tidy₂, same, others, self, _⟩ := tidy₁.update (waifGetProp_ok ran)
      refine ⟨tidy₂, fun w v seen => ?_⟩
      rw [(before w v seen).1] at self
      rw [List.foldl_append]
      exact (before w v seen).step same others self
  | put _ texts ran ih =>
      obtain ⟨tidy₁, before⟩ := ih
      obtain ⟨tidy₂, same, others, self⟩ := tidy₁.put ran
      refine ⟨tidy₂, fun w v seen => ?_⟩
      rw [(before w v seen).1, texts] at self
      rw [List.foldl_append]
      exact (before w v seen).step same others self
  | refused _ ran refused ih =>
      obtain ⟨tidy₁, before⟩ := ih
      obtain ⟨tidy₂, same, others, self⟩ := tidy₁.put ran
      simp only [if_neg refused] at self
      refine ⟨tidy₂, fun w v seen => ?_⟩
      rw [(before w v seen).1] at self
      rw [List.foldl_append]
      exact (before w v seen).step same others self
  | redefined _ redefined ih =>
      obtain ⟨tidy₁, before⟩ := ih
      obtain ⟨tidy₂, views⟩ := tidy₁.redefine redefined
      refine ⟨tidy₂, fun w v seen => ?_⟩
      rw [List.foldl_append]
      exact ⟨rfl, (views w).trans (before w v seen).2⟩

end

def smallClass : Memory Unit where
  definitions c := if c = 0 then some [1, 2, 3] else none
  waifPropdefs _ := none
  propdefs p := if p = 0 then [1, 3] else []
  nextPropdefs := 1
  waif w := if w = 8 then
    some ⟨0, 0, some 0, some [.other (), .float 5], mapProp (mapProp (fun _ => 0) 0) 1⟩ else none
  waifCount := 1
  freed := []

theorem smallClass_tidy : Tidy smallClass := by
  refine ⟨⟨rfl, fun _ _ _ _ cached => by cases cached⟩, fun w waif found => ?_⟩
  simp only [smallClass, Option.ite_none_right_eq_some, Option.some.injEq] at found
  obtain ⟨-, rfl⟩ := found
  refine ⟨by decide, (clean_zero.mapProp 0).mapProp 1, fun i _ on => ?_, by decide⟩
  rw [propMapped_mapProp, propMapped_mapProp, propMapped_zero, Bool.false_or, Bool.or_eq_true,
    decide_eq_true_eq, decide_eq_true_eq] at on
  have low : i < 2 := by omega
  exact low

def openLookups : Lookups where
  text d := [58, 96 + UInt8.ofNat d]
  findProperty _ _ := some ⟨false, 0, 3⟩
  isWizard _ := false

end ToastStunt.Waifs
