import Mathlib.Data.List.Nodup
import Mathlib.Logic.Function.Basic

/-!
Linked lists that are changed through the slots which hold their links, and the ends
of the runs of a list.
-/

namespace Chains

variable {α β : Type} [DecidableEq α]

/-- Where a link is kept: at the head of the list, or in a node. -/
inductive Slot (α : Type)
  | head
  | of (node : α)
  deriving DecidableEq

structure Links (α : Type) where
  first : Option α
  next : α → Option α

def Links.load (links : Links α) : Slot α → Option α
  | .head => links.first
  | .of node => links.next node

def Links.store (links : Links α) (slot : Slot α) (link : Option α) : Links α :=
  match slot with
  | .head => { links with first := link }
  | .of node => { links with next := Function.update links.next node link }

/-- From `first` the links lead through the nodes to `stop`. -/
def Leads (next : α → Option α) : Option α → List α → Option α → Prop
  | first, [], stop => first = stop
  | first, node :: rest, stop => first = some node ∧ Leads next (next node) rest stop

def lastSlot (nodes : List α) : Slot α :=
  match nodes.getLast? with
  | none => .head
  | some node => .of node

omit [DecidableEq α] in
omit [DecidableEq α] in
theorem lastSlot_concat (nodes : List α) (node : α) : lastSlot (nodes ++ [node]) = .of node := by
  simp [lastSlot]

omit [DecidableEq α] in
theorem lastSlot_append (front : List α) {nodes : List α} (nonempty : nodes ≠ []) :
    lastSlot (front ++ nodes) = lastSlot nodes := by
  rw [lastSlot, lastSlot, List.getLast?_append_of_ne_nil _ nonempty]

omit [DecidableEq α] in
theorem lastSlot_cons {nodes : List α} (node : α) (nonempty : nodes ≠ []) :
    lastSlot (node :: nodes) = lastSlot nodes := lastSlot_append [node] nonempty

omit [DecidableEq α] in
theorem lastSlot_mem {nodes : List α} {node : α} (last : lastSlot nodes = .of node) :
    node ∈ nodes := by
  rw [lastSlot] at last
  cases found : nodes.getLast? with
  | none => simp [found] at last
  | some other =>
      simp only [found, Slot.of.injEq] at last
      exact last ▸ List.mem_of_getLast? found

omit [DecidableEq α] in
theorem lastSlot_head {nodes : List α} : lastSlot nodes = .head ↔ nodes = [] := by
  rw [lastSlot]
  cases found : nodes.getLast? with
  | none => simpa using List.getLast?_eq_none_iff.mp found
  | some other =>
      refine ⟨nofun, ?_⟩
      rintro rfl
      cases found

omit [DecidableEq α] in
theorem leads_append {next : α → Option α} {first stop : Option α} {left right : List α} :
    Leads next first (left ++ right) stop ↔
      ∃ middle, Leads next first left middle ∧ Leads next middle right stop := by
  induction left generalizing first with
  | nil => simp [Leads]
  | cons node left ih =>
      simp only [List.cons_append, Leads, ih]
      constructor
      · rintro ⟨same, middle, before, after⟩
        exact ⟨middle, ⟨same, before⟩, after⟩
      · rintro ⟨middle, ⟨same, before⟩, after⟩
        exact ⟨same, middle, before, after⟩

omit [DecidableEq α] in
theorem leads_congr {next other : α → Option α} {first stop : Option α} {nodes : List α}
    (same : ∀ node ∈ nodes, next node = other node) (leads : Leads next first nodes stop) :
    Leads other first nodes stop := by
  induction nodes generalizing first with
  | nil => exact leads
  | cons node rest ih =>
      refine ⟨leads.1, ih (fun other member => same other (List.mem_cons_of_mem _ member)) ?_⟩
      rw [← same node List.mem_cons_self]
      exact leads.2

omit [DecidableEq α] in
theorem load_lastSlot {links : Links α} {stop : Option α} {nodes : List α}
    (leads : Leads links.next links.first nodes stop) : links.load (lastSlot nodes) = stop := by
  rcases List.eq_nil_or_concat nodes with rfl | ⟨front, last, rfl⟩
  · exact leads
  · rw [List.concat_eq_append] at leads ⊢
    rw [lastSlot_concat]
    obtain ⟨middle, _, same, leads⟩ := leads_append.mp leads
    exact leads

theorem load_store (links : Links α) (slot : Slot α) (link : Option α) :
    (links.store slot link).load slot = link := by
  cases slot with
  | head => rfl
  | of node => exact Function.update_self _ _ _

theorem store_next {links : Links α} {slot : Slot α} {link : Option α} {node : α}
    (other : slot ≠ .of node) : (links.store slot link).next node = links.next node := by
  cases slot with
  | head => rfl
  | of at' => exact Function.update_of_ne (fun same : node = at' => other (by rw [same])) _ _

theorem leads_store {links : Links α} {stop : Option α} {nodes : List α} (link : Option α)
    (leads : Leads links.next links.first nodes stop) (apart : nodes.Nodup) :
    Leads (links.store (lastSlot nodes) link).next (links.store (lastSlot nodes) link).first
      nodes link := by
  rcases List.eq_nil_or_concat nodes with rfl | ⟨front, last, rfl⟩
  · rfl
  · rw [List.concat_eq_append] at leads apart ⊢
    rw [lastSlot_concat]
    obtain ⟨middle, before, same, _⟩ := leads_append.mp leads
    refine leads_append.mpr ⟨middle, leads_congr (fun node member => ?_) before, same, ?_⟩
    · refine (store_next fun same => ?_).symm
      obtain rfl := Slot.of.inj same
      exact (List.nodup_append.mp apart).2.2 last member last (by simp) rfl
    · exact Function.update_self _ _ _

theorem leads_store_other {links : Links α} {slot : Slot α} {link first stop : Option α}
    {nodes : List α} (leads : Leads links.next first nodes stop)
    (other : ∀ node ∈ nodes, slot ≠ .of node) :
    Leads (links.store slot link).next first nodes stop :=
  leads_congr (fun node member => (store_next (other node member)).symm) leads

theorem leads_push {links : Links α} {stop : Option α} {nodes : List α} {node : α}
    (leads : Leads links.next links.first nodes stop) (fresh : node ∉ nodes) :
    Leads ((links.store (.of node) links.first).store .head (some node)).next (some node)
      (node :: nodes) stop := by
  refine ⟨rfl, ?_⟩
  have here : (links.store (.of node) links.first).next node = links.first :=
    Function.update_self _ _ _
  change Leads (links.store (.of node) links.first).next
    ((links.store (.of node) links.first).next node) nodes stop
  rw [here]
  refine leads_store_other leads fun other member same => ?_
  exact fresh (Slot.of.inj same ▸ member)

theorem leads_concat {links : Links α} {stop : Option α} {nodes : List α} {node : α}
    (leads : Leads links.next links.first nodes stop) (apart : nodes.Nodup) (fresh : node ∉ nodes) :
    Leads (links.store (lastSlot nodes) (some node)).next
      (links.store (lastSlot nodes) (some node)).first (nodes ++ [node]) (links.next node) := by
  refine leads_append.mpr ⟨some node, leads_store (some node) leads apart, rfl, ?_⟩
  exact store_next fun same => fresh (lastSlot_mem same)

/-! The ends of runs: of the longest stretches whose items have one class. -/

variable {ι : Type} (inClass : ι → Bool)

def runEnds : List ι → List ι
  | [] => []
  | [item] => [item]
  | item :: next :: rest =>
      if inClass item = inClass next then runEnds (next :: rest)
      else item :: runEnds (next :: rest)

def GoesOn (cls : Bool) (rest : List ι) : Prop := ∃ item ∈ rest.head?, inClass item = cls

variable {inClass}

theorem runEnds_inside {item : ι} {rest : List ι} (goesOn : GoesOn inClass (inClass item) rest) :
    runEnds inClass (item :: rest) = runEnds inClass rest := by
  obtain ⟨next, isHead, same⟩ := goesOn
  cases rest with
  | nil => cases isHead
  | cons head rest =>
      obtain rfl := Option.some.inj isHead
      simp [runEnds, same]

theorem runEnds_end {item : ι} {rest : List ι} (ends : ¬GoesOn inClass (inClass item) rest) :
    runEnds inClass (item :: rest) = item :: runEnds inClass rest := by
  cases rest with
  | nil => rfl
  | cons head rest =>
      have other : inClass item ≠ inClass head := fun same => ends ⟨head, rfl, same.symm⟩
      simp [runEnds, other]

theorem runEnds_sublist (items : List ι) : (runEnds inClass items).Sublist items := by
  induction items with
  | nil => exact List.Sublist.slnil
  | cons item rest ih =>
      by_cases goesOn : GoesOn inClass (inClass item) rest
      · rw [runEnds_inside goesOn]
        exact ih.cons item
      · rw [runEnds_end goesOn]
        exact ih.cons_cons item

theorem runEnds_eq_nil {items : List ι} : runEnds inClass items = [] ↔ items = [] := by
  induction items with
  | nil => simp [runEnds]
  | cons item rest ih =>
      refine ⟨fun none => ?_, nofun⟩
      by_cases goesOn : GoesOn inClass (inClass item) rest
      · rw [runEnds_inside goesOn, ih] at none
        obtain ⟨next, isHead, _⟩ := goesOn
        simp [none] at isHead
      · rw [runEnds_end goesOn] at none
        cases none

theorem goesOn_append {cls : Bool} {rest : List ι} (nonempty : rest ≠ []) (more : List ι) :
    GoesOn inClass cls (rest ++ more) ↔ GoesOn inClass cls rest := by
  cases rest with
  | nil => exact absurd rfl nonempty
  | cons head rest => rfl

/-- An item of the same class takes the place of the last end, one of the other is a new end. -/
theorem runEnds_concat (items : List ι) (last item : ι) :
    ∃ ends, runEnds inClass (items ++ [last]) = ends ++ [last] ∧
      runEnds inClass (items ++ [last] ++ [item]) =
        (if inClass last = inClass item then ends else ends ++ [last]) ++ [item] := by
  induction items with
  | nil =>
      refine ⟨[], rfl, ?_⟩
      by_cases same : inClass last = inClass item <;> simp [runEnds, same]
  | cons head rest ih =>
      obtain ⟨ends, whole, longer⟩ := ih
      have further : GoesOn inClass (inClass head) (rest ++ [last] ++ [item]) ↔
          GoesOn inClass (inClass head) (rest ++ [last]) := goesOn_append (by simp) _
      by_cases goesOn : GoesOn inClass (inClass head) (rest ++ [last])
      · refine ⟨ends, ?_, ?_⟩
        · rw [List.cons_append, runEnds_inside goesOn, whole]
        · rw [List.cons_append, List.cons_append, runEnds_inside (further.mpr goesOn), longer]
      · refine ⟨head :: ends, ?_, ?_⟩
        · rw [List.cons_append, runEnds_end goesOn, whole]
          rfl
        · rw [List.cons_append, List.cons_append, runEnds_end (mt further.mp goesOn), longer]
          split <;> rfl

theorem runEnds_run {cls : Bool} (run : List ι) (last : ι) {rest : List ι}
    (inRun : ∀ item ∈ run ++ [last], inClass item = cls) (ends : ¬GoesOn inClass cls rest) :
    runEnds inClass (run ++ last :: rest) = last :: runEnds inClass rest := by
  induction run with
  | nil => exact runEnds_end (inRun last (by simp) ▸ ends)
  | cons item run ih =>
      have goesOn : GoesOn inClass (inClass item) (run ++ last :: rest) := by
        rw [inRun item (by simp)]
        cases run with
        | nil => exact ⟨last, rfl, inRun last (by simp)⟩
        | cons next run => exact ⟨next, rfl, inRun next (by simp)⟩
      rw [List.cons_append, runEnds_inside goesOn]
      exact ih fun item member => inRun item (List.mem_cons_of_mem _ member)

theorem runEnds_merge {cls : Bool} {run rest : List ι}
    (inRun : ∀ item ∈ run, inClass item = cls) (goesOn : GoesOn inClass cls rest) :
    runEnds inClass (run ++ rest) = runEnds inClass rest := by
  induction run with
  | nil => rfl
  | cons item run ih =>
      have further : GoesOn inClass (inClass item) (run ++ rest) := by
        rw [inRun item (by simp)]
        cases run with
        | nil => exact goesOn
        | cons next run => exact ⟨next, rfl, inRun next (by simp)⟩
      rw [List.cons_append, runEnds_inside further]
      exact ih fun item member => inRun item (List.mem_cons_of_mem _ member)

theorem not_goesOn_nil (cls : Bool) : ¬GoesOn inClass cls [] := by
  rintro ⟨_, ⟨⟩, _⟩

theorem runEnds_apart {cls : Bool} {run rest : List ι}
    (inRun : ∀ item ∈ run, inClass item = cls) (ends : ¬GoesOn inClass cls rest) :
    runEnds inClass (run ++ rest) = runEnds inClass run ++ runEnds inClass rest := by
  rcases List.eq_nil_or_concat run with rfl | ⟨front, last, rfl⟩
  · rfl
  · rw [List.concat_eq_append] at inRun ⊢
    rw [List.append_assoc, List.singleton_append, runEnds_run front last inRun ends,
      runEnds_run front last inRun (not_goesOn_nil cls)]
    rfl

theorem runEnds_one {cls : Bool} {run : List ι} (inRun : ∀ item ∈ run, inClass item = cls) :
    (runEnds inClass run).dropLast = [] := by
  rcases List.eq_nil_or_concat run with rfl | ⟨front, last, rfl⟩
  · rfl
  · rw [List.concat_eq_append] at inRun ⊢
    rw [runEnds_run front last inRun (not_goesOn_nil cls)]
    rfl

end Chains
