import Mathlib.Algebra.Order.Ring.Int
import ToastStunt.Network.OutputBlocks

/-!
The blocks of an output buffer as a list, and what the changes of the pointers do to it.
-/

namespace ToastStunt.Network

open Chains Machine

abbrev Blocks := List (Nat × CString)

def addrs (blocks : Blocks) : List Nat := blocks.map Prod.fst

def totalLength (blocks : Blocks) : Int := (blocks.map fun block => (block.2.length : Int)).sum

/-- The links lead through these blocks, which are all that is allocated. -/
structure Chain (h : Output) (blocks : Blocks) : Prop where
  held : ∀ block ∈ blocks, h.textAt block.1 = some block.2
  apart : (addrs blocks).Nodup
  leads : Leads h.outputs.next h.outputHead (addrs blocks) none
  allocated : h.allocated = blocks.length
  length : h.outputLength = totalLength blocks

theorem chain_new (tls connected : Bool) : Chain (newOutput tls connected) [] :=
  ⟨fun _ none => absurd none List.not_mem_nil, .nil, rfl, rfl, rfl⟩

theorem totalLength_nonneg (blocks : Blocks) : 0 ≤ totalLength blocks := by
  induction blocks with
  | nil => exact Int.le_refl _
  | cons block rest ih => exact Int.add_nonneg (Int.natCast_nonneg _) ih

theorem totalLength_cons (b : Nat) (text : CString) (rest : Blocks) :
    totalLength ((b, text) :: rest) = text.length + totalLength rest := rfl

theorem totalLength_append (blocks : Blocks) (b : Nat) (text : CString) :
    totalLength (blocks ++ [(b, text)]) = totalLength blocks + text.length := by
  simp [totalLength]

section

variable {h h' : Output} {b : Nat} {text : CString} {rest : Blocks}

theorem Chain.of_fields {blocks : Blocks} (chain : Chain h blocks) (heap : h'.heap = h.heap)
    (head : h'.outputHead = h.outputHead) (allocated : h'.allocated = h.allocated)
    (length : h'.outputLength = h.outputLength) : Chain h' blocks := by
  obtain ⟨held, apart, leads, counted, summed⟩ := chain
  refine ⟨?_, apart, ?_, allocated.trans counted, length.trans summed⟩
  · simpa only [Output.textAt, heap] using held
  · simpa only [Output.outputs, heap, head] using leads

theorem Chain.empty_iff {blocks : Blocks} (chain : Chain h blocks) :
    h.outputHead = none ↔ blocks = [] := by
  cases blocks with
  | nil => exact ⟨fun _ => rfl, fun _ => chain.leads⟩
  | cons block rest =>
      have head : h.outputHead = some block.1 := chain.leads.1
      simp [head]

theorem Chain.first (chain : Chain h ((b, text) :: rest)) :
    h.outputHead = some b ∧
      ∃ next, h.heap b = some ⟨text, next⟩ ∧ Leads h.outputs.next next (addrs rest) none := by
  have here := chain.held (b, text) List.mem_cons_self
  obtain ⟨block, found, same⟩ := Option.map_eq_some_iff.mp here
  obtain ⟨text', next⟩ := block
  obtain rfl : text' = text := same
  refine ⟨chain.leads.1, next, found, ?_⟩
  have onward := chain.leads.2
  have link : h.outputs.next b = next := by simp [Output.outputs, found]
  exact link ▸ onward

theorem Chain.tail (chain : Chain h ((b, text) :: rest)) : (addrs rest).Nodup ∧ b ∉ addrs rest :=
  ⟨(List.nodup_cons.mp chain.apart).2, (List.nodup_cons.mp chain.apart).1⟩

theorem mem_addrs {blocks : Blocks} {block : Nat × CString} (member : block ∈ blocks) :
    block.1 ∈ addrs blocks := List.mem_map_of_mem member

theorem Chain.unchanged (chain : Chain h ((b, text) :: rest)) (first : Option Nat)
    (other : ∀ a, a ≠ b → h'.heap a = h.heap a)
    (leads : Leads h.outputs.next first (addrs rest) none) :
    (∀ block ∈ rest, h'.textAt block.1 = some block.2) ∧
      Leads h'.outputs.next first (addrs rest) none := by
  have elsewhere : ∀ a ∈ addrs rest, h'.heap a = h.heap a := fun a member =>
    other a fun same => chain.tail.2 (same ▸ member)
  constructor
  · intro block member
    rw [Output.textAt, elsewhere _ (mem_addrs member)]
    exact chain.held block (List.mem_cons_of_mem _ member)
  · refine leads_congr (fun a member => ?_) leads
    simp only [Output.outputs, elsewhere a member]

theorem Chain.drop_first (chain : Chain h ((b, text) :: rest)) {next : Option Nat}
    (found : h.heap b = some ⟨text, next⟩) (heap : h'.heap = Function.update h.heap b none)
    (head : h'.outputHead = next) (allocated : h'.allocated = h.allocated - 1)
    (length : h'.outputLength = int32 (h.outputLength - text.length))
    (short : totalLength ((b, text) :: rest) < 2 ^ 31) : Chain h' rest := by
  obtain ⟨_, next', found', leads⟩ := chain.first
  obtain rfl : next' = next := by
    rw [found] at found'
    exact (TextBlock.mk.inj (Option.some.inj found')).2.symm
  obtain ⟨held, leads'⟩ := @Chain.unchanged h h' b text rest chain next'
    (fun a other => by rw [heap, Function.update_of_ne other]) leads
  refine ⟨held, chain.tail.1, head ▸ leads', ?_, ?_⟩
  · rw [allocated, chain.allocated, List.length_cons, Nat.add_sub_cancel]
  · have := totalLength_nonneg rest
    rw [totalLength_cons] at short
    have same : (text.length : Int) + totalLength rest - text.length = totalLength rest := by omega
    rw [length, chain.length, totalLength_cons, same]
    exact int32_eq (by omega) (by omega)

theorem Chain.shorten_first (chain : Chain h ((b, text) :: rest)) {next : Option Nat}
    {left : CString} {count : Nat} (found : h.heap b = some ⟨text, next⟩)
    (heap : h'.heap = Function.update h.heap b (some ⟨left, next⟩))
    (head : h'.outputHead = h.outputHead) (allocated : h'.allocated = h.allocated)
    (length : h'.outputLength = int32 (h.outputLength - count))
    (parts : text.length = count + left.length) (short : totalLength ((b, text) :: rest) < 2 ^ 31) :
    Chain h' ((b, left) :: rest) := by
  obtain ⟨first, next', found', leads⟩ := chain.first
  obtain rfl : next' = next := by
    rw [found] at found'
    exact (TextBlock.mk.inj (Option.some.inj found')).2.symm
  obtain ⟨held, leads'⟩ := @Chain.unchanged h h' b text rest chain next'
    (fun a other => by rw [heap, Function.update_of_ne other]) leads
  have here : h'.heap b = some ⟨left, next'⟩ := by rw [heap, Function.update_self]
  refine ⟨?_, chain.apart, ?_, ?_, ?_⟩
  · intro block member
    rcases List.mem_cons.mp member with rfl | member
    · simp [Output.textAt, here]
    · exact held block member
  · refine ⟨head.trans first, ?_⟩
    have link : h'.outputs.next b = next' := by simp [Output.outputs, here]
    change Leads h'.outputs.next (h'.outputs.next b) (addrs rest) none
    rwa [link]
  · rw [allocated, chain.allocated, List.length_cons, List.length_cons]
  · have := totalLength_nonneg rest
    rw [totalLength_cons] at short
    have same : (text.length : Int) + totalLength rest - count = left.length + totalLength rest := by
      omega
    rw [length, chain.length, totalLength_cons, totalLength_cons, same]
    exact int32_eq (by omega) (by omega)

theorem Chain.drop_second {a : Nat} {front : CString}
    (chain : Chain h ((a, front) :: (b, text) :: rest)) {next : Option Nat}
    (found : h.heap b = some ⟨text, next⟩)
    (heap : h'.heap =
      Function.update (Function.update h.heap a (some ⟨front, next⟩)) b none)
    (head : h'.outputHead = h.outputHead) (allocated : h'.allocated = h.allocated - 1)
    (length : h'.outputLength = int32 (h.outputLength - text.length))
    (short : totalLength ((a, front) :: (b, text) :: rest) < 2 ^ 31) :
    Chain h' ((a, front) :: rest) := by
  obtain ⟨isHead, _, _, leads⟩ := chain.first
  obtain ⟨apart, notFirst⟩ := chain.tail
  obtain ⟨notSecond, apartRest⟩ := List.nodup_cons.mp apart
  have differ : a ≠ b := fun same => notFirst (same ▸ List.mem_cons_self)
  have onward : Leads h.outputs.next next (addrs rest) none := by
    have link : h.outputs.next b = next := by simp [Output.outputs, found]
    exact link ▸ leads.2
  have elsewhere : ∀ c ∈ addrs rest, h'.heap c = h.heap c := fun c member => by
    have notA : c ≠ a := fun same => notFirst (same ▸ List.mem_cons_of_mem _ member)
    have notB : c ≠ b := fun same => notSecond (same ▸ member)
    rw [heap, Function.update_of_ne notB, Function.update_of_ne notA]
  have here : h'.heap a = some ⟨front, next⟩ := by
    rw [heap, Function.update_of_ne differ, Function.update_self]
  refine ⟨?_, ?_, ⟨head.trans isHead, ?_⟩, ?_, ?_⟩
  · intro block member
    rcases List.mem_cons.mp member with rfl | member
    · simp [Output.textAt, here]
    · rw [Output.textAt, elsewhere _ (mem_addrs member)]
      exact chain.held block (List.mem_cons_of_mem _ (List.mem_cons_of_mem _ member))
  · exact List.nodup_cons.mpr ⟨fun member => notFirst (List.mem_cons_of_mem _ member), apartRest⟩
  · have link : h'.outputs.next a = next := by simp [Output.outputs, here]
    change Leads h'.outputs.next (h'.outputs.next a) (addrs rest) none
    rw [link]
    refine leads_congr (fun c member => ?_) onward
    simp only [Output.outputs, elsewhere c member]
  · rw [allocated, chain.allocated, List.length_cons, Nat.add_sub_cancel]
    rfl
  · have := totalLength_nonneg rest
    rw [totalLength_cons, totalLength_cons] at short
    have same : (front.length : Int) + (text.length + totalLength rest) - text.length =
        front.length + totalLength rest := by omega
    rw [length, chain.length, totalLength_cons, totalLength_cons, totalLength_cons, same]
    exact int32_eq (by omega) (by omega)

structure SameRest (h h' : Output) : Prop where
  allocated : h'.allocated = h.allocated
  length : h'.outputLength = h.outputLength
  tail : h'.outputTail = h.outputTail
  flushed : h'.outputLinesFlushed = h.outputLinesFlushed
  tls : h'.tls = h.tls
  wantWrite : h'.wantWrite = h.wantWrite
  wire : h'.wire = h.wire

theorem storeNext_spec {slot : Slot Nat} (link : Option Nat)
    (live : ∀ a, slot = .of a → (h.heap a).isSome) :
    ∃ h', h.storeNext slot link = some h' ∧ h'.outputs = h.outputs.store slot link ∧
      (∀ a, h'.textAt a = h.textAt a) ∧ SameRest h h' := by
  cases slot with
  | head => exact ⟨_, rfl, rfl, fun _ => rfl, rfl, rfl, rfl, rfl, rfl, rfl, rfl⟩
  | of a =>
      obtain ⟨block, found⟩ := Option.isSome_iff_exists.mp (live a rfl)
      refine ⟨{ h with heap := Function.update h.heap a (some { block with next := link }) },
        by rw [Output.storeNext, found, Option.map_some], ?_, fun other => ?_,
        rfl, rfl, rfl, rfl, rfl, rfl, rfl⟩
      · simp only [Output.outputs, Links.store, Links.mk.injEq, true_and]
        funext other
        by_cases same : other = a
        · subst same
          simp
        · simp [same]
      · by_cases same : other = a
        · subst same
          simp [Output.textAt, found]
        · simp [Output.textAt, same]

theorem Chain.append {blocks : Blocks} (chain : Chain h blocks)
    (tail : h.outputTail = lastSlot (addrs blocks)) (fresh : h.heap b = none) {text : CString}
    (short : totalLength blocks + text.length < 2 ^ 31) :
    ∃ h', (h.allocate b ⟨text, none⟩).storeNext h.outputTail (some b) = some h' ∧
      SameRest (h.allocate b ⟨text, none⟩) h' ∧
      Chain { h' with outputTail := .of b, outputLength := int32 (h'.outputLength + text.length) }
        (blocks ++ [(b, text)]) := by
  have unused : b ∉ addrs blocks := by
    intro member
    obtain ⟨block, inside, rfl⟩ := List.mem_map.mp member
    have here := chain.held block inside
    rw [Output.textAt, fresh] at here
    cases here
  have elsewhere : ∀ a ∈ addrs blocks, (h.allocate b ⟨text, none⟩).heap a = h.heap a :=
    fun a member => Function.update_of_ne (fun same : a = b => unused (same ▸ member)) _ _
  have heldOld : ∀ block ∈ blocks, (h.allocate b ⟨text, none⟩).textAt block.1 = some block.2 :=
    fun block member => by
      rw [Output.textAt, elsewhere _ (mem_addrs member)]
      exact chain.held block member
  obtain ⟨h', stored, links, texts, same⟩ := @storeNext_spec (h.allocate b ⟨text, none⟩)
    h.outputTail (some b) fun a isTail => by
      rw [tail] at isTail
      obtain ⟨block, inside, rfl⟩ := List.mem_map.mp (lastSlot_mem isTail)
      have := heldOld block inside
      rw [Output.textAt, Option.map_eq_some_iff] at this
      obtain ⟨_, found, _⟩ := this
      rw [found]
      rfl
  have leadsOld : Leads (h.allocate b ⟨text, none⟩).outputs.next
      (h.allocate b ⟨text, none⟩).outputs.first (addrs blocks) none :=
    leads_congr (fun a member => by simp only [Output.outputs, elsewhere a member]) chain.leads
  have link : (h.allocate b ⟨text, none⟩).outputs.next b = none := by
    simp [Output.outputs, Output.allocate]
  have whole := leads_concat leadsOld chain.apart unused
  rw [link, ← tail, ← links] at whole
  refine ⟨h', stored, same, ?_, ?_, ?_, ?_, ?_⟩
  · intro block member
    change h'.textAt block.1 = some block.2
    rw [texts]
    rcases List.mem_append.mp member with old | new
    · exact heldOld block old
    · obtain rfl := List.mem_singleton.mp new
      simp [Output.textAt, Output.allocate]
  · rw [addrs, List.map_append]
    refine List.nodup_append.mpr ⟨chain.apart, List.nodup_singleton b, ?_⟩
    intro a member other only equal
    obtain rfl : other = b := List.mem_singleton.mp only
    exact unused (equal ▸ member)
  · rw [addrs, List.map_append]
    exact whole
  · change h'.allocated = _
    rw [same.allocated, Output.allocate, List.length_append, chain.allocated]
    rfl
  · have := totalLength_nonneg blocks
    change int32 (h'.outputLength + text.length) = _
    rw [same.length, Output.allocate, chain.length, totalLength_append]
    exact int32_eq (by omega) (by omega)

end

end ToastStunt.Network
