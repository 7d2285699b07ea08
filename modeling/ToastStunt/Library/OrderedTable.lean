import Mathlib.Data.List.Basic

/-!
Finite tables kept as lists of bindings in the order of a comparison that is a total
preorder on the keys in use.
-/

namespace OrderedTable

variable {κ ν : Type} {compare : κ → κ → Int} {Used : κ → Prop}

/-- `compare` is a total preorder on the keys in use. -/
structure TotalPreorder (compare : κ → κ → Int) (Used : κ → Prop) : Prop where
  flip : ∀ a b, Used a → Used b → (compare a b < 0 ↔ 0 < compare b a)
  trans : ∀ a b c, Used a → Used b → Used c →
    compare a b ≤ 0 → compare b c ≤ 0 → compare a c ≤ 0

namespace TotalPreorder

theorem refl (order : TotalPreorder compare Used) {a : κ} (used : Used a) : compare a a = 0 := by
  have := order.flip a a used used
  omega

theorem symm_zero (order : TotalPreorder compare Used) {a b : κ} (usedA : Used a) (usedB : Used b)
    (equal : compare a b = 0) : compare b a = 0 := by
  have := order.flip a b usedA usedB
  have := order.flip b a usedB usedA
  omega

theorem lt_of_lt_of_le (order : TotalPreorder compare Used) {a b c : κ} (usedA : Used a)
    (usedB : Used b) (usedC : Used c) (less : compare a b < 0) (atMost : compare b c ≤ 0) :
    compare a c < 0 := by
  by_contra notLess
  have back : compare c a ≤ 0 := by
    have := order.flip a c usedA usedC
    have := order.flip c a usedC usedA
    omega
  have around := order.trans b c a usedB usedC usedA atMost back
  have := order.flip a b usedA usedB
  omega

theorem lt_of_le_of_lt (order : TotalPreorder compare Used) {a b c : κ} (usedA : Used a)
    (usedB : Used b) (usedC : Used c) (atMost : compare a b ≤ 0) (less : compare b c < 0) :
    compare a c < 0 := by
  by_contra notLess
  have back : compare c a ≤ 0 := by
    have := order.flip a c usedA usedC
    have := order.flip c a usedC usedA
    omega
  have around := order.trans c a b usedC usedA usedB back atMost
  have := order.flip b c usedB usedC
  omega

end TotalPreorder

def Sorted (compare : κ → κ → Int) (table : List (κ × ν)) : Prop :=
  table.Pairwise fun first second => compare first.1 second.1 < 0

def put (compare : κ → κ → Int) (key : κ) (value : ν) (table : List (κ × ν)) : List (κ × ν) :=
  table.filter (fun entry => compare entry.1 key < 0) ++
    (key, value) :: table.filter (fun entry => 0 < compare entry.1 key)

def remove (compare : κ → κ → Int) (key : κ) (table : List (κ × ν)) : List (κ × ν) :=
  table.filter fun entry => compare entry.1 key ≠ 0

def find (compare : κ → κ → Int) (key : κ) (table : List (κ × ν)) : Option ν :=
  (table.find? fun entry => compare entry.1 key = 0).map Prod.snd

theorem used_put {key : κ} {value : ν} {table : List (κ × ν)} (used : Used key)
    (all : ∀ entry ∈ table, Used entry.1) : ∀ entry ∈ put compare key value table, Used entry.1 := by
  intro entry member
  simp only [put, List.mem_append, List.mem_cons, List.mem_filter] at member
  rcases member with ⟨inside, _⟩ | rfl | ⟨inside, _⟩
  · exact all entry inside
  · exact used
  · exact all entry inside

theorem sorted_put (order : TotalPreorder compare Used) {key : κ} (value : ν)
    {table : List (κ × ν)} (used : Used key) (all : ∀ entry ∈ table, Used entry.1)
    (sorted : Sorted compare table) : Sorted compare (put compare key value table) := by
  rw [Sorted, put, List.pairwise_append, List.pairwise_cons]
  refine ⟨sorted.sublist List.filter_sublist, ⟨?_, sorted.sublist List.filter_sublist⟩, ?_⟩
  · intro entry member
    obtain ⟨inside, beyond⟩ := List.mem_filter.mp member
    exact (order.flip _ _ used (all entry inside)).mpr (by simpa using beyond)
  · intro entry member other later
    obtain ⟨inside, below⟩ := List.mem_filter.mp member
    have less : compare entry.1 key < 0 := by simpa using below
    rcases List.mem_cons.mp later with rfl | later
    · exact less
    · obtain ⟨there, beyond⟩ := List.mem_filter.mp later
      have greater := (order.flip _ _ used (all other there)).mpr (by simpa using beyond)
      exact order.lt_of_lt_of_le (all entry inside) used (all other there) less (by omega)

theorem sorted_remove {key : κ} {table : List (κ × ν)} (sorted : Sorted compare table) :
    Sorted compare (remove compare key table) := sorted.sublist List.filter_sublist

theorem put_between {key : κ} (value : ν) {less more : List (κ × ν)}
    (below : ∀ entry ∈ less, compare entry.1 key < 0)
    (beyond : ∀ entry ∈ more, 0 < compare entry.1 key) :
    put compare key value (less ++ more) = less ++ (key, value) :: more := by
  have lessBelow : less.filter (fun entry => compare entry.1 key < 0) = less :=
    List.filter_eq_self.mpr fun entry member => by simpa using below entry member
  have moreBelow : more.filter (fun entry => compare entry.1 key < 0) = [] :=
    List.filter_eq_nil_iff.mpr fun entry member => by
      have := beyond entry member
      simp
      omega
  have lessBeyond : less.filter (fun entry => 0 < compare entry.1 key) = [] :=
    List.filter_eq_nil_iff.mpr fun entry member => by
      have := below entry member
      simp
      omega
  have moreBeyond : more.filter (fun entry => 0 < compare entry.1 key) = more :=
    List.filter_eq_self.mpr fun entry member => by simpa using beyond entry member
  rw [put, List.filter_append, List.filter_append, lessBelow, moreBelow, lessBeyond, moreBeyond]
  simp

theorem remove_absent {key : κ} {table : List (κ × ν)}
    (absent : ∀ entry ∈ table, compare entry.1 key ≠ 0) : remove compare key table = table :=
  List.filter_eq_self.mpr fun entry member => by simpa using absent entry member

theorem remove_between {key : κ} {less more : List (κ × ν)} {entry : κ × ν}
    (below : ∀ entry ∈ less, compare entry.1 key ≠ 0) (equal : compare entry.1 key = 0)
    (beyond : ∀ entry ∈ more, compare entry.1 key ≠ 0) :
    remove compare key (less ++ entry :: more) = less ++ more := by
  rw [remove, List.filter_append, List.filter_cons_of_neg (by simpa using equal)]
  exact congrArg₂ (· ++ ·) (remove_absent below) (remove_absent beyond)

theorem put_remove (key : κ) (value : ν) (table : List (κ × ν)) :
    put compare key value (remove compare key table) = put compare key value table := by
  have below (entry : κ × ν) : (decide (compare entry.1 key < 0) &&
      decide (compare entry.1 key ≠ 0)) = decide (compare entry.1 key < 0) := by
    by_cases less : compare entry.1 key < 0 <;> simp [less]; omega
  have beyond (entry : κ × ν) : (decide (0 < compare entry.1 key) &&
      decide (compare entry.1 key ≠ 0)) = decide (0 < compare entry.1 key) := by
    by_cases more : 0 < compare entry.1 key <;> simp [more]; omega
  simp only [put, remove, List.filter_filter, below, beyond]

/-! Bindings put one after another. -/

def putAll (compare : κ → κ → Int) (entries table : List (κ × ν)) : List (κ × ν) :=
  entries.foldl (fun table entry => put compare entry.1 entry.2 table) table

theorem put_perm {key : κ} (value : ν) {table : List (κ × ν)}
    (absent : ∀ entry ∈ table, compare entry.1 key ≠ 0) :
    (put compare key value table).Perm ((key, value) :: table) := by
  have beyond : table.filter (fun entry => 0 < compare entry.1 key) =
      table.filter (fun entry => !decide (compare entry.1 key < 0)) := by
    refine List.filter_congr fun entry member => ?_
    have other := absent entry member
    by_cases less : compare entry.1 key < 0
    · have notMore : ¬0 < compare entry.1 key := by omega
      simp [less, notMore]
    · have more : 0 < compare entry.1 key := by omega
      simp [less, more]
  rw [put, beyond]
  exact List.perm_middle.trans ((List.filter_append_perm _ _).cons _)

theorem putAll_used {entries table : List (κ × ν)} (used : ∀ entry ∈ entries, Used entry.1)
    (all : ∀ entry ∈ table, Used entry.1) :
    ∀ entry ∈ putAll compare entries table, Used entry.1 := by
  induction entries generalizing table with
  | nil => exact all
  | cons first rest ih =>
      exact ih (fun entry member => used entry (List.mem_cons_of_mem _ member))
        (used_put (used first List.mem_cons_self) all)

theorem putAll_sorted (order : TotalPreorder compare Used) {entries table : List (κ × ν)}
    (used : ∀ entry ∈ entries, Used entry.1) (all : ∀ entry ∈ table, Used entry.1)
    (sorted : Sorted compare table) : Sorted compare (putAll compare entries table) := by
  induction entries generalizing table with
  | nil => exact sorted
  | cons first rest ih =>
      have usedFirst := used first List.mem_cons_self
      exact ih (fun entry member => used entry (List.mem_cons_of_mem _ member))
        (used_put usedFirst all) (sorted_put order first.2 usedFirst all sorted)

theorem putAll_perm {entries table : List (κ × ν)}
    (apart : entries.Pairwise fun a b => compare a.1 b.1 ≠ 0)
    (absent : ∀ entry ∈ entries, ∀ old ∈ table, compare old.1 entry.1 ≠ 0) :
    (putAll compare entries table).Perm (table ++ entries) := by
  induction entries generalizing table with
  | nil => exact (List.append_nil table).symm ▸ List.Perm.refl _
  | cons first rest ih =>
      obtain ⟨fromFirst, apart⟩ := List.pairwise_cons.mp apart
      have placed := put_perm first.2 (absent first List.mem_cons_self)
      refine (ih apart fun entry member old inTable => ?_).trans ?_
      · rcases List.mem_cons.mp (placed.mem_iff.mp inTable) with rfl | inTable
        · exact fromFirst entry member
        · exact absent entry (List.mem_cons_of_mem _ member) old inTable
      · exact (placed.append_right rest).trans List.perm_middle.symm

/-- Every binding is kept exactly if no two keys are the same. -/
theorem putAll_perm_iff (order : TotalPreorder compare Used) {entries : List (κ × ν)}
    (used : ∀ entry ∈ entries, Used entry.1) :
    (putAll compare entries []).Perm entries ↔
      entries.Pairwise fun a b => compare a.1 b.1 ≠ 0 := by
  constructor
  · intro same
    have empty : ∀ entry ∈ ([] : List (κ × ν)), Used entry.1 :=
      fun _ none => absurd none List.not_mem_nil
    have sorted := putAll_sorted order used empty (List.Pairwise.nil : Sorted compare [])
    have inTable := @putAll_used _ _ compare Used entries [] used empty
    have bothWays : (putAll compare entries []).Pairwise
        fun a b => compare a.1 b.1 ≠ 0 ∧ compare b.1 a.1 ≠ 0 := by
      refine List.Pairwise.imp_of_mem (fun memberA memberB less => ?_) sorted
      have := order.flip _ _ (inTable _ memberA) (inTable _ memberB)
      exact ⟨by omega, by omega⟩
    exact ((same.pairwise_iff fun both => ⟨both.2, both.1⟩).mp bothWays).imp And.left
  · intro apart
    exact putAll_perm apart fun _ _ _ none => absurd none List.not_mem_nil

/-! Two tables whose bindings have counterparts in each other. -/

theorem forall₂_of_covers (order : TotalPreorder compare Used) {same : κ × ν → κ × ν → Prop}
    (zero : ∀ first second, same first second → compare first.1 second.1 = 0)
    {lhs rhs : List (κ × ν)} (sorted : Sorted compare lhs) (sorted' : Sorted compare rhs)
    (all : ∀ entry ∈ lhs, Used entry.1) (all' : ∀ entry ∈ rhs, Used entry.1)
    (covers : ∀ entry ∈ lhs, ∃ other ∈ rhs, same entry other)
    (covers' : ∀ other ∈ rhs, ∃ entry ∈ lhs, same entry other) : List.Forall₂ same lhs rhs := by
  induction lhs generalizing rhs with
  | nil =>
      cases rhs with
      | nil => exact .nil
      | cons other rest =>
          obtain ⟨entry, member, _⟩ := covers' other List.mem_cons_self
          exact absurd member List.not_mem_nil
  | cons first lhs ih =>
      cases rhs with
      | nil =>
          obtain ⟨other, member, _⟩ := covers first List.mem_cons_self
          exact absurd member List.not_mem_nil
      | cons second rhs =>
          obtain ⟨before, sorted⟩ := List.pairwise_cons.mp sorted
          obtain ⟨before', sorted'⟩ := List.pairwise_cons.mp sorted'
          have usedFirst := all first List.mem_cons_self
          have usedSecond := all' second List.mem_cons_self
          have least : compare first.1 second.1 = 0 := by
            obtain ⟨other, inRhs, pair⟩ := covers first List.mem_cons_self
            obtain ⟨entry, inLhs, pair'⟩ := covers' second List.mem_cons_self
            have usedOther := all' other inRhs
            have usedEntry := all entry inLhs
            have atMost : compare second.1 other.1 ≤ 0 := by
              rcases List.mem_cons.mp inRhs with rfl | later
              · exact Int.le_of_eq (order.refl usedSecond)
              · exact Int.le_of_lt (before' other later)
            have atMost' : compare first.1 entry.1 ≤ 0 := by
              rcases List.mem_cons.mp inLhs with rfl | later
              · exact Int.le_of_eq (order.refl usedFirst)
              · exact Int.le_of_lt (before entry later)
            have forth := order.trans _ _ _ usedFirst usedEntry usedSecond atMost'
              (Int.le_of_eq (zero entry second pair'))
            have back := order.trans _ _ _ usedSecond usedOther usedFirst atMost
              (Int.le_of_eq (order.symm_zero usedFirst usedOther (zero first other pair)))
            have := order.flip _ _ usedFirst usedSecond
            omega
          have apart : ∀ other ∈ rhs, ¬same first other := by
            intro other later pair
            have less := order.lt_of_le_of_lt usedFirst usedSecond
              (all' other (List.mem_cons_of_mem _ later)) (Int.le_of_eq least) (before' other later)
            have := zero first other pair
            omega
          have apart' : ∀ entry ∈ lhs, ¬same entry second := by
            intro entry later pair
            have less := order.lt_of_lt_of_le usedFirst (all entry (List.mem_cons_of_mem _ later))
              usedSecond (before entry later) (Int.le_of_eq (zero entry second pair))
            omega
          have head : same first second := by
            obtain ⟨other, inRhs, pair⟩ := covers first List.mem_cons_self
            rcases List.mem_cons.mp inRhs with rfl | later
            · exact pair
            · exact absurd pair (apart other later)
          refine .cons head (ih sorted sorted' ?_ ?_ ?_ ?_)
          · intro entry member
            exact all entry (List.mem_cons_of_mem _ member)
          · intro other member
            exact all' other (List.mem_cons_of_mem _ member)
          · intro entry member
            obtain ⟨other, inRhs, pair⟩ := covers entry (List.mem_cons_of_mem _ member)
            rcases List.mem_cons.mp inRhs with rfl | later
            · exact absurd pair (apart' entry member)
            · exact ⟨other, later, pair⟩
          · intro other member
            obtain ⟨entry, inLhs, pair⟩ := covers' other (List.mem_cons_of_mem _ member)
            rcases List.mem_cons.mp inLhs with rfl | later
            · exact absurd pair (apart other member)
            · exact ⟨entry, later, pair⟩

/-! Two comparisons that tell the same order of the keys in use. -/

structure SameOrder (compare order : κ → κ → Int) (Used : κ → Prop) : Prop where
  lt : ∀ a b, Used a → Used b → (compare a b < 0 ↔ order a b < 0)
  eq : ∀ a b, Used a → Used b → (compare a b = 0 ↔ order a b = 0)

namespace SameOrder

variable {order : κ → κ → Int}

theorem le (same : SameOrder compare order Used) {a b : κ} (usedA : Used a) (usedB : Used b) :
    compare a b ≤ 0 ↔ order a b ≤ 0 := by
  have less := same.lt a b usedA usedB
  have equal := same.eq a b usedA usedB
  omega

theorem gt (same : SameOrder compare order Used) {a b : κ} (usedA : Used a) (usedB : Used b) :
    0 < compare a b ↔ 0 < order a b := by
  have atMost := same.le usedA usedB
  omega

theorem totalPreorder (same : SameOrder compare order Used) (total : TotalPreorder order Used) :
    TotalPreorder compare Used where
  flip a b usedA usedB := by
    rw [same.lt a b usedA usedB, same.gt usedB usedA]
    exact total.flip a b usedA usedB
  trans a b c usedA usedB usedC first second := by
    rw [same.le usedA usedB] at first
    rw [same.le usedB usedC] at second
    rw [same.le usedA usedC]
    exact total.trans a b c usedA usedB usedC first second

theorem sorted_iff (same : SameOrder compare order Used) {table : List (κ × ν)}
    (all : ∀ entry ∈ table, Used entry.1) : Sorted compare table ↔ Sorted order table :=
  List.Pairwise.iff_of_mem fun {_ _} memberA memberB =>
    same.lt _ _ (all _ memberA) (all _ memberB)

theorem put_eq (same : SameOrder compare order Used) {key : κ} (value : ν)
    {table : List (κ × ν)} (used : Used key) (all : ∀ entry ∈ table, Used entry.1) :
    put compare key value table = put order key value table := by
  have below : table.filter (fun entry => compare entry.1 key < 0) =
      table.filter (fun entry => order entry.1 key < 0) :=
    List.filter_congr fun entry member => decide_eq_decide.mpr (same.lt _ _ (all entry member) used)
  have beyond : table.filter (fun entry => 0 < compare entry.1 key) =
      table.filter (fun entry => 0 < order entry.1 key) :=
    List.filter_congr fun entry member => decide_eq_decide.mpr (same.gt (all entry member) used)
  rw [put, put, below, beyond]

end SameOrder

end OrderedTable
