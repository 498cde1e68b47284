import Mathlib.Data.List.Sort

/-!
# Sorting through a comparator

What `std::sort` and `std::partial_sort` promise, with ties left in any order, and the
notion both serve: the first entries of the result are topmost.  Topmost entries have the
values of the full descending order, whoever selected them.
-/

set_option autoImplicit false

namespace LlamaCpp.Lib

open List

/-- `a` comes strictly before `b`; entries that are unordered count as equal. -/
structure StrictWeak {α : Type} (before : α → α → Bool) : Prop where
  asymm : ∀ a b, before a b = true → before b a = false
  trans : ∀ a b c, before b a = false → before c b = false → before c a = false

structure StdSort where
  sort : {α : Type} → (α → α → Bool) → List α → List α
  partialSort : {α : Type} → (α → α → Bool) → Nat → List α → List α
  sort_perm : ∀ {α : Type} {before : α → α → Bool}, StrictWeak before →
    ∀ xs : List α, (sort before xs).Perm xs
  sort_sorted : ∀ {α : Type} {before : α → α → Bool}, StrictWeak before →
    ∀ xs : List α, (sort before xs).Pairwise fun a b => before b a = false
  partialSort_perm : ∀ {α : Type} {before : α → α → Bool}, StrictWeak before →
    ∀ {middle : Nat} {xs : List α}, middle ≤ xs.length →
      (partialSort before middle xs).Perm xs
  partialSort_sorted : ∀ {α : Type} {before : α → α → Bool}, StrictWeak before →
    ∀ {middle : Nat} {xs : List α}, middle ≤ xs.length →
      ((partialSort before middle xs).take middle).Pairwise fun a b => before b a = false
  partialSort_rest : ∀ {α : Type} {before : α → α → Bool}, StrictWeak before →
    ∀ {middle : Nat} {xs : List α}, middle ≤ xs.length →
      ∀ a ∈ (partialSort before middle xs).take middle,
      ∀ b ∈ (partialSort before middle xs).drop middle, before b a = false

section MergeSort

variable {α : Type} {before : α → α → Bool}

def mergeOrder (before : α → α → Bool) (xs : List α) : List α :=
  xs.mergeSort fun a b => !before b a

theorem mergeOrder_sorted (weak : StrictWeak before) (xs : List α) :
    (mergeOrder before xs).Pairwise fun a b => before b a = false := by
  have ordered : (xs.mergeSort fun a b => !before b a).Pairwise
      fun a b => (!before b a) = true := by
    refine pairwise_mergeSort ?_ ?_ xs
    · intro a b c first second
      simp only [Bool.not_eq_true'] at first second ⊢
      exact weak.trans a b c first second
    · intro a b
      cases forward : before b a with
      | false => rfl
      | true => simp [weak.asymm b a forward]
  simpa [mergeOrder] using ordered

def StdSort.merge : StdSort where
  sort := mergeOrder
  partialSort := fun before _ xs => mergeOrder before xs
  sort_perm := fun _ xs => mergeSort_perm xs _
  sort_sorted := mergeOrder_sorted
  partialSort_perm := fun _ _ xs _ => mergeSort_perm xs _
  partialSort_sorted := fun weak middle xs _ => (mergeOrder_sorted weak xs).take
  partialSort_rest := by
    intro _ before weak middle xs _ a kept b left
    have ordered := mergeOrder_sorted weak xs
    rw [← take_append_drop middle (mergeOrder before xs)] at ordered
    exact (pairwise_append.mp ordered).2.2 a kept b left

end MergeSort

section Topmost

variable {α κ : Type} [LinearOrder κ]

def descending (value : α → κ) (a b : α) : Bool := decide (value b < value a)

theorem descending_eq_false {value : α → κ} {a b : α} :
    descending value b a = false ↔ value b ≤ value a := by
  simp [descending]

theorem descending_weak (value : α → κ) : StrictWeak (descending value) where
  asymm := by
    intro a b before
    simp only [descending, decide_eq_true_eq] at before
    exact descending_eq_false.mpr before.le
  trans := by
    intro a b c first second
    rw [descending_eq_false] at first second ⊢
    exact second.trans first

/-- `kept` holds entries of `all` in descending order, and no entry left out is above one
that is kept. -/
def Topmost (value : α → κ) (all kept left : List α) : Prop :=
  (kept ++ left).Perm all ∧ (kept.Pairwise fun a b => value b ≤ value a) ∧
    ∀ a ∈ kept, ∀ b ∈ left, value b ≤ value a

namespace Topmost

variable {value : α → κ} {all kept left : List α}

theorem of_sort (std : StdSort) (value : α → κ) (xs : List α) :
    Topmost value xs (std.sort (descending value) xs) [] := by
  refine ⟨?_, ?_, by simp⟩
  · simpa using std.sort_perm (descending_weak value) xs
  · simpa [descending_eq_false] using std.sort_sorted (descending_weak value) xs

theorem of_partialSort (std : StdSort) (value : α → κ) {middle : Nat} {xs : List α}
    (inside : middle ≤ xs.length) :
    Topmost value xs ((std.partialSort (descending value) middle xs).take middle)
      ((std.partialSort (descending value) middle xs).drop middle) := by
  have weak := descending_weak value
  refine ⟨?_, ?_, ?_⟩
  · rw [take_append_drop]
    exact std.partialSort_perm weak inside
  · simpa [descending_eq_false] using std.partialSort_sorted weak inside
  · simpa only [descending_eq_false] using std.partialSort_rest weak inside

theorem append {above kept' : List α} (first : Topmost value above kept [])
    (second : Topmost value all kept' left)
    (higher : ∀ a ∈ above, ∀ b ∈ all, value b ≤ value a) :
    Topmost value (above ++ all) (kept ++ kept') left := by
  obtain ⟨firstPerm, firstSorted, -⟩ := first
  obtain ⟨secondPerm, secondSorted, secondRest⟩ := second
  rw [append_nil] at firstPerm
  have fromAbove : ∀ a ∈ kept, ∀ b ∈ all, value b ≤ value a :=
    fun a member => higher a (firstPerm.mem_iff.mp member)
  refine ⟨?_, ?_, ?_⟩
  · rw [append_assoc]
    exact firstPerm.append secondPerm
  · refine pairwise_append.mpr ⟨firstSorted, secondSorted, ?_⟩
    intro a inKept b inKept'
    exact fromAbove a inKept b (secondPerm.mem_iff.mp (mem_append_left _ inKept'))
  · intro a member b inLeft
    rcases mem_append.mp member with inKept | inKept'
    · exact fromAbove a inKept b (secondPerm.mem_iff.mp (mem_append_right _ inLeft))
    · exact secondRest a inKept' b inLeft

theorem sorted_ranges (std : StdSort) {ranges : List (List α)}
    (falling : ranges.Pairwise fun above below =>
      ∀ a ∈ above, ∀ b ∈ below, value b ≤ value a)
    (chosen : Topmost value all kept left)
    (higher : ∀ range ∈ ranges, ∀ a ∈ range, ∀ b ∈ all, value b ≤ value a) :
    Topmost value (ranges.flatten ++ all)
      ((ranges.map (std.sort (descending value))).flatten ++ kept) left := by
  induction ranges with
  | nil => exact chosen
  | cons range ranges ih =>
    obtain ⟨first, rest⟩ := pairwise_cons.mp falling
    have later := ih rest fun r member => higher r (mem_cons_of_mem _ member)
    simp only [flatten_cons, map_cons, append_assoc]
    refine Topmost.append (of_sort std value range) later ?_
    intro a inRange b member
    rcases mem_append.mp member with inRanges | inAll
    · obtain ⟨below, isRange, inBelow⟩ := mem_flatten.mp inRanges
      exact first below isRange a inRange b inBelow
    · exact higher range mem_cons_self a inRange b inAll

theorem leave {below : List α} (chosen : Topmost value all kept left)
    (lower : ∀ a ∈ all, ∀ b ∈ below, value b ≤ value a) :
    Topmost value (all ++ below) kept (left ++ below) := by
  obtain ⟨perm, sorted, rest⟩ := chosen
  refine ⟨?_, sorted, ?_⟩
  · rw [← append_assoc]
    exact perm.append_right below
  · intro a inKept b member
    rcases mem_append.mp member with inLeft | inBelow
    · exact rest a inKept b inLeft
    · exact lower a (perm.mem_iff.mp (mem_append_left _ inKept)) b inBelow

theorem of_perm {all' : List α} (chosen : Topmost value all kept left)
    (same : all.Perm all') : Topmost value all' kept left :=
  ⟨chosen.1.trans same, chosen.2⟩

theorem values (chosen : Topmost value all kept left) :
    kept.map value = (mergeOrder (descending id) (all.map value)).take kept.length := by
  obtain ⟨perm, sorted, rest⟩ := chosen
  have weak := descending_weak (id : κ → κ)
  have ordered : (kept.map value ++ mergeOrder (descending id) (left.map value)).Pairwise
      fun a b => b ≤ a := by
    refine pairwise_append.mpr ⟨?_, ?_, ?_⟩
    · rw [pairwise_map]
      exact sorted
    · simpa [descending_eq_false] using mergeOrder_sorted weak (left.map value)
    · intro a inKept b inLeft
      obtain ⟨x, xKept, rfl⟩ := mem_map.mp inKept
      obtain ⟨y, yLeft, rfl⟩ := mem_map.mp (mem_mergeSort.mp inLeft)
      exact rest x xKept y yLeft
  have full : (mergeOrder (descending id) (all.map value)).Pairwise fun a b => b ≤ a := by
    simpa [descending_eq_false] using mergeOrder_sorted weak (all.map value)
  have same : (kept.map value ++ mergeOrder (descending id) (left.map value)).Perm
      (mergeOrder (descending id) (all.map value)) := by
    refine List.Perm.trans ?_ (mergeSort_perm _ _).symm
    refine ((mergeSort_perm _ _).append_left _).trans ?_
    rw [← map_append]
    exact perm.map value
  have equal := same.eq_of_pairwise (fun a b _ _ above below => le_antisymm below above)
    ordered full
  rw [← equal, take_left' (by simp)]

end Topmost

end Topmost

end LlamaCpp.Lib
