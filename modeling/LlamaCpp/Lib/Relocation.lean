import Mathlib.Data.List.GetD
import Mathlib.Data.Nat.Count

/-!
# Moving cells into holes

An array is compacted by moving live cells from indices at or above a bound into
empty cells below it.  `Relocated` says what any number of such moves leaves; one
move preserves it.  `dest i` is the index the cell that began at `i` was moved to.
-/

set_option autoImplicit false

namespace LlamaCpp.Lib

open List Option

variable {α : Type*}

theorem getD_set_self (cells : List α) (i : Nat) (value blank : α) (inside : i < cells.length) :
    (cells.set i value).getD i blank = value := by
  simp [inside]

theorem getD_set_ne (cells : List α) (i j : Nat) (value blank : α) (apart : i ≠ j) :
    (cells.set i value).getD j blank = cells.getD j blank := by
  simp [List.getElem?_set_ne apart]

theorem countP_set_add (cells : List α) (live : α → Bool) (i : Nat) (value blank : α)
    (inside : i < cells.length) :
    (cells.set i value).countP live + (live (cells.getD i blank)).toNat =
      cells.countP live + (live value).toNat := by
  induction cells generalizing i with
  | nil => simp at inside
  | cons cell rest ih =>
    cases i with
    | zero =>
      simp only [set_cons_zero, countP_cons, getD_cons_zero]
      cases live cell <;> cases live value <;> simp
    | succ i =>
      have tail := ih i (by simpa using inside)
      simp only [set_cons_succ, countP_cons, getD_cons_succ]
      omega

section Count

variable (p q : Nat → Prop) [DecidablePred p] [DecidablePred q]

theorem countP_eq_count (cells : List α) (live : α → Bool) (blank : α) :
    cells.countP live = Nat.count (fun i => live (cells.getD i blank) = true) cells.length := by
  induction cells with
  | nil => rfl
  | cons cell rest ih =>
    rw [countP_cons, length_cons, Nat.count_succ', ih]
    simp

/-- Between `a` and `b` there are at most as many `p` as `q`. -/
theorem count_between_le (a b : Nat) (ordered : a ≤ b)
    (implied : ∀ i, a ≤ i → i < b → p i → q i) :
    Nat.count p b + Nat.count q a ≤ Nat.count q b + Nat.count p a := by
  induction b, ordered using Nat.le_induction with
  | base => omega
  | succ b low ih =>
    have previous := ih fun i above below => implied i above (by omega)
    rw [Nat.count_succ, Nat.count_succ]
    by_cases holds : p b
    · rw [if_pos holds, if_pos (implied b low (Nat.lt_succ_self b) holds)]
      omega
    · rw [if_neg holds]
      omega

theorem count_between_congr (a b : Nat) (ordered : a ≤ b)
    (same : ∀ i, a ≤ i → i < b → (p i ↔ q i)) :
    Nat.count p b + Nat.count q a = Nat.count q b + Nat.count p a :=
  le_antisymm (count_between_le p q a b ordered fun i above below => (same i above below).mp)
    (by
      have := count_between_le q p a b ordered fun i above below => (same i above below).mpr
      omega)

/-- A run of `len` indices without `p` below `b` leaves at most `b - len` with it. -/
theorem count_add_hole_le (a len b : Nat) (fits : a + len ≤ b)
    (hole : ∀ i, a ≤ i → i < a + len → ¬ p i) : Nat.count p b + len ≤ b := by
  have below := @Nat.count_le p _ a
  have through := count_between_le p (fun _ => False) a (a + len) (Nat.le_add_right a len)
    fun i above upper holds => hole i above upper holds
  have above := count_between_le p (fun _ => True) (a + len) b fits fun _ _ _ _ => trivial
  simp only [Nat.count_true, Nat.count_false] at through above
  omega

end Count

/-- `cells` is `before` after moves into holes below `bound`. -/
structure Relocated (live : α → Bool) (blank : α) (bound : Nat) (before cells : List α)
    (dest : Nat → Option Nat) : Prop where
  length : cells.length = before.length
  moved : ∀ i d, dest i = some d → bound ≤ i ∧ i < before.length ∧ d < bound ∧
    live (before.getD i blank) = true ∧ live (before.getD d blank) = false ∧
    cells.getD d blank = before.getD i blank ∧ cells.getD i blank = blank
  injective : ∀ i j d, dest i = some d → dest j = some d → i = j
  kept : ∀ i, dest i = none → (∀ j, dest j ≠ some i) →
    cells.getD i blank = before.getD i blank
  count : cells.countP live = before.countP live

theorem Relocated.refl (live : α → Bool) (blank : α) (bound : Nat) (cells : List α) :
    Relocated live blank bound cells cells (fun _ => none) where
  length := rfl
  moved := fun _ _ impossible => by cases impossible
  injective := fun _ _ _ impossible => by cases impossible
  kept := fun _ _ _ => rfl
  count := rfl

section Move

variable {live : α → Bool} {blank : α} {bound : Nat} {before cells : List α}
  {dest : Nat → Option Nat}

theorem Relocated.above_kept (state : Relocated live blank bound before cells dest) (i : Nat)
    (above : bound ≤ i) (unmoved : dest i = none) :
    cells.getD i blank = before.getD i blank := by
  apply state.kept i unmoved
  intro j target
  have := (state.moved j i target).2.2.1
  omega

theorem Relocated.hole_kept (state : Relocated live blank bound before cells dest) (d : Nat)
    (below : d < bound) (hole : live (cells.getD d blank) = false) :
    cells.getD d blank = before.getD d blank ∧ ∀ j, dest j ≠ some d := by
  have free : ∀ j, dest j ≠ some d := by
    intro j target
    obtain ⟨_, _, _, alive, _, content, _⟩ := state.moved j d target
    rw [content, alive] at hole
    cases hole
  refine ⟨state.kept d ?_ free, free⟩
  cases origin : dest d with
  | none => rfl
  | some e =>
    have := (state.moved d e origin).1
    omega

theorem Relocated.move (blankDead : live blank = false)
    (state : Relocated live blank bound before cells dest) (i d : Nat) (above : bound ≤ i)
    (inside : i < before.length) (unmoved : dest i = none)
    (alive : live (cells.getD i blank) = true) (below : d < bound)
    (hole : live (cells.getD d blank) = false) :
    Relocated live blank bound before ((cells.set d (cells.getD i blank)).set i blank)
      (Function.update dest i (some d)) := by
  have apart : d ≠ i := by omega
  have iLength : i < cells.length := by rw [state.length]; exact inside
  have dLength : d < cells.length := by omega
  have source := state.above_kept i above unmoved
  obtain ⟨holeKept, free⟩ := state.hole_kept d below hole
  have elsewhere : ∀ k, k ≠ i → k ≠ d →
      ((cells.set d (cells.getD i blank)).set i blank).getD k blank = cells.getD k blank := by
    intro k notSource notHole
    rw [getD_set_ne _ _ _ _ _ (Ne.symm notSource), getD_set_ne _ _ _ _ _ (Ne.symm notHole)]
  have atHole : ((cells.set d (cells.getD i blank)).set i blank).getD d blank =
      cells.getD i blank := by
    rw [getD_set_ne _ _ _ _ _ (Ne.symm apart), getD_set_self _ _ _ _ dLength]
  have atSource : ((cells.set d (cells.getD i blank)).set i blank).getD i blank = blank :=
    getD_set_self _ _ _ _ (by rw [length_set]; exact iLength)
  refine ⟨by simp [state.length], ?_, ?_, ?_, ?_⟩
  · intro k e target
    by_cases here : k = i
    · subst k
      rw [Function.update_self, some.injEq] at target
      subst e
      refine ⟨above, inside, below, source ▸ alive, holeKept ▸ hole, ?_, atSource⟩
      rw [atHole, source]
    · rw [Function.update_of_ne here] at target
      obtain ⟨kAbove, kInside, eBelow, kAlive, eHole, content, cleared⟩ := state.moved k e target
      refine ⟨kAbove, kInside, eBelow, kAlive, eHole, ?_, ?_⟩
      · rw [elsewhere e (by omega) (fun same => free k (same ▸ target))]
        exact content
      · rw [elsewhere k here (by omega)]
        exact cleared
  · intro k l e kTarget lTarget
    by_cases kHere : k = i <;> by_cases lHere : l = i
    · rw [kHere, lHere]
    · subst k
      rw [Function.update_self] at kTarget
      rw [Function.update_of_ne lHere] at lTarget
      exact absurd (kTarget ▸ lTarget) (free l)
    · subst l
      rw [Function.update_self] at lTarget
      rw [Function.update_of_ne kHere] at kTarget
      exact absurd (lTarget ▸ kTarget) (free k)
    · rw [Function.update_of_ne kHere] at kTarget
      rw [Function.update_of_ne lHere] at lTarget
      exact state.injective k l e kTarget lTarget
  · intro k stays untargeted
    have notSource : k ≠ i := by
      intro same
      subst k
      rw [Function.update_self] at stays
      cases stays
    have notHole : k ≠ d := by
      intro same
      exact untargeted i (by rw [Function.update_self, same])
    rw [elsewhere k notSource notHole]
    rw [Function.update_of_ne notSource] at stays
    apply state.kept k stays
    intro j target
    by_cases here : j = i
    · rw [here, unmoved] at target
      cases target
    · exact untargeted j (by rw [Function.update_of_ne here]; exact target)
  · have filled := countP_set_add cells live d (cells.getD i blank) blank dLength
    have emptied := countP_set_add (cells.set d (cells.getD i blank)) live i blank blank
      (by rw [length_set]; exact iLength)
    rw [getD_set_ne _ _ _ _ _ apart] at emptied
    rw [alive, hole] at filled
    rw [alive, blankDead] at emptied
    rw [← state.count]
    omega

end Move

/-- When the cells below the bound are all live and the bound is the number of live
cells, no cell at or above it is live. -/
theorem dead_above_of_full_below (live : α → Bool) (blank : α) (bound : Nat) (cells : List α)
    (count : cells.countP live = bound)
    (full : ∀ i, i < bound → live (cells.getD i blank) = true) (i : Nat)
    (above : bound ≤ i) (inside : i < cells.length) : live (cells.getD i blank) = false := by
  have parts := congrArg (List.countP live) (take_append_drop bound cells)
  rw [countP_append] at parts
  have prefixFull : (cells.take bound).countP live = bound := by
    have all : ∀ cell ∈ cells.take bound, live cell = true := by
      intro cell member
      obtain ⟨j, small, equal⟩ := mem_take_iff_getElem.mp member
      rw [← equal, ← getD_eq_getElem cells blank]
      exact full j (by omega)
    rw [countP_eq_length.mpr all, length_take]
    omega
  have suffixDead : (cells.drop bound).countP live = 0 := by omega
  rw [countP_eq_zero] at suffixDead
  rw [getD_eq_getElem cells blank inside]
  have member : cells[i] ∈ cells.drop bound := by
    rw [mem_drop_iff_getElem]
    exact ⟨i - bound, by omega, by simp [Nat.add_sub_cancel' above]⟩
  simpa using suffixDead _ member

end LlamaCpp.Lib
