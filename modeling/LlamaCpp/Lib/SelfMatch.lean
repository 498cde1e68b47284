import Mathlib.Data.Nat.Basic

/-!
# How far a sequence matches itself

For a shift, the longest prefix that reappears that many places later.  Inside a box, a
stretch known to repeat the start, the prefix for a shift follows from the one for the place
in the repeated stretch, even when the lengths found before were cut off at a limit.
-/

set_option autoImplicit false

namespace LlamaCpp.Lib

variable {α : Type} {tok : Nat → α} {size shift : Nat}

/-- The first `n` entries reappear `shift` places later, inside the sequence. -/
def Reappear (tok : Nat → α) (size shift n : Nat) : Prop :=
  n + shift ≤ size ∧ ∀ m < n, tok m = tok (m + shift)

def Longest (tok : Nat → α) (size shift n : Nat) : Prop :=
  Reappear tok size shift n ∧ (n + shift < size → tok n ≠ tok (n + shift))

variable {n : Nat}

theorem Reappear.succ (re : Reappear tok size shift n) (inside : n + shift < size)
    (same : tok n = tok (n + shift)) : Reappear tok size shift (n + 1) := by
  refine ⟨by omega, fun m below => ?_⟩
  rcases Nat.lt_succ_iff_lt_or_eq.mp below with before | rfl
  · exact re.2 m before
  · exact same

theorem Longest.le {m : Nat} (longest : Longest tok size shift n) (re : Reappear tok size shift m) :
    m ≤ n := by
  by_contra more
  have inside : n + shift < size := by
    have := re.1
    omega
  exact longest.2 inside (re.2 n (by omega))

theorem Longest.unique {m : Nat} (first : Longest tok size shift n)
    (second : Longest tok size shift m) : n = m :=
  le_antisymm (second.le first.1) (first.le second.1)

section Extend

variable [DecidableEq α]

def extend (tok : Nat → α) (size shift : Nat) : (fuel n : Nat) → Nat
  | 0, n => n
  | fuel + 1, n =>
    if n + shift < size ∧ tok n = tok (n + shift) then extend tok size shift fuel (n + 1) else n

theorem extend_longest {fuel n : Nat} (re : Reappear tok size shift n)
    (enough : size ≤ n + shift + fuel) :
    Longest tok size shift (extend tok size shift fuel n) ∧
      n ≤ extend tok size shift fuel n := by
  induction fuel generalizing n with
  | zero =>
    rw [extend]
    exact ⟨⟨re, fun inside => by omega⟩, le_rfl⟩
  | succ fuel ih =>
    rw [extend]
    split
    case isTrue agree =>
      obtain ⟨longest, more⟩ := ih (re.succ agree.1 agree.2) (by omega)
      exact ⟨longest, by omega⟩
    case isFalse differ => exact ⟨⟨re, fun inside same => differ ⟨inside, same⟩⟩, le_rfl⟩

theorem exists_longest (inside : shift ≤ size) : ∃ n, Longest tok size shift n := by
  have none : Reappear tok size shift 0 := ⟨by omega, fun m below => by omega⟩
  exact ⟨_, (extend_longest none (show size ≤ 0 + shift + size by omega)).1⟩

end Extend

/-- The entries from `lt` to `rt` repeat the start. -/
structure Box (tok : Nat → α) (size lt rt : Nat) : Prop where
  inside : rt < size
  repeats : ∀ i, lt ≤ i → i ≤ rt → tok i = tok (i - lt)

theorem Reappear.box (re : Reappear tok size shift n) (some_ : 0 < n) :
    Box tok size shift (shift + n - 1) := by
  have := re.1
  refine ⟨by omega, fun i lower upper => ?_⟩
  have same := re.2 (i - shift) (by omega)
  rw [Nat.sub_add_cancel lower] at same
  exact same.symm

namespace Box

variable {lt rt k z : Nat}

/-- A prefix that ends inside the box reappears at `k` exactly as in the repeated stretch. -/
theorem short (box : Box tok size lt rt) (lower : lt ≤ k) (upper : k ≤ rt)
    (longest : Longest tok size (k - lt) z) (ends : z < rt - k + 1) : Longest tok size k z := by
  have inside := box.inside
  have shifted : ∀ m ≤ z, tok (m + k) = tok (m + (k - lt)) := by
    intro m le
    rw [box.repeats (m + k) (by omega) (by omega)]
    congr 1
    omega
  refine ⟨⟨by omega, fun m below => ?_⟩, fun _ => ?_⟩
  · rw [shifted m (le_of_lt below)]
    exact longest.1.2 m below
  · rw [shifted z le_rfl]
    exact longest.2 (by omega)

/-- A prefix that goes on to the end of the box reappears at `k` at least that far. -/
theorem long (box : Box tok size lt rt) (lower : lt ≤ k) (upper : k ≤ rt)
    (longest : Longest tok size (k - lt) z) (passes : rt - k + 1 ≤ z) :
    Reappear tok size k (rt - k + 1) := by
  have inside := box.inside
  refine ⟨by omega, fun m below => ?_⟩
  rw [longest.1.2 m (by omega), box.repeats (m + k) (by omega) (by omega)]
  congr 1
  omega

theorem copy [DecidableEq α] {limit : Nat} (box : Box tok size lt rt) (lower : lt ≤ k)
    (upper : k ≤ rt) (longest : Longest tok size (k - lt) z)
    (ends : min z limit < rt - k + 1) :
    ∃ n, Longest tok size k n ∧ min n limit = min z limit := by
  by_cases inside : z < rt - k + 1
  · exact ⟨z, box.short lower upper longest inside, rfl⟩
  · have := box.inside
    obtain ⟨n, found⟩ : ∃ n, Longest tok size k n := exists_longest (by omega)
    have atLeast := found.le (box.long lower upper longest (by omega))
    exact ⟨n, found, by omega⟩

end Box

end LlamaCpp.Lib
