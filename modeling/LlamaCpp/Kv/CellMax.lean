import LlamaCpp.Kv.Cache
import Mathlib.Tactic.Linarith

/-!
# The attention width

`kvCacheCellMax` scans the whole cache for the highest cell in use and
`kvCacheCellMaxPad` probes the last cell of each block of `pad` cells, from the end,
and refines upward from the first probe that hits.  The width computed from the
strided scan covers every cell in use exactly when each of them lies in the first
block or at most one block above a probed cell in use.
-/

set_option autoImplicit false

namespace LlamaCpp.Kv

/-- `cell.pos >= 0 && !cell.is_empty()`. -/
def KvCell.inUse (cell : KvCell) : Bool := decide (0 ≤ cell.pos) && !cell.isEmpty

def KvCache.inUse (c : KvCache) (i : Nat) : Bool := (c.cell i).inUse

def cellMaxFrom (c : KvCache) : Nat → Nat
  | 0 => 0
  | i + 1 => if c.inUse i then i + 1 else cellMaxFrom c i

def kvCacheCellMax (c : KvCache) : Nat := cellMaxFrom c c.size

/-- The inner loop `for (j = last; j > i; --j)`. -/
def refineUp (c : KvCache) (i : Nat) : Nat → Nat
  | 0 => i
  | j + 1 => if i < j + 1 then (if c.inUse j then j + 1 else refineUp c i j) else i

/-- The outer loop `for (i = cache.size; i > 0; i -= pad)`; the size is a multiple of `pad`. -/
def cellMaxPadFrom (c : KvCache) (pad : Nat) (positive : 0 < pad) (i last : Nat) : Nat :=
  if i = 0 then 0
  else if c.inUse (i - 1) then refineUp c i last
  else cellMaxPadFrom c pad positive (i - pad) i
termination_by i

def kvCacheCellMaxPad (c : KvCache) (pad : Nat) (positive : 0 < pad) : Nat :=
  cellMaxPadFrom c pad positive c.size c.size

/-- `GGML_PAD(x, n)`, for `n` a power of two. -/
def ggmlPad (x n : Nat) : Nat := (x + n - 1) / n * n

def getPadding (flashAttn : Bool) : Nat := if flashAttn then 256 else 32

theorem getPadding_pos (flashAttn : Bool) : 0 < getPadding flashAttn := by
  cases flashAttn <;> decide

/-- `kv_self.n` as `llama_decode_internal` sets it from a largest cell. -/
def attentionWidth (c : KvCache) (pad maxCell : Nat) : Nat :=
  min c.size (max pad (ggmlPad maxCell pad))

def Covers (c : KvCache) (n : Nat) : Prop := ∀ i, i < c.size → c.inUse i = true → i < n

/-- Each cell in use lies in the first block, or less than a block above the last
cell of some block that is itself in use. -/
def ProbesReach (c : KvCache) (pad : Nat) : Prop :=
  ∀ i, i < c.size → c.inUse i = true → i < pad ∨
    ∃ k, 0 < k ∧ k * pad ≤ c.size ∧ c.inUse (k * pad - 1) = true ∧ i < k * pad + pad

theorem cellMaxFrom_spec (c : KvCache) (n : Nat) :
    cellMaxFrom c n ≤ n ∧ (∀ i, i < n → c.inUse i = true → i < cellMaxFrom c n) ∧
      (0 < cellMaxFrom c n → c.inUse (cellMaxFrom c n - 1) = true) := by
  induction n with
  | zero =>
    refine ⟨le_refl _, ?_, ?_⟩
    · intro i impossible
      omega
    · intro positive
      simp [cellMaxFrom] at positive
  | succ n ih =>
    simp only [cellMaxFrom]
    by_cases used : c.inUse n = true
    · rw [if_pos used]
      refine ⟨le_refl _, fun i below _ => below, fun _ => ?_⟩
      simpa using used
    · rw [if_neg used]
      refine ⟨Nat.le_succ_of_le ih.1, ?_, ih.2.2⟩
      intro i below inUse
      rcases Nat.lt_succ_iff_lt_or_eq.mp below with lower | same
      · exact ih.2.1 i lower inUse
      · exact absurd (same ▸ inUse) used

theorem kvCacheCellMax_le (c : KvCache) : kvCacheCellMax c ≤ c.size := (cellMaxFrom_spec c _).1

theorem lt_kvCacheCellMax (c : KvCache) (i : Nat) (inside : i < c.size)
    (inUse : c.inUse i = true) : i < kvCacheCellMax c :=
  (cellMaxFrom_spec c c.size).2.1 i inside inUse

theorem kvCacheCellMax_inUse (c : KvCache) (positive : 0 < kvCacheCellMax c) :
    c.inUse (kvCacheCellMax c - 1) = true :=
  (cellMaxFrom_spec c c.size).2.2 positive

theorem refineUp_spec (c : KvCache) (i last : Nat) (ordered : i ≤ last) :
    i ≤ refineUp c i last ∧ refineUp c i last ≤ last ∧
      (∀ j, i ≤ j → j < last → c.inUse j = true → j < refineUp c i last) := by
  induction last with
  | zero =>
    have zero : i = 0 := by omega
    subst zero
    refine ⟨le_refl _, le_refl _, ?_⟩
    intro j _ impossible
    omega
  | succ last ih =>
    simp only [refineUp]
    by_cases above : i < last + 1
    · rw [if_pos above]
      by_cases used : c.inUse last = true
      · rw [if_pos used]
        exact ⟨by omega, le_refl _, fun j _ below _ => below⟩
      · rw [if_neg used]
        obtain ⟨low, high, covers⟩ := ih (by omega)
        refine ⟨low, by omega, ?_⟩
        intro j from_ below inUse
        rcases Nat.lt_succ_iff_lt_or_eq.mp below with lower | same
        · exact covers j from_ lower inUse
        · exact absurd (same ▸ inUse) used
    · rw [if_neg above]
      refine ⟨le_refl _, by omega, ?_⟩
      intro j from_ below
      omega

/-- The result of the strided scan lies in the block above the highest probed cell in
use and covers that block; it is zero when no probed cell is in use. -/
theorem cellMaxPadFrom_spec (c : KvCache) (pad : Nat) (positive : 0 < pad) :
    ∀ k last, k * pad ≤ last → last ≤ k * pad + pad →
      (∃ top, 0 < top ∧ top ≤ k ∧ c.inUse (top * pad - 1) = true ∧
        (∀ k', top < k' → k' ≤ k → c.inUse (k' * pad - 1) = false) ∧
        top * pad ≤ cellMaxPadFrom c pad positive (k * pad) last ∧
        cellMaxPadFrom c pad positive (k * pad) last ≤ top * pad + pad ∧
        ∀ j, top * pad ≤ j → j < top * pad + pad → j < last → c.inUse j = true →
          j < cellMaxPadFrom c pad positive (k * pad) last) ∨
      (cellMaxPadFrom c pad positive (k * pad) last = 0 ∧
        ∀ k', 0 < k' → k' ≤ k → c.inUse (k' * pad - 1) = false) := by
  intro k
  induction k with
  | zero =>
    intro last _ _
    right
    rw [cellMaxPadFrom]
    refine ⟨by simp, ?_⟩
    intro k' above below
    omega
  | succ k ih =>
    intro last low high
    have nonzero : ¬ (k + 1) * pad = 0 := by
      have := Nat.mul_pos (Nat.succ_pos k) positive
      simpa using this.ne'
    rw [cellMaxPadFrom, if_neg nonzero]
    by_cases probe : c.inUse ((k + 1) * pad - 1) = true
    · left
      obtain ⟨atLeast, atMost, covers⟩ := refineUp_spec c ((k + 1) * pad) last low
      rw [if_pos probe]
      refine ⟨k + 1, Nat.succ_pos k, le_refl _, probe, ?_, atLeast, by omega, ?_⟩
      · intro k' above below
        omega
      · intro j from_ _ below inUse
        exact covers j from_ below inUse
    · rw [if_neg probe]
      have previous : (k + 1) * pad - pad = k * pad := by
        rw [Nat.succ_mul, Nat.add_sub_cancel]
      rw [previous]
      have probe' : c.inUse ((k + 1) * pad - 1) = false := by simpa using probe
      have extend : ∀ top, (∀ k', top < k' → k' ≤ k → c.inUse (k' * pad - 1) = false) →
          ∀ k', top < k' → k' ≤ k + 1 → c.inUse (k' * pad - 1) = false := by
        intro top misses k' above below
        rcases Nat.le_succ_iff.mp below with lower | same
        · exact misses k' above lower
        · exact same ▸ probe'
      rcases ih ((k + 1) * pad) (by omega) (by rw [Nat.succ_mul])
        with ⟨top, pos, bounded, used, misses, atLeast, atMost, covers⟩ | ⟨zero, misses⟩
      · left
        refine ⟨top, pos, by omega, used, extend top misses, atLeast, atMost, ?_⟩
        intro j from_ below _ inUse
        apply covers j from_ below _ inUse
        have : top * pad ≤ k * pad := Nat.mul_le_mul_right pad bounded
        rw [Nat.succ_mul]
        omega
      · right
        exact ⟨zero, extend 0 misses⟩

theorem ggmlPad_ge (x n : Nat) (positive : 0 < n) : x ≤ ggmlPad x n := by
  have division := Nat.div_add_mod (x + n - 1) n
  have remainder := Nat.mod_lt (x + n - 1) positive
  simp only [ggmlPad]
  rw [Nat.mul_comm] at division
  omega

theorem ggmlPad_le_of_le_mul (x k n : Nat) (positive : 0 < n) (bounded : x ≤ k * n) :
    ggmlPad x n ≤ k * n := by
  apply Nat.mul_le_mul_right
  rw [← Nat.lt_succ_iff, Nat.div_lt_iff_lt_mul positive, Nat.succ_mul]
  omega

theorem attentionWidth_covers_iff (c : KvCache) (pad : Nat) (positive : 0 < pad)
    (multiple : pad ∣ c.size) :
    Covers c (attentionWidth c pad (kvCacheCellMaxPad c pad positive)) ↔ ProbesReach c pad := by
  obtain ⟨blocks, size⟩ := multiple
  rw [Nat.mul_comm] at size
  have spec := cellMaxPadFrom_spec c pad positive blocks c.size (by omega) (by omega)
  have unfolded : kvCacheCellMaxPad c pad positive =
      cellMaxPadFrom c pad positive (blocks * pad) c.size := by
    rw [kvCacheCellMaxPad, size]
  rw [unfolded]
  generalize cellMaxPadFrom c pad positive (blocks * pad) c.size = result at spec
  rcases spec with ⟨top, topPos, topLe, probe, misses, low, high, covers⟩ | ⟨zero, misses⟩
  · have width : max pad (ggmlPad result pad) ≤ top * pad + pad := by
      apply max_le (Nat.le_add_left _ _)
      have := ggmlPad_le_of_le_mul result (top + 1) pad positive (by rw [Nat.succ_mul]; omega)
      rwa [Nat.succ_mul] at this
    constructor
    · intro covered i inside inUse
      right
      refine ⟨top, topPos, ?_, probe, ?_⟩
      · rw [size]
        exact Nat.mul_le_mul_right pad topLe
      · have below := covered i inside inUse
        rw [attentionWidth] at below
        omega
    · intro reach i inside inUse
      rw [attentionWidth]
      have enough := ggmlPad_ge result pad positive
      rcases reach i inside inUse with first | ⟨k, kPos, kLe, kProbe, below⟩
      · omega
      · have kTop : k ≤ top := by
          by_contra above
          have fits : k ≤ blocks := by
            rw [size] at kLe
            exact Nat.le_of_mul_le_mul_right kLe positive
          have := misses k (by omega) fits
          rw [this] at kProbe
          cases kProbe
        have blockLe : k * pad ≤ top * pad := Nat.mul_le_mul_right pad kTop
        by_cases upper : top * pad ≤ i
        · have := covers i upper (by omega) inside inUse
          omega
        · omega
  · subst zero
    have width : max pad (ggmlPad 0 pad) = pad := by
      have := ggmlPad_le_of_le_mul 0 1 pad positive (Nat.zero_le _)
      omega
    constructor
    · intro covered i inside inUse
      left
      have below := covered i inside inUse
      rw [attentionWidth, width, Nat.lt_min] at below
      exact below.2
    · intro reach i inside inUse
      rw [attentionWidth, width, Nat.lt_min]
      refine ⟨inside, ?_⟩
      rcases reach i inside inUse with first | ⟨k, kPos, kLe, kProbe, below⟩
      · exact first
      · have fits : k ≤ blocks := by
          rw [size] at kLe
          exact Nat.le_of_mul_le_mul_right kLe positive
        rw [misses k kPos fits] at kProbe
        cases kProbe

end LlamaCpp.Kv
