import Mathlib.Logic.Basic

/-!
# Runs of a partial step function

`Reaches step ok s t` says that `t` comes from `s` by operations that `step`
carries out and that meet `ok` in the state they start from.  An invariant is
proved once per operation and holds in every state a run reaches.
-/

set_option autoImplicit false

namespace LlamaCpp.Lib

variable {σ α : Type*}

inductive Reaches (step : σ → α → Option σ) (ok : σ → α → Prop) (start : σ) : σ → Prop
  | refl : Reaches step ok start start
  | tail {state next : σ} {op : α} : Reaches step ok start state → ok state op →
      step state op = some next → Reaches step ok start next

theorem Reaches.invariant {step : σ → α → Option σ} {ok : σ → α → Prop} {start final : σ}
    (Holds : σ → Prop) (initial : Holds start)
    (preserved : ∀ state op next, Holds state → ok state op → step state op = some next →
      Holds next)
    (run : Reaches step ok start final) : Holds final := by
  induction run with
  | refl => exact initial
  | tail _ allowed stepped ih => exact preserved _ _ _ ih allowed stepped

/-- Runs the operations in order and stops at the first one that `ok` refuses or
that `step` does not carry out. -/
def runChecked (step : σ → α → Option σ) (ok : σ → α → Prop)
    [∀ state op, Decidable (ok state op)] (state : σ) : List α → Option σ
  | [] => some state
  | op :: rest =>
    if ok state op then
      match step state op with
      | some next => runChecked step ok next rest
      | none => none
    else none

theorem Reaches.trans {step : σ → α → Option σ} {ok : σ → α → Prop} {start middle final : σ}
    (first : Reaches step ok start middle) (second : Reaches step ok middle final) :
    Reaches step ok start final := by
  induction second with
  | refl => exact first
  | tail _ allowed stepped ih => exact ih.tail allowed stepped

theorem reaches_of_runChecked {step : σ → α → Option σ} {ok : σ → α → Prop}
    [∀ state op, Decidable (ok state op)] (ops : List α) (start final : σ)
    (run : runChecked step ok start ops = some final) : Reaches step ok start final := by
  induction ops generalizing start with
  | nil =>
    simp only [runChecked, Option.some.injEq] at run
    subst final
    exact .refl
  | cons op rest ih =>
    simp only [runChecked] at run
    split at run
    · rename_i allowed
      cases stepped : step start op with
      | none => simp [stepped] at run
      | some next =>
        rw [stepped] at run
        exact Reaches.trans (.tail .refl allowed stepped) (ih next run)
    · contradiction

theorem exists_reaches_of_runChecked {step : σ → α → Option σ} {ok : σ → α → Prop}
    [∀ state op, Decidable (ok state op)] {start : σ} (ops : List α) {test : σ → Bool}
    (passed : (runChecked step ok start ops).any test = true) :
    ∃ final, Reaches step ok start final ∧ test final = true := by
  cases run : runChecked step ok start ops with
  | none =>
    rw [run] at passed
    cases passed
  | some final =>
    rw [run] at passed
    exact ⟨final, reaches_of_runChecked ops start final run, passed⟩

end LlamaCpp.Lib
