import Mathlib.Logic.Basic

/-!
# What a computation that may fail ensures

`Ensures result Post` says that what the computation returns meets `Post`, if it returns
anything.  The rules follow the structure of the computation.
-/

set_option autoImplicit false

namespace LlamaCpp.Lib

open List

def Ensures {ε α : Type} (result : Except ε α) (Post : α → Prop) : Prop :=
  ∀ value, result = .ok value → Post value

section

variable {ε α β : Type}

@[simp] theorem ok_bind (value : α) (next : α → Except ε β) :
    (Except.ok value >>= next) = next value := rfl

theorem ensures_ok {value : α} {Post : α → Prop} (post : Post value) :
    Ensures (.ok value : Except ε α) Post := by
  intro returned same
  cases same
  exact post

variable {failure : ε}

theorem ensures_error {Post : α → Prop} : Ensures (.error failure : Except ε α) Post := by
  intro returned impossible
  cases impossible

theorem Ensures.mono {result : Except ε α} {Post Weaker : α → Prop} (ensured : Ensures result Post)
    (weaken : ∀ value, Post value → Weaker value) : Ensures result Weaker :=
  fun value returned => weaken value (ensured value returned)

theorem Ensures.bind {result : Except ε α} {next : α → Except ε β} {Middle : α → Prop}
    {Post : β → Prop} (first : Ensures result Middle)
    (second : ∀ value, Middle value → Ensures (next value) Post) :
    Ensures (result >>= next) Post := by
  cases result with
  | ok value => exact second value (first value rfl)
  | error failure => exact ensures_error

theorem ensures_ite {c : Prop} [Decidable c] {yes no : Except ε α} {Post : α → Prop}
    (whenTrue : c → Ensures yes Post) (whenFalse : ¬ c → Ensures no Post) :
    Ensures (if c then yes else no) Post := by
  split
  · rename_i holds
    exact whenTrue holds
  · rename_i fails
    exact whenFalse fails

theorem bind_eq_ok {result : Except ε α} {next : α → Except ε β} {final : β} :
    (result >>= next) = .ok final ↔ ∃ value, result = .ok value ∧ next value = .ok final := by
  cases result with
  | ok value =>
    constructor
    · exact fun returned => ⟨value, rfl, returned⟩
    · rintro ⟨other, same, returned⟩
      cases same
      exact returned
  | error failure =>
    constructor
    · exact fun impossible => by cases impossible
    · rintro ⟨other, impossible, -⟩
      cases impossible

theorem bind_eq_error {result : Except ε α} {next : α → Except ε β} :
    (result >>= next) = .error failure ↔
      result = .error failure ∨ ∃ value, result = .ok value ∧ next value = .error failure := by
  cases result with
  | ok value =>
    constructor
    · exact fun failed => .inr ⟨value, rfl, failed⟩
    · intro failed
      obtain impossible | ⟨other, same, failed⟩ := failed
      · cases impossible
      · cases same
        exact failed
  | error first =>
    constructor
    · intro failed
      have same : (Except.error first : Except ε β) = .error failure := failed
      cases same
      exact .inl rfl
    · intro failed
      obtain same | ⟨other, impossible, -⟩ := failed
      · cases same
        rfl
      · cases impossible

theorem ensures_foldlM {Holds : β → Prop} {next : β → α → Except ε β} {items : List α} {start : β}
    (initial : Holds start)
    (preserved : ∀ state item, item ∈ items → Holds state → Ensures (next state item) Holds) :
    Ensures (items.foldlM next start) Holds := by
  induction items generalizing start with
  | nil => exact ensures_ok initial
  | cons first rest ih =>
    refine (preserved start first mem_cons_self initial).bind fun state holds => ih holds ?_
    exact fun state item member => preserved state item (mem_cons_of_mem _ member)

theorem ensures_foldlM_zipIdx {Holds : Nat → β → Prop} {next : β → α × Nat → Except ε β}
    {items : List α} {start : β} {k : Nat} (initial : Holds k start)
    (preserved : ∀ i item state, items[i]? = some item → Holds (k + i) state →
      Ensures (next state (item, k + i)) (Holds (k + i + 1))) :
    Ensures ((items.zipIdx k).foldlM next start) (Holds (k + items.length)) := by
  induction items generalizing start k with
  | nil => exact ensures_ok initial
  | cons first rest ih =>
    rw [zipIdx_cons, length_cons]
    have stepped := preserved 0 first start rfl initial
    refine stepped.bind fun state holds => ?_
    have final := ih holds fun i item later at' holdsLater => by
      have shifted := preserved (i + 1) item later at'
      rw [show k + (i + 1) = k + 0 + 1 + i by omega] at shifted
      exact shifted holdsLater
    rw [show k + (rest.length + 1) = k + 0 + 1 + rest.length by omega]
    exact final

theorem foldlM_eq_error {next : β → α → Except ε β} {items : List α} {start : β} :
    items.foldlM next start = .error failure ↔
      ∃ done item rest state, items = done ++ item :: rest ∧
        done.foldlM next start = .ok state ∧ next state item = .error failure := by
  induction items generalizing start with
  | nil =>
    constructor
    · intro impossible
      cases impossible
    · rintro ⟨done, item, rest, state, parts, -⟩
      simp at parts
  | cons first others ih =>
    rw [foldlM_cons, bind_eq_error]
    constructor
    · rintro (failed | ⟨state, stepped, failed⟩)
      · exact ⟨[], first, others, start, rfl, rfl, failed⟩
      · obtain ⟨done, item, rest, final, parts, ran, failed⟩ := ih.mp failed
        refine ⟨first :: done, item, rest, final, by rw [parts]; rfl, ?_, failed⟩
        rw [foldlM_cons, stepped, ok_bind, ran]
    · rintro ⟨done, item, rest, final, parts, ran, failed⟩
      cases done with
      | nil =>
        obtain ⟨same, -⟩ := List.cons.inj parts
        cases ran
        exact .inl (same ▸ failed)
      | cons head done =>
        obtain ⟨same, others⟩ := List.cons.inj parts
        subst head
        rw [foldlM_cons, bind_eq_ok] at ran
        obtain ⟨state, stepped, ran⟩ := ran
        exact .inr ⟨state, stepped, ih.mpr ⟨done, item, rest, final, others, ran, failed⟩⟩

theorem ensures_forM {check : α → Except ε Unit} {Passed : α → Prop}
    (each : ∀ item, Ensures (check item) fun _ => Passed item) (items : List α) :
    Ensures (items.forM check) fun _ => ∀ item ∈ items, Passed item := by
  induction items with
  | nil => exact ensures_ok fun item impossible => by cases impossible
  | cons first rest ih =>
    refine (each first).bind fun _ passed => ih.mono fun _ others => ?_
    intro item member
    rcases mem_cons.mp member with here | later
    · rw [here]
      exact passed
    · exact others item later

theorem forM_ok {check : α → Except ε Unit} {items : List α}
    (passes : ∀ item ∈ items, check item = .ok ()) : items.forM check = .ok () := by
  induction items with
  | nil => rfl
  | cons first rest ih =>
    change (check first >>= fun _ => rest.forM check) = _
    rw [passes first (mem_cons_self ..)]
    exact ih fun item member => passes item (mem_cons_of_mem _ member)

theorem foldlM_ok {next : β → α → Except ε β} {items : List α}
    (returns : ∀ state, ∀ item ∈ items, ∃ later, next state item = .ok later) (start : β) :
    ∃ final, items.foldlM next start = .ok final := by
  induction items generalizing start with
  | nil => exact ⟨start, rfl⟩
  | cons first rest ih =>
    obtain ⟨later, stepped⟩ := returns start first mem_cons_self
    rw [foldlM_cons, stepped]
    exact ih (fun state item member => returns state item (mem_cons_of_mem _ member)) later

theorem mapM_ok {α β : Type} {call : α → Except ε β} {value : α → β} {items : List α}
    (returns : ∀ item ∈ items, call item = .ok (value item)) :
    items.mapM call = .ok (items.map value) := by
  induction items with
  | nil => rfl
  | cons first rest ih =>
    rw [mapM_cons, returns first mem_cons_self, ih fun item member => returns item (mem_cons_of_mem _ member)]
    rfl

end

end LlamaCpp.Lib
