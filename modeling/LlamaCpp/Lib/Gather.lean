import LlamaCpp.Lib.Worklist

/-!
# Gathering results without repeats

`appendNew` puts the members of one list behind another, those that are there already left
out.  `gather` runs a function on every member of a list and puts the results together in
this way.  What has been gathered before is a prefix of what is gathered after, members that
repeat add nothing, and two gathering steps are one gathering step of both functions.
-/

set_option autoImplicit false

namespace LlamaCpp.Lib

open List

section

variable {α : Type*} [DecidableEq α]

def appendNew : List α → List α → List α
  | [], out => out
  | x :: rest, out => appendNew rest (if x ∈ out then out else out ++ [x])

theorem appendNew_append (front back out : List α) :
    appendNew (front ++ back) out = appendNew back (appendNew front out) := by
  induction front generalizing out with
  | nil => rfl
  | cons x front ih => exact ih _

theorem mem_appendNew (new out : List α) (x : α) :
    x ∈ appendNew new out ↔ x ∈ out ∨ x ∈ new := by
  induction new generalizing out with
  | nil => simp [appendNew]
  | cons y rest ih =>
    rw [appendNew, ih, mem_cons]
    split
    · rename_i old
      constructor
      · exact fun cases_ => cases_.imp_right Or.inr
      · rintro (before | here | later)
        · exact Or.inl before
        · exact Or.inl (here ▸ old)
        · exact Or.inr later
    · rw [mem_append, mem_singleton, or_assoc]

variable {out : List α}

theorem appendNew_of_subset {new : List α} (old : ∀ x ∈ new, x ∈ out) :
    appendNew new out = out := by
  induction new with
  | nil => rfl
  | cons x rest ih =>
    rw [appendNew, if_pos (old x (mem_cons_self ..))]
    exact ih fun y member => old y (mem_cons_of_mem _ member)

theorem nodup_appendNew (new : List α) (distinct : out.Nodup) : (appendNew new out).Nodup := by
  induction new generalizing out with
  | nil => exact distinct
  | cons x rest ih =>
    apply ih
    split
    · exact distinct
    · rename_i new_
      rw [nodup_append]
      refine ⟨distinct, nodup_singleton x, ?_⟩
      intro y inOut z here same
      rw [mem_singleton.mp here] at same
      exact new_ (same ▸ inOut)

theorem appendNew_of_nodup {new : List α} (distinct : (out ++ new).Nodup) :
    appendNew new out = out ++ new := by
  induction new generalizing out with
  | nil => exact (append_nil out).symm
  | cons x rest ih =>
    have isNew : x ∉ out := by
      intro old
      exact (nodup_append.mp distinct).2.2 x old x (mem_cons_self ..) rfl
    rw [appendNew, if_neg isNew, ih, append_assoc, singleton_append]
    rwa [append_assoc]

theorem appendNew_assoc (last middle out : List α) :
    appendNew (appendNew last middle) out = appendNew last (appendNew middle out) := by
  induction last generalizing middle with
  | nil => rfl
  | cons x rest ih =>
    rw [appendNew, appendNew, ih]
    by_cases old : x ∈ middle
    · have inBoth : x ∈ appendNew middle out := (mem_appendNew middle out x).mpr (Or.inr old)
      rw [if_pos old, if_pos inBoth]
    · rw [if_neg old, appendNew_append]
      rfl

end

section

variable {α β : Type*} [DecidableEq β]

/-- What `g` gives on the members of a list, put behind `out`. -/
def gather (g : α → Outcome (List β)) : List α → List β → Outcome (List β)
  | [], out => .done out
  | x :: rest, out => (g x).bind fun found => gather g rest (appendNew found out)

theorem gather_append (g : α → Outcome (List β)) (front back : List α) (out : List β) :
    gather g (front ++ back) out = (gather g front out).bind (gather g back) := by
  induction front generalizing out with
  | nil => rfl
  | cons x front ih =>
    rw [cons_append, gather, gather]
    cases g x with
    | done found => exact ih _
    | aborted => rfl
    | timeout => rfl

theorem gather_out (g : α → Outcome (List β)) (members : List α) (out : List β) :
    gather g members out =
      (gather g members []).bind fun found => .done (appendNew found out) := by
  induction members generalizing out with
  | nil => rfl
  | cons x rest ih =>
    rw [gather, gather]
    cases g x with
    | aborted => rfl
    | timeout => rfl
    | done found =>
      simp only [Outcome.bind_done]
      rw [ih (appendNew found out), ih (appendNew found [])]
      cases gather g rest [] with
      | aborted => rfl
      | timeout => rfl
      | done more =>
        simp only [Outcome.bind_done]
        rw [appendNew_assoc, appendNew_assoc]
        rfl

theorem gather_member {g : α → Outcome (List β)} {members : List α} {out final : List β}
    (gathered : gather g members out = .done final) {x : α} (member : x ∈ members) :
    ∃ found, g x = .done found ∧ ∀ y ∈ found, y ∈ final := by
  have kept : ∀ (rest : List α) (before after : List β),
      gather g rest before = .done after → ∀ y ∈ before, y ∈ after := by
    intro rest before after result y inBefore
    rw [gather_out] at result
    obtain ⟨found, -, same⟩ := Outcome.bind_eq_done.mp result
    cases same
    exact (mem_appendNew found before y).mpr (Or.inl inBefore)
  induction members generalizing out with
  | nil => cases member
  | cons first rest ih =>
    obtain ⟨found, here, later⟩ := Outcome.bind_eq_done.mp gathered
    rcases mem_cons.mp member with same | inRest
    · refine ⟨found, same ▸ here, fun y inFound => ?_⟩
      exact kept rest _ final later y ((mem_appendNew found out y).mpr (Or.inr inFound))
    · exact ih later inRest

end

theorem gather_appendNew {α β : Type*} [DecidableEq α] [DecidableEq β] (g : α → Outcome (List β)) (back front : List α) (out : List β) :
    gather g (appendNew back front) out = gather g (front ++ back) out := by
  induction back generalizing front with
  | nil => rw [appendNew, append_nil]
  | cons x back ih =>
    rw [appendNew]
    by_cases old : x ∈ front
    · rw [if_pos old, ih, gather_append, gather_append]
      cases first : gather g front out with
      | aborted => rfl
      | timeout => rfl
      | done middle =>
        obtain ⟨found, here, inMiddle⟩ := gather_member first old
        simp only [Outcome.bind_done]
        rw [gather, here, Outcome.bind_done, appendNew_of_subset inMiddle]
    · rw [if_neg old, ih, append_assoc, singleton_append]

theorem gather_self {α : Type*} [DecidableEq α] {members : List α} (out : List α)
    (distinct : (out ++ members).Nodup) :
    gather (fun x => .done [x]) members out = .done (out ++ members) := by
  have each : ∀ (rest before : List α),
      gather (fun x => .done [x]) rest before = .done (appendNew rest before) := by
    intro rest
    induction rest with
    | nil => exact fun _ => rfl
    | cons x rest ih =>
      intro before
      rw [gather, Outcome.bind_done, ih]
      rfl
  rw [each, appendNew_of_nodup distinct]

theorem gather_bind {α β γ : Type*} [DecidableEq β] [DecidableEq γ] (g : α → Outcome (List β)) (h : β → Outcome (List γ)) (members : List α)
    (before : List β) (out final : List γ) :
    (gather g members before).bind (fun middle => gather h middle out) = .done final ↔
      ∃ start, gather h before out = .done start ∧
        gather (fun x => (g x).bind fun middle => gather h middle []) members start =
          .done final := by
  induction members generalizing before with
  | nil =>
    constructor
    · exact fun result => ⟨final, result, rfl⟩
    · rintro ⟨start, result, same⟩
      cases same
      exact result
  | cons x rest ih =>
    rw [gather]
    cases here : g x with
    | aborted => simp [gather, here]
    | timeout => simp [gather, here]
    | done found =>
      have first : ∀ start, gather (fun x => (g x).bind fun middle => gather h middle [])
          (x :: rest) start = (gather h found start).bind
            (gather (fun x => (g x).bind fun middle => gather h middle []) rest) := by
        intro start
        rw [gather, here, Outcome.bind_done, gather_out h found start, Outcome.bind_assoc]
        rfl
      simp only [Outcome.bind_done]
      rw [ih, gather_appendNew, gather_append]
      simp only [first, Outcome.bind_eq_done]
      constructor
      · rintro ⟨middle, ⟨start, result, next⟩, last⟩
        exact ⟨start, result, middle, next, last⟩
      · rintro ⟨start, result, middle, next, last⟩
        exact ⟨middle, ⟨start, result, next⟩, last⟩

theorem gather_congr {α β : Type*} [DecidableEq β] {g h : α → Outcome (List β)} {members : List α}
    (same : ∀ x ∈ members, ∀ found, g x = .done found ↔ h x = .done found) (out final : List β) :
    gather g members out = .done final ↔ gather h members out = .done final := by
  induction members generalizing out with
  | nil => exact Iff.rfl
  | cons x rest ih =>
    have later := fun found => ih (fun y member => same y (mem_cons_of_mem _ member))
      (appendNew found out)
    rw [gather, gather, Outcome.bind_eq_done, Outcome.bind_eq_done]
    apply exists_congr
    intro found
    rw [same x (mem_cons_self ..), later]

theorem nodup_gather {α β : Type*} [DecidableEq β] {g : α → Outcome (List β)} {members : List α}
    {out final : List β} (distinct : out.Nodup) (gathered : gather g members out = .done final) :
    final.Nodup := by
  rw [gather_out] at gathered
  obtain ⟨found, -, same⟩ := Outcome.bind_eq_done.mp gathered
  cases same
  exact nodup_appendNew found distinct

theorem explore_appendNew {α : Type*} [DecidableEq α] {visit : α → Visit α} (fuel : Nat)
    (todo seen out before : List α) :
    explore visit fuel todo seen (appendNew out before) =
      (explore visit fuel todo seen out).bind fun found => .done (appendNew found before) := by
  fun_induction explore visit fuel todo seen out with
  | case1 fuel seen out => rw [explore, Outcome.bind_done]
  | case2 => rw [explore, Outcome.bind_timeout]
  | case3 fuel x todo seen out old ih =>
    rw [explore, if_pos old]
    exact ih
  | case4 fuel x todo seen out new leaf ih =>
    rw [explore, if_neg new, leaf]
    have collected : (if x ∈ appendNew out before then appendNew out before
        else appendNew out before ++ [x]) =
          appendNew (if x ∈ out then out else out ++ [x]) before :=
      (appendNew_assoc [x] out before).symm
    simp only [collected]
    exact ih
  | case5 fuel x todo seen out new children expands ih =>
    rw [explore, if_neg new, expands]
    exact ih
  | case6 fuel x todo seen out new fault =>
    rw [explore, if_neg new, fault, Outcome.bind_aborted]

end LlamaCpp.Lib
