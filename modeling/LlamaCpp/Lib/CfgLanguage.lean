import LlamaCpp.Lib.Cfg
import Mathlib.Order.CompletePartialOrder

/-!
# Languages of sentential forms

The words that a form accepts make up a language.  A form of two parts has the product of their
languages, and a nonterminal the union over its rules.  An assignment of languages that the
rules respect is above the languages of the nonterminals, so that a rule which refers to itself
behind a form has the star of the form, and a chain of rules its bounded repetitions.
-/

set_option autoImplicit false

namespace LlamaCpp.Lib

open Computability List

section

variable {σ : Type} {l : Language σ}

def repeatedTimes (l : Language σ) (within : Nat → Prop) : Language σ :=
  {cs | ∃ parts : List (List σ), cs = parts.flatten ∧ within parts.length ∧
    ∀ part ∈ parts, part ∈ l}

theorem mem_repeatedTimes {within : Nat → Prop} {cs : List σ} :
    cs ∈ repeatedTimes l within ↔ ∃ parts : List (List σ), cs = parts.flatten ∧
      within parts.length ∧ ∀ part ∈ parts, part ∈ l := Iff.rfl

theorem repeatedTimes_any : repeatedTimes l (fun _ => True) = l∗ := by
  ext cs
  rw [mem_repeatedTimes, Language.mem_kstar]
  simp

theorem repeatedTimes_exactly (n : Nat) : repeatedTimes l (fun k => k = n) = l ^ n := by
  ext cs
  rw [mem_repeatedTimes, Language.mem_pow]

theorem repeatedTimes_congr {within other : Nat → Prop} (same : ∀ k, within k ↔ other k) :
    repeatedTimes l within = repeatedTimes l other := by
  rw [show within = other from funext fun k => propext (same k)]

theorem repeatedTimes_mul (first second : Nat → Prop) :
    repeatedTimes l first * repeatedTimes l second =
      repeatedTimes l fun k => ∃ i j, first i ∧ second j ∧ k = i + j := by
  ext cs
  rw [Language.mem_mul]
  constructor
  · rintro ⟨as, ⟨front, rfl, firstWithin, inFront⟩, bs, ⟨back, rfl, secondWithin, inBack⟩, rfl⟩
    refine ⟨front ++ back, flatten_append.symm,
      ⟨_, _, firstWithin, secondWithin, length_append⟩, fun part member => ?_⟩
    rcases mem_append.mp member with before | behind
    · exact inFront part before
    · exact inBack part behind
  · rintro ⟨parts, rfl, ⟨i, j, firstWithin, secondWithin, length⟩, inParts⟩
    refine ⟨(parts.take i).flatten, ⟨parts.take i, rfl, ?_, fun part member => ?_⟩,
      (parts.drop i).flatten, ⟨parts.drop i, rfl, ?_, fun part member => ?_⟩, ?_⟩
    · rw [length_take, length, Nat.min_eq_left (Nat.le_add_right i j)]
      exact firstWithin
    · exact inParts part (mem_of_mem_take member)
    · rw [length_drop, length, Nat.add_sub_cancel_left]
      exact secondWithin
    · exact inParts part (mem_of_mem_drop member)
    · rw [← flatten_append, take_append_drop]

theorem repeatedTimes_none : repeatedTimes l (fun k => k ≤ 0) = 1 := by
  rw [repeatedTimes_congr fun k => Nat.le_zero, repeatedTimes_exactly, pow_zero]

theorem repeatedTimes_succ (n : Nat) :
    l * repeatedTimes l (fun k => k ≤ n) + 1 = repeatedTimes l fun k => k ≤ n + 1 := by
  have more : l * repeatedTimes l (fun k => k ≤ n) = repeatedTimes l fun k => 1 ≤ k ∧ k ≤ n + 1 := by
    have product := repeatedTimes_mul (l := l) (fun k => k = 1) fun k => k ≤ n
    rw [repeatedTimes_exactly, pow_one] at product
    rw [product]
    apply repeatedTimes_congr
    intro k
    constructor
    · rintro ⟨i, j, one, most, rfl⟩
      omega
    · exact fun within => ⟨1, k - 1, rfl, by omega, by omega⟩
  rw [more]
  ext cs
  constructor
  · rintro (⟨parts, same, within, inParts⟩ | empty)
    · exact ⟨parts, same, within.2, inParts⟩
    · exact ⟨[], empty, Nat.zero_le _, fun _ impossible => absurd impossible not_mem_nil⟩
  · rintro ⟨parts, same, within, inParts⟩
    cases parts with
    | nil => exact Or.inr same
    | cons part rest => exact Or.inl ⟨part :: rest, same, ⟨by simp, within⟩, inParts⟩

end

section

variable {T σ : Type} (g : ContextFreeGrammar T) (matches_ : T → σ → Prop)

def formLanguage (w : List (Symbol T g.NT)) : Language σ := {cs | Accepts g matches_ w cs}

def symbolLanguage (assigned : g.NT → Language σ) : Symbol T g.NT → Language σ
  | .terminal t => {cs | ∃ c, cs = [c] ∧ matches_ t c}
  | .nonterminal A => assigned A

def assignedLanguage (assigned : g.NT → Language σ) (w : List (Symbol T g.NT)) : Language σ :=
  (w.map (symbolLanguage g matches_ assigned)).prod

def RulesOf (A : g.NT) (outputs : List (List (Symbol T g.NT))) : Prop :=
  ∀ output, ContextFreeRule.mk A output ∈ g.rules ↔ output ∈ outputs

end

section

variable {T σ : Type} {g : ContextFreeGrammar T} {matches_ : T → σ → Prop}

theorem mem_formLanguage {w : List (Symbol T g.NT)} {cs : List σ} :
    cs ∈ formLanguage g matches_ w ↔ Accepts g matches_ w cs := Iff.rfl

theorem formLanguage_nil : formLanguage g matches_ [] = 1 := by
  ext cs
  rw [mem_formLanguage, accepts_nil_iff, Language.mem_one]

theorem formLanguage_append (a b : List (Symbol T g.NT)) :
    formLanguage g matches_ (a ++ b) = formLanguage g matches_ a * formLanguage g matches_ b := by
  ext cs
  constructor
  · intro accepts
    obtain ⟨as, bs, same, first, second⟩ := accepts.of_append
    exact ⟨as, first, bs, second, same.symm⟩
  · rintro ⟨as, first, bs, second, rfl⟩
    exact Accepts.append first second

theorem formLanguage_replicate (w : List (Symbol T g.NT)) (n : Nat) :
    formLanguage g matches_ (List.replicate n w).flatten = formLanguage g matches_ w ^ n := by
  induction n with
  | zero => rw [replicate_zero, flatten_nil, formLanguage_nil, pow_zero]
  | succ n ih => rw [replicate_succ, flatten_cons, formLanguage_append, ih, pow_succ']

theorem mem_formLanguage_nonterminal {A : g.NT} {cs : List σ} :
    cs ∈ formLanguage g matches_ [.nonterminal A] ↔
      ∃ r ∈ g.rules, r.input = A ∧ cs ∈ formLanguage g matches_ r.output := by
  rw [mem_formLanguage, accepts_nonterminal_iff]
  simp only [append_nil]
  exact Iff.rfl

theorem assignedLanguage_append (assigned : g.NT → Language σ) (a b : List (Symbol T g.NT)) :
    assignedLanguage g matches_ assigned (a ++ b) =
      assignedLanguage g matches_ assigned a * assignedLanguage g matches_ assigned b := by
  rw [assignedLanguage, map_append, prod_append]
  rfl

/-- The nonterminals have the least languages that the rules respect; by induction on the
acceptance. -/
theorem formLanguage_le_assigned {assigned : g.NT → Language σ}
    (respects : ∀ r ∈ g.rules, assignedLanguage g matches_ assigned r.output ≤ assigned r.input)
    (w : List (Symbol T g.NT)) :
    formLanguage g matches_ w ≤ assignedLanguage g matches_ assigned w := by
  intro cs accepts
  induction accepts with
  | nil => exact Language.nil_mem_one
  | @terminal t w c cs fits _ ih =>
    exact Language.append_mem_mul (a := [c]) ⟨c, rfl, fits⟩ ih
  | @rule r w cs member _ ih =>
    rw [assignedLanguage_append] at ih
    exact mul_le_mul_left (respects r member) _ ih

theorem assignedLanguage_le_form {assigned : g.NT → Language σ}
    (below : ∀ A, assigned A ≤ formLanguage g matches_ [.nonterminal A])
    (w : List (Symbol T g.NT)) :
    assignedLanguage g matches_ assigned w ≤ formLanguage g matches_ w := by
  induction w with
  | nil =>
    rw [formLanguage_nil]
    exact le_refl _
  | cons x w ih =>
    rw [← singleton_append, formLanguage_append]
    apply mul_le_mul' ?_ ih
    cases x with
    | terminal t =>
      rintro cs ⟨c, rfl, fits⟩
      exact Accepts.terminal fits .nil
    | nonterminal A => exact below A

variable {A : g.NT} {s t : List (Symbol T g.NT)}

theorem formLanguage_optional (rules : RulesOf g A [s, []]) :
    formLanguage g matches_ [.nonterminal A] = formLanguage g matches_ s + 1 := by
  have empty : formLanguage g matches_ [] = 1 := formLanguage_nil
  ext cs
  rw [mem_formLanguage_nonterminal, ← empty]
  constructor
  · rintro ⟨r, member, rfl, accepts⟩
    have here := (rules r.output).mp member
    rw [mem_cons, mem_singleton] at here
    rcases here with isForm | isEmpty
    · rw [isForm] at accepts
      exact Or.inl accepts
    · rw [isEmpty] at accepts
      exact Or.inr accepts
  · rintro (accepts | accepts)
    · exact ⟨⟨A, s⟩, (rules s).mpr (mem_cons_self ..), rfl, accepts⟩
    · exact ⟨⟨A, []⟩, (rules []).mpr (mem_cons_of_mem _ (mem_singleton.mpr rfl)), rfl,
        accepts⟩

theorem formLanguage_chain {n : Nat} (rules : RulesOf g A [s ++ t, []])
    (before : formLanguage g matches_ t = repeatedTimes (formLanguage g matches_ s) fun k => k ≤ n) :
    formLanguage g matches_ [.nonterminal A] =
      repeatedTimes (formLanguage g matches_ s) fun k => k ≤ n + 1 := by
  rw [formLanguage_optional rules, formLanguage_append, before, repeatedTimes_succ]

theorem formLanguage_star (rules : RulesOf g A [s ++ [.nonterminal A], []]) :
    formLanguage g matches_ [.nonterminal A] = (formLanguage g matches_ s)∗ := by
  have equation : formLanguage g matches_ [.nonterminal A] =
      formLanguage g matches_ s * formLanguage g matches_ [.nonterminal A] + 1 := by
    conv_lhs => rw [formLanguage_optional rules, formLanguage_append]
  have above : (formLanguage g matches_ s)∗ ≤ formLanguage g matches_ [.nonterminal A] := by
    have parts := equation.ge
    rw [add_le_iff] at parts
    exact kstar_le_of_mul_le_right parts.2 parts.1
  classical
  -- the star for the nonterminal, and for every other one its own language
  let assigned : g.NT → Language σ := fun B =>
    if B = A then (formLanguage g matches_ s)∗ else formLanguage g matches_ [.nonterminal B]
  have atA : assigned A = (formLanguage g matches_ s)∗ := if_pos rfl
  have below : ∀ B, assigned B ≤ formLanguage g matches_ [.nonterminal B] := by
    intro B
    by_cases here : B = A
    · rw [here, atA]
      exact above
    · exact (if_neg here).le
  have respects : ∀ r ∈ g.rules,
      assignedLanguage g matches_ assigned r.output ≤ assigned r.input := by
    intro r member
    by_cases here : r.input = A
    · have output := (rules r.output).mp (here ▸ member)
      rw [here, atA]
      rw [mem_cons, mem_singleton] at output
      rcases output with isForm | isEmpty
      · rw [isForm, assignedLanguage_append]
        have last : assignedLanguage g matches_ assigned [.nonterminal A] =
            (formLanguage g matches_ s)∗ := by
          exact (mul_one _).trans atA
        rw [last]
        exact (mul_le_mul_left (assignedLanguage_le_form below s) _).trans mul_kstar_le_kstar
      · rw [isEmpty]
        exact one_le_kstar
    · have own : assigned r.input = formLanguage g matches_ [.nonterminal r.input] := if_neg here
      rw [own]
      refine (assignedLanguage_le_form below r.output).trans fun cs accepts => ?_
      exact mem_formLanguage_nonterminal.mpr ⟨r, member, rfl, accepts⟩
  apply le_antisymm ?_ above
  have least := formLanguage_le_assigned respects [.nonterminal A]
  exact least.trans_eq ((mul_one _).trans atA)

end

end LlamaCpp.Lib
