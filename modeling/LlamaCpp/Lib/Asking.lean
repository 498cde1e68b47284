import Mathlib.Order.WellFoundedSet

/-!
# Recursive programs as questions

A body asks questions and goes on with the answers.  A question is evaluated by its body,
whose questions are evaluated in turn; fuel bounds the depth.  When the questions are
finitely many and none leads back to itself, every question has an answer.
-/

set_option autoImplicit false

namespace LlamaCpp.Lib

variable {Q A R : Type*}

inductive Asking (Q A R : Type*)
  | done (result : R)
  | ask (question : Q) (next : A → Asking Q A R)
  | abort

namespace Asking

def run (oracle : Q → Option A) : Asking Q A R → Option R
  | done result => some result
  | ask question next => (oracle question).bind fun answer => (next answer).run oracle
  | abort => none

def Asks (oracle : Q → Option A) : Asking Q A R → Q → Prop
  | done _, _ => False
  | ask question next, asked =>
    asked = question ∨ ∃ answer, oracle question = some answer ∧ (next answer).Asks oracle asked
  | abort, _ => False

def AsksOnly (allowed : Q → Prop) : Asking Q A R → Prop
  | done _ => True
  | ask question next => allowed question ∧ ∀ answer, (next answer).AsksOnly allowed
  | abort => False

section Oracle

variable {oracle wider : Q → Option A}

@[simp] theorem run_done (result : R) : (done result : Asking Q A R).run oracle = some result := rfl

@[simp] theorem run_ask (question : Q) (next : A → Asking Q A R) :
    (ask question next).run oracle =
      (oracle question).bind fun answer => (next answer).run oracle := rfl

theorem run_ask_some {question : Q} {next : A → Asking Q A R} {result : R}
    (runs : (ask question next).run oracle = some result) :
    ∃ answer, oracle question = some answer ∧ (next answer).run oracle = some result :=
  Option.bind_eq_some_iff.mp runs

theorem Asks.head (question : Q) (next : A → Asking Q A R) :
    (ask question next).Asks oracle question := .inl rfl

theorem Asks.next {question asked : Q} {next : A → Asking Q A R} {answer : A}
    (answered : oracle question = some answer) (later : (next answer).Asks oracle asked) :
    (ask question next).Asks oracle asked := .inr ⟨answer, answered, later⟩

theorem AsksOnly.ask {allowed : Q → Prop} {question : Q} {next : A → Asking Q A R}
    (here : allowed question) (rest : ∀ answer, (next answer).AsksOnly allowed) :
    (Asking.ask question next).AsksOnly allowed := ⟨here, rest⟩

theorem AsksOnly.of_asks {allowed : Q → Prop} {body : Asking Q A R} (only : body.AsksOnly allowed)
    {asked : Q} (asks : body.Asks oracle asked) : allowed asked := by
  induction body with
  | done kept => exact absurd asks id
  | ask question next ih =>
    rcases asks with here | ⟨answer, -, later⟩
    · rw [here]
      exact only.1
    · exact ih answer (only.2 answer) later
  | abort => exact absurd asks id

theorem run_mono (more : ∀ q a, oracle q = some a → wider q = some a) (body : Asking Q A R)
    {result : R} (runs : body.run oracle = some result) : body.run wider = some result := by
  induction body with
  | done kept => exact runs
  | ask question next ih =>
    obtain ⟨answer, answered, rest⟩ := run_ask_some runs
    rw [run_ask, more question answer answered]
    exact ih answer rest
  | abort => cases runs

theorem Asks.mono (more : ∀ q a, oracle q = some a → wider q = some a) (body : Asking Q A R)
    {asked : Q} (asks : body.Asks oracle asked) : body.Asks wider asked := by
  induction body with
  | done kept => exact asks
  | ask question next ih =>
    rcases asks with here | ⟨answer, answered, later⟩
    · exact .inl here
    · exact .inr ⟨answer, more question answer answered, ih answer later⟩
  | abort => exact asks

end Oracle

variable (body : Q → Asking Q A A)

def eval : Nat → Q → Option A
  | 0, _ => none
  | fuel + 1, question => (body question).run (eval fuel)

def Evaluates (question : Q) (answer : A) : Prop := ∃ fuel, eval body fuel question = some answer

def Calls (question asked : Q) : Prop := ∃ fuel, (body question).Asks (eval body fuel) asked

variable {body}

theorem eval_succ (fuel : Nat) (question : Q) (answer : A)
    (evaluated : eval body fuel question = some answer) :
    eval body (fuel + 1) question = some answer := by
  induction fuel generalizing question answer with
  | zero => cases evaluated
  | succ fuel ih => exact run_mono ih (body question) evaluated

theorem eval_mono {fuel more : Nat} (deeper : fuel ≤ more) (question : Q) (answer : A)
    (evaluated : eval body fuel question = some answer) :
    eval body more question = some answer := by
  induction more, deeper using Nat.le_induction with
  | base => exact evaluated
  | succ more _ ih => exact eval_succ more question answer ih

theorem Evaluates.unique {question : Q} {first second : A} (one : Evaluates body question first)
    (other : Evaluates body question second) : first = second := by
  obtain ⟨n, evaluated⟩ := one
  obtain ⟨m, again⟩ := other
  have left := eval_mono (le_max_left n m) question first evaluated
  have right := eval_mono (le_max_right n m) question second again
  exact Option.some.inj (left.symm.trans right)

theorem exists_run {allowed : Q → Prop} (tree : Asking Q A R) (only : tree.AsksOnly allowed)
    (answered : ∀ fuel asked, tree.Asks (eval body fuel) asked → ∃ answer,
      Evaluates body asked answer) :
    ∃ fuel result, tree.run (eval body fuel) = some result := by
  induction tree with
  | done result => exact ⟨0, result, rfl⟩
  | ask question next ih =>
    obtain ⟨answer, first, evaluated⟩ := answered 0 question (.head question next)
    have rest := ih answer (only.2 answer) fun fuel asked asks => by
      have wide := Asks.mono (eval_mono (le_max_left fuel first)) _ asks
      have known := eval_mono (le_max_right fuel first) question answer evaluated
      exact answered _ asked (.next known wide)
    obtain ⟨fuel, result, runs⟩ := rest
    refine ⟨max fuel first, result, ?_⟩
    rw [run_ask, eval_mono (le_max_right fuel first) question answer evaluated]
    exact run_mono (eval_mono (le_max_left fuel first)) _ runs
  | abort => exact absurd only id

theorem exists_evaluates {among : Set Q} {allowed : Q → Prop} (finite : among.Finite)
    (closed : ∀ question ∈ among, ∀ asked, Calls body question asked → asked ∈ among)
    (acyclic : ∀ question, ¬ Relation.TransGen (Calls body) question question)
    (only : ∀ question ∈ among, (body question).AsksOnly allowed) {question : Q}
    (member : question ∈ among) : ∃ answer, Evaluates body question answer := by
  let below : Q → Q → Prop := fun asked question => Relation.TransGen (Calls body) question asked
  have irreflexive : Std.Irrefl below := ⟨acyclic⟩
  have order : IsStrictOrder Q below := {}
  have wellFounded : among.WellFoundedOn below := finite.wellFoundedOn
  apply wellFounded.induction member
  intro question member ih
  have answered : ∀ fuel asked, (body question).Asks (eval body fuel) asked → ∃ answer,
      Evaluates body asked answer := by
    intro fuel asked asks
    have called : Calls body question asked := ⟨fuel, asks⟩
    exact ih asked (closed question member asked called) (.single called)
  obtain ⟨fuel, answer, runs⟩ := exists_run (body question) (only question member) answered
  exact ⟨answer, fuel + 1, runs⟩

end Asking

end LlamaCpp.Lib
