import Mathlib.Computability.ContextFreeGrammar
import Mathlib.Data.Set.Finite.Basic

/-!
# Context-free grammars: left corners and leftmost acceptance

A nonterminal derives a sentential form that starts with itself exactly when it lies on a
cycle of left corners, where a left corner skips symbols that derive the empty string.
`Accepts` reads a sentential form from the left against a word over another alphabet, each
terminal standing for the letters it matches; it holds exactly for the words that match a
derived string of terminals.
-/

set_option autoImplicit false

namespace LlamaCpp.Lib

open List

variable {T : Type} {g : ContextFreeGrammar T}

variable {a b w : List (Symbol T g.NT)} {A B : g.NT}

theorem produces_append (step : g.Produces (a ++ b) w) :
    (∃ a', g.Produces a a' ∧ w = a' ++ b) ∨ ∃ b', g.Produces b b' ∧ w = a ++ b' := by
  obtain ⟨r, member, rewrites⟩ := step
  induction a generalizing w with
  | nil => exact Or.inr ⟨w, ⟨r, member, rewrites⟩, rfl⟩
  | cons x a ih =>
    cases rewrites with
    | head => exact Or.inl ⟨r.output ++ a, ⟨r, member, .head a⟩, (append_assoc ..).symm⟩
    | cons _ later =>
      rcases ih later with ⟨a', ⟨r', member', rewrites'⟩, same⟩ | ⟨b', step', same⟩
      · exact Or.inl ⟨x :: a', ⟨r', member', .cons x rewrites'⟩, by rw [same]; rfl⟩
      · exact Or.inr ⟨b', step', by rw [same]; rfl⟩

theorem derives_append (derivation : g.Derives (a ++ b) w) :
    ∃ a' b', w = a' ++ b' ∧ g.Derives a a' ∧ g.Derives b b' := by
  induction derivation with
  | refl => exact ⟨a, b, rfl, Relation.ReflTransGen.refl, Relation.ReflTransGen.refl⟩
  | tail _ step ih =>
    obtain ⟨a', b', same, first, second⟩ := ih
    subst same
    rcases produces_append step with ⟨a'', more, same⟩ | ⟨b'', more, same⟩
    · exact ⟨a'', b', same, first.tail more, second⟩
    · exact ⟨a', b'', same, first, second.tail more⟩

theorem derives_append_nil : g.Derives (a ++ b) [] ↔ g.Derives a [] ∧ g.Derives b [] := by
  constructor
  · intro derivation
    obtain ⟨a', b', same, first, second⟩ := derives_append derivation
    rw [nil_eq, append_eq_nil_iff] at same
    rw [same.1] at first
    rw [same.2] at second
    exact ⟨first, second⟩
  · intro both
    exact (both.1.append_right b).trans both.2

/-- Some rule for `A` has `B` after symbols that derive the empty string. -/
def LeftCorner (g : ContextFreeGrammar T) (A B : g.NT) : Prop :=
  ∃ r ∈ g.rules, r.input = A ∧
    ∃ p q, r.output = p ++ Symbol.nonterminal B :: q ∧ g.Derives p []

/-- In one or more steps `A` derives a sentential form that starts with `A`. -/
def LeftRecursive (g : ContextFreeGrammar T) (A : g.NT) : Prop :=
  ∃ u v, g.Produces [.nonterminal A] u ∧ g.Derives u (.nonterminal A :: v)

theorem LeftCorner.derives (corner : LeftCorner g A B) :
    ∃ u v, g.Produces [.nonterminal A] u ∧ g.Derives u (.nonterminal B :: v) := by
  obtain ⟨r, member, here, p, q, output, empty⟩ := corner
  refine ⟨r.output, q, ⟨r, member, by rw [← here]; exact .input_output⟩, ?_⟩
  rw [output]
  exact empty.append_right _

theorem derives_of_leftCorners (path : Relation.ReflTransGen (LeftCorner g) A B) :
    ∃ v, g.Derives [.nonterminal A] (.nonterminal B :: v) := by
  induction path with
  | refl => exact ⟨[], Relation.ReflTransGen.refl⟩
  | tail _ corner ih =>
    obtain ⟨v, derivation⟩ := ih
    obtain ⟨u, v', step, more⟩ := corner.derives
    have next : g.Derives [.nonterminal _] _ := Relation.ReflTransGen.head step more
    have next := next.append_right v
    exact ⟨v' ++ v, derivation.trans next⟩

theorem head_of_rewrites {r : ContextFreeRule T g.NT} (member : r ∈ g.rules)
    {u p q : List (Symbol T g.NT)} (rewrites : r.Rewrites u w)
    (here : w = p ++ .nonterminal B :: q) (empty : g.Derives p []) :
    ∃ p' C q', u = p' ++ .nonterminal C :: q' ∧ g.Derives p' [] ∧
      (C = B ∨ LeftCorner g C B) := by
  induction rewrites generalizing p with
  | head s =>
    rcases append_eq_append_iff.mp here with ⟨a, pOut, rest⟩ | ⟨c, outP, rest⟩
    · -- the rewritten nonterminal is skipped too
      rw [pOut, derives_append_nil] at empty
      have step : g.Produces [.nonterminal r.input] r.output := ⟨r, member, .input_output⟩
      have skipped : g.Derives [.nonterminal r.input] [] := Relation.ReflTransGen.head step empty.1
      refine ⟨.nonterminal r.input :: a, B, q, by rw [rest]; rfl, ?_, Or.inl rfl⟩
      exact derives_append_nil.mpr ⟨skipped, empty.2⟩
    · cases c with
      | nil =>
        rw [append_nil] at outP
        rw [nil_append] at rest
        have step : g.Produces [.nonterminal r.input] r.output := ⟨r, member, .input_output⟩
        have skipped : g.Derives [.nonterminal r.input] [] :=
          Relation.ReflTransGen.head step (outP ▸ empty)
        exact ⟨[.nonterminal r.input], B, q, by rw [← rest]; rfl, skipped, Or.inl rfl⟩
      | cons z c =>
        rw [cons_append, List.cons.injEq] at rest
        refine ⟨[], r.input, s, rfl, Relation.ReflTransGen.refl, Or.inr ?_⟩
        exact ⟨r, member, rfl, p, c, by rw [outP, rest.1], empty⟩
  | @cons z s₁ s₂ later ih =>
    cases p with
    | nil =>
      rw [nil_append, List.cons.injEq] at here
      refine ⟨[], B, s₁, by rw [here.1]; rfl, Relation.ReflTransGen.refl, Or.inl rfl⟩
    | cons z' p =>
      rw [cons_append, List.cons.injEq] at here
      rw [← singleton_append, derives_append_nil] at empty
      obtain ⟨p', C, q', split_, skipped, related⟩ := ih here.2 empty.2
      refine ⟨z' :: p', C, q', by rw [here.1, split_]; rfl, ?_, related⟩
      rw [← singleton_append, derives_append_nil]
      exact ⟨empty.1, skipped⟩

theorem head_of_derives {u v : List (Symbol T g.NT)}
    (derivation : g.Derives u (.nonterminal A :: v)) :
    ∃ p C q, u = p ++ .nonterminal C :: q ∧ g.Derives p [] ∧
      Relation.ReflTransGen (LeftCorner g) C A := by
  induction derivation using Relation.ReflTransGen.head_induction_on with
  | refl => exact ⟨[], A, v, rfl, Relation.ReflTransGen.refl, .refl⟩
  | head step _ ih =>
    obtain ⟨p, C, q, split_, empty, path⟩ := ih
    obtain ⟨r, member, rewrites⟩ := step
    obtain ⟨p', D, q', same, skipped, related⟩ := head_of_rewrites member rewrites split_ empty
    refine ⟨p', D, q', same, skipped, ?_⟩
    rcases related with here | corner
    · rw [here]
      exact path
    · exact .head corner path

theorem leftRecursive_iff : LeftRecursive g A ↔ Relation.TransGen (LeftCorner g) A A := by
  constructor
  · rintro ⟨u, v, ⟨r, member, rewrites⟩, derivation⟩
    obtain ⟨p, C, q, split_, empty, path⟩ := head_of_derives derivation
    have output : r.input = A ∧ r.output = u := by
      cases rewrites with
      | head => exact ⟨rfl, (append_nil _).symm⟩
      | cons _ later => cases later
    exact .head' ⟨r, member, output.1, p, q, output.2.trans split_, empty⟩ path
  · intro cycle
    obtain ⟨B, corner, path⟩ := Relation.TransGen.head'_iff.mp cycle
    obtain ⟨u, v, step, more⟩ := corner.derives
    obtain ⟨v', derivation⟩ := derives_of_leftCorners path
    exact ⟨u, v' ++ v, step, more.trans (derivation.append_right v)⟩

theorem wellFounded_leftCorner (acyclic : ∀ A, ¬ LeftRecursive g A) :
    WellFounded fun B A => LeftCorner g A B := by
  -- only the finitely many nonterminals with a rule have left corners
  have finite : Finite {A : g.NT // ∃ r ∈ g.rules, r.input = A} := by
    have image := (g.rules.finite_toSet.image ContextFreeRule.input)
    exact image.to_subtype
  let below : {A : g.NT // ∃ r ∈ g.rules, r.input = A} →
      {A : g.NT // ∃ r ∈ g.rules, r.input = A} → Prop :=
    fun B A => Relation.TransGen (LeftCorner g) A.1 B.1
  have irrefl : Std.Irrefl below := ⟨fun A cycle => acyclic A.1 (leftRecursive_iff.mpr cycle)⟩
  have wellFounded := Finite.wellFounded_of_trans_of_irrefl below
  have withRule : ∀ A : {A : g.NT // ∃ r ∈ g.rules, r.input = A},
      Acc (fun B A => LeftCorner g A B) A.1 := by
    intro A
    induction A using wellFounded.induction with
    | _ A ih =>
      refine Acc.intro _ fun B corner => ?_
      by_cases ruled : ∃ r ∈ g.rules, r.input = B
      · exact ih ⟨B, ruled⟩ (.single corner)
      · refine Acc.intro _ fun C next => ?_
        obtain ⟨r, member, here, -⟩ := next
        exact absurd ⟨r, member, here⟩ ruled
  refine ⟨fun A => Acc.intro _ fun B corner => ?_⟩
  obtain ⟨r, member, here, rest⟩ := corner
  exact (withRule ⟨A, r, member, here⟩).inv ⟨r, member, here, rest⟩

section

variable {σ : Type} (g) (matches_ : T → σ → Prop)

/-- The word is read from the left, the first nonterminal being replaced when it is met. -/
inductive Accepts : List (Symbol T g.NT) → List σ → Prop
  | nil : Accepts [] []
  | terminal {t : T} {w : List (Symbol T g.NT)} {c : σ} {cs : List σ} (fits : matches_ t c)
      (rest : Accepts w cs) : Accepts (.terminal t :: w) (c :: cs)
  | rule {r : ContextFreeRule T g.NT} {w : List (Symbol T g.NT)} {cs : List σ}
      (member : r ∈ g.rules) (rest : Accepts (r.output ++ w) cs) :
      Accepts (.nonterminal r.input :: w) cs

def matchedLanguage : Set (List σ) := {cs | ∃ u ∈ g.language, List.Forall₂ matches_ u cs}

end

section

variable {σ : Type} {matches_ : T → σ → Prop}

variable {cs : List σ} {w : List (Symbol T g.NT)}

theorem accepts_nil_iff : Accepts g matches_ [] cs ↔ cs = [] := by
  constructor
  · intro accepts
    cases accepts
    rfl
  · intro empty
    rw [empty]
    exact .nil

theorem accepts_terminal_iff {t : T} : Accepts g matches_ (.terminal t :: w) cs ↔
      ∃ c rest, cs = c :: rest ∧ matches_ t c ∧ Accepts g matches_ w rest := by
  constructor
  · intro accepts
    cases accepts with
    | terminal fits rest => exact ⟨_, _, rfl, fits, rest⟩
  · rintro ⟨c, rest, same, fits, accepts⟩
    rw [same]
    exact .terminal fits accepts

theorem accepts_nonterminal_iff {A : g.NT} : Accepts g matches_ (.nonterminal A :: w) cs ↔
      ∃ r ∈ g.rules, r.input = A ∧ Accepts g matches_ (r.output ++ w) cs := by
  constructor
  · intro accepts
    cases accepts with
    | rule member rest => exact ⟨_, member, rfl, rest⟩
  · rintro ⟨r, member, here, accepts⟩
    rw [← here]
    exact .rule member accepts

theorem Accepts.append {a b : List (Symbol T g.NT)} {ds : List σ}
    (first : Accepts g matches_ a cs) (second : Accepts g matches_ b ds) :
    Accepts g matches_ (a ++ b) (cs ++ ds) := by
  induction first with
  | nil => exact second
  | terminal fits _ ih => exact .terminal fits ih
  | rule member _ ih =>
    rw [append_assoc] at ih
    exact .rule member ih

theorem Accepts.of_append {a b : List (Symbol T g.NT)} (accepts : Accepts g matches_ (a ++ b) cs) :
    ∃ as bs, cs = as ++ bs ∧ Accepts g matches_ a as ∧ Accepts g matches_ b bs := by
  generalize whole : a ++ b = w at accepts
  induction accepts generalizing a with
  | nil =>
    rw [append_eq_nil_iff] at whole
    rw [whole.1, whole.2]
    exact ⟨[], [], rfl, .nil, .nil⟩
  | @terminal t w c cs fits rest ih =>
    cases a with
    | nil =>
      rw [nil_append] at whole
      rw [whole]
      exact ⟨[], c :: cs, rfl, .nil, .terminal fits rest⟩
    | cons x a =>
      rw [cons_append, List.cons.injEq] at whole
      obtain ⟨as, bs, same, first, second⟩ := ih whole.2
      rw [whole.1]
      exact ⟨c :: as, bs, by rw [same]; rfl, .terminal fits first, second⟩
  | @rule r w cs member rest ih =>
    cases a with
    | nil =>
      rw [nil_append] at whole
      rw [whole]
      exact ⟨[], cs, rfl, .nil, .rule member rest⟩
    | cons x a =>
      rw [cons_append, List.cons.injEq] at whole
      have next : (r.output ++ a) ++ b = r.output ++ w := by
        rw [append_assoc, whole.2]
      obtain ⟨as, bs, same, first, second⟩ := ih next
      rw [whole.1]
      exact ⟨as, bs, same, .rule member first, second⟩

theorem Accepts.of_rewrites {r : ContextFreeRule T g.NT} (member : r ∈ g.rules)
    {u : List (Symbol T g.NT)} (rewrites : r.Rewrites u w) (accepts : Accepts g matches_ w cs) :
    Accepts g matches_ u cs := by
  induction rewrites generalizing cs with
  | head => exact .rule member accepts
  | cons x _ ih =>
    cases accepts with
    | terminal fits rest => exact .terminal fits (ih rest)
    | rule member' rest =>
      obtain ⟨as, bs, same, first, second⟩ := rest.of_append
      rw [same]
      exact .rule member' (first.append (ih second))

theorem accepts_terminals {u : List T} (fits : List.Forall₂ matches_ u cs) :
    Accepts g matches_ (u.map Symbol.terminal) cs := by
  induction fits with
  | nil => exact .nil
  | cons fit _ ih => exact .terminal fit ih

theorem accepts_iff : Accepts g matches_ w cs ↔
      ∃ u : List T, g.Derives w (u.map Symbol.terminal) ∧ List.Forall₂ matches_ u cs := by
  constructor
  · intro accepts
    induction accepts with
    | nil => exact ⟨[], Relation.ReflTransGen.refl, .nil⟩
    | @terminal t w c cs fits _ ih =>
      obtain ⟨u, derivation, rest⟩ := ih
      exact ⟨t :: u, derivation.append_left [.terminal t], .cons fits rest⟩
    | @rule r w cs member _ ih =>
      obtain ⟨u, derivation, rest⟩ := ih
      have step : g.Produces (.nonterminal r.input :: w) (r.output ++ w) := ⟨r, member, .head w⟩
      exact ⟨u, Relation.ReflTransGen.head step derivation, rest⟩
  · rintro ⟨u, derivation, fits⟩
    induction derivation using Relation.ReflTransGen.head_induction_on with
    | refl => exact accepts_terminals fits
    | head step _ ih =>
      obtain ⟨r, member, rewrites⟩ := step
      exact ih.of_rewrites member rewrites

theorem mem_matchedLanguage :
    cs ∈ matchedLanguage g matches_ ↔ Accepts g matches_ [.nonterminal g.initial] cs := by
  rw [accepts_iff]
  exact Iff.rfl

end

end LlamaCpp.Lib
