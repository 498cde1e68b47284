import Mathlib.Algebra.BigOperators.Group.List.Basic
import Mathlib.Algebra.Order.Monoid.WithTop
import Mathlib.Data.List.Induction

/-!
# Best paths

Weighted edges lead from positions to later positions.  They are worked off in an order in which
nothing leads to a position any more once an edge out of it has been used; each edge offers its
target a score and a way back, and the first best offer stays.  Then the scores are those of the
best paths from position 0, and the ways back lead along one of them.
-/

set_option autoImplicit false

namespace LlamaCpp.Lib

open List

structure Edge (κ R : Type*) where
  source : Nat
  target : Nat
  label : κ
  weight : R

/-- The best way to a position so far; the score `⊥` is below every sum of weights. -/
structure Cell (κ R : Type*) where
  label : κ
  source : Nat
  score : WithBot R

section

variable {κ R : Type*}

def IsPath (edges : List (Edge κ R)) : Nat → List (Edge κ R) → Nat → Prop
  | start, [], finish => start = finish
  | start, edge :: rest, finish =>
    edge ∈ edges ∧ edge.source = start ∧ IsPath edges edge.target rest finish

structure Scheduled (edges : List (Edge κ R)) : Prop where
  forward : ∀ edge ∈ edges, edge.source < edge.target
  ordered : edges.Pairwise fun edge later => edge.source < later.target

def backtrack (table : Nat → Cell κ R) : Nat → Nat → List (Cell κ R)
  | 0, _ => []
  | fuel + 1, position =>
    table position ::
      if (table position).source = 0 then [] else backtrack table fuel (table position).source

theorem isPath_append {edges : List (Edge κ R)} {start middle finish : Nat}
    {path more : List (Edge κ R)} (first : IsPath edges start path middle)
    (second : IsPath edges middle more finish) : IsPath edges start (path ++ more) finish := by
  induction path generalizing start with
  | nil =>
    obtain rfl : start = middle := first
    exact second
  | cons edge rest ih =>
    obtain ⟨member, from_, later⟩ := first
    exact ⟨member, from_, ih later⟩

theorem scheduled_append {edges later : List (Edge κ R)} (first : Scheduled edges)
    (second : Scheduled later)
    (ordered : ∀ edge ∈ edges, ∀ other ∈ later, edge.source < other.target) :
    Scheduled (edges ++ later) := by
  constructor
  · intro edge member
    rcases mem_append.mp member with before | after
    · exact first.forward edge before
    · exact second.forward edge after
  · exact pairwise_append.mpr ⟨first.ordered, second.ordered, ordered⟩

end

section

variable {κ R : Type*} [AddCommMonoid R] [LinearOrder R]

def relax (table : Nat → Cell κ R) (edge : Edge κ R) : Nat → Cell κ R :=
  if (table edge.target).score < (table edge.source).score + (edge.weight : WithBot R) then
    Function.update table edge.target
      ⟨edge.label, edge.source, (table edge.source).score + (edge.weight : WithBot R)⟩
  else table

def pathWeight (path : List (Edge κ R)) : R := (path.map Edge.weight).sum

structure Explains (edges : List (Edge κ R)) (table : Nat → Cell κ R) : Prop where
  origin : (table 0).score = 0
  closed : ∀ edge ∈ edges,
    (table edge.source).score + (edge.weight : WithBot R) ≤ (table edge.target).score
  reached : ∀ position, position ≠ 0 → (table position).score ≠ ⊥ →
    ∃ edge ∈ edges, edge.target = position ∧ edge.source = (table position).source ∧
      edge.label = (table position).label ∧
        (table position).score = (table edge.source).score + (edge.weight : WithBot R)

section

variable (table : Nat → Cell κ R)
include table

theorem relax_of_ne (edge : Edge κ R) {position : Nat}
    (other : position ≠ edge.target) : relax table edge position = table position := by
  unfold relax
  split
  · exact Function.update_of_ne other _ _
  · rfl

theorem le_relax (edge : Edge κ R) (position : Nat) :
    (table position).score ≤ (relax table edge position).score := by
  by_cases here : position = edge.target
  · subst here
    unfold relax
    split
    · rename_i better
      rw [Function.update_self]
      exact le_of_lt better
    · exact le_refl _
  · rw [relax_of_ne table edge here]

theorem challenger_le_relax (edge : Edge κ R) :
    (table edge.source).score + (edge.weight : WithBot R) ≤
      (relax table edge edge.target).score := by
  unfold relax
  split
  · rw [Function.update_self]
  · rename_i best
    exact not_lt.mp best

theorem relax_target (edge : Edge κ R) :
    relax table edge edge.target = table edge.target ∨
      relax table edge edge.target =
        ⟨edge.label, edge.source, (table edge.source).score + (edge.weight : WithBot R)⟩ := by
  unfold relax
  split
  · exact .inr (Function.update_self ..)
  · exact .inl rfl

end

variable {edges : List (Edge κ R)} {table : Nat → Cell κ R}

theorem Explains.relax {edge : Edge κ R} (explains : Explains edges table)
    (forward : edge.source < edge.target)
    (settled : ∀ earlier ∈ edges, earlier.source < edge.target) :
    Explains (edges ++ [edge]) (relax table edge) := by
  have same (position : Nat) (before : position < edge.target) :
      Lib.relax table edge position = table position :=
    relax_of_ne table edge (Nat.ne_of_lt before)
  constructor
  · rw [same 0 (Nat.zero_lt_of_lt forward)]
    exact explains.origin
  · intro other member
    rcases mem_append.mp member with earlier | new
    · rw [same _ (settled other earlier)]
      exact le_trans (explains.closed other earlier) (le_relax table edge _)
    · obtain rfl := mem_singleton.mp new
      rw [same _ forward]
      exact challenger_le_relax table other
  · intro position behind some_
    have old (kept : Lib.relax table edge position = table position) :
        ∃ other ∈ edges ++ [edge], other.target = position ∧
          other.source = (Lib.relax table edge position).source ∧
            other.label = (Lib.relax table edge position).label ∧
              (Lib.relax table edge position).score =
                (Lib.relax table edge other.source).score + (other.weight : WithBot R) := by
      rw [kept] at some_ ⊢
      obtain ⟨other, member, target, source, label, score⟩ :=
        explains.reached position behind some_
      refine ⟨other, mem_append_left _ member, target, source, label, ?_⟩
      rw [same _ (settled other member)]
      exact score
    by_cases here : position = edge.target
    · subst here
      rcases relax_target table edge with kept | taken
      · exact old kept
      · refine ⟨edge, mem_append_right _ (mem_singleton_self _), rfl, ?_⟩
        rw [taken, same _ forward]
        exact ⟨rfl, rfl, rfl⟩
    · exact old (relax_of_ne table edge here)

theorem explains_foldl (scheduled : Scheduled edges) (origin : (table 0).score = 0)
    (empty : ∀ position, position ≠ 0 → (table position).score = ⊥) :
    Explains edges (edges.foldl relax table) := by
  induction edges using List.reverseRecOn with
  | nil =>
    refine ⟨origin, fun edge member => ?_, fun position behind some_ => ?_⟩
    · contradiction
    · exact absurd (empty position behind) some_
  | append_singleton edges edge ih =>
    obtain ⟨earlier, -, ordered⟩ := pairwise_append.mp scheduled.ordered
    have before := ih ⟨fun other member =>
      scheduled.forward other (mem_append_left _ member), earlier⟩
    rw [foldl_append]
    refine before.relax ?_ fun other member => ?_
    · exact scheduled.forward edge (mem_append_right _ (mem_singleton_self _))
    · exact ordered other member edge (mem_singleton_self _)

theorem Explains.backtrack (explains : Explains edges table)
    (forward : ∀ edge ∈ edges, edge.source < edge.target) {fuel position : Nat}
    (enough : position ≤ fuel) (behind : position ≠ 0) (some_ : (table position).score ≠ ⊥) :
    ∃ path, IsPath edges 0 path position ∧
      ((pathWeight path : R) : WithBot R) = (table position).score ∧
        (Lib.backtrack table fuel position).map (fun cell => (cell.label, cell.source)) =
          (path.map fun edge => (edge.label, edge.source)).reverse := by
  induction fuel generalizing position with
  | zero => exact absurd (Nat.le_zero.mp enough) behind
  | succ fuel ih =>
    obtain ⟨edge, member, target, source, label, score⟩ :=
      explains.reached position behind some_
    have before := forward edge member
    rw [Lib.backtrack, ← source]
    by_cases first : edge.source = 0
    · refine ⟨[edge], ⟨member, first, target⟩, ?_, ?_⟩
      · rw [score, first, explains.origin, zero_add, pathWeight, map_singleton,
          sum_singleton]
      · rw [if_pos first, map_singleton, map_singleton, reverse_singleton,
          label, source]
    · have reachable : (table edge.source).score ≠ ⊥ := by
        intro none_
        rw [none_] at score
        exact some_ score
      obtain ⟨path, isPath, weight, back⟩ :=
        @ih edge.source (by omega) first reachable
      refine ⟨path ++ [edge], isPath_append isPath ⟨member, rfl, target⟩, ?_, ?_⟩
      · rw [score, ← weight, pathWeight, map_append, sum_append, map_singleton,
          sum_singleton, WithBot.coe_add, pathWeight]
      · rw [if_neg first, map_cons, back, map_append, reverse_append,
          map_singleton, reverse_singleton, singleton_append, label, source]

variable [IsOrderedAddMonoid R]

theorem Explains.path_le (explains : Explains edges table) {start finish : Nat}
    {path : List (Edge κ R)} (isPath : IsPath edges start path finish) :
    (table start).score + ((pathWeight path : R) : WithBot R) ≤ (table finish).score := by
  induction path generalizing start with
  | nil =>
    obtain rfl : start = finish := isPath
    rw [pathWeight, map_nil, sum_nil, WithBot.coe_zero, add_zero]
  | cons edge rest ih =>
    obtain ⟨member, rfl, later⟩ := isPath
    rw [pathWeight, map_cons, sum_cons, WithBot.coe_add, ← add_assoc]
    exact le_trans (add_le_add_left (explains.closed edge member) _) (ih later)

theorem Explains.weight_le (explains : Explains edges table) {finish : Nat}
    {path : List (Edge κ R)} (isPath : IsPath edges 0 path finish) :
    ((pathWeight path : R) : WithBot R) ≤ (table finish).score := by
  have bound := explains.path_le isPath
  rwa [explains.origin, zero_add] at bound

end

end LlamaCpp.Lib
