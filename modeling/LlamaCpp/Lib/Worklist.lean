import Mathlib.Data.Set.Finite.List

/-!
# Worklists

`explore` takes nodes from a worklist, skips those it has seen, collects leafs and puts
the children of the other nodes on the list.  When it is done it has collected exactly
the leafs that can be reached, and it is done, or meets a fault, after finitely many
steps exactly when finitely many nodes can be reached.
-/

set_option autoImplicit false

namespace LlamaCpp.Lib

open List

inductive Outcome (β : Type*)
  | done (value : β)
  | aborted
  | timeout
deriving DecidableEq

namespace Outcome

variable {β γ : Type*}

protected def bind (x : Outcome β) (f : β → Outcome γ) : Outcome γ :=
  match x with
  | .done value => f value
  | .aborted => .aborted
  | .timeout => .timeout

@[simp] theorem bind_done (value : β) (f : β → Outcome γ) :
    (Outcome.done value).bind f = f value := rfl

@[simp] theorem bind_aborted (f : β → Outcome γ) : Outcome.aborted.bind f = .aborted := rfl

@[simp] theorem bind_timeout (f : β → Outcome γ) : Outcome.timeout.bind f = .timeout := rfl

theorem bind_assoc {δ : Type*} (x : Outcome β) (f : β → Outcome γ) (g : γ → Outcome δ) :
    (x.bind f).bind g = x.bind fun value => (f value).bind g := by
  cases x <;> rfl

variable {result : γ} {value : β}

theorem bind_eq_done {x : Outcome β} {f : β → Outcome γ} :
    x.bind f = .done result ↔ ∃ value, x = .done value ∧ f value = .done result := by
  cases x with
  | done value => simp
  | aborted => simp
  | timeout => simp

theorem bind_not_aborted {x : Outcome β} {f : β → Outcome γ} (first : x ≠ .aborted)
    (next : ∀ value, x = .done value → f value ≠ .aborted) : x.bind f ≠ .aborted := by
  cases x with
  | done value => exact next value rfl
  | aborted => exact absurd rfl first
  | timeout => exact fun impossible => by cases impossible

def Settles (f : Nat → Outcome β) (value : β) : Prop :=
  ∃ enough, ∀ fuel, enough ≤ fuel → f fuel = .done value

theorem settles_done (value : β) : Settles (fun _ => .done value) value := ⟨0, fun _ _ => rfl⟩

theorem Settles.bind {f : Nat → Outcome β} {g : Nat → β → Outcome γ} (first : Settles f value)
    (second : Settles (fun fuel => g fuel value) result) :
    Settles (fun fuel => (f fuel).bind (g fuel)) result := by
  obtain ⟨enough, done⟩ := first
  obtain ⟨more, next⟩ := second
  refine ⟨max enough more, fun fuel le => ?_⟩
  have value := done fuel (by omega)
  simp only [value]
  exact next fuel (by omega)

theorem Settles.succ {f g : Nat → Outcome β} (settles : Settles g value)
    (step : ∀ fuel, f (fuel + 1) = g fuel) : Settles f value := by
  obtain ⟨enough, done⟩ := settles
  refine ⟨enough + 1, fun fuel le => ?_⟩
  obtain ⟨less, rfl⟩ : ∃ less, fuel = less + 1 := ⟨fuel - 1, by omega⟩
  exact (step less).trans (done less (by omega))

/-- With enough fuel, and enough depth for a recursion, the computation is done with this value. -/
def SettlesDeep (f : Nat → Nat → Outcome β) (value : β) : Prop :=
  ∃ enough, ∀ fuel depth, enough ≤ fuel → enough ≤ depth → f fuel depth = .done value

theorem Settles.deep {f : Nat → Outcome β} (settles : Settles f value) :
    SettlesDeep (fun fuel _ => f fuel) value := by
  obtain ⟨enough, done⟩ := settles
  exact ⟨enough, fun fuel _ le _ => done fuel le⟩

theorem SettlesDeep.bind {f : Nat → Nat → Outcome β} {g : Nat → Nat → β → Outcome γ}
    (first : SettlesDeep f value)
    (second : SettlesDeep (fun fuel depth => g fuel depth value) result) :
    SettlesDeep (fun fuel depth => (f fuel depth).bind (g fuel depth)) result := by
  obtain ⟨enough, done⟩ := first
  obtain ⟨more, next⟩ := second
  refine ⟨max enough more, fun fuel depth fuelEnough depthEnough => ?_⟩
  have value := done fuel depth (by omega) (by omega)
  simp only [value]
  exact next fuel depth (by omega) (by omega)

theorem SettlesDeep.succ {f g : Nat → Nat → Outcome β} (settles : SettlesDeep g value)
    (step : ∀ fuel depth, f fuel (depth + 1) = g fuel depth) : SettlesDeep f value := by
  obtain ⟨enough, done⟩ := settles
  refine ⟨enough + 1, fun fuel depth fuelEnough depthEnough => ?_⟩
  obtain ⟨less, same⟩ : ∃ less, depth = less + 1 := ⟨depth - 1, by omega⟩
  rw [same, step]
  exact done fuel less (by omega) (by omega)

end Outcome

inductive Visit (α : Type*)
  | leaf
  | expand (children : List α)
  | fault

section

variable {α : Type*} [DecidableEq α] (visit : α → Visit α)

def explore : Nat → List α → List α → List α → Outcome (List α)
  | _, [], _, out => .done out
  | 0, _ :: _, _, _ => .timeout
  | fuel + 1, x :: todo, seen, out =>
    if x ∈ seen then explore fuel todo seen out
    else
      match visit x with
      | .leaf => explore fuel todo (x :: seen) (if x ∈ out then out else out ++ [x])
      | .expand children => explore fuel (children.reverse ++ todo) (x :: seen) out
      | .fault => .aborted

def Expands (x y : α) : Prop := ∃ children, visit x = .expand children ∧ y ∈ children

abbrev Reachable : α → α → Prop := Relation.ReflTransGen (Expands visit)

end

theorem finite_reachable {α : Type*} {visit : α → Visit α} {x : α}
    (children : ∀ y, Expands visit x y → {z | Reachable visit y z}.Finite) :
    {z | Reachable visit x z}.Finite := by
  have whole : {z | Reachable visit x z} ⊆
      {x} ∪ ⋃ y ∈ {y | Expands visit x y}, {z | Reachable visit y z} := by
    intro z path
    rcases Relation.ReflTransGen.cases_head path with here | ⟨y, step, rest⟩
    · exact Or.inl here.symm
    · exact Or.inr (Set.mem_biUnion step rest)
  have few : {y | Expands visit x y}.Finite := by
    cases found : visit x with
    | expand next =>
      refine (finite_toSet next).subset ?_
      rintro y ⟨others, same, member⟩
      rw [found, Visit.expand.injEq] at same
      exact same ▸ member
    | leaf =>
      refine Set.finite_empty.subset ?_
      rintro y ⟨others, same, -⟩
      rw [found] at same
      cases same
    | fault =>
      refine Set.finite_empty.subset ?_
      rintro y ⟨others, same, -⟩
      rw [found] at same
      cases same
  exact ((Set.finite_singleton x).union (few.biUnion children)).subset whole

/-- A set of nodes that is closed under expansion and whose leafs are collected. -/
structure Explored {α : Type*} (visit : α → Visit α) (nodes : List α) (out : List α) : Prop where
  closed : ∀ x ∈ nodes, ∀ y, Expands visit x y → y ∈ nodes
  leafs : ∀ x ∈ nodes, visit x = .leaf → x ∈ out

theorem Explored.mem_of_reachable {α : Type*} {visit : α → Visit α} {nodes out : List α} (explored : Explored visit nodes out)
    {x y : α} (member : x ∈ nodes) (path : Reachable visit x y) : y ∈ nodes := by
  induction path with
  | refl => exact member
  | tail _ step ih => exact explored.closed _ ih _ step

section

variable {α : Type*} [DecidableEq α] {visit : α → Visit α}

theorem explore_explored (fuel : Nat) (todo seen out final : List α)
    (finished : explore visit fuel todo seen out = .done final)
    (closed : ∀ x ∈ seen, ∀ y, Expands visit x y → y ∈ seen ∨ y ∈ todo)
    (leafs : ∀ x ∈ seen, visit x = .leaf → x ∈ out) :
    (∃ nodes, todo ⊆ nodes ∧ seen ⊆ nodes ∧ Explored visit nodes final) ∧ out ⊆ final ∧
      ∀ x ∈ final, x ∈ out ∨ visit x = .leaf ∧ ∃ start ∈ todo, Reachable visit start x := by
  fun_induction explore visit fuel todo seen out with
  | case1 fuel seen out =>
    cases finished
    refine ⟨⟨seen, nil_subset _, List.Subset.refl _, ?_, leafs⟩, List.Subset.refl _,
      fun x member => Or.inl member⟩
    intro x member y step
    exact (closed x member y step).resolve_right (not_mem_nil)
  | case2 => cases finished
  | case3 fuel x todo seen out old ih =>
    have closed' : ∀ z ∈ seen, ∀ y, Expands visit z y → y ∈ seen ∨ y ∈ todo := by
      intro z member y step
      rcases closed z member y step with inSeen | inTodo
      · exact Or.inl inSeen
      · rcases mem_cons.mp inTodo with here | later
        · exact Or.inl (here ▸ old)
        · exact Or.inr later
    obtain ⟨⟨nodes, todoIn, seenIn, explored⟩, kept, origin⟩ := ih finished closed' leafs
    refine ⟨⟨nodes, cons_subset.mpr ⟨seenIn old, todoIn⟩, seenIn, explored⟩, kept,
      fun y member => ?_⟩
    rcases origin y member with before | ⟨leaf, start, inTodo, path⟩
    · exact Or.inl before
    · exact Or.inr ⟨leaf, start, mem_cons_of_mem _ inTodo, path⟩
  | case4 fuel x todo seen out new leaf ih =>
    have closed' : ∀ z ∈ x :: seen, ∀ y, Expands visit z y → y ∈ x :: seen ∨ y ∈ todo := by
      intro z member y step
      rcases mem_cons.mp member with here | inSeen
      · obtain ⟨children, expands, -⟩ := step
        rw [here, leaf] at expands
        cases expands
      · rcases closed z inSeen y step with before | inTodo
        · exact Or.inl (mem_cons_of_mem _ before)
        · rcases mem_cons.mp inTodo with here | later
          · exact Or.inl (by rw [here]; exact mem_cons_self ..)
          · exact Or.inr later
    have added : out ⊆ if x ∈ out then out else out ++ [x] := by
      split
      · exact List.Subset.refl _
      · exact subset_append_left _ _
    have self : x ∈ if x ∈ out then out else out ++ [x] := by
      split
      · assumption
      · simp
    have leafs' : ∀ z ∈ x :: seen, visit z = .leaf → z ∈ if x ∈ out then out else out ++ [x] := by
      intro z member zLeaf
      rcases mem_cons.mp member with here | inSeen
      · rw [here]
        exact self
      · exact added (leafs z inSeen zLeaf)
    obtain ⟨⟨nodes, todoIn, seenIn, explored⟩, kept, origin⟩ := ih finished closed' leafs'
    have inNodes := cons_subset.mp seenIn
    refine ⟨⟨nodes, cons_subset.mpr ⟨inNodes.1, todoIn⟩, inNodes.2, explored⟩,
      fun y member => kept (added member), fun y member => ?_⟩
    rcases origin y member with before | ⟨yLeaf, start, inTodo, path⟩
    · split at before
      · exact Or.inl before
      · rcases mem_append.mp before with earlier | here
        · exact Or.inl earlier
        · rw [mem_singleton] at here
          rw [here]
          exact Or.inr ⟨leaf, x, mem_cons_self .., .refl⟩
    · exact Or.inr ⟨yLeaf, start, mem_cons_of_mem _ inTodo, path⟩
  | case5 fuel x todo seen out new children expands ih =>
    have closed' : ∀ z ∈ x :: seen, ∀ y, Expands visit z y →
        y ∈ x :: seen ∨ y ∈ children.reverse ++ todo := by
      intro z member y step
      rcases mem_cons.mp member with here | inSeen
      · obtain ⟨others, same, child⟩ := step
        rw [here, expands, Visit.expand.injEq] at same
        rw [mem_append, mem_reverse, same]
        exact Or.inr (Or.inl child)
      · rcases closed z inSeen y step with before | inTodo
        · exact Or.inl (mem_cons_of_mem _ before)
        · rcases mem_cons.mp inTodo with here | later
          · exact Or.inl (by rw [here]; exact mem_cons_self ..)
          · exact Or.inr (mem_append_right _ later)
    have leafs' : ∀ z ∈ x :: seen, visit z = .leaf → z ∈ out := by
      intro z member zLeaf
      rcases mem_cons.mp member with here | inSeen
      · rw [here, expands] at zLeaf
        cases zLeaf
      · exact leafs z inSeen zLeaf
    obtain ⟨⟨nodes, todoIn, seenIn, explored⟩, kept, origin⟩ := ih finished closed' leafs'
    have inNodes := cons_subset.mp seenIn
    refine ⟨⟨nodes, cons_subset.mpr
      ⟨inNodes.1, fun y member => todoIn (mem_append_right _ member)⟩, inNodes.2, explored⟩,
      kept, fun y member => ?_⟩
    rcases origin y member with before | ⟨yLeaf, start, inTodo, path⟩
    · exact Or.inl before
    · rcases mem_append.mp inTodo with child | later
      · have step : Expands visit x start := ⟨children, expands, mem_reverse.mp child⟩
        exact Or.inr ⟨yLeaf, x, mem_cons_self .., .head step path⟩
      · exact Or.inr ⟨yLeaf, start, mem_cons_of_mem _ later, path⟩
  | case6 => cases finished

variable {fuel : Nat} {todo out : List α}

theorem mem_explore {final : List α} (finished : explore visit fuel todo [] out = .done final)
    (x : α) : x ∈ final ↔ x ∈ out ∨ visit x = .leaf ∧ ∃ start ∈ todo, Reachable visit start x := by
  obtain ⟨⟨nodes, todoIn, -, explored⟩, kept, origin⟩ := explore_explored fuel todo [] out final
    finished (fun x impossible => by cases impossible) (fun x impossible => by cases impossible)
  refine ⟨origin x, fun reason => ?_⟩
  rcases reason with before | ⟨leaf, start, inTodo, path⟩
  · exact kept before
  · exact explored.leafs x (explored.mem_of_reachable (todoIn inTodo) path) leaf

theorem explore_more_fuel {seen : List α} (enough : explore visit fuel todo seen out ≠ .timeout)
    (more : Nat) :
    explore visit (fuel + more) todo seen out = explore visit fuel todo seen out := by
  fun_induction explore visit fuel todo seen out with
  | case1 fuel seen out => rw [explore]
  | case2 => exact absurd rfl enough
  | case3 fuel x todo seen out old ih =>
    rw [Nat.succ_add, explore, if_pos old, ih enough]
  | case4 fuel x todo seen out new leaf ih =>
    rw [Nat.succ_add, explore, if_neg new, leaf]
    exact ih enough
  | case5 fuel x todo seen out new children expands ih =>
    rw [Nat.succ_add, explore, if_neg new, expands]
    exact ih enough
  | case6 fuel x todo seen out new fault =>
    rw [Nat.succ_add, explore, if_neg new, fault]

theorem explore_out (fuel : Nat) (todo seen out other : List α) :
    (explore visit fuel todo seen out = .timeout ↔ explore visit fuel todo seen other = .timeout) ∧
      (explore visit fuel todo seen out = .aborted ↔
        explore visit fuel todo seen other = .aborted) := by
  fun_induction explore visit fuel todo seen out generalizing other with
  | case1 fuel seen out => simp [explore]
  | case2 => simp [explore]
  | case3 fuel x todo seen out old ih => simpa only [explore, if_pos old] using ih other
  | case4 fuel x todo seen out new leaf ih =>
    simpa only [explore, if_neg new, leaf] using ih _
  | case5 fuel x todo seen out new children expands ih =>
    simpa only [explore, if_neg new, expands] using ih other
  | case6 fuel x todo seen out new fault => simp [explore, new, fault]

theorem explore_not_aborted {seen : List α}
    (sound : ∀ start ∈ todo, ∀ x, Reachable visit start x → visit x ≠ .fault) :
    explore visit fuel todo seen out ≠ .aborted := by
  fun_induction explore visit fuel todo seen out with
  | case1 fuel seen out => simp
  | case2 => simp
  | case3 fuel x todo seen out old ih =>
    exact ih fun start member => sound start (mem_cons_of_mem _ member)
  | case4 fuel x todo seen out new leaf ih =>
    exact ih fun start member => sound start (mem_cons_of_mem _ member)
  | case5 fuel x todo seen out new children expands ih =>
    refine ih fun start member y path => ?_
    rcases mem_append.mp member with child | later
    · have step : Expands visit x start := ⟨children, expands, mem_reverse.mp child⟩
      exact sound x (mem_cons_self ..) y (.head step path)
    · exact sound start (mem_cons_of_mem _ later) y path
  | case6 fuel x todo seen out new fault =>
    exact absurd fault (sound x (mem_cons_self ..) x .refl)

/-- The exploration from `x` comes to an end. -/
def Terminates (visit : α → Visit α) (x : α) : Prop :=
  ∃ fuel, explore visit fuel [x] [] [] ≠ .timeout

theorem explore_terminates (nodes : Finset α)
    (closed : ∀ x ∈ nodes, ∀ y, Expands visit x y → y ∈ nodes) (todo seen out : List α)
    (inside : ∀ x ∈ todo, x ∈ nodes) : ∃ fuel, explore visit fuel todo seen out ≠ .timeout := by
  generalize unseen : (nodes.filter (· ∉ seen)).card = count
  induction count using Nat.strong_induction_on generalizing todo seen out with
  | _ count ih =>
    induction todo with
    | nil => exact ⟨0, by simp [explore]⟩
    | cons x todo ihTodo =>
      have rest : ∀ y ∈ todo, y ∈ nodes := fun y member =>
        inside y (mem_cons_of_mem _ member)
      by_cases old : x ∈ seen
      · obtain ⟨fuel, finishes⟩ := ihTodo rest
        refine ⟨fuel + 1, ?_⟩
        rw [explore, if_pos old]
        exact finishes
      · have inNodes := inside x (mem_cons_self ..)
        have fewer : (nodes.filter (· ∉ x :: seen)).card < count := by
          rw [← unseen]
          apply Finset.card_lt_card
          refine Finset.ssubset_iff_of_subset ?_ |>.mpr ⟨x, ?_, ?_⟩
          · intro y member
            simp only [Finset.mem_filter, mem_cons, not_or] at member ⊢
            exact ⟨member.1, member.2.2⟩
          · simp [inNodes, old]
          · simp
        cases found : visit x with
        | leaf =>
          obtain ⟨fuel, finishes⟩ := ih _ fewer todo (x :: seen)
            (if x ∈ out then out else out ++ [x]) rest rfl
          refine ⟨fuel + 1, ?_⟩
          rw [explore, if_neg old, found]
          exact finishes
        | expand children =>
          have inside' : ∀ y ∈ children.reverse ++ todo, y ∈ nodes := by
            intro y member
            rcases mem_append.mp member with child | later
            · exact closed x inNodes y ⟨children, found, mem_reverse.mp child⟩
            · exact rest y later
          obtain ⟨fuel, finishes⟩ := ih _ fewer (children.reverse ++ todo) (x :: seen) out
            inside' rfl
          refine ⟨fuel + 1, ?_⟩
          rw [explore, if_neg old, found]
          exact finishes
        | fault =>
          refine ⟨1, ?_⟩
          rw [explore, if_neg old, found]
          simp

theorem terminates_of_finite {x : α} (finite : {y | Reachable visit x y}.Finite) :
    Terminates visit x := by
  refine explore_terminates finite.toFinset ?_ [x] [] [] ?_
  · intro y member z step
    rw [Set.Finite.mem_toFinset] at member ⊢
    exact Relation.ReflTransGen.tail member step
  · intro y member
    rw [mem_singleton] at member
    rw [Set.Finite.mem_toFinset, member]
    exact Relation.ReflTransGen.refl

theorem Terminates.settles {x : α} (terminates : Terminates visit x)
    (sound : ∀ y, Reachable visit x y → visit y ≠ .fault) (out : List α) :
    ∃ final, Outcome.Settles (fun fuel => explore visit fuel [x] [] out) final := by
  obtain ⟨fuel, finishes⟩ := terminates
  have notTimeout : explore visit fuel [x] [] out ≠ .timeout := fun late =>
    finishes ((explore_out fuel [x] [] out []).1.mp late)
  have notAborted : explore visit fuel [x] [] out ≠ .aborted := by
    apply explore_not_aborted
    intro start member y path
    rw [mem_singleton] at member
    exact sound y (member ▸ path)
  cases result : explore visit fuel [x] [] out with
  | done final =>
    refine ⟨final, fuel, fun more le => ?_⟩
    have same := explore_more_fuel notTimeout (more - fuel)
    rw [Nat.add_sub_cancel' le, result] at same
    exact same
  | aborted => exact absurd result notAborted
  | timeout => exact absurd result notTimeout

end

end LlamaCpp.Lib
