import LlamaCpp.Lib.Utf8

/-!
# The reasoning budget

After the start sequence the machine counts tokens down.  When the budget is used up it
forces the end sequence, at once when the last piece completes its code point, else after
the first piece that does.  Each piece is judged by itself, while a code point may be
spread over several pieces.
-/

set_option autoImplicit false

namespace LlamaCpp.Common

open LlamaCpp.Lib List Option

abbrev Token := Int

abbrev Piece := List Byte

/-- The loop of `common_utf8_is_complete` over the last bytes, the last one first; `i` is the
number of bytes from the current one on. -/
def completeFrom : Nat → List Byte → Bool
  | _, [] => false
  | i, c :: before =>
    if isContinuation c then completeFrom (i + 1) before else decide (sequenceLength c ≤ i)

def utf8IsComplete (s : Piece) : Bool :=
  if s = [] then true else completeFrom 1 (s.reverse.take 4)

structure TokenMatcher where
  tokens : List Token
  pos : Nat
deriving DecidableEq

namespace TokenMatcher

def advance (matcher : TokenMatcher) (token : Token) : Bool × TokenMatcher :=
  if matcher.tokens = [] then (false, matcher)
  else if matcher.tokens[matcher.pos]? = some token then
    if matcher.tokens.length ≤ matcher.pos + 1 then (true, ⟨matcher.tokens, 0⟩)
    else (false, ⟨matcher.tokens, matcher.pos + 1⟩)
  else if matcher.tokens[0]? = some token then (false, ⟨matcher.tokens, 1⟩)
  else (false, ⟨matcher.tokens, 0⟩)

def reset (matcher : TokenMatcher) : TokenMatcher := ⟨matcher.tokens, 0⟩

end TokenMatcher

inductive BudgetState
  | idle
  | counting
  | forcing
  | waitingUtf8
  | done
deriving DecidableEq

/-- `common_reasoning_budget_ctx`; the vocabulary gives the piece of a token. -/
structure BudgetCtx where
  vocab : Option (Token → Piece)
  startMatcher : TokenMatcher
  endMatcher : TokenMatcher
  forcedTokens : List Token
  budget : Int
  remaining : Int
  state : BudgetState
  forcePos : Nat

namespace BudgetCtx

/-- `common_reasoning_budget_init_state`. -/
def init (vocab : Option (Token → Piece)) (startTokens endTokens forcedTokens : List Token)
    (budget : Int) (initialState : BudgetState) : BudgetCtx :=
  let state :=
    if initialState = .counting ∧ budget ≤ 0 then .forcing else initialState
  ⟨vocab, ⟨startTokens, 0⟩, ⟨endTokens, 0⟩, forcedTokens, budget, budget, state, 0⟩

def activate (ctx : BudgetCtx) : BudgetCtx :=
  let ctx := { ctx with state := .counting, remaining := ctx.budget }
  if ctx.remaining ≤ 0 then { ctx with state := .forcing, forcePos := 0 } else ctx

def utf8Complete (ctx : BudgetCtx) (token : Token) : Bool :=
  match ctx.vocab with
  | some piece => utf8IsComplete (piece token)
  | none => true

def force (ctx : BudgetCtx) : BudgetCtx :=
  { ctx with state := .forcing, forcePos := 0, endMatcher := ctx.endMatcher.reset }

/-- The part of the step that is taken while counting or waiting, when the end sequence is
not matched. -/
def countDown (ctx : BudgetCtx) (complete : Bool) : BudgetCtx :=
  match ctx.state with
  | .waitingUtf8 => if complete then ctx.force else ctx
  | .counting =>
    let ctx := { ctx with remaining := ctx.remaining - 1 }
    if ctx.remaining ≤ 0 then
      if complete then ctx.force
      else { ctx with state := .waitingUtf8, endMatcher := ctx.endMatcher.reset }
    else ctx
  | _ => ctx

def accept (ctx : BudgetCtx) (token : Token) : BudgetCtx :=
  match ctx.state with
  | .idle =>
    let started := ctx.startMatcher.advance token
    let ctx := { ctx with startMatcher := started.2 }
    if started.1 then ctx.activate else ctx
  | .counting | .waitingUtf8 =>
    let ended := ctx.endMatcher.advance token
    let ctx := { ctx with endMatcher := ended.2 }
    if ended.1 then { ctx with state := .done } else ctx.countDown (ctx.utf8Complete token)
  | .forcing =>
    let ctx := { ctx with forcePos := ctx.forcePos + 1 }
    if ctx.forcedTokens.length ≤ ctx.forcePos then { ctx with state := .done } else ctx
  | .done =>
    let started := ctx.startMatcher.advance token
    let ctx := { ctx with startMatcher := started.2 }
    if started.1 then ({ ctx with endMatcher := ctx.endMatcher.reset }).activate else ctx

def acceptAll (ctx : BudgetCtx) (tokens : List Token) : BudgetCtx := tokens.foldl accept ctx

end BudgetCtx

theorem completeFrom_tail (i : Nat) (tail : List Byte) (lead : Byte) (before : List Byte)
    (continues : ∀ c ∈ tail, isContinuation c = true) (isLead : isContinuation lead = false) :
    completeFrom i (tail ++ lead :: before) = decide (sequenceLength lead ≤ i + tail.length) := by
  induction tail generalizing i with
  | nil => simp [completeFrom, isLead]
  | cons c tail ih =>
    have here := continues c (mem_cons_self ..)
    rw [cons_append, completeFrom, if_pos here,
      ih (i + 1) (fun d member => continues d (mem_cons_of_mem _ member)), length_cons,
      Nat.add_right_comm, Nat.add_assoc]

theorem completeFrom_continuations (i : Nat) (bytes : List Byte)
    (continues : ∀ c ∈ bytes, isContinuation c = true) : completeFrom i bytes = false := by
  induction bytes generalizing i with
  | nil => rfl
  | cons c bytes ih =>
    rw [completeFrom, if_pos (continues c (mem_cons_self ..))]
    exact ih (i + 1) fun d member => continues d (mem_cons_of_mem _ member)

theorem utf8IsComplete_iff {text : List Byte} {piece : Piece}
    (reads : (owed (text ++ piece)).isSome) (hasLead : ∃ c ∈ piece, isContinuation c = false) :
    utf8IsComplete piece = true ↔ AtBoundary (text ++ piece) := by
  obtain ⟨front, lead, tail, same, isLead, continues⟩ := exists_last_lead hasLead
  have readsFront : (owed (text ++ front)).isSome :=
    owed_of_isPrefix ⟨lead :: tail, by rw [same, append_assoc]⟩ reads
  obtain ⟨n, owes⟩ := isSome_iff_exists.mp readsFront
  have whole : owed (text ++ piece) = owedFrom n (lead :: tail) := by
    rw [same, ← append_assoc, owed_append, owes, bind_some]
  rw [whole] at reads
  obtain ⟨-, afterLead⟩ := owedFrom_lead isLead reads
  rw [afterLead] at reads
  obtain ⟨short, left⟩ := owedFrom_continuations _ tail continues reads
  have atMost := sequenceLength_le lead
  have nonempty : piece ≠ [] := by rw [same]; simp
  have last : piece.reverse.take 4 = tail.reverse ++ lead :: (front.reverse.take (3 - tail.length)) := by
    rw [same, reverse_append, reverse_cons, append_assoc, singleton_append,
      take_append, length_reverse, take_of_length_le (by rw [length_reverse]; omega)]
    congr 1
    obtain ⟨k, size⟩ : ∃ k, 4 - tail.length = k + 1 := ⟨3 - tail.length, by omega⟩
    rw [size, take_succ_cons]
    congr 2
    omega
  rw [utf8IsComplete, if_neg nonempty, last,
    completeFrom_tail _ _ _ _ (fun c member => continues c (mem_reverse.mp member)) isLead,
    AtBoundary, whole, afterLead, left, length_reverse, decide_eq_true_iff, some.injEq]
  omega

theorem utf8IsComplete_continuations {piece : Piece} (nonempty : piece ≠ [])
    (continues : ∀ c ∈ piece, isContinuation c = true) : utf8IsComplete piece = false := by
  rw [utf8IsComplete, if_neg nonempty]
  exact completeFrom_continuations _ _ fun c member =>
    continues c (mem_reverse.mp (mem_of_mem_take member))

/-- The pieces that can be judged by themselves: an empty piece stands on a code point
boundary, and continuation bytes alone do not end on one. -/
structure JudgedAlone (text : List Byte) (piece : Piece) : Prop where
  empty : piece = [] → AtBoundary text
  continuations : piece ≠ [] → (∀ c ∈ piece, isContinuation c = true) → ¬ AtBoundary (text ++ piece)

theorem complete_iff_judgedAlone {text : List Byte} {piece : Piece}
    (reads : (owed (text ++ piece)).isSome) :
    (utf8IsComplete piece = true ↔ AtBoundary (text ++ piece)) ↔ JudgedAlone text piece := by
  by_cases none_ : piece = []
  · rw [none_, append_nil]
    constructor
    · exact fun agree => ⟨fun _ => agree.mp rfl, fun off => absurd rfl off⟩
    · exact fun judged => iff_of_true rfl (judged.empty rfl)
  · by_cases continues : ∀ c ∈ piece, isContinuation c = true
    · rw [utf8IsComplete_continuations none_ continues]
      constructor
      · exact fun agree => ⟨fun empty => absurd empty none_, fun _ _ off => by cases agree.mpr off⟩
      · exact fun judged => iff_of_false (by simp) (judged.continuations none_ continues)
    · have hasLead : ∃ c ∈ piece, isContinuation c = false := by
        by_contra off
        refine continues fun c member => ?_
        by_contra isLead
        exact off ⟨c, member, by simpa using isLead⟩
      exact iff_of_true (utf8IsComplete_iff reads hasLead)
        ⟨fun empty => absurd empty none_, fun _ all => absurd all continues⟩

def textOf (piece : Token → Piece) (tokens : List Token) : List Byte := tokens.flatMap piece

structure Activates (ctx : BudgetCtx) (token : Token) : Prop where
  before : ctx.state = .idle ∨ ctx.state = .done
  after : (ctx.accept token).state ≠ .idle ∧ (ctx.accept token).state ≠ .done

/-- After `k` tokens of the window the budget is used up and the text ends on a code point
boundary. -/
def DueAt (piece : Token → Piece) (past : List Token) (budget : Int) (window : List Token) (k : Nat) :
    Prop :=
  budget ≤ k ∧ AtBoundary (textOf piece (past ++ window.take k))

/-- The state after `k` tokens of the window. -/
structure InWindow (piece : Token → Piece) (past window : List Token) (ctx : BudgetCtx) (k : Nat) :
    Prop where
  vocab : ctx.vocab = some piece
  counting : ctx.state = .counting → ctx.remaining = ctx.budget - k ∧ (k : Int) < ctx.budget
  waiting : ctx.state = .waitingUtf8 → ctx.budget ≤ k ∧ ∀ j ≤ k, ¬ DueAt piece past ctx.budget window j
  forcing : ctx.state = .forcing → ∃ j ≤ k, DueAt piece past ctx.budget window j
  active : ctx.state ≠ .idle ∧ ctx.state ≠ .done

section

variable {piece : Token → Piece} {past window : List Token} {ctx : BudgetCtx} {k : Nat}

theorem inWindow_forcing (vocab : ctx.vocab = some piece) (state : ctx.state = .forcing)
    (due : ∃ j ≤ k, DueAt piece past ctx.budget window j) : InWindow piece past window ctx k where
  vocab := vocab
  counting := fun other => by simp [state] at other
  waiting := fun other => by simp [state] at other
  forcing := fun _ => due
  active := by simp [state]

theorem inWindow_waiting (vocab : ctx.vocab = some piece) (state : ctx.state = .waitingUtf8)
    (late : ctx.budget ≤ k) (notDue : ∀ j ≤ k, ¬ DueAt piece past ctx.budget window j) :
    InWindow piece past window ctx k where
  vocab := vocab
  counting := fun other => by simp [state] at other
  waiting := fun _ => ⟨late, notDue⟩
  forcing := fun other => by simp [state] at other
  active := by simp [state]

theorem inWindow_counting (vocab : ctx.vocab = some piece) (state : ctx.state = .counting)
    (remaining : ctx.remaining = ctx.budget - k) (early : (k : Int) < ctx.budget) :
    InWindow piece past window ctx k where
  vocab := vocab
  counting := fun _ => ⟨remaining, early⟩
  waiting := fun other => by simp [state] at other
  forcing := fun other => by simp [state] at other
  active := by simp [state]

end

/-- The promise after `k` tokens: the end sequence is forced once it is due, and not before. -/
def ForcedWhenDue (piece : Token → Piece) (past window : List Token) (ctx : BudgetCtx) (k : Nat) :
    Prop :=
  ctx.state = .forcing ↔ ∃ j ≤ k, DueAt piece past ctx.budget window j

theorem InWindow.forcedWhenDue {piece : Token → Piece} {past window : List Token} {ctx : BudgetCtx}
    {k : Nat} (inWindow : InWindow piece past window ctx k) :
    ForcedWhenDue piece past window ctx k := by
  refine ⟨inWindow.forcing, fun ⟨j, le, due⟩ => ?_⟩
  cases state : ctx.state with
  | idle => exact absurd state inWindow.active.1
  | done => exact absurd state inWindow.active.2
  | forcing => rfl
  | counting =>
    have early := (inWindow.counting state).2
    have late := due.1
    omega
  | waitingUtf8 => exact absurd due ((inWindow.waiting state).2 j le)

theorem Activates.eq_activate {ctx : BudgetCtx} {token : Token} (activates : Activates ctx token) :
    ∃ ready : BudgetCtx, ready.vocab = ctx.vocab ∧ ready.budget = ctx.budget ∧
      ctx.accept token = ready.activate := by
  have after := activates.after
  rcases activates.before with idle | done_
  · cases started : (ctx.startMatcher.advance token).1 with
    | false => simp [BudgetCtx.accept, idle, started] at after
    | true =>
      refine ⟨{ ctx with startMatcher := (ctx.startMatcher.advance token).2 }, rfl, rfl, ?_⟩
      simp [BudgetCtx.accept, idle, started]
  · cases started : (ctx.startMatcher.advance token).1 with
    | false => simp [BudgetCtx.accept, done_, started] at after
    | true =>
      refine ⟨{ ctx with
        startMatcher := (ctx.startMatcher.advance token).2
        endMatcher := ctx.endMatcher.reset }, rfl, rfl, ?_⟩
      simp [BudgetCtx.accept, done_, started]

theorem Activates.inWindow {piece : Token → Piece} {ctx : BudgetCtx} {token : Token}
    {past window : List Token} (activates : Activates ctx token) (vocab : ctx.vocab = some piece)
    (first : ctx.budget ≤ 0 → AtBoundary (textOf piece past)) :
    InWindow piece past window (ctx.accept token) 0 := by
  obtain ⟨ready, sameVocab, budget, same⟩ := activates.eq_activate
  rw [same]
  rw [← budget] at first
  rw [← sameVocab] at vocab
  by_cases spent : ready.budget ≤ 0
  · have due : DueAt piece past ready.budget window 0 :=
      ⟨spent, by rw [take_zero, append_nil]; exact first spent⟩
    have state : ready.activate =
        { ready with state := .forcing, remaining := ready.budget, forcePos := 0 } := by
      simp [BudgetCtx.activate, spent]
    rw [state]
    exact inWindow_forcing vocab rfl ⟨0, Nat.le_refl _, due⟩
  · have state : ready.activate = { ready with state := .counting, remaining := ready.budget } := by
      simp [BudgetCtx.activate, spent]
    rw [state]
    refine inWindow_counting vocab rfl (by simp) ?_
    dsimp only
    omega

theorem accept_eq_countDown {ctx : BudgetCtx} {token : Token}
    (open_ : ctx.state = .counting ∨ ctx.state = .waitingUtf8)
    (goesOn : (ctx.accept token).state ≠ .done) :
    ctx.accept token = ({ ctx with endMatcher := (ctx.endMatcher.advance token).2 }).countDown
      (ctx.utf8Complete token) := by
  rcases open_ with state | state
  · cases ended : (ctx.endMatcher.advance token).1 with
    | true => simp [BudgetCtx.accept, state, ended] at goesOn
    | false => simp [BudgetCtx.accept, state, ended, BudgetCtx.utf8Complete]
  · cases ended : (ctx.endMatcher.advance token).1 with
    | true => simp [BudgetCtx.accept, state, ended] at goesOn
    | false => simp [BudgetCtx.accept, state, ended, BudgetCtx.utf8Complete]

theorem accept_forcing {ctx : BudgetCtx} {token : Token} (state : ctx.state = .forcing)
    (goesOn : (ctx.accept token).state ≠ .done) :
    ctx.accept token = { ctx with forcePos := ctx.forcePos + 1 } := by
  simp only [BudgetCtx.accept, state] at goesOn ⊢
  split
  · rename_i finished
    rw [if_pos finished] at goesOn
    exact absurd rfl goesOn
  · rfl

theorem not_due_succ {piece : Token → Piece} {past window : List Token} {budget : Int} {k : Nat}
    (notDue : ∀ j ≤ k, ¬ DueAt piece past budget window j)
    (inside : ¬ AtBoundary (textOf piece (past ++ window.take (k + 1)))) :
    ∀ j ≤ k + 1, ¬ DueAt piece past budget window j := by
  intro j le due
  rcases Nat.lt_or_eq_of_le le with earlier | here
  · exact notDue j (by omega) due
  · exact inside (here ▸ due.2)

theorem InWindow.accept {piece : Token → Piece} {past window : List Token} {ctx : BudgetCtx} {k : Nat}
    (inWindow : InWindow piece past window ctx k) {token : Token}
    (goesOn : (ctx.accept token).state ≠ .done)
    (judged : ctx.budget ≤ k + 1 → (∀ j ≤ k, ¬ DueAt piece past ctx.budget window j) →
      (utf8IsComplete (piece token) = true ↔ AtBoundary (textOf piece (past ++ window.take (k + 1))))) :
    InWindow piece past window (ctx.accept token) (k + 1) := by
  have complete : ctx.utf8Complete token = utf8IsComplete (piece token) := by
    rw [BudgetCtx.utf8Complete, inWindow.vocab]
  cases state : ctx.state with
  | idle => exact absurd state inWindow.active.1
  | done => exact absurd state inWindow.active.2
  | forcing =>
    obtain ⟨j, le, due⟩ := inWindow.forcing state
    rw [accept_forcing state goesOn]
    refine ⟨inWindow.vocab, fun off => ?_, fun off => ?_, fun _ => ⟨j, by omega, due⟩, inWindow.active⟩
    · rw [state] at off
      cases off
    · rw [state] at off
      cases off
  | counting =>
    obtain ⟨remaining, early⟩ := inWindow.counting state
    have notDue : ∀ j ≤ k, ¬ DueAt piece past ctx.budget window j := by
      intro j le due
      have late := due.1
      omega
    rw [accept_eq_countDown (Or.inl state) goesOn, complete]
    by_cases spent : ctx.remaining - 1 ≤ 0
    · have late : ctx.budget ≤ k + 1 := by omega
      have agree := judged late notDue
      by_cases whole : utf8IsComplete (piece token) = true
      · simp only [BudgetCtx.countDown, state, spent, whole]
        exact inWindow_forcing inWindow.vocab rfl
          ⟨k + 1, Nat.le_refl _, by exact_mod_cast late, agree.mp whole⟩
      · simp only [BudgetCtx.countDown, state, spent, whole]
        exact inWindow_waiting inWindow.vocab rfl (by exact_mod_cast late)
          (not_due_succ notDue fun here => whole (agree.mpr here))
    · simp only [BudgetCtx.countDown, state, spent]
      refine inWindow_counting inWindow.vocab rfl ?_ ?_
      · push_cast
        omega
      · push_cast
        omega
  | waitingUtf8 =>
    obtain ⟨late, notDue⟩ := inWindow.waiting state
    have agree := judged (by omega) notDue
    rw [accept_eq_countDown (Or.inr state) goesOn, complete]
    by_cases whole : utf8IsComplete (piece token) = true
    · simp only [BudgetCtx.countDown, state, whole, BudgetCtx.force]
      refine inWindow_forcing inWindow.vocab rfl ⟨k + 1, Nat.le_refl _, ?_, agree.mp whole⟩
      push_cast
      omega
    · simp only [BudgetCtx.countDown, state, whole]
      refine inWindow_waiting inWindow.vocab rfl ?_
        (not_due_succ notDue fun here => whole (agree.mpr here))
      push_cast
      omega

theorem accept_fixed (ctx : BudgetCtx) (token : Token) :
    (ctx.accept token).budget = ctx.budget ∧ (ctx.accept token).vocab = ctx.vocab := by
  unfold BudgetCtx.accept BudgetCtx.activate BudgetCtx.countDown BudgetCtx.force
  cases ctx.state <;> dsimp only <;> split_ifs <;> exact ⟨rfl, rfl⟩

theorem acceptAll_fixed (ctx : BudgetCtx) (tokens : List Token) :
    (ctx.acceptAll tokens).budget = ctx.budget ∧ (ctx.acceptAll tokens).vocab = ctx.vocab := by
  induction tokens generalizing ctx with
  | nil => exact ⟨rfl, rfl⟩
  | cons token tokens ih =>
    obtain ⟨budget, vocab⟩ := ih (ctx.accept token)
    obtain ⟨sameBudget, sameVocab⟩ := accept_fixed ctx token
    exact ⟨budget.trans sameBudget, vocab.trans sameVocab⟩

theorem acceptAll_take_succ (ctx : BudgetCtx) {window : List Token} {k : Nat} {token : Token}
    (next : window[k]? = some token) :
    ctx.acceptAll (window.take (k + 1)) = (ctx.acceptAll (window.take k)).accept token := by
  rw [take_add_one, next, BudgetCtx.acceptAll, foldl_append]
  rfl

theorem textOf_take_succ (piece : Token → Piece) (past : List Token) {window : List Token} {k : Nat}
    {token : Token} (next : window[k]? = some token) :
    textOf piece (past ++ window.take (k + 1)) = textOf piece (past ++ window.take k) ++ piece token := by
  rw [take_add_one, next, textOf]
  simp [textOf]

theorem owed_take {piece : Token → Piece} {past window : List Token}
    (reads : (owed (textOf piece (past ++ window))).isSome) (k : Nat) :
    (owed (textOf piece (past ++ window.take k))).isSome := by
  refine owed_of_isPrefix ⟨textOf piece (window.drop k), ?_⟩ reads
  rw [textOf, textOf, ← flatMap_append, append_assoc, take_append_drop, ← textOf]

/-- The judgement of the token at `k`, when it is the budget's turn and nothing was due. -/
def JudgedAt (piece : Token → Piece) (past window : List Token) (budget : Int) (k : Nat) : Prop :=
  ∀ token, window[k]? = some token → budget ≤ k + 1 →
    (∀ j ≤ k, ¬ DueAt piece past budget window j) →
      JudgedAlone (textOf piece (past ++ window.take k)) (piece token)

/-- By induction over the window: each state is in the window while the tokens are judged. -/
theorem inWindow_of_judged {piece : Token → Piece} {past window : List Token} {ctx : BudgetCtx}
    (start : InWindow piece past window ctx 0)
    (reads : (owed (textOf piece (past ++ window))).isSome)
    (noEnd : ∀ k ≤ window.length, (ctx.acceptAll (window.take k)).state ≠ .done) (k : Nat)
    (inside : k ≤ window.length) (judged : ∀ i < k, JudgedAt piece past window ctx.budget i) :
    InWindow piece past window (ctx.acceptAll (window.take k)) k := by
  induction k with
  | zero => exact start
  | succ k ih =>
    have before := ih (by omega) fun i early => judged i (by omega)
    have next := List.getElem?_eq_getElem (l := window) (i := k) (by omega)
    have goesOn := noEnd (k + 1) inside
    rw [acceptAll_take_succ ctx next] at goesOn ⊢
    refine before.accept goesOn fun spent notDue => ?_
    have readsNext := owed_take reads (k + 1)
    rw [(acceptAll_fixed ..).1] at spent notDue
    rw [textOf_take_succ piece past next] at readsNext ⊢
    exact (complete_iff_judgedAlone readsNext).mpr (judged k (by omega) _ next spent notDue)

theorem judged_of_forced {piece : Token → Piece} {past window : List Token} {ctx : BudgetCtx} {k : Nat}
    (inWindow : InWindow piece past window ctx k) {token : Token} (next : window[k]? = some token)
    (reads : (owed (textOf piece (past ++ window))).isSome)
    (goesOn : (ctx.accept token).state ≠ .done)
    (forced : ForcedWhenDue piece past window (ctx.accept token) (k + 1)) :
    JudgedAt piece past window ctx.budget k := by
  intro other same spent notDue
  rw [next, some.injEq] at same
  subst same
  have readsNext := owed_take reads (k + 1)
  rw [textOf_take_succ piece past next] at readsNext
  refine (complete_iff_judgedAlone readsNext).mp ?_
  rw [← textOf_take_succ piece past next]
  have due : (∃ j ≤ k + 1, DueAt piece past ctx.budget window j) ↔
      AtBoundary (textOf piece (past ++ window.take (k + 1))) := by
    constructor
    · rintro ⟨j, le, dueAt⟩
      by_contra inside
      exact not_due_succ notDue inside j le dueAt
    · exact fun here => ⟨k + 1, Nat.le_refl _, by exact_mod_cast spent, here⟩
  rw [ForcedWhenDue, (accept_fixed ctx token).1, due] at forced
  rw [← forced]
  have complete : ctx.utf8Complete token = utf8IsComplete (piece token) := by
    rw [BudgetCtx.utf8Complete, inWindow.vocab]
  cases state : ctx.state with
  | idle => exact absurd state inWindow.active.1
  | done => exact absurd state inWindow.active.2
  | forcing =>
    obtain ⟨j, le, dueAt⟩ := inWindow.forcing state
    exact absurd dueAt (notDue j le)
  | counting =>
    obtain ⟨remaining, early⟩ := inWindow.counting state
    have last : ctx.remaining - 1 ≤ 0 := by omega
    rw [accept_eq_countDown (Or.inl state) goesOn, complete]
    cases whole : utf8IsComplete (piece token) <;>
      simp [BudgetCtx.countDown, state, last, BudgetCtx.force]
  | waitingUtf8 =>
    rw [accept_eq_countDown (Or.inr state) goesOn, complete]
    cases whole : utf8IsComplete (piece token) <;>
      simp [BudgetCtx.countDown, state, BudgetCtx.force]

/-- After an activation and while the end sequence is not produced, the end sequence is
forced at the first code point boundary after the budget is used up, and not before, exactly
when the pieces from there on can be judged one by one. -/
theorem forcedWhenDue_iff (piece : Token → Piece) (startTokens endTokens forcedTokens : List Token)
    (budget : Int) (initialState : BudgetState) (before : List Token) (ctx : BudgetCtx)
    (reached : ctx =
      (BudgetCtx.init (some piece) startTokens endTokens forcedTokens budget initialState).acceptAll before)
    (act : Token) (activates : Activates ctx act) (window : List Token)
    (reads : (owed (textOf piece (before ++ [act] ++ window))).isSome)
    (noEnd : ∀ k ≤ window.length, ((ctx.accept act).acceptAll (window.take k)).state ≠ .done) :
    (∀ k ≤ window.length, ForcedWhenDue piece (before ++ [act]) window
        ((ctx.accept act).acceptAll (window.take k)) k) ↔
      (budget ≤ 0 → AtBoundary (textOf piece (before ++ [act]))) ∧
        ∀ k < window.length, JudgedAt piece (before ++ [act]) window budget k := by
  have configured : ctx.budget = budget ∧ ctx.vocab = some piece := by
    obtain ⟨sameBudget, sameVocab⟩ := acceptAll_fixed
      (BudgetCtx.init (some piece) startTokens endTokens forcedTokens budget initialState) before
    rw [reached]
    exact ⟨sameBudget, sameVocab⟩
  have counted : (ctx.accept act).budget = budget := (accept_fixed ctx act).1.trans configured.1
  constructor
  · intro forced
    have first : budget ≤ 0 → AtBoundary (textOf piece (before ++ [act])) := by
      intro spent
      have atOnce := forced 0 (Nat.zero_le _)
      obtain ⟨ready, -, sameBudget, same⟩ := activates.eq_activate
      have state : (ctx.accept act).state = .forcing := by
        rw [same, BudgetCtx.activate, if_pos (by rw [← configured.1, ← sameBudget] at spent; exact spent)]
      obtain ⟨j, le, due⟩ := atOnce.mp state
      obtain rfl : j = 0 := by omega
      have boundary := due.2
      rwa [take_zero, append_nil] at boundary
    refine ⟨first, fun k inside => ?_⟩
    have start := @Activates.inWindow piece ctx act (before ++ [act]) window activates configured.2
      (by rw [configured.1]; exact first)
    -- the tokens before `k` are judged one by one, as the promise is kept up to `k`
    induction k using Nat.strongRecOn with
    | _ k ih =>
      have next := List.getElem?_eq_getElem inside
      have inWindow := inWindow_of_judged start reads noEnd k (by omega) fun i early => by
        rw [counted]
        exact ih i early (by omega)
      have goesOn := noEnd (k + 1) inside
      have kept := forced (k + 1) inside
      rw [acceptAll_take_succ _ next] at goesOn kept
      have judged := judged_of_forced inWindow next reads goesOn kept
      rwa [(acceptAll_fixed ..).1, counted] at judged
  · rintro ⟨first, judged⟩ k inside
    have start := @Activates.inWindow piece ctx act (before ++ [act]) window activates configured.2
      (by rw [configured.1]; exact first)
    refine (inWindow_of_judged start reads noEnd k inside fun i early => ?_).forcedWhenDue
    rw [counted]
    exact judged i (by omega)

def halfPiece : Token → Piece
  | 3 => [0xF0, 0x9F]
  | 4 => [0x98, 0x80]
  | _ => [0x61]

theorem forcedWhenDue_iff_at_wholePiece :
    (∀ k ≤ 2, ForcedWhenDue halfPiece ([] ++ [1]) [5, 6]
        (((BudgetCtx.init (some halfPiece) [1] [2] [2] 2 .idle).accept 1).acceptAll
          ([5, 6].take k)) k) ↔
      ((2 : Int) ≤ 0 → AtBoundary (textOf halfPiece ([] ++ [1]))) ∧
        ∀ k < 2, JudgedAt halfPiece ([] ++ [1]) [5, 6] 2 k :=
  forcedWhenDue_iff halfPiece [1] [2] [2] 2 .idle [] _ rfl 1
    ⟨Or.inl rfl, by decide, by decide⟩ [5, 6] (by decide) (by decide)

/-- A budget of one runs out inside a code point, and the next piece completes it: the end
sequence is due, but the machine still waits. -/
theorem halfPiece_not_forced :
    Activates (BudgetCtx.init (some halfPiece) [1] [2] [2] 1 .idle) 1 ∧
      (∀ k ≤ 2, (((BudgetCtx.init (some halfPiece) [1] [2] [2] 1 .idle).accept 1).acceptAll
        ([3, 4].take k)).state ≠ .done) ∧
      AtBoundary (textOf halfPiece [1, 3, 4]) ∧
      ¬ ForcedWhenDue halfPiece [1] [3, 4]
        (((BudgetCtx.init (some halfPiece) [1] [2] [2] 1 .idle).accept 1).acceptAll [3, 4]) 2 := by
  refine ⟨⟨Or.inl rfl, by decide, by decide⟩, by decide, by decide, fun forced => ?_⟩
  have due : DueAt halfPiece [1] 1 [3, 4] 2 := ⟨by decide, by decide⟩
  have state := forced.mpr ⟨2, Nat.le_refl _, due⟩
  exact absurd state (by decide)

end LlamaCpp.Common
