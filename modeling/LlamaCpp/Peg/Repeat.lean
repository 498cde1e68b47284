import LlamaCpp.Peg.Parse

/-!
# Repetitions in strict mode

The loop of a repetition stops at the end of the input and at an empty match, and counts
neither.
-/

set_option autoImplicit false

namespace LlamaCpp.Peg

open LlamaCpp.Lib

def Arena.Returns (arena : Arena) (input : List Byte) (id : ParserId) (pos : Nat)
    (result : ParseResult) : Prop :=
  Asking.Evaluates (arena.execute false input) ⟨id, pos⟩ result

/-- The parser succeeds `m` times in a row, each match `ok`. -/
def Arena.InRow (arena : Arena) (input : List Byte) (ok : Nat → Nat → Prop) (id : ParserId) :
    Nat → Nat → Prop
  | 0, _ => True
  | m + 1, pos => ∃ result, arena.Returns input id pos result ∧ result.type = .success ∧
      ok pos result.end_ ∧ arena.InRow input ok id m result.end_

def Advances (input : List Byte) (pos end_ : Nat) : Prop := pos < input.length ∧ pos < end_

variable {arena : Arena} {input : List Byte} {child : ParserId} {pos : Nat} {ok : Nat → Nat → Prop}

theorem inRow_succ {result : ParseResult} (returns : arena.Returns input child pos result) (m : Nat) :
    arena.InRow input ok child (m + 1) pos ↔
      result.type = .success ∧ ok pos result.end_ ∧ arena.InRow input ok child m result.end_ := by
  constructor
  · rintro ⟨other, returned, rest⟩
    rwa [returned.unique returns] at rest
  · intro rest
    exact ⟨result, returns, rest⟩

theorem repetitionEnd_success {spec : RepetitionSpec} {startPos matchCount : Nat}
    {nodes : List AstNode} :
    (repetitionEnd spec false input startPos pos matchCount nodes).type = .success ↔
      (spec.minCount - matchCount).toNat = 0 := by
  unfold repetitionEnd
  split_ifs with few ended
  · exact absurd ended.2 id
  · exact iff_of_false nofun (by omega)
  · exact iff_of_true rfl (by omega)

theorem parseRepetition_success {spec : RepetitionSpec} {oracle : Site → Option ParseResult}
    (answers : ∀ site result, oracle site = some result → arena.Returns input site.id site.pos result)
    (ordered : spec.maxCount = -1 ∨ spec.minCount ≤ spec.maxCount) {startPos matchCount : Nat}
    {nodes : List AstNode} {result : ParseResult}
    (runs : (parseRepetition spec false input startPos pos matchCount nodes).run oracle = some result)
    (row : arena.InRow input (fun _ _ => True) spec.child (spec.minCount - matchCount).toNat pos) :
    result.type = .success ↔
      arena.InRow input (Advances input) spec.child (spec.minCount - matchCount).toNat pos := by
  fun_induction parseRepetition spec false input startPos pos matchCount nodes with
  | case1 pos matchCount nodes more beyond =>
    cases runs
    rw [repetitionEnd_success]
    cases (spec.minCount - matchCount).toNat with
    | zero => exact iff_of_true rfl trivial
    | succ m =>
      refine iff_of_false (Nat.succ_ne_zero m) ?_
      rintro ⟨result, -, -, ⟨inside, -⟩, -⟩
      omega
  | case2 pos matchCount nodes more inside ih =>
    obtain ⟨answer, answered, rest⟩ := Asking.run_ask_some runs
    have returned : arena.Returns input spec.child pos answer := answers _ answer answered
    have left : (spec.minCount - (matchCount + 1 : Nat)).toNat =
        (spec.minCount - matchCount).toNat - 1 := by omega
    cases type : answer.type with
    | success =>
      simp only [type] at rest
      split_ifs at rest with empty
      · cases rest
        rw [repetitionEnd_success]
        cases (spec.minCount - matchCount).toNat with
        | zero => exact iff_of_true rfl trivial
        | succ m =>
          rw [inRow_succ returned]
          refine iff_of_false (Nat.succ_ne_zero m) ?_
          rintro ⟨-, ⟨-, advances⟩, -⟩
          omega
      · rw [ih answer empty rest ?_, left]
        · cases (spec.minCount - matchCount).toNat with
          | zero => exact Iff.rfl
          | succ m =>
            rw [inRow_succ returned]
            exact (and_iff_right (⟨type, by omega, by omega⟩ : _ ∧ Advances _ _ _)).symm.trans and_assoc
        · rw [left]
          cases count : (spec.minCount - matchCount).toNat with
          | zero => trivial
          | succ m =>
            rw [count, inRow_succ returned] at row
            exact row.2.2
    | needMoreInput =>
      obtain ⟨fuel, evaluated⟩ := returned
      cases (parseAt_regular arena false input fuel _ answer evaluated).decided type
    | fail =>
      simp only [type] at rest
      cases rest
      rw [repetitionEnd_success]
      cases count : (spec.minCount - matchCount).toNat with
      | zero => exact iff_of_true rfl trivial
      | succ m =>
        rw [count, inRow_succ returned, type] at row
        cases row.1
  | case3 pos matchCount nodes full =>
    cases runs
    have none_ : (spec.minCount - matchCount).toNat = 0 := by omega
    rw [repetitionEnd_success, none_]
    exact iff_of_true rfl trivial

variable {id : ParserId} {minCount maxCount : Int32}

/-- A repetition returns wherever its child returns everywhere; and when the child succeeds `m`
times in a row, the repetition succeeds exactly when each of these matches starts before the end
of the input and is not empty. -/
theorem repetition_succeeds_iff
    (found : arena.parsers[id.toNat]? = some (.repetition child minCount maxCount))
    (ordered : 0 ≤ minCount.toInt ∧ (maxCount.toInt = -1 ∨ minCount.toInt ≤ maxCount.toInt))
    (start : Nat) :
    ((∀ pos, ∃ result, arena.Returns input child pos result) →
      ∃ result, arena.Returns input id start result) ∧
    (arena.InRow input (fun _ _ => True) child minCount.toInt.toNat start →
      ∀ result, arena.Returns input id start result → (result.type = .success ↔
        arena.InRow input (Advances input) child minCount.toInt.toNat start)) := by
  have body : arena.execute false input ⟨id, start⟩ = parseRepetition
      ⟨child, minCount.toInt, maxCount.toInt⟩ false input start start 0 [] := by
    simp [Arena.execute, found, parserExecutor]
  constructor
  · intro total
    have only : (arena.execute false input ⟨id, start⟩).AsksOnly fun site => site.id = child :=
      body ▸ parseRepetition_asksOnly _ (fun _ => rfl) _ _ _
    have runs : ∃ fuel result, (arena.execute false input ⟨id, start⟩).run
        (Asking.eval (arena.execute false input) fuel) = some result :=
      Asking.exists_run _ only fun fuel asked asks => by
        obtain ⟨result, returned⟩ := total asked.pos
        rw [← only.of_asks asks] at returned
        exact ⟨result, returned⟩
    obtain ⟨fuel, result, runs⟩ := runs
    exact ⟨result, fuel + 1, runs⟩
  · rintro row result ⟨fuel, evaluated⟩
    cases fuel with
    | zero => cases evaluated
    | succ fuel =>
      have runs : (arena.execute false input ⟨id, start⟩).run
          (Asking.eval (arena.execute false input) fuel) = some result := evaluated
      rw [body] at runs
      simpa using parseRepetition_success (fun site result answered => ⟨fuel, answered⟩) ordered.2 runs
        (by simpa using row)

def oneOrTwo : Arena where
  parsers := [.literal "a", .repetition 0 1 2]
  rules := []
  root := 1

theorem repetition_succeeds_iff_at_oneOrTwo : ∃ result,
    oneOrTwo.Returns (bytesOf "a") 1 0 result ∧ result.type = .success := by
  have parsed : ∃ letter, oneOrTwo.Returns (bytesOf "a") 0 0 letter ∧ letter.type = .success ∧
      Advances (bytesOf "a") 0 letter.end_ :=
    ⟨_, ⟨1, rfl⟩, by decide +kernel, by unfold Advances; decide +kernel⟩
  obtain ⟨letter, returned, success, advances⟩ := parsed
  have spec := @repetition_succeeds_iff oneOrTwo (bytesOf "a") 0 1 1 2 rfl (by decide) 0
  obtain ⟨result, returns⟩ := spec.1 fun pos => ⟨_, 1, rfl⟩
  refine ⟨result, returns, (spec.2 ?_ result returns).mpr ?_⟩
  · exact ⟨letter, returned, success, trivial, trivial⟩
  · exact ⟨letter, returned, success, advances, trivial⟩

def emptyOnce : Arena where
  parsers := [.epsilon, .repetition 0 1 1]
  rules := []
  root := 1

theorem repetition_drops_empty : ¬ ∀ (arena : Arena) (input : List Byte) (id child : ParserId)
    (minCount maxCount : Int32) (start : Nat),
    arena.parsers[id.toNat]? = some (.repetition child minCount maxCount) →
    0 ≤ minCount.toInt → maxCount.toInt = -1 ∨ minCount.toInt ≤ maxCount.toInt →
    arena.InRow input (fun _ _ => True) child minCount.toInt.toNat start →
    ∃ result, arena.Returns input id start result ∧ result.type = .success := by
  intro claimed
  obtain ⟨result, ⟨fuel, evaluated⟩, success⟩ := claimed emptyOnce [97] 1 0 1 1 0 rfl (by decide)
    (by decide) ⟨_, ⟨1, rfl⟩, rfl, trivial, trivial⟩
  have failed : (emptyOnce.parseAt false [97] 2 ⟨1, 0⟩).map (·.type) = some .fail := by
    decide +kernel
  obtain ⟨other, again, fails⟩ := Option.map_eq_some_iff.mp failed
  rw [Asking.Evaluates.unique ⟨fuel, evaluated⟩ ⟨2, again⟩, fails] at success
  cases success

end LlamaCpp.Peg
