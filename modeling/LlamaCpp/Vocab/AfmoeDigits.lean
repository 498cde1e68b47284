import LlamaCpp.Vocab.RegexWords
import Mathlib.Data.List.Chain
import Mathlib.Data.List.TakeWhile

/-!
# Isolated digits

The digit patterns ask for every run of digits to stand alone, cut in threes from the right.  The
splitter adds a token for every group and only moves on over what is not a digit, so what stands
before a run comes out together with the first group of it.
-/

set_option autoImplicit false

namespace LlamaCpp.Vocab

open LlamaCpp.Lib List

def groupsOfThree (count : Nat) : List Nat :=
  (if count % 3 = 0 then [] else [count % 3]) ++ List.replicate (count / 3) 3

structure MaximalRun (test : Nat → Bool) (before run after : List Nat) : Prop where
  some_ : run ≠ []
  inside : ∀ cpt ∈ run, test cpt = true
  left : ∀ cpt, before.getLast? = some cpt → test cpt = false
  right : ∀ cpt, after.head? = some cpt → test cpt = false

section

variable (data : UnicodeData)

def isNumberCpt (cpt : Nat) : Bool := (data.cptFlags cpt).isNumber

structure Isolates (word lengths : List Nat) : Prop where
  runs : ∀ before run after, word = before ++ run ++ after →
    MaximalRun (isNumberCpt data) before run after →
      ∃ earlier later, lengths = earlier ++ groupsOfThree run.length ++ later ∧
        earlier.sum = before.length
  pieces : ∀ piece ∈ cutAt word lengths,
    (∀ cpt ∈ piece, isNumberCpt data cpt = true) ∨ ∀ cpt ∈ piece, isNumberCpt data cpt = false

def DigitsFirst (word : List Nat) : Prop :=
  word.IsChain fun cpt next => isNumberCpt data next = true → isNumberCpt data cpt = true

def unicodeRegexSplitCustomAfmoe (text : Bytes) (offsets : List Nat) : List Nat :=
  splitOffsets (splitAfmoe data) (unicodeCptsFromUtf8 text) offsets

end

variable {α : Type}

theorem splitOffsets_eq (split : List α → List Nat) (cpts : List α) (offsets : List Nat) :
    splitOffsets split cpts offsets = ((cutAt cpts offsets).map split).flatten := by
  induction offsets generalizing cpts with
  | nil => rfl
  | cons offset rest ih => rw [splitOffsets, cutAt, map_cons, flatten_cons, ih]

theorem mem_of_mem_cutAt {items : List α} {offsets : List Nat} {piece : List α}
    (member : piece ∈ cutAt items offsets) {item : α} (inPiece : item ∈ piece) : item ∈ items := by
  induction offsets generalizing items with
  | nil => contradiction
  | cons offset rest ih =>
    rcases mem_cons.mp member with rfl | later
    · exact mem_of_mem_take inPiece
    · exact mem_of_mem_drop (ih later)

theorem cutAt_append (items others : List α) (offsets later : List Nat)
    (whole : offsets.sum = items.length) :
    cutAt (items ++ others) (offsets ++ later) = cutAt items offsets ++ cutAt others later := by
  induction offsets generalizing items with
  | nil =>
    rw [length_eq_zero_iff.mp whole.symm]
    rfl
  | cons offset rest ih =>
    rw [sum_cons] at whole
    have inside : offset ≤ items.length := by omega
    rw [cons_append, cutAt, cutAt, take_append_of_le_length inside,
      drop_append_of_le_length inside, ih _ (by rw [length_drop]; omega),
      cons_append]

section

variable {data : UnicodeData}

theorem afmoeGroups_zero (count : Nat) : afmoeGroups 0 count = groupsOfThree count := by
  unfold afmoeGroups groupsOfThree
  generalize (if count % 3 = 0 then [] else [count % 3]) ++ List.replicate (count / 3) 3 = groups
  cases groups with
  | nil => rfl
  | cons first others => simp only [zero_add]

theorem sum_groupsOfThree (count : Nat) : (groupsOfThree count).sum = count := by
  cases count with
  | zero => rfl
  | succ count =>
    rw [← afmoeGroups_zero, sum_afmoeGroups 0 (Nat.succ_pos count), zero_add]

variable {run after word : List Nat}

theorem countWhile_run {test : Nat → Bool} (inside : ∀ cpt ∈ run, test cpt = true)
    (right : ∀ cpt, after.head? = some cpt → test cpt = false) :
    (run ++ after).takeWhile test = run := by
  rw [takeWhile_append_of_pos inside]
  cases after with
  | nil => rw [takeWhile_nil, append_nil]
  | cons cpt rest =>
    rw [takeWhile_cons_of_neg (by rw [right cpt rfl]; exact Bool.false_ne_true),
      append_nil]

theorem afmoeRounds_others (fuel pending : Nat) (word : List Nat) (enough : word.length < fuel)
    (others : ∀ cpt ∈ word, isNumberCpt data cpt = false) :
    afmoeRounds data fuel pending word =
      if 0 < pending + word.length then [pending + word.length] else [] := by
  induction fuel generalizing pending word with
  | zero => contradiction
  | succ fuel ih =>
    cases word with
    | nil => rfl
    | cons cpt rest =>
      have other : (data.cptFlags cpt).isNumber = false := others cpt mem_cons_self
      rw [length_cons] at enough ⊢
      rw [afmoeRounds, other, if_neg Bool.false_ne_true, ih _ _ (by omega)
        fun cpt member => others cpt (mem_cons_of_mem _ member), add_right_comm,
        add_assoc]

theorem afmoeRounds_run (fuel pending : Nat) (some_ : run ≠ [])
    (inside : ∀ cpt ∈ run, isNumberCpt data cpt = true)
    (right : ∀ cpt, after.head? = some cpt → isNumberCpt data cpt = false) :
    afmoeRounds data (fuel + 1) pending (run ++ after) =
      afmoeGroups pending run.length ++ afmoeRounds data fuel 0 after := by
  obtain ⟨cpt, rest, rfl⟩ := exists_cons_of_ne_nil some_
  have number : (data.cptFlags cpt).isNumber = true := inside cpt mem_cons_self
  have count : countWhile (fun cpt => (data.cptFlags cpt).isNumber) (cpt :: rest ++ after) =
      (cpt :: rest).length :=
    congrArg List.length (countWhile_run inside right)
  rw [cons_append] at count ⊢
  rw [afmoeRounds, number, if_pos rfl]
  simp only [count]
  rw [← cons_append, drop_left]

theorem splitAfmoe_digitsFirst (run after : List Nat)
    (inside : ∀ cpt ∈ run, isNumberCpt data cpt = true)
    (others : ∀ cpt ∈ after, isNumberCpt data cpt = false) :
    splitAfmoe data (run ++ after) =
      groupsOfThree run.length ++ if 0 < after.length then [after.length] else [] := by
  rw [splitAfmoe]
  by_cases none_ : run = []
  · subst none_
    rw [nil_append, afmoeRounds_others _ _ _ (Nat.lt_succ_self _) others, zero_add]
    rfl
  · have pos := length_pos_iff.mpr none_
    have right (cpt : Nat) (head : after.head? = some cpt) : isNumberCpt data cpt = false :=
      others cpt (mem_of_mem_head? head)
    have enough : after.length < (run ++ after).length := by
      rw [length_append]
      omega
    rw [afmoeRounds_run _ _ none_ inside right, afmoeGroups_zero,
      afmoeRounds_others _ _ _ enough others, zero_add]

theorem others_of_chain {cpt : Nat} {rest : List Nat} (chain : DigitsFirst data (cpt :: rest))
    (other : isNumberCpt data cpt = false) :
    ∀ next ∈ cpt :: rest, isNumberCpt data next = false := by
  induction rest generalizing cpt with
  | nil =>
    intro next member
    rwa [mem_singleton.mp member]
  | cons following rest ih =>
    obtain ⟨here, later⟩ := isChain_cons_cons.mp chain
    have notNumber : isNumberCpt data following = false := by
      by_contra number
      rw [Bool.not_eq_false] at number
      rw [here number] at other
      contradiction
    intro next member
    rcases mem_cons.mp member with rfl | inRest
    · exact other
    · exact ih later notNumber next inRest

theorem dropWhile_others (first : DigitsFirst data word) :
    ∀ cpt ∈ word.dropWhile (isNumberCpt data), isNumberCpt data cpt = false := by
  cases left : word.dropWhile (isNumberCpt data) with
  | nil =>
    intro cpt member
    contradiction
  | cons head rest =>
    have other : isNumberCpt data head = false := by
      have fails := List.head?_dropWhile_not (isNumberCpt data) word
      rw [left] at fails
      exact (Bool.not_eq_true _).mp (by simpa using fails)
    refine others_of_chain ?_ other
    have suffix : DigitsFirst data (word.dropWhile (isNumberCpt data)) :=
      List.IsChain.suffix first (dropWhile_suffix _)
    rwa [left] at suffix

theorem eq_takeWhile_of_maximalRun {before : List Nat} (first : DigitsFirst data word)
    (split : word = before ++ run ++ after)
    (maximal : MaximalRun (isNumberCpt data) before run after) :
    before = [] ∧ run = word.takeWhile (isNumberCpt data) := by
  have nothing : before = [] := by
    rcases eq_nil_or_concat before with none_ | ⟨front, last, rfl⟩
    · exact none_
    · obtain ⟨digit, rest, rfl⟩ := exists_cons_of_ne_nil maximal.some_
      have here := isChain_iff_forall_rel_of_append_cons_cons.mp first
        (split.trans (by simp only [concat_eq_append, append_assoc, cons_append,
          nil_append]) : word = front ++ last :: digit :: (rest ++ after))
      have fails := maximal.left last (by rw [concat_eq_append, List.getLast?_concat])
      rw [here (maximal.inside digit mem_cons_self)] at fails
      contradiction
  subst nothing
  rw [split]
  exact ⟨rfl, (countWhile_run maximal.inside maximal.right).symm⟩

theorem isolates_of_digitsFirst (first : DigitsFirst data word) :
    Isolates data word (splitAfmoe data word) := by
  have inside : ∀ cpt ∈ word.takeWhile (isNumberCpt data), isNumberCpt data cpt = true :=
    fun cpt member => mem_takeWhile_imp member
  have others := dropWhile_others first
  have together : word.takeWhile (isNumberCpt data) ++ word.dropWhile (isNumberCpt data) = word :=
    takeWhile_append_dropWhile
  have tokens := splitAfmoe_digitsFirst _ _ inside others
  rw [together] at tokens
  constructor
  · intro before run after split maximal
    obtain ⟨rfl, same⟩ := eq_takeWhile_of_maximalRun first split maximal
    rw [← same] at tokens
    exact ⟨[], _, tokens, rfl⟩
  · intro piece member
    rw [tokens] at member
    nth_rewrite 1 [← together] at member
    rw [cutAt_append _ _ _ _ (sum_groupsOfThree _), mem_append] at member
    rcases member with inRun | afterRun
    · exact .inl fun cpt inPiece => inside cpt (mem_of_mem_cutAt inRun inPiece)
    · exact .inr fun cpt inPiece => others cpt (mem_of_mem_cutAt afterRun inPiece)

theorem afmoeGroups_cons (pending : Nat) {count : Nat} (some_ : 0 < count) :
    ∃ first others, afmoeGroups pending count = first :: others ∧ pending < first := by
  by_cases even : count % 3 = 0
  · obtain ⟨threes, split⟩ : ∃ threes, count / 3 = threes + 1 := ⟨count / 3 - 1, by omega⟩
    refine ⟨pending + 3, List.replicate threes 3, ?_, by omega⟩
    simp [afmoeGroups, if_pos even, split, replicate_succ]
  · refine ⟨pending + count % 3, List.replicate (count / 3) 3, ?_, by omega⟩
    simp [afmoeGroups, if_neg even]

/-- No token ends between what is not a digit and a digit: the token that is waiting there goes on
with the first group. -/
theorem no_boundary_before_digit (fuel pending : Nat) {front back : List Nat} {cpt digit : Nat}
    (enough : (front ++ cpt :: digit :: back).length < fuel)
    (other : isNumberCpt data cpt = false) (number : isNumberCpt data digit = true)
    {earlier later : List Nat}
    (cut : afmoeRounds data fuel pending (front ++ cpt :: digit :: back) = earlier ++ later) :
    earlier.sum ≠ pending + front.length + 1 := by
  induction fuel generalizing pending front earlier with
  | zero => contradiction
  | succ fuel ih =>
    cases front with
    | nil =>
      rw [nil_append] at cut enough
      rw [length_nil]
      have otherFlag : (data.cptFlags cpt).isNumber = false := other
      have numberFlag : (data.cptFlags digit).isNumber = true := number
      rw [afmoeRounds, otherFlag] at cut
      obtain ⟨fuel, rfl⟩ : ∃ less, fuel = less + 1 :=
        ⟨fuel - 1, by simp only [length_cons] at enough; omega⟩
      rw [afmoeRounds, numberFlag] at cut
      have here : (digit :: back)[0]? = some digit := rfl
      have pos := countWhile_pos (fun cpt => (data.cptFlags cpt).isNumber) here numberFlag
      rw [drop_zero] at pos
      obtain ⟨first, others, groups, beyond⟩ := afmoeGroups_cons (pending + 1) pos
      simp only [groups] at cut
      cases earlier with
      | nil =>
        rw [sum_nil]
        omega
      | cons token tokens =>
        obtain ⟨rfl, -⟩ := List.cons.inj cut
        rw [sum_cons]
        omega
    | cons head front =>
      by_cases digits : isNumberCpt data head = true
      · -- the run at the head ends before `cpt`, and its groups end with it
        obtain ⟨run, rest, split, some_, inside, right⟩ :
            ∃ run rest, head :: front = run ++ rest ∧ run ≠ [] ∧
              (∀ x ∈ run, isNumberCpt data x = true) ∧
                ∀ x, (rest ++ cpt :: digit :: back).head? = some x →
                  isNumberCpt data x = false := by
          refine ⟨(head :: front).takeWhile (isNumberCpt data),
            (head :: front).dropWhile (isNumberCpt data),
            takeWhile_append_dropWhile.symm, ?_, fun x => mem_takeWhile_imp, ?_⟩
          · rw [takeWhile_cons_of_pos digits]
            exact cons_ne_nil _ _
          · intro x first
            have fails := List.head?_dropWhile_not (isNumberCpt data) (head :: front)
            cases left : (head :: front).dropWhile (isNumberCpt data) with
            | nil =>
              rw [left] at first
              cases first
              exact other
            | cons y rest =>
              rw [left] at first fails
              cases first
              simpa using fails
        have pos := length_pos_iff.mpr some_
        rw [split, append_assoc] at cut enough
        rw [split]
        rw [afmoeRounds_run _ _ some_ inside right] at cut
        have total := sum_afmoeGroups pending pos
        rw [length_append] at enough
        rcases append_eq_append_iff.mp cut with ⟨more, within, tail⟩ | ⟨more, within, tail⟩
        · have later_ := @ih 0 rest (by omega) _ tail
          rw [within, sum_append, length_append]
          omega
        · have least : earlier.sum ≤ pending + run.length := by
            rw [← total, within, sum_append]
            exact Nat.le_add_right _ _
          rw [length_append]
          omega
      · have otherFlag : (data.cptFlags head).isNumber = false :=
          (Bool.not_eq_true _).mp digits
        rw [cons_append] at cut enough
        rw [afmoeRounds, otherFlag] at cut
        rw [length_cons] at enough ⊢
        have further := ih (pending + 1) (by omega) cut
        omega

theorem digitsFirst_of_isolates (isolates : Isolates data word (splitAfmoe data word)) :
    DigitsFirst data word := by
  refine isChain_iff_forall_rel_of_append_cons_cons.mpr fun cpt digit front back split => ?_
  intro number
  by_contra notNumber
  have other : isNumberCpt data cpt = false := (Bool.not_eq_true _).mp notNumber
  have maximal : MaximalRun (isNumberCpt data) (front ++ [cpt])
      ((digit :: back).takeWhile (isNumberCpt data))
      ((digit :: back).dropWhile (isNumberCpt data)) := by
    constructor
    · rw [takeWhile_cons_of_pos number]
      exact cons_ne_nil _ _
    · exact fun x member => mem_takeWhile_imp member
    · intro x last
      rw [List.getLast?_concat] at last
      cases last
      exact other
    · intro x first
      have fails := List.head?_dropWhile_not (isNumberCpt data) (digit :: back)
      rw [first] at fails
      simpa using fails
  have cut : word = front ++ [cpt] ++ (digit :: back).takeWhile (isNumberCpt data) ++
      (digit :: back).dropWhile (isNumberCpt data) := by
    rw [append_assoc, takeWhile_append_dropWhile, split, append_assoc,
      singleton_append]
  obtain ⟨earlier, later, tokens, boundary⟩ := isolates.runs _ _ _ cut maximal
  rw [split, append_assoc] at tokens
  refine no_boundary_before_digit _ 0 (Nat.lt_succ_self _) other number tokens ?_
  rw [boundary, length_append, length_singleton, zero_add]

theorem unicodeRegexSplitCustomAfmoe_isolates_iff (data : UnicodeData) (text : Bytes)
    (offsets : List Nat) :
    unicodeRegexSplitCustomAfmoe data text offsets =
        ((cutAt (unicodeCptsFromUtf8 text) offsets).map (splitAfmoe data)).flatten ∧
      ((∀ word ∈ cutAt (unicodeCptsFromUtf8 text) offsets,
          Isolates data word (splitAfmoe data word)) ↔
        ∀ word ∈ cutAt (unicodeCptsFromUtf8 text) offsets, DigitsFirst data word) := by
  constructor
  · exact splitOffsets_eq _ _ _
  · constructor
    · exact fun isolates word member => digitsFirst_of_isolates (isolates word member)
    · exact fun first word member => isolates_of_digitsFirst (first word member)

def alphanumericData : UnicodeData :=
  { cptFlags := fun cpt => if 48 ≤ cpt ∧ cpt ≤ 57 then 0x02 else 0x04, toLower := id }

/-- `a1` stays in one piece. -/
theorem unicodeRegexSplitCustomAfmoe_joins :
    unicodeRegexSplitCustomAfmoe alphanumericData [97, 49] [2] = [2] ∧
      ¬ Isolates alphanumericData [97, 49] [2] := by
  refine ⟨by decide, fun isolates => ?_⟩
  rcases isolates.pieces [97, 49] (by decide) with numbers | others
  · exact absurd (numbers 97 (by decide)) (by decide)
  · exact absurd (others 49 (by decide)) (by decide)

end

end LlamaCpp.Vocab
