import LlamaCpp.Vocab.Unicode

/-!
# Pre-tokenizers

A text is split into words by a list of regular expressions, each of which splits the words that
the ones before it have left.  A split is a list of lengths, in code points.  The most common
expressions have splitters of their own; the others go to the regular expressions of the standard
library, which is a parameter here.
-/

set_option autoImplicit false

namespace LlamaCpp.Vocab

open LlamaCpp.Lib List

abbrev CptFlags := BitVec 16

def CptFlags.isNumber (flags : CptFlags) : Bool := flags.getLsbD 1
def CptFlags.isLetter (flags : CptFlags) : Bool := flags.getLsbD 2
def CptFlags.isWhitespace (flags : CptFlags) : Bool := flags.getLsbD 8
def CptFlags.categoryFlag (flags : CptFlags) : CptFlags := flags &&& 0x00FF

def CptFlags.isOther (flags : CptFlags) : Bool :=
  !(flags.isWhitespace || flags.isLetter || flags.isNumber)

/-- The tables of `unicode-data.cpp`, as the functions that look up in them. -/
structure UnicodeData where
  cptFlags : Nat → CptFlags
  toLower : Nat → Nat

def unicodeCptIsHan (cpt : Nat) : Bool :=
  (0x4E00 ≤ cpt && cpt ≤ 0x9FFF) || (0x3400 ≤ cpt && cpt ≤ 0x4DBF) ||
    (0x20000 ≤ cpt && cpt ≤ 0x2A6DF) || (0x2A700 ≤ cpt && cpt ≤ 0x2B73F) ||
    (0x2B740 ≤ cpt && cpt ≤ 0x2B81F) || (0x2B820 ≤ cpt && cpt ≤ 0x2CEAF) ||
    (0x2CEB0 ≤ cpt && cpt ≤ 0x2EBEF) || (0xF900 ≤ cpt && cpt ≤ 0xFAFF) ||
    (0x2F800 ≤ cpt && cpt ≤ 0x2FA1F)

def isNewline (cpt : Nat) : Bool := cpt == 13 || cpt == 10

section

variable (data : UnicodeData)

/-- `_get_flags` at a position of the rest of a word, empty beyond its end. -/
def flagsAt (rest : List Nat) (i : Nat) : CptFlags :=
  match rest[i]? with
  | some cpt => data.cptFlags cpt
  | none => 0

def countWhile (test : Nat → Bool) (rest : List Nat) : Nat := (rest.takeWhile test).length

/-- An apostrophe with one of the endings `s`, `t`, `m`, `d`, `re`, `ve` and `ll`. -/
def contraction (lower : Nat → Nat) : List Nat → Option Nat
  | 39 :: next :: rest =>
    if lower next ∈ [115, 116, 109, 100] then some 2
    else
      match rest with
      | nextNext :: _ =>
        if (lower next, lower nextNext) ∈ [(114, 101), (118, 101), (108, 108)] then some 3
        else none
      | [] => none
  | _ => none

/-- The whitespace patterns without line breaks, and the single character that nothing matches. -/
def takeWhitespace (rest : List Nat) : Nat :=
  let numWhitespaces := countWhile (fun cpt => (data.cptFlags cpt).isWhitespace) rest
  if 1 < numWhitespaces ∧ rest[numWhitespaces]?.isSome then numWhitespaces - 1
  else if 0 < numWhitespaces then numWhitespaces
  else 1

/-- The whitespace patterns with `\s*[\r\n]+` before them. -/
def takeLineBreaks (rest : List Nat) : Nat :=
  let run := rest.takeWhile fun cpt => (data.cptFlags cpt).isWhitespace
  let lastEndRorN := run.length - countWhile (fun cpt => !isNewline cpt) run.reverse
  if 0 < lastEndRorN then lastEndRorN else takeWhitespace data rest

/-- One round of `unicode_regex_split_custom_gpt2`: the length of the token it adds. -/
def takeGpt2 (rest : List Nat) : Nat :=
  match contraction id rest with
  | some n => n
  | none =>
    let space := if rest[0]? = some 32 then 1 else 0
    let flags2 := flagsAt data rest space
    if flags2.isLetter then
      space + countWhile (fun cpt => (data.cptFlags cpt).isLetter) (rest.drop space)
    else if flags2.isNumber then
      space + countWhile (fun cpt => (data.cptFlags cpt).isNumber) (rest.drop space)
    else if flags2.isOther ∧ flags2 ≠ 0 then
      space + countWhile (fun cpt => (data.cptFlags cpt).isOther && data.cptFlags cpt != 0)
        (rest.drop space)
    else takeWhitespace data rest

/-- ` ?[^\s\p{L}\p{N}]+[\r\n]*` -/
def takeOther (space : Nat) (rest : List Nat) : Nat :=
  let others := space + countWhile
    (fun cpt => (data.cptFlags cpt).isOther && data.cptFlags cpt != 0) (rest.drop space)
  others + countWhile isNewline (rest.drop others)

def digitGroups : Nat → List Nat
  | 0 => []
  | 1 => [1]
  | 2 => [2]
  | n + 3 => 3 :: digitGroups n

/-- One round of `unicode_regex_split_custom_llama3` and of `unicode_regex_split_custom_qwen2`,
which differ in the tokens that a run of digits begins with. -/
def takeLlama (digits : Nat → List Nat) (rest : List Nat) : List Nat :=
  match contraction data.toLower rest with
  | some n => [n]
  | none =>
    let flags := flagsAt data rest 0
    let space := if rest[0]? = some 32 then 1 else 0
    if ¬ ((rest[0]?.any isNewline) ∨ flags.isNumber) ∧
        (flags.isLetter ∨ (flagsAt data rest 1).isLetter) then
      [1 + countWhile (fun cpt => (data.cptFlags cpt).isLetter) (rest.drop 1)]
    else if flags.isNumber then
      digits (countWhile (fun cpt => (data.cptFlags cpt).isNumber) rest)
    -- the test for an assigned character is on the space, not on what follows it
    else if (flagsAt data rest space).isOther ∧ flags ≠ 0 then [takeOther data space rest]
    else [takeLineBreaks data rest]

def takeLlama3 : List Nat → List Nat := takeLlama data digitGroups

def takeQwen2 : List Nat → List Nat := takeLlama data fun _ => [1]

/-- One round of `unicode_regex_split_custom_kimi_k2`. -/
def takeKimiK2 (rest : List Nat) : List Nat :=
  let isWord := fun cpt => (data.cptFlags cpt).isLetter && !unicodeCptIsHan cpt
  let flags := flagsAt data rest 0
  let leads := !((rest[0]?.any isNewline) || flags.isLetter || flags.isNumber)
  let lead := if leads then 1 else 0
  let letters := countWhile isWord (rest.drop lead)
  let space := if rest[0]? = some 32 then 1 else 0
  if rest[0]?.any unicodeCptIsHan then [countWhile unicodeCptIsHan rest]
  else if (rest[0]?.any isWord ∨ (leads ∧ rest[1]?.any isWord)) ∧ 0 < letters then
    [lead + letters + (contraction data.toLower (rest.drop (lead + letters))).getD 0]
  else if flags.isNumber then
    digitGroups (countWhile (fun cpt => (data.cptFlags cpt).isNumber) rest)
  else if (flagsAt data rest space).isOther ∧ flagsAt data rest space ≠ 0 then
    [takeOther data space rest]
  else [takeLineBreaks data rest]

def splitRounds (take : List Nat → List Nat) : Nat → List Nat → List Nat
  | 0, _ => []
  | _ + 1, [] => []
  | fuel + 1, cpt :: rest =>
    let taken := take (cpt :: rest)
    taken ++ splitRounds take fuel ((cpt :: rest).drop taken.sum)

def splitWith (take : List Nat → List Nat) (word : List Nat) : List Nat :=
  splitRounds take word.length word

def afmoeGroups (pending count : Nat) : List Nat :=
  let groups := (if count % 3 = 0 then [] else [count % 3]) ++ List.replicate (count / 3) 3
  match groups with
  | [] => []
  | first :: others => (pending + first) :: others

/-- `unicode_regex_split_custom_afmoe` over a word; `pending` code points are not in a token yet. -/
def afmoeRounds : Nat → Nat → List Nat → List Nat
  | 0, _, _ => []
  | _ + 1, pending, [] => if 0 < pending then [pending] else []
  | fuel + 1, pending, cpt :: rest =>
    if (data.cptFlags cpt).isNumber then
      let count := countWhile (fun cpt => (data.cptFlags cpt).isNumber) (cpt :: rest)
      afmoeGroups pending count ++ afmoeRounds fuel 0 ((cpt :: rest).drop count)
    else afmoeRounds fuel (pending + 1) rest

def splitAfmoe (word : List Nat) : List Nat := afmoeRounds data (word.length + 1) 0 word

/-- One round of `unicode_regex_split_custom_newlines`. -/
def takeNewlines (rest : List Nat) : List Nat :=
  [countWhile (fun cpt => (cpt == 10) == (rest[0]?.any (· == 10))) rest]

def splitOffsets {α : Type} (split : List α → List Nat) : List α → List Nat → List Nat
  | _, [] => []
  | cpts, offset :: rest => split (cpts.take offset) ++ splitOffsets split (cpts.drop offset) rest

end

theorem countWhile_le (test : Nat → Bool) (rest : List Nat) : countWhile test rest ≤ rest.length :=
  ( takeWhile_prefix test).length_le

variable {rest : List Nat}

theorem countWhile_drop_le (test : Nat → Bool) {skip : Nat} (inside : skip ≤ rest.length) :
    skip + countWhile test (rest.drop skip) ≤ rest.length := by
  have bound := countWhile_le test (rest.drop skip)
  rw [length_drop] at bound
  omega

theorem countWhile_pos (test : Nat → Bool) {i : Nat} {cpt : Nat} (here : rest[i]? = some cpt)
    (passes : test cpt = true) : 0 < countWhile test (rest.drop i) := by
  obtain ⟨inside, there⟩ := List.getElem?_eq_some_iff.mp here
  rw [drop_eq_getElem_cons inside, countWhile, there, takeWhile_cons, if_pos passes]
  exact Nat.succ_pos _

structure Takes (rest lengths : List Nat) : Prop where
  some_ : 0 < lengths.sum
  inside : lengths.sum ≤ rest.length

theorem takes_singleton {n : Nat} (some_ : 0 < n) (inside : n ≤ rest.length) :
    Takes rest [n] := ⟨by simpa using some_, by simpa using inside⟩

theorem sum_splitRounds {take : List Nat → List Nat}
    (takes : ∀ rest, rest ≠ [] → Takes rest (take rest)) (fuel : Nat) (word : List Nat)
    (enough : word.length ≤ fuel) : (splitRounds take fuel word).sum = word.length := by
  induction fuel generalizing word with
  | zero =>
    rw [length_eq_zero_iff.mp (Nat.le_zero.mp enough)]
    rfl
  | succ fuel ih =>
    cases word with
    | nil => rfl
    | cons cpt rest =>
      obtain ⟨some_, inside⟩ := takes (cpt :: rest) (cons_ne_nil _ _)
      have left : ((cpt :: rest).drop (take (cpt :: rest)).sum).length ≤ fuel := by
        rw [length_drop]
        omega
      rw [splitRounds, sum_append, ih _ left, length_drop]
      omega

theorem sum_splitWith {take : List Nat → List Nat}
    (takes : ∀ rest, rest ≠ [] → Takes rest (take rest)) (word : List Nat) :
    (splitWith take word).sum = word.length :=
  sum_splitRounds takes word.length word (le_refl _)

theorem sum_splitOffsets {α : Type} {split : List α → List Nat}
    (keeps : ∀ word, (split word).sum = word.length) (cpts : List α) (offsets : List Nat)
    (whole : offsets.sum = cpts.length) : (splitOffsets split cpts offsets).sum = cpts.length := by
  induction offsets generalizing cpts with
  | nil => exact whole
  | cons offset rest ih =>
    rw [sum_cons] at whole
    have left := ih (cpts.drop offset) (by rw [length_drop]; omega)
    rw [splitOffsets, sum_append, left, keeps, length_take, length_drop]
    omega

theorem contraction_bounds {lower : Nat → Nat} {n : Nat} (found : contraction lower rest = some n) :
    0 < n ∧ n ≤ rest.length := by
  unfold contraction at found
  split at found
  · split at found
    · cases found
      exact ⟨by decide, by simp⟩
    · split at found
      · split at found
        · cases found
          exact ⟨by decide, by simp⟩
        · contradiction
      · contradiction
  · contradiction

section

variable {data : UnicodeData}

variable {rest : List Nat} {i : Nat}

theorem exists_of_flagsAt_ne_zero (assigned : flagsAt data rest i ≠ 0) :
    ∃ cpt, rest[i]? = some cpt ∧ flagsAt data rest i = data.cptFlags cpt := by
  unfold flagsAt at assigned ⊢
  split at assigned
  · rename_i cpt here
    exact ⟨cpt, here, rfl⟩
  · contradiction

theorem countWhile_pos_of_flagsAt (test : CptFlags → Bool) (assigned : test 0 = false)
    (passes : test (flagsAt data rest i) = true) :
    i < rest.length ∧ 0 < countWhile (fun cpt => test (data.cptFlags cpt)) (rest.drop i) := by
  have some_ : flagsAt data rest i ≠ 0 := by
    intro none_
    rw [none_, assigned] at passes
    contradiction
  obtain ⟨cpt, here, same⟩ := exists_of_flagsAt_ne_zero some_
  rw [same] at passes
  exact ⟨(List.getElem?_eq_some_iff.mp here).1, countWhile_pos _ here passes⟩

theorem countWhile_other_pos
    (other : (flagsAt data rest i).isOther = true ∧ flagsAt data rest i ≠ 0) :
    0 < countWhile (fun cpt => (data.cptFlags cpt).isOther && data.cptFlags cpt != 0)
      (rest.drop i) := by
  have passes : ((flagsAt data rest i).isOther && flagsAt data rest i != 0) = true := by
    rw [other.1]
    exact bne_iff_ne.mpr other.2
  exact (countWhile_pos_of_flagsAt (fun flags => flags.isOther && flags != 0) rfl passes).2

theorem takeWhitespace_bounds (some_ : rest ≠ []) :
    0 < takeWhitespace data rest ∧ takeWhitespace data rest ≤ rest.length := by
  have bound := countWhile_le (fun cpt => (data.cptFlags cpt).isWhitespace) rest
  have length := length_pos_iff.mpr some_
  simp only [takeWhitespace]
  split_ifs <;> omega

theorem takeLineBreaks_bounds (some_ : rest ≠ []) :
    0 < takeLineBreaks data rest ∧ takeLineBreaks data rest ≤ rest.length := by
  have bound := countWhile_le (fun cpt => (data.cptFlags cpt).isWhitespace) rest
  rw [countWhile] at bound
  simp only [takeLineBreaks]
  split
  · omega
  · exact takeWhitespace_bounds some_

theorem takeOther_le {space : Nat} (inside : space ≤ rest.length) :
    takeOther data space rest ≤ rest.length :=
  countWhile_drop_le _ (countWhile_drop_le _ inside)

theorem spaceLength_le (some_ : rest ≠ []) :
    (if rest[0]? = some 32 then 1 else 0) ≤ rest.length := by
  have length := length_pos_iff.mpr some_
  split <;> omega

theorem takeGpt2_bounds (some_ : rest ≠ []) :
    0 < takeGpt2 data rest ∧ takeGpt2 data rest ≤ rest.length := by
  have space := spaceLength_le some_
  unfold takeGpt2
  split
  · rename_i n found
    exact contraction_bounds found
  dsimp only
  generalize (if rest[0]? = some 32 then 1 else 0) = skip at space
  split
  · rename_i letter
    have pos := (countWhile_pos_of_flagsAt CptFlags.isLetter rfl letter).2
    exact ⟨by omega, countWhile_drop_le _ space⟩
  split
  · rename_i number
    have pos := (countWhile_pos_of_flagsAt CptFlags.isNumber rfl number).2
    exact ⟨by omega, countWhile_drop_le _ space⟩
  split
  · rename_i other
    have pos := countWhile_other_pos other
    exact ⟨by omega, countWhile_drop_le _ space⟩
  · exact takeWhitespace_bounds some_

theorem sum_digitGroups (n : Nat) : (digitGroups n).sum = n := by
  induction n using digitGroups.induct with
  | case1 => rfl
  | case2 => rfl
  | case3 => rfl
  | case4 n ih => rw [digitGroups, sum_cons, ih, add_comm]

theorem takes_digits {digits : Nat → List Nat}
    (fits : ∀ n, 0 < n → 0 < (digits n).sum ∧ (digits n).sum ≤ n)
    (number : (flagsAt data rest 0).isNumber = true) :
    Takes rest (digits (countWhile (fun cpt => (data.cptFlags cpt).isNumber) rest)) := by
  have pos := (countWhile_pos_of_flagsAt CptFlags.isNumber rfl number).2
  obtain ⟨some_, inside⟩ := fits _ pos
  exact ⟨some_, inside.trans (countWhile_le _ rest)⟩

theorem digitGroups_fits (n : Nat) (some_ : 0 < n) :
    0 < (digitGroups n).sum ∧ (digitGroups n).sum ≤ n := by
  rw [sum_digitGroups]
  exact ⟨some_, le_refl n⟩

theorem takeOther_pos {space : Nat}
    (first : space = 0 → (flagsAt data rest 0).isOther = true ∧ flagsAt data rest 0 ≠ 0) :
    0 < takeOther data space rest := by
  cases space with
  | zero =>
    have pos := countWhile_other_pos (first rfl)
    rw [takeOther]
    omega
  | succ n =>
    rw [takeOther]
    omega

theorem takeLlama_takes {digits : Nat → List Nat}
    (fits : ∀ n, 0 < n → 0 < (digits n).sum ∧ (digits n).sum ≤ n) (some_ : rest ≠ []) :
    Takes rest (takeLlama data digits rest) := by
  have space := spaceLength_le some_
  have length := length_pos_iff.mpr some_
  unfold takeLlama
  split
  · rename_i n found
    obtain ⟨pos, inside⟩ := contraction_bounds found
    exact takes_singleton pos inside
  dsimp only
  generalize (if rest[0]? = some 32 then 1 else 0) = skip at space
  split
  · exact takes_singleton (by omega) (countWhile_drop_le _ length)
  split
  · rename_i number
    exact takes_digits fits number
  split
  · rename_i other
    refine takes_singleton (takeOther_pos ?_) (takeOther_le space)
    intro none_
    rw [none_] at other
    exact other
  · obtain ⟨pos, inside⟩ := takeLineBreaks_bounds some_
    exact takes_singleton pos inside

theorem takeKimiK2_takes (some_ : rest ≠ []) : Takes rest (takeKimiK2 data rest) := by
  have space := spaceLength_le some_
  have length := length_pos_iff.mpr some_
  have lead : (if (!(rest[0]?.any isNewline || (flagsAt data rest 0).isLetter ||
      (flagsAt data rest 0).isNumber)) = true then 1 else 0) ≤ rest.length := by
    split <;> omega
  unfold takeKimiK2
  dsimp only
  generalize (if rest[0]? = some 32 then 1 else 0) = skip at space
  generalize (if (!(rest[0]?.any isNewline || (flagsAt data rest 0).isLetter ||
    (flagsAt data rest 0).isNumber)) = true then 1 else 0) = first at lead
  split
  · rename_i han
    obtain ⟨cpt, here, isHan⟩ := (Option.any_eq_true _ _).mp han
    exact takes_singleton (countWhile_pos _ here isHan) (countWhile_le _ rest)
  split
  · refine takes_singleton (by omega) ?_
    have inside := countWhile_drop_le
      (fun cpt => (data.cptFlags cpt).isLetter && !unicodeCptIsHan cpt) lead
    generalize first + countWhile (fun cpt => (data.cptFlags cpt).isLetter && !unicodeCptIsHan cpt)
      (rest.drop first) = word at inside
    cases found : contraction data.toLower (rest.drop word) with
    | none => exact inside
    | some n =>
      have bound := (contraction_bounds found).2
      rw [length_drop] at bound
      rw [Option.getD_some]
      omega
  split
  · rename_i number
    exact takes_digits digitGroups_fits number
  split
  · rename_i other
    refine takes_singleton (takeOther_pos ?_) (takeOther_le space)
    intro none_
    rw [none_] at other
    exact other
  · obtain ⟨pos, inside⟩ := takeLineBreaks_bounds some_
    exact takes_singleton pos inside

theorem takeNewlines_takes (some_ : rest ≠ []) : Takes rest (takeNewlines rest) := by
  obtain ⟨cpt, tail, rfl⟩ := exists_cons_of_ne_nil some_
  have here : (cpt :: tail)[0]? = some cpt := rfl
  exact takes_singleton
    (countWhile_pos (fun other => (other == 10) == (cpt == 10)) here (by simp)) (countWhile_le _ _)

theorem sum_afmoeGroups (pending : Nat) {count : Nat} (some_ : 0 < count) :
    (afmoeGroups pending count).sum = pending + count := by
  by_cases even : count % 3 = 0
  · obtain ⟨threes, split⟩ : ∃ threes, count / 3 = threes + 1 :=
      ⟨count / 3 - 1, by omega⟩
    simp only [afmoeGroups, if_pos even, split, replicate_succ, nil_append, sum_cons,
      sum_replicate_nat]
    omega
  · simp only [afmoeGroups, if_neg even, singleton_append, sum_cons,
      sum_replicate_nat]
    omega

theorem sum_afmoeRounds (fuel pending : Nat) (word : List Nat) (enough : word.length < fuel) :
    (afmoeRounds data fuel pending word).sum = pending + word.length := by
  induction fuel generalizing pending word with
  | zero => contradiction
  | succ fuel ih =>
    cases word with
    | nil =>
      rw [afmoeRounds]
      split
      · rfl
      · simp only [sum_nil, length_nil]
        omega
    | cons cpt rest =>
      rw [length_cons] at enough ⊢
      rw [afmoeRounds]
      split
      · rename_i number
        have here : (cpt :: rest)[0]? = some cpt := rfl
        have pos := countWhile_pos (fun cpt => (data.cptFlags cpt).isNumber) here number
        have inside := countWhile_le (fun cpt => (data.cptFlags cpt).isNumber) (cpt :: rest)
        rw [drop_zero] at pos
        rw [length_cons] at inside
        have left : ((cpt :: rest).drop
            (countWhile (fun cpt => (data.cptFlags cpt).isNumber) (cpt :: rest))).length <
              fuel := by
          rw [length_drop, length_cons]
          omega
        rw [sum_append, sum_afmoeGroups pending pos, ih _ _ left, length_drop,
          length_cons]
        omega
      · rw [ih (pending + 1) rest (by omega)]
        omega

theorem sum_splitAfmoe (word : List Nat) : (splitAfmoe data word).sum = word.length := by
  rw [splitAfmoe, sum_afmoeRounds _ _ _ (Nat.lt_succ_self _), zero_add]

end

end LlamaCpp.Vocab
