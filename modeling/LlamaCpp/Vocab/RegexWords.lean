import LlamaCpp.Vocab.RegexSplit

/-!
# Words

The regular expressions of a pre-tokenizer run one after the other over the code points of a text.
An expression without a splitter of its own goes to the standard library: one that uses Unicode
categories over a text in which every code point is collapsed to one byte, any other over the wide
characters.  Whatever an expression matches, the words together are the text.
-/

set_option autoImplicit false

namespace LlamaCpp.Vocab

open LlamaCpp.Lib List Option

/-- `std::regex` and `std::wregex`: the search that a pattern compiles to, as the positions and
lengths of the matches in a text.  A pattern that does not compile has none. -/
structure RegexEngine where
  narrow : Bytes → Option (Bytes → List (Nat × Nat))
  wide : List Nat → Option (List Nat → List (Nat × Nat))

def InOrder (size : Nat) : Nat → List (Nat × Nat) → Prop
  | start, [] => start ≤ size
  | start, (position, length) :: rest =>
    start ≤ position ∧ position + length ≤ size ∧ InOrder size (position + length) rest

/-- The documented behaviour of `std::regex_iterator`. -/
structure RegexEngine.Delivers (engine : RegexEngine) : Prop where
  narrow : ∀ regex search, engine.narrow regex = some search →
    ∀ text, InOrder text.length 0 (search text)
  wide : ∀ regex search, engine.wide regex = some search →
    ∀ text, InOrder text.length 0 (search text)

def stlTokens (size : Nat) : Nat → List (Nat × Nat) → List Nat
  | startIdx, [] => if startIdx < size then [size - startIdx] else []
  | startIdx, (position, length) :: rest =>
    (if startIdx < position then [position - startIdx] else []) ++
      length :: stlTokens size (position + length) rest

def unicodeRegexSplitStl {α : Type} (search : List α → List (Nat × Nat)) (text : List α)
    (offsets : List Nat) : List Nat :=
  splitOffsets (fun word => stlTokens word.length 0 (search word)) text offsets

def utf8Of (text : String) : Bytes := text.toUTF8.toList

def ucatEnum : List (Bytes × CptFlags) :=
  [(utf8Of "\\p\x7bN\x7d", 0x02), (utf8Of "\\p\x7bL\x7d", 0x04), (utf8Of "\\p\x7bP\x7d", 0x20),
    (utf8Of "\\p\x7bM\x7d", 0x10), (utf8Of "\\p\x7bS\x7d", 0x40), (utf8Of "\\p\x7bLu\x7d", 0x04),
    (utf8Of "\\p\x7bLl\x7d", 0x04), (utf8Of "\\p\x7bLt\x7d", 0x04), (utf8Of "\\p\x7bLm\x7d", 0x04),
    (utf8Of "\\p\x7bLo\x7d", 0x04)]

def ucatCpt (flags : CptFlags) : Option UInt8 :=
  if flags = 0x02 then some 0xD1 else if flags = 0x04 then some 0xD2
  else if flags = 0x20 then some 0xD3 else if flags = 0x10 then some 0xD4
  else if flags = 0x40 then some 0xD5 else none

def ucatMap (flags : CptFlags) : Bytes :=
  if flags = 0x02 then utf8Of "0-9" else if flags = 0x04 then utf8Of "A-Za-z"
  else if flags = 0x20 then utf8Of "!-#%-*,-/:-;?-@\\[-\\]_\\\x7b\\\x7d"
  else if flags = 0x40 then utf8Of "\\$\\+<->^\x60\\|" else []

/-- `use_collapsed`. -/
def usesCategories (regexExpr : Bytes) : Bool :=
  ucatEnum.any fun ucat => (findText ucat.1 regexExpr).isSome

def ucatAt : Bytes → Option (Nat × CptFlags)
  | 92 :: 112 :: 123 :: rest =>
    let closing := rest.findIdx (· == 125)
    if closing < rest.length ∧ closing ≤ 7 then
      (ucatEnum.find? fun ucat => ucat.1 == 92 :: 112 :: 123 :: rest.take (closing + 1)).map
        fun ucat => (closing + 4, ucat.2)
    else none
  | _ => none

/-- The loop over `regex_expr`, with the character before and whether it is inside brackets. -/
def collapseRegexLoop : Nat → UInt8 → Bool → Bytes → Bytes
  | 0, _, _, _ => []
  | _ + 1, _, _, [] => []
  | fuel + 1, before, inside, c :: rest =>
    if c = 91 ∧ before ≠ 92 then 91 :: collapseRegexLoop fuel c true rest
    else if inside ∧ c = 93 ∧ before ≠ 92 then 93 :: collapseRegexLoop fuel c false rest
    else
      match ucatAt (c :: rest) with
      | some (length, ucat) =>
        (if inside then [] else [91]) ++ (ucatCpt ucat).toList ++ ucatMap ucat ++
          (if inside then [] else [93]) ++
          collapseRegexLoop fuel 125 inside ((c :: rest).drop length)
      | none => c :: collapseRegexLoop fuel c inside rest

def collapseRegex (regexExpr : Bytes) : Bytes :=
  collapseRegexLoop regexExpr.length 0 false regexExpr

section

variable (data : UnicodeData)

/-- A code point of `text_collapsed`. -/
def collapseCpt (cpt : Nat) : UInt8 :=
  if cpt < 128 then UInt8.ofNat cpt
  else if (data.cptFlags cpt).isWhitespace then 0x0B
  else (ucatCpt (data.cptFlags cpt).categoryFlag).getD 0xD0

/-- A code point of `wtext`. -/
def wideCpt (cpt : Nat) : Nat :=
  if 0x7F < cpt ∧ (data.cptFlags cpt).isWhitespace then 0x0B else cpt

def gpt2Regex : Bytes := utf8Of
  ("'s|'t|'re|'ve|'m|'ll|'d| ?\\p\x7bL\x7d+| ?\\p\x7bN\x7d+| ?[^\\s\\p\x7bL\x7d\\p\x7bN\x7d]+" ++
    "|\\s+(?!\\S)")

def llamaLetters : String := "|[^\\r\\n\\p\x7bL\x7d\\p\x7bN\x7d]?\\p\x7bL\x7d+"

def llamaOthers : String :=
  "| ?[^\\s\\p\x7bL\x7d\\p\x7bN\x7d]+[\\r\\n]*|\\s*[\\r\\n]+|\\s+(?!\\S)|\\s+"

def llama3Words : String := llamaLetters ++ "|\\p\x7bN\x7d\x7b1,3\x7d" ++ llamaOthers

def anyCaseContractions : String := "(?:'[sS]|'[tT]|'[rR][eE]|'[vV][eE]|'[mM]|'[lL][lL]|'[dD])"

def llama3Regexes : List Bytes :=
  [utf8Of ("(?i:'s|'t|'re|'ve|'m|'ll|'d)" ++ llama3Words),
    utf8Of (anyCaseContractions ++ llama3Words)]

def qwen2Regex : Bytes :=
  utf8Of (anyCaseContractions ++ llamaLetters ++ "|\\p\x7bN\x7d" ++ llamaOthers)

/-- The branches of `unicode_regex_split_custom`. -/
def customSplitter (regexExpr : Bytes) : Option (List Nat → List Nat) :=
  if regexExpr = gpt2Regex then some (splitWith fun rest => [takeGpt2 data rest])
  else if regexExpr ∈ llama3Regexes then some (splitWith (takeLlama3 data))
  else if regexExpr = qwen2Regex then some (splitWith (takeQwen2 data))
  else if regexExpr = utf8Of "\\p\x7bHan\x7d+" then some (splitWith (takeKimiK2 data))
  else if regexExpr = utf8Of "\\p\x7bAFMoE_digits\x7d" then some (splitAfmoe data)
  else if regexExpr = utf8Of "[^\\n]+|[\\n]+" then some (splitWith takeNewlines)
  else if regexExpr = utf8Of "\\d\x7b1,3\x7d(?=(?:\\d\x7b3\x7d)*\\b)" then some (splitAfmoe data)
  else none

def unicodeRegexSplitCustom (text regexExpr : Bytes) (offsets : List Nat) : List Nat :=
  match customSplitter data regexExpr with
  | some split => splitOffsets split (unicodeCptsFromUtf8 text) offsets
  | none => []

def splitByRegex (engine : RegexEngine) (text : Bytes) (offsets : List Nat) (regexExpr : Bytes) :
    Except String (List Nat) :=
  let tmp := unicodeRegexSplitCustom data text regexExpr offsets
  let cpts := unicodeCptsFromUtf8 text
  let cptsRegex := unicodeCptsFromUtf8 regexExpr
  if tmp ≠ [] then .ok tmp
  else if usesCategories regexExpr then
    if cptsRegex.any fun cpt => 128 ≤ cpt then
      .error "Regex includes both unicode categories and non-ASCII characters - not supported"
    else
      match engine.narrow (collapseRegex regexExpr) with
      | some search => .ok (unicodeRegexSplitStl search (cpts.map (collapseCpt data)) offsets)
      | none => .error "Failed to process regex"
  else
    match engine.wide cptsRegex with
    | some search => .ok (unicodeRegexSplitStl search (cpts.map (wideCpt data)) offsets)
    | none => .error "Failed to process regex"

def cutAt {α : Type} : List α → List Nat → List (List α)
  | _, [] => []
  | items, offset :: rest => items.take offset :: cutAt (items.drop offset) rest

def unicodeRegexSplit (engine : RegexEngine) (text : Bytes) (regexExprs : List Bytes)
    (byteEncode : Bool) : Except String (List Bytes) :=
  let cpts := unicodeCptsFromUtf8 text
  regexExprs.foldlM (splitByRegex data engine text) [cpts.length] >>= fun offsets =>
    (cutAt cpts offsets).mapM unicodeCptsToUtf8 >>= fun bpeWords =>
      if byteEncode then unicodeByteEncodingProcess bpeWords else .ok bpeWords

def Accepts (engine : RegexEngine) (regexExpr : Bytes) : Prop :=
  (customSplitter data regexExpr).isSome ∨
    if usesCategories regexExpr then
      (∀ cpt ∈ unicodeCptsFromUtf8 regexExpr, cpt < 128) ∧
        (engine.narrow (collapseRegex regexExpr)).isSome
    else (engine.wide (unicodeCptsFromUtf8 regexExpr)).isSome

end

theorem sum_stlTokens {size start : Nat} {matches_ : List (Nat × Nat)}
    (inOrder : InOrder size start matches_) : (stlTokens size start matches_).sum = size - start := by
  induction matches_ generalizing start with
  | nil =>
    rw [stlTokens]
    split
    · exact add_zero _
    · simp only [sum_nil]
      omega
  | cons first rest ih =>
    obtain ⟨before, inside, later⟩ := inOrder
    rw [stlTokens, sum_append, sum_cons, ih later]
    split
    · rw [sum_singleton]
      omega
    · rw [sum_nil]
      omega

theorem sum_unicodeRegexSplitStl {α : Type} {search : List α → List (Nat × Nat)}
    (inOrder : ∀ text, InOrder text.length 0 (search text)) (text : List α) (offsets : List Nat)
    (whole : offsets.sum = text.length) :
    (unicodeRegexSplitStl search text offsets).sum = text.length :=
  sum_splitOffsets (fun word => sum_stlTokens (inOrder word)) text offsets whole

theorem flatten_cutAt {α : Type} (items : List α) (offsets : List Nat)
    (whole : offsets.sum = items.length) : (cutAt items offsets).flatten = items := by
  induction offsets generalizing items with
  | nil => exact (length_eq_zero_iff.mp whole.symm).symm
  | cons offset rest ih =>
    rw [sum_cons] at whole
    rw [cutAt, flatten_cons, ih _ (by rw [length_drop]; omega), take_append_drop]

section

variable {data : UnicodeData}

theorem sum_customSplitter {regexExpr : Bytes} {split : List Nat → List Nat}
    (custom : customSplitter data regexExpr = some split) (word : List Nat) :
    (split word).sum = word.length := by
  unfold customSplitter at custom
  have qwenFits (n : Nat) (some_ : 0 < n) : 0 < [1].sum ∧ [1].sum ≤ n := ⟨by decide, some_⟩
  split_ifs at custom <;> cases custom
  · refine sum_splitWith (fun rest some_ => ?_) word
    obtain ⟨pos, inside⟩ := takeGpt2_bounds some_
    exact takes_singleton pos inside
  · exact sum_splitWith (fun _ some_ => takeLlama_takes digitGroups_fits some_) word
  · exact sum_splitWith (fun _ some_ => takeLlama_takes qwenFits some_) word
  · exact sum_splitWith (fun _ some_ => takeKimiK2_takes some_) word
  · exact sum_splitAfmoe word
  · exact sum_splitWith (fun _ some_ => takeNewlines_takes some_) word
  · exact sum_splitAfmoe word

variable {engine : RegexEngine} {text : Bytes} {regexExprs : List Bytes}

theorem sum_splitByRegex (delivers : engine.Delivers) (some_ : unicodeCptsFromUtf8 text ≠ [])
    {regexExpr : Bytes} (accepts : Accepts data engine regexExpr) {offsets : List Nat}
    (whole : offsets.sum = (unicodeCptsFromUtf8 text).length) :
    ∃ next, splitByRegex data engine text offsets regexExpr = .ok next ∧
      next.sum = (unicodeCptsFromUtf8 text).length := by
  have length := length_pos_iff.mpr some_
  cases custom : customSplitter data regexExpr with
  | some split =>
    have sum := sum_splitOffsets (sum_customSplitter custom) _ offsets whole
    refine ⟨_, ?_, sum⟩
    have found : splitOffsets split (unicodeCptsFromUtf8 text) offsets ≠ [] := by
      intro none_
      rw [none_, sum_nil] at sum
      omega
    simp only [splitByRegex, unicodeRegexSplitCustom, custom]
    rw [if_pos found]
  | none =>
    simp only [splitByRegex, unicodeRegexSplitCustom, custom]
    rw [if_neg (not_not.mpr rfl)]
    simp only [Accepts, custom, isSome_none, Bool.false_eq_true, false_or] at accepts
    split
    · rename_i categories
      rw [if_pos categories] at accepts
      obtain ⟨ascii, compiles⟩ := accepts
      have noMix : ¬ ((unicodeCptsFromUtf8 regexExpr).any fun cpt => 128 ≤ cpt) = true := by
        intro mixed
        obtain ⟨cpt, member, high⟩ := any_eq_true.mp mixed
        have low := ascii cpt member
        rw [decide_eq_true_eq] at high
        omega
      obtain ⟨search, compiled⟩ := isSome_iff_exists.mp compiles
      rw [if_neg noMix, compiled]
      refine ⟨_, rfl, ?_⟩
      have sum := sum_unicodeRegexSplitStl (delivers.narrow _ _ compiled)
        ((unicodeCptsFromUtf8 text).map (collapseCpt data)) offsets
        (by rw [length_map, whole])
      rwa [length_map] at sum
    · rename_i plain
      rw [if_neg plain] at accepts
      obtain ⟨search, compiled⟩ := isSome_iff_exists.mp accepts
      rw [compiled]
      refine ⟨_, rfl, ?_⟩
      have sum := sum_unicodeRegexSplitStl (delivers.wide _ _ compiled)
        ((unicodeCptsFromUtf8 text).map (wideCpt data)) offsets (by rw [length_map, whole])
      rwa [length_map] at sum

theorem foldlM_splitByRegex (delivers : engine.Delivers) (some_ : unicodeCptsFromUtf8 text ≠ [])
    (accepts : ∀ regexExpr ∈ regexExprs, Accepts data engine regexExpr) (offsets : List Nat)
    (whole : offsets.sum = (unicodeCptsFromUtf8 text).length) :
    ∃ last, regexExprs.foldlM (splitByRegex data engine text) offsets = .ok last ∧
      last.sum = (unicodeCptsFromUtf8 text).length := by
  induction regexExprs generalizing offsets with
  | nil => exact ⟨offsets, rfl, whole⟩
  | cons regexExpr rest ih =>
    obtain ⟨next, step, sum⟩ :=
      sum_splitByRegex delivers some_ (accepts regexExpr mem_cons_self) whole
    rw [foldlM_cons, step]
    exact ih (fun other member => accepts other (mem_cons_of_mem _ member)) next sum

def wordBytes (byteEncode : Bool) (word : List Nat) : Bytes :=
  if byteEncode then encodeBytes (word.flatMap utf8Bytes) else word.flatMap utf8Bytes

theorem unicodeRegexSplit_ok (valid : ∀ cpt ∈ unicodeCptsFromUtf8 text, cpt ≤ 0x10ffff)
    {offsets : List Nat}
    (run : regexExprs.foldlM (splitByRegex data engine text) [(unicodeCptsFromUtf8 text).length] = .ok offsets)
    (whole : (cutAt (unicodeCptsFromUtf8 text) offsets).flatten = unicodeCptsFromUtf8 text)
    (byteEncode : Bool) : unicodeRegexSplit data engine text regexExprs byteEncode =
      .ok ((cutAt (unicodeCptsFromUtf8 text) offsets).map (wordBytes byteEncode)) := by
  have wordsValid : ∀ word ∈ cutAt (unicodeCptsFromUtf8 text) offsets,
      ∀ cpt ∈ word, cpt ≤ 0x10ffff := by
    intro word member cpt inWord
    refine valid cpt ?_
    rw [← whole]
    exact mem_flatten_of_mem member inWord
  have written : (cutAt (unicodeCptsFromUtf8 text) offsets).mapM unicodeCptsToUtf8 =
      .ok ((cutAt (unicodeCptsFromUtf8 text) offsets).map (List.flatMap utf8Bytes)) :=
    mapM_ok fun word member => unicodeCptsToUtf8_eq (wordsValid word member)
  simp only [unicodeRegexSplit]
  rw [run, ok_bind, written, ok_bind]
  cases byteEncode with
  | true => rw [unicodeByteEncodingProcess_eq wordsValid]; rfl
  | false => rfl

theorem unicodeRegexSplit_words (delivers : engine.Delivers)
    (accepts : ∀ regexExpr ∈ regexExprs, Accepts data engine regexExpr) {cpts : List Nat}
    (valid : ∀ cpt ∈ cpts, cpt ≤ 0x10ffff) (some_ : cpts ≠ []) :
    ∃ words : List (List Nat), words.flatten = cpts ∧
      unicodeRegexSplit data engine (cpts.flatMap utf8Bytes) regexExprs true =
        .ok (words.map fun word => encodeBytes (word.flatMap utf8Bytes)) := by
  have read : unicodeCptsFromUtf8 (cpts.flatMap utf8Bytes) = cpts := unicodeCptsFromUtf8_flatMap valid
  rw [← read] at valid some_
  obtain ⟨offsets, run, sum⟩ :=
    foldlM_splitByRegex delivers some_ accepts _ (sum_singleton ..)
  have whole := flatten_cutAt _ offsets sum
  exact ⟨_, whole.trans read, unicodeRegexSplit_ok valid run whole true⟩

end

end LlamaCpp.Vocab
