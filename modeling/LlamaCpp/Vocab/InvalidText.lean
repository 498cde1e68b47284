import LlamaCpp.Vocab.CodePointRange
import LlamaCpp.Vocab.Wpm

/-!
# Texts that are not valid UTF-8

An invalid byte is read as a replacement character, so that no text makes the tokenizers
throw, but for the forms above the last code point: these are read as they are, and cannot be
written again.
-/

set_option autoImplicit false

namespace LlamaCpp.Vocab

open LlamaCpp.Lib List

theorem unicodeCptsFromUtf8_eq_nil {text : Bytes} : unicodeCptsFromUtf8 text = [] ↔ text = [] := by
  cases text with
  | nil => exact iff_of_true rfl rfl
  | cons byte rest =>
    rw [unicodeCptsFromUtf8, length_cons, cptsFromUtf8Loop]
    cases unicodeCptFromUtf8 (byte :: rest) <;> simp

def Compiles (engine : RegexEngine) (regexExpr : Bytes) : Prop :=
  if usesCategories regexExpr then
    (∀ cpt ∈ unicodeCptsFromUtf8 regexExpr, cpt < 128) ∧
      (engine.narrow (collapseRegex regexExpr)).isSome
  else (engine.wide (unicodeCptsFromUtf8 regexExpr)).isSome

section

variable {data : UnicodeData} {engine : RegexEngine}

theorem customSplitter_nil {regexExpr : Bytes} {split : List Nat → List Nat}
    (custom : customSplitter data regexExpr = some split) : split [] = [] := by
  unfold customSplitter at custom
  split_ifs at custom <;> cases custom <;> rfl

theorem splitOffsets_nil {split : List Nat → List Nat} (none_ : split [] = []) (offsets : List Nat) :
    splitOffsets split [] offsets = [] := by
  induction offsets with
  | nil => rfl
  | cons offset rest ih => rw [splitOffsets, take_nil, drop_nil, none_, ih, nil_append]

theorem splitByRegex_nil (offsets : List Nat) (regexExpr : Bytes) :
    (∃ next, splitByRegex data engine [] offsets regexExpr = .ok next) ↔
      Compiles engine regexExpr := by
  have noWords : unicodeRegexSplitCustom data [] regexExpr offsets = [] := by
    unfold unicodeRegexSplitCustom
    split
    · rename_i split custom
      exact splitOffsets_nil (customSplitter_nil custom) offsets
    · rfl
  unfold splitByRegex Compiles
  simp only [noWords, ne_eq, not_true_eq_false, if_false]
  split
  · split
    · rename_i mixed
      obtain ⟨cpt, member, high⟩ := any_eq_true.mp mixed
      rw [decide_eq_true_eq] at high
      refine iff_of_false (fun ⟨_, impossible⟩ => by cases impossible) fun ⟨ascii, _⟩ => ?_
      exact absurd (ascii cpt member) (by omega)
    · rename_i ascii
      have small : ∀ cpt ∈ unicodeCptsFromUtf8 regexExpr, cpt < 128 := by
        simpa using ascii
      rw [and_iff_right small]
      cases engine.narrow (collapseRegex regexExpr) <;> simp
  · cases engine.wide (unicodeCptsFromUtf8 regexExpr) <;> simp

theorem foldlM_splitByRegex_nil (regexExprs : List Bytes) (offsets : List Nat) :
    (∃ last, regexExprs.foldlM (splitByRegex data engine []) offsets = .ok last) ↔
      ∀ regexExpr ∈ regexExprs, Compiles engine regexExpr := by
  induction regexExprs generalizing offsets with
  | nil => exact iff_of_true ⟨offsets, rfl⟩ fun _ impossible => by cases impossible
  | cons regexExpr rest ih =>
    have here := @splitByRegex_nil data engine offsets regexExpr
    rw [forall_mem_cons, ← here, foldlM_cons]
    cases step : splitByRegex data engine [] offsets regexExpr with
    | ok next =>
      rw [ok_bind, ih next]
      exact (and_iff_right ⟨next, rfl⟩).symm
    | error failure =>
      refine iff_of_false ?_ ?_
      · rintro ⟨last, impossible⟩
        cases impossible
      · rintro ⟨⟨next, impossible⟩, -⟩
        cases impossible

variable {text : Bytes}

theorem unicodeRegexSplit_returns {regexExprs : List Bytes} (delivers : engine.Delivers)
    (accepts : ∀ regexExpr ∈ regexExprs, Accepts data engine regexExpr)
    (inRange : ∀ cpt ∈ unicodeCptsFromUtf8 text, cpt ≤ 0x10ffff)
    (compiles : text = [] → ∀ regexExpr ∈ regexExprs, Compiles engine regexExpr) :
    ∃ words : List (List Nat), words.flatten = unicodeCptsFromUtf8 text ∧ ∀ byteEncode,
      unicodeRegexSplit data engine text regexExprs byteEncode =
        .ok (words.map (wordBytes byteEncode)) := by
  by_cases empty : text = []
  · subst empty
    obtain ⟨offsets, run⟩ := (foldlM_splitByRegex_nil regexExprs [0]).mpr (compiles rfl)
    have whole : (cutAt (unicodeCptsFromUtf8 []) offsets).flatten = unicodeCptsFromUtf8 [] := by
      change (cutAt [] offsets).flatten = []
      clear run
      induction offsets with
      | nil => rfl
      | cons offset rest ih => rw [cutAt, take_nil, drop_nil, flatten_cons, ih]; rfl
    exact ⟨_, whole, unicodeRegexSplit_ok inRange run whole⟩
  · have some_ : unicodeCptsFromUtf8 text ≠ [] := mt unicodeCptsFromUtf8_eq_nil.mp empty
    obtain ⟨offsets, run, sum⟩ :=
      foldlM_splitByRegex delivers some_ accepts _ (sum_singleton ..)
    have whole := flatten_cutAt _ offsets sum
    exact ⟨_, whole, unicodeRegexSplit_ok inRange run whole⟩

theorem space_mem_utf8Bytes {cpt : Nat} (member : 0x20 ∈ utf8Bytes cpt) : cpt = 0x20 := by
  have high : ∀ mark value bits, mark % 2 ^ bits = 0 → mark + 2 ^ bits ≤ 256 → 0x80 ≤ mark →
      0x20 ≠ markedByte mark value bits := by
    intro mark value bits marks fits above same
    have range := (markedByte_range mark value bits marks fits).1
    rw [← same] at range
    have : (0x20 : UInt8).toNat = 0x20 := rfl
    omega
  rw [utf8Bytes] at member
  split_ifs at member with one two three
  · have same := congrArg UInt8.toNat (mem_singleton.mp member)
    rw [UInt8.toNat_ofNat'] at same
    have : (0x20 : UInt8).toNat = 0x20 := rfl
    omega
  all_goals
    simp only [mem_cons, not_mem_nil, or_false] at member
    exfalso
  · rcases member with same | same <;>
      exact high _ _ _ (by decide) (by decide) (by decide) same
  · rcases member with same | same | same <;>
      exact high _ _ _ (by decide) (by decide) (by decide) same
  · rcases member with same | same | same | same <;>
      exact high _ _ _ (by decide) (by decide) (by decide) same

theorem mergeWord_returns (vocab : BpeVocab) {word : Bytes} (free : 0x20 ∉ word) :
    ∃ pieces, mergeWord vocab word = .ok pieces := by
  by_cases whole : KeptWhole vocab word
  · by_cases empty : word = []
    · rw [mergeWord, wordSymbols_whole whole]
      exact ⟨_, rfl⟩
    · exact ⟨_, mergeWord_whole empty whole⟩
  · exact ⟨_, mergeWord_naive free whole⟩

/-- Nothing throws on a text, and a valid one is written again from its code points.  A
vocabulary that does not encode bytes is given texts without spaces. -/
structure Handled (data : UnicodeData) (ranges : List RangeNfd) (engine : RegexEngine)
    (regexExprs : List Bytes) (text : Bytes) : Prop where
  writes : ∀ cpt ∈ unicodeCptsFromUtf8 text, ∃ utf8, unicodeCptToUtf8 cpt = .ok utf8
  splits : ∀ byteEncode, ∃ words,
    unicodeRegexSplit data engine text regexExprs byteEncode = .ok words
  tokenizes : ∀ vocab : BpeVocab, vocab.byteEncode = true ∨ 0x20 ∉ unicodeCptsFromUtf8 text →
    ∃ tokens, sessionTokenize vocab data engine regexExprs text = .ok tokens
  preprocesses : ∃ words, preprocess data ranges text = .ok words
  rewrites : ValidUtf8 text → unicodeCptsToUtf8 (unicodeCptsFromUtf8 text) = .ok text

theorem rewrites_of_validUtf8 (valid : ValidUtf8 text) :
    unicodeCptsToUtf8 (unicodeCptsFromUtf8 text) = .ok text := by
  obtain ⟨cpts, scalars, rfl⟩ := valid
  have inRange : ∀ cpt ∈ cpts, cpt ≤ 0x10ffff := fun cpt member => (scalars cpt member).1
  rw [unicodeCptsFromUtf8_flatMap inRange, unicodeCptsToUtf8_eq inRange]

theorem space_not_mem_wordBytes {words : List (List Nat)}
    (together : words.flatten = unicodeCptsFromUtf8 text) {byteEncode : Bool}
    (free : byteEncode = true ∨ 0x20 ∉ unicodeCptsFromUtf8 text) {word : List Nat}
    (member : word ∈ words) : 0x20 ∉ wordBytes byteEncode word := by
  intro space
  cases byteEncode with
  | true => exact space_not_mem_encodeBytes _ space
  | false =>
    obtain ⟨cpt, inWord, here⟩ := mem_flatMap.mp space
    apply free.resolve_left Bool.false_ne_true
    rw [← together, ← space_mem_utf8Bytes here]
    exact mem_flatten_of_mem member inWord

/-- Nothing throws on a text exactly when it holds no form above the last code point; on the
empty text the standard library has to take the expressions. -/
theorem handled_iff {ranges : List RangeNfd} (tables : WpmTables data ranges)
    (delivers : engine.Delivers) {regexExprs : List Bytes}
    (accepts : ∀ regexExpr ∈ regexExprs, Accepts data engine regexExpr) (text : Bytes) :
    Handled data ranges engine regexExprs text ↔
      ¬ HoldsBeyond text ∧ (text = [] → ∀ regexExpr ∈ regexExprs, Compiles engine regexExpr) := by
  constructor
  · intro handled
    refine ⟨?_, ?_⟩
    · rw [← unicodeCptsFromUtf8_inRange]
      intro cpt member
      by_contra outside
      obtain ⟨utf8, written⟩ := handled.writes cpt member
      rw [unicodeCptToUtf8, if_neg outside] at written
      cases written
    · rintro rfl
      obtain ⟨words, split⟩ := handled.splits true
      obtain ⟨offsets, run, -⟩ := bind_eq_ok.mp split
      exact (foldlM_splitByRegex_nil regexExprs _).mp ⟨offsets, run⟩
  · rintro ⟨inside, compiles⟩
    have inRange := (unicodeCptsFromUtf8_inRange text).mpr inside
    obtain ⟨words, together, split⟩ := unicodeRegexSplit_returns delivers accepts inRange compiles
    refine ⟨fun cpt member => ⟨_, if_pos (inRange cpt member)⟩, fun byteEncode => ⟨_, split byteEncode⟩,
      fun vocab free => ?_, preprocess_ok tables inRange, rewrites_of_validUtf8⟩
    have merges : ∀ word ∈ words.map (wordBytes vocab.byteEncode),
        ∃ pieces, mergeWord vocab word = .ok pieces := by
      intro word member
      obtain ⟨cpts, isWord, same⟩ := mem_map.mp member
      rw [← same]
      exact mergeWord_returns vocab (space_not_mem_wordBytes together free isWord)
    choose! pieces merged using merges
    rw [sessionTokenize, split, ok_bind, mapM_ok merged]
    exact ⟨_, rfl⟩

end

theorem letterData_tables : WpmTables letterData [] where
  lower _ inRange := inRange
  nfd _ impossible := by cases impossible
  separator cpt isSeparator := by
    unfold letterData at isSeparator
    dsimp only at isSeparator
    split at isSeparator <;> cases isSeparator

theorem accepts_gpt2Regex : ∀ regexExpr ∈ [gpt2Regex], Accepts letterData noMatches regexExpr := by
  intro regexExpr member
  rw [mem_singleton.mp member]
  left
  rw [customSplitter, if_pos rfl]
  rfl

theorem handled_iff_at_letters :
    Handled letterData [] noMatches [gpt2Regex] [97, 98] ↔
      ¬ HoldsBeyond [97, 98] ∧
        ([97, 98] = ([] : Bytes) → ∀ regexExpr ∈ [gpt2Regex], Compiles noMatches regexExpr) :=
  handled_iff letterData_tables delivers_noMatches accepts_gpt2Regex [97, 98]

def beyondText : Bytes := [0xF4, 0x90, 0x80, 0x80]

/-- It is read as a code point that cannot be written, and both tokenizers throw. -/
theorem beyondText_throws :
    unicodeCptsFromUtf8 beyondText = [0x110000] ∧
      unicodeCptToUtf8 0x110000 = .error "invalid codepoint" ∧
      unicodeRegexSplit letterData noMatches beyondText [gpt2Regex] true =
        .error "invalid codepoint" ∧
      preprocess letterData [] beyondText = .error "invalid codepoint" := by
  refine ⟨by decide, rfl, ?_, by decide⟩
  decide +kernel

end LlamaCpp.Vocab
