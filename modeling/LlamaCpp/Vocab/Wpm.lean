import LlamaCpp.Vocab.RegexSplit

/-!
# Words of the WPM tokenizer

A text is normalized code point by code point, put into lower case and cut at whitespace;
punctuation and Chinese characters are words of their own.
-/

set_option autoImplicit false

namespace LlamaCpp.Vocab

open LlamaCpp.Lib

def CptFlags.isSeparator (flags : CptFlags) : Bool := flags.getLsbD 3
def CptFlags.isPunctuation (flags : CptFlags) : Bool := flags.getLsbD 5
def CptFlags.isSymbol (flags : CptFlags) : Bool := flags.getLsbD 6
def CptFlags.isControl (flags : CptFlags) : Bool := flags.getLsbD 7

structure RangeNfd where
  first : Nat
  last : Nat
  nfd : Nat

/-- What `unicode_cpts_normalize_nfd` does with one code point: `upper_bound` in the sorted
ranges, and the range before it. -/
def normalizeNfdCpt (ranges : List RangeNfd) (cpt : Nat) : Nat :=
  match (ranges.takeWhile fun range => range.first ≤ cpt).getLast? with
  | some it => if it.first ≤ cpt ∧ cpt ≤ it.last then it.nfd else cpt
  | none => cpt

def unicodeCptsNormalizeNfd (ranges : List RangeNfd) (cpts : List Nat) : List Nat :=
  cpts.map (normalizeNfdCpt ranges)

def isChineseChar (cpt : Nat) : Bool :=
  (0x04E00 ≤ cpt && cpt ≤ 0x09FFF) || (0x03400 ≤ cpt && cpt ≤ 0x04DBF) ||
    (0x20000 ≤ cpt && cpt ≤ 0x2A6DF) || (0x2A700 ≤ cpt && cpt ≤ 0x2B73F) ||
    (0x2B740 ≤ cpt && cpt ≤ 0x2B81F) || (0x2B920 ≤ cpt && cpt ≤ 0x2CEAF) ||
    (0x0F900 ≤ cpt && cpt ≤ 0x0FAFF) || (0x2F800 ≤ cpt && cpt ≤ 0x2FA1F)

structure WpmWords where
  words : List Bytes
  back : Bytes
deriving DecidableEq

def WpmWords.finish (state : WpmWords) : WpmWords :=
  if state.back = [] then state else ⟨state.words ++ [state.back], []⟩

section

variable (data : UnicodeData) (ranges : List RangeNfd)

/-- The body of the loop of `preprocess`. -/
def preprocessCpt (state : WpmWords) (cpt : Nat) : Except String WpmWords :=
  let flags := data.cptFlags cpt
  if flags.isWhitespace then .ok state.finish
  else if flags.isSeparator then .error "assert"
  else if cpt = 0 ∨ cpt = 0xFFFD ∨ flags.isControl then .ok state
  else
    unicodeCptToUtf8 (data.toLower cpt) >>= fun s =>
      if flags.isPunctuation ∨ (cpt < 0x7F ∧ flags.isSymbol) ∨ isChineseChar cpt then
        .ok ⟨state.finish.words ++ [s], []⟩
      else .ok { state with back := state.back ++ s }

def preprocess (text : Bytes) : Except String (List Bytes) :=
  (unicodeCptsNormalizeNfd ranges (unicodeCptsFromUtf8 text)).foldlM (preprocessCpt data) ⟨[], []⟩
    >>= fun state => .ok (if state.back = [] then state.words else state.words ++ [state.back])

/-- What the tables of `unicode-data.cpp` say: no case mapping and no normal form leads out of
the code points, and every separator is whitespace. -/
structure WpmTables : Prop where
  lower : ∀ cpt, cpt ≤ 0x10ffff → data.toLower cpt ≤ 0x10ffff
  nfd : ∀ range ∈ ranges, range.nfd ≤ 0x10ffff
  separator : ∀ cpt, (data.cptFlags cpt).isSeparator = true → (data.cptFlags cpt).isWhitespace = true

end

section

variable {data : UnicodeData} {ranges : List RangeNfd} (tables : WpmTables data ranges)

include tables

theorem normalizeNfdCpt_le {cpt : Nat} (inRange : cpt ≤ 0x10ffff) :
    normalizeNfdCpt ranges cpt ≤ 0x10ffff := by
  unfold normalizeNfdCpt
  split
  · rename_i range found
    have member := (List.takeWhile_subset _) (List.mem_of_getLast? found)
    split
    · exact tables.nfd range member
    · exact inRange
  · exact inRange

theorem preprocessCpt_ok {cpt : Nat} (inRange : cpt ≤ 0x10ffff) (state : WpmWords) :
    ∃ next, preprocessCpt data state cpt = .ok next := by
  have written : unicodeCptToUtf8 (data.toLower cpt) = .ok (utf8Bytes (data.toLower cpt)) :=
    if_pos (tables.lower cpt inRange)
  unfold preprocessCpt
  simp only [written]
  split
  · exact ⟨_, rfl⟩
  · rename_i notWhitespace
    rw [if_neg fun isSeparator => notWhitespace (tables.separator cpt isSeparator)]
    split
    · exact ⟨_, rfl⟩
    · split
      · exact ⟨_, rfl⟩
      · exact ⟨_, rfl⟩

theorem preprocess_ok {text : Bytes} (inRange : ∀ cpt ∈ unicodeCptsFromUtf8 text, cpt ≤ 0x10ffff) :
    ∃ words, preprocess data ranges text = .ok words := by
  have steps : ∀ state, ∀ cpt ∈ unicodeCptsNormalizeNfd ranges (unicodeCptsFromUtf8 text),
      ∃ next, preprocessCpt data state cpt = .ok next := by
    intro state cpt member
    obtain ⟨source, isSource, same⟩ := List.mem_map.mp member
    rw [← same]
    exact preprocessCpt_ok tables (normalizeNfdCpt_le tables (inRange source isSource)) state
  obtain ⟨state, run⟩ := foldlM_ok steps ⟨[], []⟩
  rw [preprocess, run]
  exact ⟨_, rfl⟩

end

end LlamaCpp.Vocab
