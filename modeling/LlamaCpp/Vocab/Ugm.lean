import LlamaCpp.Vocab.NaiveTrie
import LlamaCpp.Vocab.Unicode
import Mathlib.Algebra.Order.Ring.Rat
import Mathlib.Algebra.Order.Monoid.WithTop

/-!
# The unigram tokenizer

The text is normalized piece by piece, and its tokenization is the path of the best score over
the offsets of the normalized text.  Scores are exact; the score `-DBL_MAX`, which is lower than
every sum of scores, is `⊥`.
-/

set_option autoImplicit false

namespace LlamaCpp.Vocab

open LlamaCpp.Lib

structure UgmToken where
  text : Bytes
  score : ℚ
  normal : Bool := false
  userDefined : Bool := false
  unused : Bool := false

/-- A vocabulary of type `LLAMA_VOCAB_TYPE_UGM`; the loader names empty tokens and asserts that
no two tokens have one text. -/
structure UgmVocab where
  idToToken : List UgmToken
  tokenUnk : Nat
  escapeWhitespaces : Bool
  addSpacePrefix : Bool
  removeExtraWhitespaces : Bool
  treatWhitespaceAsSuffix : Bool
  nonempty : ∀ token ∈ idToToken, token.text ≠ []
  distinct : (idToToken.map UgmToken.text).Nodup

/-- The array and the replacements of a `precompiled_charsmap`. -/
structure Charsmap where
  xcdaArray : List UInt32
  prefixReplacements : Bytes

def outsideCharsmap : String := "Index out of array bounds in precompiled charsmap!"

def leWords : Nat → Bytes → List UInt32
  | 0, _ => []
  | n + 1, bytes => UInt32.ofNat (ofLeBytes (bytes.take 4)) :: leWords n (bytes.drop 4)

/-- How `llm_tokenizer_ugm` cuts up the charsmap. -/
def loadCharsmap (precompiledCharsmap : Bytes) : Except String Charsmap :=
  if precompiledCharsmap = [] then .ok ⟨[], []⟩
  else
    let xcdaBlobSize := ofLeBytes (precompiledCharsmap.take 4)
    if precompiledCharsmap.length ≤ xcdaBlobSize + 4 then .error outsideCharsmap
    else
      let blob := precompiledCharsmap.drop 4
      .ok ⟨leWords (xcdaBlobSize / 4) blob, blob.drop xcdaBlobSize⟩

section

variable (vocab : UgmVocab)

/-- The tokens that `token_matcher` holds. -/
def UgmToken.isMatched (token : UgmToken) : Bool := token.normal || token.userDefined || token.unused

def matchedEntries : List (Bytes × Nat) :=
  vocab.idToToken.zipIdx.filterMap fun entry =>
    if entry.1.isMatched then some (entry.1.text, entry.2) else none

def userDefinedEntries : List (Bytes × Nat) :=
  (vocab.idToToken.filter UgmToken.userDefined).map fun token => (token.text, 0)

def tokenMatcher : NaiveTrie Nat := .ofEntries (matchedEntries vocab)

def userDefinedTokenMatcher : NaiveTrie Nat := .ofEntries (userDefinedEntries vocab)

def fltMax : ℚ := 340282346638528859811704183484516925440

def minScore : ℚ :=
  vocab.idToToken.foldl (fun least token => if token.normal then min least token.score else least)
    fltMax

def unknownTokenScore : ℚ := minScore vocab - 10

structure NormalizationResult where
  normalized : Bytes
  consumedInput : Nat
deriving DecidableEq

/-- `xcda_array_view::get_node`. -/
def xcdaNode (charsmap : Charsmap) (index : UInt32) : Except String UInt32 :=
  match charsmap.xcdaArray[index.toNat]? with
  | some node => .ok node
  | none => .error "Index out of array bounds in XCDA array!"

/-- `xcda_array_view::get_base`. -/
def xcdaBase (packedNode : UInt32) : UInt32 :=
  (packedNode >>> 10) <<< ((packedNode &&& ((1 : UInt32) <<< 9)) >>> 6)

/-- `xcda_array_view::get_lcheck`. -/
def xcdaLcheck (packedNode : UInt32) : UInt32 := packedNode &&& ((1 : UInt32) <<< 31 ||| 0xff)

/-- `xcda_array_view::get_leaf`. -/
def xcdaLeaf (packedNode : UInt32) : Bool := (packedNode >>> 8) &&& 1 = 1

/-- `xcda_array_view::get_value`. -/
def xcdaValue (packedNode : UInt32) : UInt32 := packedNode &&& ((1 : UInt32) <<< 31 - 1)

/-- The walk through the array from a node on; `best` is the length and the replacement of the
longest match so far. -/
def xcdaWalk (charsmap : Charsmap) (nodeIndex : UInt32) (length : Nat) (best : Nat × UInt32) :
    Bytes → Except String (Nat × UInt32)
  | [] => .ok best
  | c :: rest =>
    if c = 0 then .ok best
    else do
      let index := nodeIndex ^^^ c.toUInt32
      let node ← xcdaNode charsmap index
      if xcdaLcheck node ≠ c.toUInt32 then .ok best
      else
        let next := index ^^^ xcdaBase node
        if xcdaLeaf node then do
          let leaf ← xcdaNode charsmap next
          xcdaWalk charsmap next (length + 1) (length + 1, xcdaValue leaf) rest
        else xcdaWalk charsmap next (length + 1) best rest

def longestPrefix (charsmap : Charsmap) (rest : Bytes) : Except String (Nat × UInt32) :=
  if charsmap.xcdaArray.length = 0 then .ok (0, 0)
  else do
    let root ← xcdaNode charsmap 0
    xcdaWalk charsmap (xcdaBase root) 0 (0, 0) rest

/-- The bytes up to a terminator, as `strlen` counts them; without one it reads too far. -/
def cString (bytes : Bytes) : Except String Bytes :=
  if 0 ∈ bytes then .ok (bytes.takeWhile (· ≠ 0)) else .error "overread"

def replacementAt (charsmap : Charsmap) (offset : UInt32) (length : Nat) :
    Except String NormalizationResult :=
  if charsmap.prefixReplacements.length ≤ offset.toNat then .error outsideCharsmap
  else (cString (charsmap.prefixReplacements.drop offset.toNat)).map (⟨·, length⟩)

def keptCodePoint (rest : Bytes) : NormalizationResult :=
  match unicodeCptFromUtf8 rest with
  | .ok (_, behind) =>
    ⟨rest.take (rest.length - behind.length), rest.length - behind.length⟩
  | .error _ => ⟨[0xEF, 0xBF, 0xBD], 1⟩

/-- The part of `normalize_prefix` behind the user-defined tokens. -/
def normalizeByCharsmap (charsmap : Charsmap) (rest : Bytes) : Except String NormalizationResult := do
  let longest ← longestPrefix charsmap rest
  if 0 < longest.1 then replacementAt charsmap longest.2 longest.1 else .ok (keptCodePoint rest)

def userDefinedTokenMatch (rest : Bytes) : Nat :=
  (userDefinedTokenMatcher vocab).getLongestPrefix rest 0

/-- `normalize_prefix` on the rest of the input. -/
def normalizePrefix (charsmap : Charsmap) (rest : Bytes) : Except String NormalizationResult :=
  if rest = [] then .ok ⟨[], 0⟩
  else if 0 < userDefinedTokenMatch vocab rest then
    .ok ⟨rest.take (userDefinedTokenMatch vocab rest), userDefinedTokenMatch vocab rest⟩
  else normalizeByCharsmap charsmap rest

end

end LlamaCpp.Vocab
