import LlamaCpp.Vocab.Bpe
import Mathlib.Data.List.Forall2
import Mathlib.Data.List.TakeWhile

/-!
# The special tokens of a text

A list of fragments starts as the whole raw text.  For every special token the list is walked
through, and each text is replaced, where it stands, by what is left of the first occurrence, the
token, and what is right of it; the search then goes on in the right part.
-/

set_option autoImplicit false

namespace LlamaCpp.Vocab

open LlamaCpp.Lib List Option

/-! ## The list of fragments -/

/-- `fragment_buffer_variant`: a token or a span of the raw text. -/
inductive FragmentBufferVariant
  | token (id : Nat)
  | rawText (offset length : Nat)
deriving DecidableEq

def rawVariant (rawText : Bytes) (offset length : Nat) : Except String FragmentBufferVariant :=
  if 1 ≤ length ∧ offset + length ≤ rawText.length then .ok (.rawText offset length)
  else .error "GGML_ASSERT"

/-- `buffer`, and how far `it` is from its beginning. -/
structure FragmentList where
  buffer : List FragmentBufferVariant
  it : Nat

/-- `emplace_after` at the iterator, which then moves on. -/
def FragmentList.emplaceAfter (list : FragmentList) (variant : FragmentBufferVariant) :
    FragmentList :=
  ⟨list.buffer.insertIdx (list.it + 1) variant, list.it + 1⟩

def FragmentList.emplaceText (list : FragmentList) (rawText : Bytes) (offset length : Nat) :
    Except String FragmentList :=
  if 0 < length then (rawVariant rawText offset length).map list.emplaceAfter else .ok list

/-- `erase_after` a place of the list or the place before its beginning. -/
def eraseAfter (buffer : List FragmentBufferVariant) : Option Nat → List FragmentBufferVariant
  | none => buffer.eraseIdx 0
  | some position => buffer.eraseIdx (position + 1)

/-- The node at `source` is erased; the iterator stays on its node, which moves up. -/
def FragmentList.eraseSource (list : FragmentList) (source : Nat) : FragmentList :=
  ⟨eraseAfter list.buffer (if source = 0 then none else some (source - 1)), list.it - 1⟩

/-! ## The partition -/

def stripLeft (rawText : Bytes) (offset : Nat) : Nat → Nat
  | 0 => 0
  | length + 1 =>
    if isSpace (rawText.getD (offset + length) 0) then stripLeft rawText offset length
    else length + 1

def stripRight (rawText : Bytes) : Nat → Nat → Nat × Nat
  | offset, 0 => (offset, 0)
  | offset, length + 1 =>
    if isSpace (rawText.getD offset 0) then stripRight rawText (offset + 1) length
    else (offset, length + 1)

def leftReminder (data : TokenData) (rawText : Bytes) (offset length : Nat) : Nat :=
  if data.attr.lstrip then stripLeft rawText offset length else length

def rightReminder (data : TokenData) (rawText : Bytes) (offset length : Nat) : Nat × Nat :=
  if data.attr.rstrip then stripRight rawText offset length else (offset, length)

def matchRounds (rawText : Bytes) (specialId : Nat) (data : TokenData) :
    Nat → FragmentList → Nat → Nat → Except String FragmentList
  | 0, _, _, _ => .error "out of fuel"
  | fuel + 1, list, offset, length =>
    match (findText data.text ((rawText.take (offset + length)).drop offset)).map (· + offset) with
    | none => .ok list
    | some found =>
      list.emplaceText rawText offset (leftReminder data rawText offset (found - offset)) >>=
        fun left =>
          let special := left.emplaceAfter (.token specialId)
          if found + data.text.length < offset + length then
            let right := rightReminder data rawText (found + data.text.length)
              (length - (found - offset + data.text.length))
            special.emplaceText rawText right.1 right.2 >>= fun next =>
              matchRounds rawText specialId data fuel (next.eraseSource list.it) right.1 right.2
          else .ok (special.eraseSource list.it)

def fragmentRounds (rawText : Bytes) (specialId : Nat) (data : TokenData) :
    Nat → FragmentList → Except String (List FragmentBufferVariant)
  | 0, _ => .error "out of fuel"
  | fuel + 1, list =>
    match list.buffer[list.it]? with
    | none => .ok list.buffer
    | some (.token _) => fragmentRounds rawText specialId data fuel ⟨list.buffer, list.it + 1⟩
    | some (.rawText offset length) =>
      matchRounds rawText specialId data (length + 1) list offset length >>= fun list =>
        fragmentRounds rawText specialId data fuel ⟨list.buffer, list.it + 1⟩

section

variable (idToToken : List TokenData)

def partitionForToken (parseSpecial : Bool) (rawText : Bytes) (buffer : List FragmentBufferVariant)
    (specialId : Nat) : Except String (List FragmentBufferVariant) :=
  match idToToken[specialId]? with
  | none => .error "std::out_of_range"
  | some data =>
    if !parseSpecial && (data.attr.control || data.attr.unknown) then .ok buffer
    else fragmentRounds rawText specialId data (buffer.length + 1) ⟨buffer, 0⟩

/-- `tokenizer_st_partition` on the list that `tokenize` begins with. -/
def partitionRawText (cacheSpecialTokens : List Nat) (parseSpecial : Bool) (rawText : Bytes) :
    Except String (List FragmentBufferVariant) :=
  rawVariant rawText 0 rawText.length >>= fun whole =>
    cacheSpecialTokens.foldlM (partitionForToken idToToken parseSpecial rawText) [whole]

end

def FragmentBufferVariant.fragment (rawText : Bytes) : FragmentBufferVariant → Fragment
  | token id => .token id
  | FragmentBufferVariant.rawText offset length => .rawText ((rawText.drop offset).take length)

/-! ## What the partition is for -/

def trimEnd (text : Bytes) : Bytes := (text.reverse.dropWhile isSpace).reverse

def rawFragments (text : Bytes) : List Fragment := if text = [] then [] else [.rawText text]

/-- The occurrences of a token are taken from the left, each behind the one before it and the
whitespace that goes with that one. -/
inductive LeftmostCut (id : Nat) (special : TokenData) : Bytes → List Fragment → Prop
  | absent {text : Bytes} (none_ : ¬ special.text <:+: text) :
      LeftmostCut id special text (rawFragments text)
  | found {left rest : Bytes} {pieces : List Fragment}
      (leftmost : ∀ n, n < left.length →
        ¬ special.text <+: (left ++ (special.text ++ rest)).drop n)
      (later : LeftmostCut id special
        (if special.attr.rstrip then rest.dropWhile isSpace else rest) pieces) :
      LeftmostCut id special (left ++ (special.text ++ rest))
        (rawFragments (if special.attr.lstrip then trimEnd left else left) ++ .token id :: pieces)

section

variable (idToToken : List TokenData) (parseSpecial : Bool)

structure Enabled (id : Nat) (special : TokenData) : Prop where
  known : idToToken[id]? = some special
  parsed : parseSpecial = true ∨ (special.attr.control || special.attr.unknown) = false

def CutTexts (id : Nat) (special : TokenData) (fragments next : List Fragment) : Prop :=
  ∃ parts, next = parts.flatten ∧ List.Forall₂ (fun fragment part =>
    match fragment with
    | .token other => part = [.token other]
    | .rawText text => LeftmostCut id special text part) fragments parts

def CutInOrder : List Nat → List Fragment → List Fragment → Prop
  | [], fragments, result => result = fragments
  | id :: rest, fragments, result =>
    ∃ next, CutInOrder rest next result ∧
      ((∃ special, Enabled idToToken parseSpecial id special ∧
          CutTexts id special fragments next) ∨
        ((¬ ∃ special, Enabled idToToken parseSpecial id special) ∧ next = fragments))

/-- The fragments are the text without whitespace before `LSTRIP` and behind `RSTRIP` tokens. -/
inductive Restores : List Fragment → Bytes → Prop
  | nil : Restores [] []
  | rawText {text more : Bytes} {rest : List Fragment} (later : Restores rest more) :
      Restores (.rawText text :: rest) (text ++ more)
  | token {id : Nat} {special : TokenData} {before after more : Bytes} {rest : List Fragment}
      (known : idToToken[id]? = some special)
      (spaceBefore : ∀ c ∈ before, isSpace c = true)
      (stripsBefore : before ≠ [] → special.attr.lstrip = true)
      (spaceAfter : ∀ c ∈ after, isSpace c = true)
      (stripsAfter : after ≠ [] → special.attr.rstrip = true)
      (later : Restores rest more) :
      Restores (.token id :: rest) (before ++ special.text ++ after ++ more)

end

def leftmostOccurrences (pattern : Bytes) : Nat → Nat → Bytes → List Nat
  | 0, _, _ => []
  | fuel + 1, start, text =>
    match findText pattern text with
    | none => []
    | some found =>
      (start + found) :: leftmostOccurrences pattern fuel (start + found + pattern.length)
        (text.drop (found + pattern.length))

/-! ## Nodes of the list -/

def atNode (front : List FragmentBufferVariant) (node : FragmentBufferVariant)
    (behind : List FragmentBufferVariant) : FragmentList :=
  ⟨front ++ node :: behind, front.length⟩

theorem emplaceAfter_atNode (front behind : List FragmentBufferVariant)
    (node variant : FragmentBufferVariant) :
    (atNode front node behind).emplaceAfter variant = atNode (front ++ [node]) variant behind := by
  have inserted : (front ++ node :: behind).insertIdx (front.length + 1) variant =
      front ++ [node] ++ variant :: behind := by
    induction front with
    | nil => rfl
    | cons first rest ih =>
      rw [cons_append, length_cons, insertIdx_succ_cons, ih]
      rfl
  rw [FragmentList.emplaceAfter, atNode, inserted, atNode, length_append,
    length_singleton]

theorem eraseSource_atNode (before between behind : List FragmentBufferVariant)
    (source node : FragmentBufferVariant) :
    (atNode (before ++ source :: between) node behind).eraseSource before.length =
      atNode (before ++ between) node behind := by
  have erased : eraseAfter (before ++ source :: between ++ node :: behind)
      (if before.length = 0 then none else some (before.length - 1)) =
        before ++ between ++ node :: behind := by
    have whole : before ++ source :: between ++ node :: behind =
        before ++ (source :: (between ++ node :: behind)) := by
      rw [append_assoc, cons_append]
    have removed : (before ++ source :: between ++ node :: behind).eraseIdx before.length =
        before ++ between ++ node :: behind := by
      rw [whole, eraseIdx_append_of_length_le (Nat.le_refl _), Nat.sub_self,
        eraseIdx_cons_zero, append_assoc]
    split
    · rename_i first
      rw [first] at removed
      exact removed
    · rename_i later
      rw [eraseAfter, Nat.sub_add_cancel (Nat.pos_of_ne_zero later)]
      exact removed
  have place : (before ++ source :: between).length - 1 = (before ++ between).length := by
    simp only [length_append, length_cons]
    omega
  rw [FragmentList.eraseSource, atNode, atNode, erased, place]

/-! ## Spans of the raw text -/

def spanOf (rawText : Bytes) (offset length : Nat) : Bytes := (rawText.drop offset).take length

variable {rawText : Bytes} {offset length fuel : Nat} {special : TokenData} {text : Bytes}
  {id : Nat}

theorem spanOf_succ (inside : offset < rawText.length) (length : Nat) :
    spanOf rawText offset (length + 1) =
      rawText.getD offset 0 :: spanOf rawText (offset + 1) length := by
  rw [spanOf, drop_eq_getElem_cons inside, take_succ_cons, getD_eq_getElem _ _ inside,
    spanOf]

theorem spanOf_concat (inside : offset + length < rawText.length) :
    spanOf rawText offset (length + 1) =
      spanOf rawText offset length ++ [rawText.getD (offset + length) 0] := by
  rw [spanOf, take_add_one, List.getElem?_drop, List.getElem?_eq_getElem inside,
    getD_eq_getElem _ _ inside, spanOf, toList_some]

theorem stripLeft_spec (inside : offset + length ≤ rawText.length) :
    stripLeft rawText offset length ≤ length ∧
      spanOf rawText offset (stripLeft rawText offset length) =
        trimEnd (spanOf rawText offset length) := by
  induction length with
  | zero => exact ⟨le_refl 0, by simp [spanOf, stripLeft, trimEnd]⟩
  | succ length ih =>
    obtain ⟨shorter, same⟩ := ih (by omega)
    rw [stripLeft, spanOf_concat (by omega), trimEnd, reverse_append, reverse_singleton,
      singleton_append, dropWhile_cons]
    split
    · exact ⟨by omega, same⟩
    · refine ⟨le_refl _, ?_⟩
      rw [spanOf_concat (by omega), reverse_cons, reverse_reverse]

theorem stripRight_spec (inside : offset + length ≤ rawText.length) :
    (stripRight rawText offset length).1 + (stripRight rawText offset length).2 =
        offset + length ∧
      (stripRight rawText offset length).2 ≤ length ∧
      spanOf rawText (stripRight rawText offset length).1 (stripRight rawText offset length).2 =
        (spanOf rawText offset length).dropWhile isSpace := by
  induction length generalizing offset with
  | zero => exact ⟨rfl, le_refl 0, by simp [spanOf, stripRight]⟩
  | succ length ih =>
    obtain ⟨sum, shorter, same⟩ := @ih (offset + 1) (by omega)
    rw [stripRight, spanOf_succ (by omega), dropWhile_cons]
    split
    · exact ⟨by omega, by omega, same⟩
    · exact ⟨rfl, le_refl _, spanOf_succ (by omega) _⟩

/-! ## One fragment -/

def FragmentBufferVariant.Inside (rawText : Bytes) : FragmentBufferVariant → Prop
  | token _ => True
  | FragmentBufferVariant.rawText offset length => 0 < length ∧ offset + length ≤ rawText.length

def textNodes (offset length : Nat) : List FragmentBufferVariant :=
  if 0 < length then [.rawText offset length] else []

theorem inside_textNodes (inside : offset + length ≤ rawText.length) :
    ∀ node ∈ textNodes offset length, node.Inside rawText := by
  intro node member
  unfold textNodes at member
  split at member
  · rename_i some_
    rw [mem_singleton.mp member]
    exact ⟨some_, inside⟩
  · contradiction

theorem fragments_textNodes (inside : offset + length ≤ rawText.length) :
    (textNodes offset length).map (FragmentBufferVariant.fragment rawText) =
      rawFragments (spanOf rawText offset length) := by
  have size : (spanOf rawText offset length).length = length := by
    rw [spanOf, length_take, length_drop]
    omega
  unfold textNodes rawFragments
  split
  · rw [if_neg (length_pos_iff.mp (by omega))]
    rfl
  · rw [if_pos (length_eq_zero_iff.mp (by omega)), map_nil]

theorem rawVariant_ok (some_ : 0 < length) (inside : offset + length ≤ rawText.length) :
    rawVariant rawText offset length = .ok (.rawText offset length) :=
  if_pos ⟨some_, inside⟩

theorem emplaceText_token (inside : offset + length ≤ rawText.length)
    (front behind : List FragmentBufferVariant) (node variant : FragmentBufferVariant) :
    ∃ left, (atNode front node behind).emplaceText rawText offset length = .ok left ∧
      left.emplaceAfter variant =
        atNode (front ++ node :: textNodes offset length) variant behind := by
  unfold FragmentList.emplaceText textNodes
  split
  · rename_i some_
    rw [rawVariant_ok some_ inside]
    refine ⟨_, rfl, ?_⟩
    rw [emplaceAfter_atNode, emplaceAfter_atNode, append_assoc, singleton_append]
  · exact ⟨_, rfl, emplaceAfter_atNode ..⟩

theorem view_eq (rawText : Bytes) (offset length : Nat) :
    (rawText.take (offset + length)).drop offset = spanOf rawText offset length := by
  rw [drop_take, Nat.add_sub_cancel_left, spanOf]

theorem findText_nil {phrase : Bytes} (some_ : phrase ≠ []) : findText phrase [] = none := by
  cases found : findText phrase [] with
  | none => rfl
  | some pos => exact absurd (eq_nil_of_infix_nil (infix_of_findText found)) some_

theorem drop_spanOf (rawText : Bytes) (offset length skip : Nat) :
    (spanOf rawText offset length).drop skip = spanOf rawText (offset + skip) (length - skip) := by
  rw [spanOf, drop_take, drop_drop, spanOf]

theorem take_spanOf {size : Nat} (within : size ≤ length) :
    (spanOf rawText offset length).take size = spanOf rawText offset size := by
  rw [spanOf, take_take, min_eq_left within, spanOf]

theorem length_spanOf (inside : offset + length ≤ rawText.length) :
    (spanOf rawText offset length).length = length := by
  rw [spanOf, length_take, length_drop]
  omega

theorem leftReminder_spec (data : TokenData) {rawText : Bytes} {offset length : Nat}
    (inside : offset + length ≤ rawText.length) :
    leftReminder data rawText offset length ≤ length ∧
      spanOf rawText offset (leftReminder data rawText offset length) =
        if data.attr.lstrip then trimEnd (spanOf rawText offset length)
          else spanOf rawText offset length := by
  unfold leftReminder
  split
  · exact stripLeft_spec inside
  · exact ⟨le_refl _, rfl⟩

theorem rightReminder_spec (data : TokenData) {rawText : Bytes} {offset length : Nat}
    (inside : offset + length ≤ rawText.length) :
    (rightReminder data rawText offset length).1 + (rightReminder data rawText offset length).2 =
        offset + length ∧
      (rightReminder data rawText offset length).2 ≤ length ∧
      spanOf rawText (rightReminder data rawText offset length).1
          (rightReminder data rawText offset length).2 =
        if data.attr.rstrip then (spanOf rawText offset length).dropWhile isSpace
          else spanOf rawText offset length := by
  unfold rightReminder
  split
  · exact stripRight_spec inside
  · exact ⟨rfl, le_refl _, rfl⟩

theorem matchRounds_empty {specialId : Nat} {data : TokenData} (texted : data.text ≠ [])
    (enough : 0 < fuel) (list : FragmentList) (offset : Nat) :
    matchRounds rawText specialId data fuel list offset 0 = .ok list := by
  obtain ⟨fuel, rfl⟩ : ∃ less, fuel = less + 1 := ⟨fuel - 1, by omega⟩
  rw [matchRounds, view_eq, spanOf, take_zero, findText_nil texted]
  rfl

theorem partitionText_empty {token : Nat} (texted : special.text ≠ []) (enough : 0 < fuel)
    (rawText : Bytes) (offset : Nat) :
    partitionText token special fuel (spanOf rawText offset 0) = [] := by
  obtain ⟨fuel, rfl⟩ : ∃ less, fuel = less + 1 := ⟨fuel - 1, by omega⟩
  rw [partitionText, spanOf, take_zero, findText_nil texted]
  rfl

theorem partitionText_found {token : Nat} {pos : Nat}
    (found : findText special.text text = some pos) (fuel : Nat) :
    partitionText token special (fuel + 1) text =
      rawFragments (if special.attr.lstrip then trimEnd (text.take pos) else text.take pos) ++
        .token token ::
          (if text.drop (pos + special.text.length) = [] then []
          else partitionText token special fuel
            (if special.attr.rstrip then (text.drop (pos + special.text.length)).dropWhile isSpace
              else text.drop (pos + special.text.length))) := by
  rw [partitionText, found]
  rfl

/-- The list behind a match: the iterator is on the right part, or on the token if there is none. -/
def behindMatch (specialId : Nat) (front : List FragmentBufferVariant) (right : Nat × Nat)
    (behind : List FragmentBufferVariant) : FragmentList :=
  if 0 < right.2 then
    atNode (front ++ [.token specialId]) (.rawText right.1 right.2) behind
  else atNode front (.token specialId) behind

theorem matchRounds_found {specialId : Nat} {data : TokenData} {pos : Nat}
    (inside : offset + length ≤ rawText.length)
    (found : findText data.text (spanOf rawText offset length) = some pos) (fits : pos ≤ length)
    (fuel : Nat) (before behind : List FragmentBufferVariant) :
    matchRounds rawText specialId data (fuel + 1)
        (atNode before (.rawText offset length) behind) offset length =
      let front := before ++ textNodes offset (leftReminder data rawText offset pos)
      if pos + offset + data.text.length < offset + length then
        let right := rightReminder data rawText (pos + offset + data.text.length)
          (length - (pos + data.text.length))
        matchRounds rawText specialId data fuel (behindMatch specialId front right behind)
          right.1 right.2
      else .ok (atNode front (.token specialId) behind) := by
  have leftInside : offset + leftReminder data rawText offset pos ≤ rawText.length := by
    have shorter := (@leftReminder_spec data rawText offset pos (by omega)).1
    omega
  obtain ⟨left, placed, special⟩ := emplaceText_token leftInside before behind
    (.rawText offset length) (.token specialId)
  rw [matchRounds, view_eq, found]
  simp only [map_some, Nat.add_sub_cancel]
  rw [placed, ok_bind]
  simp only [special]
  by_cases more : pos + offset + data.text.length < offset + length
  · have rightInside := (@rightReminder_spec data rawText (pos + offset + data.text.length)
      (length - (pos + data.text.length)) (by omega)).1
    rw [if_pos more]
    rw [FragmentList.emplaceText, behindMatch]
    split
    · rename_i some_
      rw [rawVariant_ok some_ (by omega)]
      change matchRounds rawText specialId data fuel
        (FragmentList.eraseSource (FragmentList.emplaceAfter _ _) before.length) _ _ = _
      rw [emplaceAfter_atNode, append_assoc, cons_append, eraseSource_atNode,
        ← append_assoc]
    · change matchRounds rawText specialId data fuel
        (FragmentList.eraseSource _ before.length) _ _ = _
      rw [eraseSource_atNode]
  · rw [if_neg more, if_neg more]
    change Except.ok (FragmentList.eraseSource _ before.length) = _
    rw [eraseSource_atNode]

theorem inside_token {nodes later : List FragmentBufferVariant}
    (first : ∀ node ∈ nodes, node.Inside rawText) (rest : ∀ node ∈ later, node.Inside rawText) :
    ∀ node ∈ nodes ++ .token id :: later, node.Inside rawText :=
  forall_mem_append.mpr ⟨first, forall_mem_cons.mpr ⟨trivial, rest⟩⟩

theorem matchRounds_spec {rawText : Bytes} {specialId : Nat} {data : TokenData}
    (texted : data.text ≠ []) {fuel offset length : Nat}
    (inside : offset + length ≤ rawText.length) (enough : length < fuel) (some_ : 0 < length)
    (before behind : List FragmentBufferVariant) :
    ∃ front last,
      matchRounds rawText specialId data fuel (atNode before (.rawText offset length) behind)
          offset length = .ok (atNode (before ++ front) last behind) ∧
        (front ++ [last]).map (FragmentBufferVariant.fragment rawText) =
          partitionText specialId data fuel (spanOf rawText offset length) ∧
        ∀ node ∈ front ++ [last], node.Inside rawText := by
  induction fuel generalizing offset length before with
  | zero => contradiction
  | succ fuel ih =>
    have size := length_spanOf inside
    cases found : findText data.text (spanOf rawText offset length) with
    | none =>
      rw [matchRounds, view_eq, partitionText, found]
      refine ⟨[], .rawText offset length, ?_, ?_, ?_⟩
      · rw [append_nil]
        rfl
      · rw [if_neg (length_pos_iff.mp (by omega))]
        rfl
      · exact forall_mem_singleton.mpr ⟨some_, inside⟩
    | some pos =>
      have textLength := length_pos_iff.mpr texted
      have fits := (findText_spec found).1.length_le
      rw [length_drop] at fits
      obtain ⟨shorter, leftSpan⟩ := @leftReminder_spec data rawText offset pos (by omega)
      have leftInside : offset + leftReminder data rawText offset pos ≤ rawText.length := by
        omega
      have leftNodes := fragments_textNodes leftInside
      have nodesLeft := inside_textNodes leftInside
      rw [matchRounds_found inside found (by omega), partitionText_found found,
        take_spanOf (by omega), ← leftSpan, ← leftNodes, drop_spanOf]
      generalize textNodes offset (leftReminder data rawText offset pos) = nodes
        at nodesLeft
      by_cases more : pos + offset + data.text.length < offset + length
      · obtain ⟨sum, smaller, rightSpan⟩ := @rightReminder_spec data rawText
          (pos + offset + data.text.length) (length - (pos + data.text.length)) (by omega)
        have rest : spanOf rawText (offset + (pos + data.text.length))
            (length - (pos + data.text.length)) ≠ [] := by
          refine length_pos_iff.mp ?_
          rw [length_spanOf (by omega)]
          omega
        have place : offset + (pos + data.text.length) = pos + offset + data.text.length := by
          omega
        simp only [if_pos more]
        rw [if_neg rest, place, ← rightSpan, behindMatch]
        generalize rightReminder data rawText (pos + offset + data.text.length)
          (length - (pos + data.text.length)) = right at sum smaller
        split
        · rename_i pos_
          obtain ⟨front, last, run, pieces, inPieces⟩ := @ih right.1 right.2 (by omega)
            (by omega) pos_
            (before ++ nodes ++ [.token specialId])
          refine ⟨nodes ++ .token specialId :: front, last, ?_, ?_, ?_⟩
          · rw [run, append_assoc, append_assoc, singleton_append]
          · rw [append_assoc, map_append, cons_append, map_cons, pieces]
            rfl
          · rw [append_assoc]
            exact inside_token nodesLeft inPieces
        · -- the whitespace behind the token was all that is left
          obtain ⟨start, empty⟩ : ∃ start, right = (start, 0) :=
            ⟨right.1, Prod.ext rfl (by omega)⟩
          rw [empty, matchRounds_empty texted (by omega), partitionText_empty texted (by omega)]
          exact ⟨nodes, .token specialId, rfl, map_append,
            inside_token nodesLeft fun node member => by contradiction⟩
      · have ends : spanOf rawText (offset + (pos + data.text.length))
            (length - (pos + data.text.length)) = [] := by
          rw [show length - (pos + data.text.length) = 0 by omega]
          exact take_zero
        simp only [if_neg more]
        rw [if_pos ends]
        exact ⟨nodes, .token specialId, rfl, map_append,
          inside_token nodesLeft fun node member => by contradiction⟩

/-! ## The whole list -/

def cutFragment (id : Nat) (special : TokenData) : Fragment → List Fragment
  | .token other => [.token other]
  | .rawText text => partitionText id special (text.length + 1) text

theorem fragmentRounds_spec {rawText : Bytes} {specialId : Nat} {data : TokenData}
    (texted : data.text ≠ []) {fuel : Nat} (front nodes : List FragmentBufferVariant)
    (enough : nodes.length < fuel) (inside : ∀ node ∈ nodes, node.Inside rawText) :
    ∃ pieces, fragmentRounds rawText specialId data fuel ⟨front ++ nodes, front.length⟩ =
        .ok (front ++ pieces) ∧
      pieces.map (FragmentBufferVariant.fragment rawText) =
        (nodes.map (FragmentBufferVariant.fragment rawText)).flatMap (cutFragment specialId data) ∧
      ∀ node ∈ pieces, node.Inside rawText := by
  induction fuel generalizing front nodes with
  | zero => contradiction
  | succ fuel ih =>
    cases nodes with
    | nil =>
      rw [fragmentRounds, append_nil, List.getElem?_eq_none (le_refl _)]
      exact ⟨[], by rw [append_nil], rfl, fun node member => by contradiction⟩
    | cons node rest =>
      obtain ⟨here, others⟩ := forall_mem_cons.mp inside
      rw [length_cons] at enough
      rw [fragmentRounds, List.getElem?_append_right (Nat.le_refl _), Nat.sub_self,
        List.getElem?_cons_zero]
      cases node with
      | token id =>
        obtain ⟨pieces, run, same, kept⟩ := ih (front ++ [.token id]) rest (by omega) others
        rw [append_assoc, length_append] at run
        refine ⟨.token id :: pieces, ?_, ?_, ?_⟩
        · rw [append_assoc] at run
          exact run
        · rw [map_cons, same, map_cons]
          rfl
        · exact forall_mem_cons.mpr ⟨trivial, kept⟩
      | rawText offset length =>
        obtain ⟨some_, fits⟩ := here
        obtain ⟨first, last, cut, same, kept⟩ := @matchRounds_spec _ specialId _ texted _ _ _
          fits (Nat.lt_succ_self length) some_ front rest
        obtain ⟨pieces, run, later, keptLater⟩ :=
          ih (front ++ first ++ [last]) rest (by omega) others
        rw [append_assoc, length_append] at run
        have start : (⟨front ++ .rawText offset length :: rest, front.length⟩ : FragmentList) =
            atNode front (.rawText offset length) rest := rfl
        refine ⟨first ++ [last] ++ pieces, ?_, ?_, ?_⟩
        · rw [start]
          simp only [cut]
          rw [← append_assoc, ← append_assoc]
          exact run
        · rw [map_append, same, later, map_cons]
          refine congrArg (· ++ _) ?_
          rw [FragmentBufferVariant.fragment, cutFragment, ← spanOf, length_spanOf fits]
        · exact forall_mem_append.mpr ⟨kept, keptLater⟩

section

variable (idToToken : List TokenData) (parseSpecial : Bool)

def partitionFragments (fragments : List Fragment) (id : Nat) : List Fragment :=
  match idToToken[id]? with
  | none => fragments
  | some special =>
    if !parseSpecial && (special.attr.control || special.attr.unknown) then fragments
    else fragments.flatMap (cutFragment id special)

end

section

variable {idToToken : List TokenData} {parseSpecial : Bool}

theorem partitionForToken_spec {rawText : Bytes} {id : Nat} {special : TokenData}
    (known : idToToken[id]? = some special) (texted : special.text ≠ [])
    {buffer : List FragmentBufferVariant} (inside : ∀ node ∈ buffer, node.Inside rawText) :
    ∃ next, partitionForToken idToToken parseSpecial rawText buffer id = .ok next ∧
      next.map (FragmentBufferVariant.fragment rawText) =
        partitionFragments idToToken parseSpecial
          (buffer.map (FragmentBufferVariant.fragment rawText)) id ∧
      ∀ node ∈ next, node.Inside rawText := by
  rw [partitionForToken, partitionFragments, known]
  dsimp only
  split
  · exact ⟨buffer, rfl, rfl, inside⟩
  · obtain ⟨pieces, run, same, kept⟩ := @fragmentRounds_spec _ id _ texted _ [] buffer
      (Nat.lt_succ_self _) inside
    exact ⟨pieces, run, same, kept⟩

theorem foldlM_partitionForToken {rawText : Bytes} {ids : List Nat}
    (known : ∀ id ∈ ids, ∃ special, idToToken[id]? = some special ∧ special.text ≠ [])
    {buffer : List FragmentBufferVariant} (inside : ∀ node ∈ buffer, node.Inside rawText) :
    ∃ final, ids.foldlM (partitionForToken idToToken parseSpecial rawText) buffer = .ok final ∧
      final.map (FragmentBufferVariant.fragment rawText) =
        ids.foldl (partitionFragments idToToken parseSpecial)
          (buffer.map (FragmentBufferVariant.fragment rawText)) := by
  induction ids generalizing buffer with
  | nil => exact ⟨buffer, rfl, rfl⟩
  | cons id rest ih =>
    obtain ⟨special, found, texted⟩ := known id mem_cons_self
    obtain ⟨next, step, same, kept⟩ :=
      @partitionForToken_spec _ parseSpecial _ _ _ found texted _ inside
    rw [foldlM_cons, step, foldl_cons, ← same]
    exact ih (fun other member => known other (mem_cons_of_mem _ member)) kept

theorem partitionRawText_eq {cacheSpecialTokens : List Nat}
    (known : ∀ id ∈ cacheSpecialTokens, ∃ special, idToToken[id]? = some special ∧
      special.text ≠ [])
    {rawText : Bytes} (some_ : rawText ≠ []) :
    ∃ buffer, partitionRawText idToToken cacheSpecialTokens parseSpecial rawText = .ok buffer ∧
      buffer.map (FragmentBufferVariant.fragment rawText) =
        cacheSpecialTokens.foldl (partitionFragments idToToken parseSpecial) [.rawText rawText] := by
  have length := length_pos_iff.mpr some_
  have whole : rawVariant rawText 0 rawText.length = .ok (.rawText 0 rawText.length) :=
    rawVariant_ok length (by omega)
  obtain ⟨buffer, run, same⟩ := @foldlM_partitionForToken _ parseSpecial _ _ known _
    (forall_mem_singleton.mpr ⟨length, by omega⟩ :
      ∀ node ∈ [FragmentBufferVariant.rawText 0 rawText.length], node.Inside rawText)
  refine ⟨buffer, ?_, ?_⟩
  · rw [partitionRawText, whole, ok_bind, run]
  · rw [same, map_singleton, FragmentBufferVariant.fragment, drop_zero, take_length]

end

theorem partitionText_leftmostCut (texted : special.text ≠ []) (enough : text.length < fuel) :
    LeftmostCut id special text (partitionText id special fuel text) := by
  induction fuel generalizing text with
  | zero => contradiction
  | succ fuel ih =>
    cases found : findText special.text text with
    | none =>
      rw [partitionText, found]
      exact .absent (not_infix_of_findText found)
    | some pos =>
      obtain ⟨occurs, earlier⟩ := findText_spec found
      have textLength := length_pos_iff.mpr texted
      have fits := occurs.length_le
      rw [length_drop] at fits
      have size : (text.take pos).length = pos := by
        rw [length_take]
        omega
      have split : text =
          text.take pos ++ (special.text ++ text.drop (pos + special.text.length)) := by
        obtain ⟨rest, behind⟩ := occurs
        rw [← drop_drop, ← behind, drop_left, behind, take_append_drop]
      have right : LeftmostCut id special
          (if special.attr.rstrip then (text.drop (pos + special.text.length)).dropWhile isSpace
            else text.drop (pos + special.text.length))
          (if text.drop (pos + special.text.length) = [] then []
            else partitionText id special fuel
              (if special.attr.rstrip then
                  (text.drop (pos + special.text.length)).dropWhile isSpace
                else text.drop (pos + special.text.length))) := by
        by_cases nothing : text.drop (pos + special.text.length) = []
        · rw [nothing, dropWhile_nil, ite_self]
          exact .absent fun occurs => texted (eq_nil_of_infix_nil occurs)
        · rw [if_neg nothing]
          refine ih ?_
          have shorter : (text.drop (pos + special.text.length)).length < fuel := by
            rw [length_drop]
            omega
          split
          · exact lt_of_le_of_lt (dropWhile_suffix _).length_le shorter
          · exact shorter
      rw [partitionText_found found]
      have cut := @LeftmostCut.found _ special (text.take pos) _ _ (fun n before => ?_) right
      · rwa [← split] at cut
      · rw [← split]
        exact earlier n (by rwa [size] at before)

theorem trimEnd_infix (text : Bytes) : trimEnd text <:+: text := by
  have suffix := (dropWhile_suffix (l := text.reverse) isSpace).isInfix
  rwa [← reverse_infix, reverse_reverse] at suffix

theorem mem_rawFragments {piece : Bytes} (member : Fragment.rawText piece ∈ rawFragments text) :
    piece = text ∧ text ≠ [] := by
  unfold rawFragments at member
  split at member
  · contradiction
  · rename_i some_
    cases mem_singleton.mp member
    exact ⟨rfl, some_⟩

theorem LeftmostCut.piece (texted : special.text ≠ []) {pieces : List Fragment}
    (cut : LeftmostCut id special text pieces) {piece : Bytes}
    (member : Fragment.rawText piece ∈ pieces) :
    piece ≠ [] ∧ piece <:+: text ∧ ¬ special.text <:+: piece := by
  induction cut with
  | absent none_ =>
    obtain ⟨rfl, some_⟩ := mem_rawFragments member
    exact ⟨some_, infix_refl _, none_⟩
  | @found left rest pieces leftmost _ ih =>
    rcases mem_append.mp member with inLeft | behind
    · obtain ⟨rfl, some_⟩ := mem_rawFragments inLeft
      have part : (if special.attr.lstrip then trimEnd left else left) <:+: left := by
        split
        · exact trimEnd_infix left
        · exact infix_refl left
      refine ⟨some_, part.trans (prefix_append _ _).isInfix, fun occurs => ?_⟩
      obtain ⟨front, back, whole⟩ := occurs.trans part
      have textLength := length_pos_iff.mpr texted
      refine leftmost front.length ?_ ?_
      · rw [← whole]
        simp only [length_append]
        omega
      · rw [← whole, append_assoc, append_assoc, drop_left]
        exact prefix_append _ _
    · rcases mem_cons.mp behind with isToken | later
      · contradiction
      · obtain ⟨some_, part, free⟩ := ih later
        refine ⟨some_, part.trans ?_, free⟩
        have stripped : (if special.attr.rstrip then rest.dropWhile isSpace else rest) <:+: rest := by
          split
          · exact (dropWhile_suffix _).isInfix
          · exact infix_refl rest
        exact stripped.trans
          ((suffix_append _ rest).trans (suffix_append _ _)).isInfix

section

variable {idToToken : List TokenData} {parseSpecial : Bool}

theorem Restores.append {fragments more : List Fragment} {text rest : Bytes}
    (first : Restores idToToken fragments text) (second : Restores idToToken more rest) :
    Restores idToToken (fragments ++ more) (text ++ rest) := by
  induction first with
  | nil => exact second
  | rawText _ ih =>
    rw [append_assoc]
    exact .rawText ih
  | token known spaceBefore stripsBefore spaceAfter stripsAfter _ ih =>
    rw [append_assoc]
    exact .token known spaceBefore stripsBefore spaceAfter stripsAfter ih

theorem restores_rawFragments (text : Bytes) : Restores idToToken (rawFragments text) text := by
  unfold rawFragments
  split
  · rename_i empty
    rw [empty]
    exact .nil
  · have whole := @Restores.rawText _ text _ _ (@Restores.nil idToToken)
    rwa [append_nil] at whole

theorem exists_trimmed (text : Bytes) :
    ∃ spaces, text = trimEnd text ++ spaces ∧ ∀ c ∈ spaces, isSpace c = true := by
  refine ⟨(text.reverse.takeWhile isSpace).reverse, ?_, fun c member => ?_⟩
  · rw [trimEnd, ← reverse_append, takeWhile_append_dropWhile, reverse_reverse]
  · exact mem_takeWhile_imp (mem_reverse.mp member)

variable {id : Nat} {special : TokenData} {text : Bytes} {fragments : List Fragment}

theorem LeftmostCut.restores (known : idToToken[id]? = some special) {pieces : List Fragment}
    (cut : LeftmostCut id special text pieces) : Restores idToToken pieces text := by
  induction cut with
  | absent _ => exact restores_rawFragments _
  | @found left rest pieces _ _ ih =>
    obtain ⟨before, leftEq, spaceBefore, stripsBefore⟩ : ∃ before,
        left = (if special.attr.lstrip then trimEnd left else left) ++ before ∧
          (∀ c ∈ before, isSpace c = true) ∧ (before ≠ [] → special.attr.lstrip = true) := by
      split
      · rename_i strips
        obtain ⟨spaces, split, space⟩ := exists_trimmed left
        exact ⟨spaces, split, space, fun _ => strips⟩
      · exact ⟨[], (append_nil _).symm, fun c member => by contradiction,
          fun some_ => absurd rfl some_⟩
    obtain ⟨after, restEq, spaceAfter, stripsAfter⟩ : ∃ after,
        rest = after ++ (if special.attr.rstrip then rest.dropWhile isSpace else rest) ∧
          (∀ c ∈ after, isSpace c = true) ∧ (after ≠ [] → special.attr.rstrip = true) := by
      split
      · rename_i strips
        exact ⟨rest.takeWhile isSpace, takeWhile_append_dropWhile.symm,
          fun c member => mem_takeWhile_imp member, fun _ => strips⟩
      · exact ⟨[], rfl, fun c member => by contradiction, fun some_ => absurd rfl some_⟩
    have whole := (@restores_rawFragments idToToken
      (if special.attr.lstrip then trimEnd left else left)).append
        (.token known spaceBefore stripsBefore spaceAfter stripsAfter ih)
    have text : left ++ (special.text ++ rest) =
        (if special.attr.lstrip then trimEnd left else left) ++
          (before ++ special.text ++ after ++
            (if special.attr.rstrip then rest.dropWhile isSpace else rest)) := by
      conv_lhs => rw [leftEq, restEq]
      simp
    rwa [text]

/-! ## One token after the other -/

theorem enabled_iff {id : Nat} {special : TokenData} (known : idToToken[id]? = some special) :
    Enabled idToToken parseSpecial id special ↔
      ¬ (!parseSpecial && (special.attr.control || special.attr.unknown)) = true := by
  have parsed : (parseSpecial = true ∨ (special.attr.control || special.attr.unknown) = false) ↔
      ¬ (!parseSpecial && (special.attr.control || special.attr.unknown)) = true := by
    cases parseSpecial <;> cases (special.attr.control || special.attr.unknown) <;> decide
  rw [← parsed]
  exact ⟨fun enabled => enabled.parsed, fun parsed => ⟨known, parsed⟩⟩

def Holds (idToToken : List TokenData) (parseSpecial : Bool) (ids : List Nat)
    (fragments : List Fragment) : Prop :=
  ∀ text, Fragment.rawText text ∈ fragments → text ≠ [] ∧
    ∀ id ∈ ids, ∀ special, Enabled idToToken parseSpecial id special → ¬ special.text <:+: text

theorem cutTexts_flatMap (texted : special.text ≠ []) (fragments : List Fragment) :
    CutTexts id special fragments (fragments.flatMap (cutFragment id special)) := by
  refine ⟨fragments.map (cutFragment id special), flatMap_def, ?_⟩
  rw [List.forall₂_map_right_iff]
  refine List.forall₂_same.mpr fun fragment _ => ?_
  cases fragment with
  | token other => rfl
  | rawText text => exact partitionText_leftmostCut texted (Nat.lt_succ_self _)

theorem restores_flatMap (known : idToToken[id]? = some special) (texted : special.text ≠ [])
    (restores : Restores idToToken fragments text) :
    Restores idToToken (fragments.flatMap (cutFragment id special)) text := by
  induction restores with
  | nil => exact .nil
  | rawText _ ih =>
    exact ((partitionText_leftmostCut texted (Nat.lt_succ_self _)).restores known).append ih
  | token known spaceBefore stripsBefore spaceAfter stripsAfter _ ih =>
    exact .token known spaceBefore stripsBefore spaceAfter stripsAfter ih

theorem holds_flatMap (known : idToToken[id]? = some special) (texted : special.text ≠ [])
    {ids : List Nat} (holds : Holds idToToken parseSpecial ids fragments) :
    Holds idToToken parseSpecial (ids ++ [id]) (fragments.flatMap (cutFragment id special)) := by
  intro piece member
  obtain ⟨fragment, before, inside⟩ := mem_flatMap.mp member
  cases fragment with
  | token other => cases mem_singleton.mp inside
  | rawText text =>
    obtain ⟨some_, part, free⟩ :=
      (partitionText_leftmostCut texted (Nat.lt_succ_self _)).piece texted inside
    refine ⟨some_, fun earlier member => ?_⟩
    rcases mem_append.mp member with old | new
    · intro other enabled occurs
      exact (holds text before).2 earlier old other enabled (occurs.trans part)
    · intro other enabled occurs
      rw [mem_singleton.mp new] at enabled
      obtain rfl : special = other := some.inj (known.symm.trans enabled.known)
      exact free occurs

theorem partitionFragments_spec {ids later : List Nat}
    (known : ∀ id ∈ later, ∃ special, idToToken[id]? = some special ∧ special.text ≠ [])
    (restores : Restores idToToken fragments text)
    (holds : Holds idToToken parseSpecial ids fragments) :
    let final := later.foldl (partitionFragments idToToken parseSpecial) fragments
    Restores idToToken final text ∧ Holds idToToken parseSpecial (ids ++ later) final ∧
      CutInOrder idToToken parseSpecial later fragments final := by
  induction later generalizing ids fragments with
  | nil =>
    rw [append_nil]
    exact ⟨restores, holds, rfl⟩
  | cons id rest ih =>
    obtain ⟨special, found, texted⟩ := known id mem_cons_self
    have others (other : Nat) (member : other ∈ rest) := known other (mem_cons_of_mem _ member)
    have enabled := @enabled_iff _ parseSpecial _ _ found
    have front : ids ++ id :: rest = ids ++ [id] ++ rest := by
      rw [append_assoc, singleton_append]
    rw [foldl_cons, partitionFragments, found, front]
    dsimp only
    split
    · rename_i ignored
      have none_ : ¬ ∃ other, Enabled idToToken parseSpecial id other := by
        rintro ⟨other, isEnabled⟩
        obtain rfl : special = other := some.inj (found.symm.trans isEnabled.known)
        exact enabled.mp isEnabled ignored
      have idle : Holds idToToken parseSpecial (ids ++ [id]) fragments := by
        intro piece member
        refine ⟨(holds piece member).1, fun earlier inIds other isEnabled => ?_⟩
        rcases mem_append.mp inIds with old | new
        · exact (holds piece member).2 earlier old other isEnabled
        · rw [mem_singleton.mp new] at isEnabled
          exact absurd ⟨other, isEnabled⟩ none_
      obtain ⟨text_, holds_, order⟩ := ih others restores idle
      exact ⟨text_, holds_, _, order, .inr ⟨none_, rfl⟩⟩
    · rename_i taken
      obtain ⟨text_, holds_, order⟩ := ih others (restores_flatMap found texted restores)
        (holds_flatMap found texted holds)
      exact ⟨text_, holds_, _, order, .inl ⟨special, enabled.mpr taken,
        cutTexts_flatMap texted fragments⟩⟩

/-- The fragments restore the text, hold no special token in a text, and are cut in order. -/
theorem partitionRawText_spec {cacheSpecialTokens : List Nat}
    (known : ∀ id ∈ cacheSpecialTokens, ∃ special, idToToken[id]? = some special ∧
      special.text ≠ [])
    {rawText : Bytes} (some_ : rawText ≠ []) :
    ∃ buffer fragments,
      partitionRawText idToToken cacheSpecialTokens parseSpecial rawText = .ok buffer ∧
      fragments = buffer.map (FragmentBufferVariant.fragment rawText) ∧
      Restores idToToken fragments rawText ∧
      (∀ text, Fragment.rawText text ∈ fragments → text ≠ [] ∧
        ∀ id ∈ cacheSpecialTokens, ∀ special, Enabled idToToken parseSpecial id special →
          ¬ special.text <:+: text) ∧
      CutInOrder idToToken parseSpecial cacheSpecialTokens [.rawText rawText] fragments := by
  obtain ⟨buffer, run, same⟩ := @partitionRawText_eq _ parseSpecial _ known _ some_
  have whole : Restores idToToken [.rawText rawText] rawText := by
    have first := @Restores.rawText _ rawText _ _ (@Restores.nil idToToken)
    rwa [append_nil] at first
  have start : Holds idToToken parseSpecial [] [.rawText rawText] := by
    intro text member
    cases mem_singleton.mp member
    exact ⟨some_, fun id member => by contradiction⟩
  obtain ⟨restores, holds, order⟩ := partitionFragments_spec known whole start
  rw [← same] at restores holds order
  exact ⟨buffer, _, run, rfl, restores, holds, order⟩

end

def spaceTokens : List TokenData := [⟨[32], { userDefined := true, rstrip := true }⟩]

/-- The second space is whitespace behind the first. -/
theorem partitionRawText_passes_over :
    partitionRawText spaceTokens [0] true [32, 32] = .ok [.token 0] ∧
      leftmostOccurrences [32] 3 0 [32, 32] = [0, 1] := by
  decide

theorem partitionRawText_spec_at_space :
    ∃ buffer fragments, partitionRawText spaceTokens [0] true [32, 97] = .ok buffer ∧
      fragments = buffer.map (FragmentBufferVariant.fragment [32, 97]) ∧
      Restores spaceTokens fragments [32, 97] ∧
      (∀ text, Fragment.rawText text ∈ fragments → text ≠ [] ∧
        ∀ id ∈ [0], ∀ special, Enabled spaceTokens true id special → ¬ special.text <:+: text) ∧
      CutInOrder spaceTokens true [0] [.rawText [32, 97]] fragments :=
  partitionRawText_spec (fun id member => ⟨⟨[32], { userDefined := true, rstrip := true }⟩, by
    rw [mem_singleton.mp member]
    rfl, by decide⟩) (by decide)

end LlamaCpp.Vocab
