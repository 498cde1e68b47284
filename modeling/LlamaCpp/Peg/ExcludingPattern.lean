import LlamaCpp.Peg.Trie
import Mathlib.Data.Fintype.EquivFin

/-!
# The pattern that excludes delimiters

The pattern repeats a proper beginning of a delimiter with a character that does not go
on.  It scans a text by starting over after each such character, so it can miss a
delimiter that begins inside an alternative.
-/

set_option autoImplicit false

namespace LlamaCpp.Peg

open List Option

/-- The part of the grammar notation that the pattern uses; a text is a list of code
points. -/
inductive GbnfExpr
  | literal (chars : List Nat)
  | notClass (chars : List Nat)
  | seq (first second : GbnfExpr)
  | alt (options : List GbnfExpr)
  | star (body : GbnfExpr)

inductive Generates : GbnfExpr → List Nat → Prop
  | literal (chars : List Nat) : Generates (.literal chars) chars
  | notClass {chars : List Nat} {ch : Nat} (outside : ch ∉ chars) : Generates (.notClass chars) [ch]
  | seq {first second : GbnfExpr} {u v : List Nat} (left : Generates first u)
      (right : Generates second v) : Generates (.seq first second) (u ++ v)
  | alt {options : List GbnfExpr} {option_ : GbnfExpr} {u : List Nat} (member : option_ ∈ options)
      (text : Generates option_ u) : Generates (.alt options) u
  | starNil (body : GbnfExpr) : Generates (.star body) []
  | starMore {body : GbnfExpr} {u v : List Nat} (once : Generates body u)
      (more : Generates (.star body) v) : Generates (.star body) (u ++ v)

def pieceExpr (piece : PrefixAndNext) : GbnfExpr :=
  if piece.pre ≠ [] then .seq (.literal piece.pre) (.notClass piece.nextChars)
  else .notClass piece.nextChars

def gbnfExcludingPattern (strings : List (List Nat)) : GbnfExpr :=
  .star (.alt ((Trie.ofWords strings).collectPrefixAndNext.map pieceExpr))

theorem generates_pieceExpr {piece : PrefixAndNext} {text : List Nat} :
    Generates (pieceExpr piece) text ↔ ∃ ch, ch ∉ piece.nextChars ∧ text = piece.pre ++ [ch] := by
  unfold pieceExpr
  split_ifs with more
  · constructor
    · rintro (_ | _ | ⟨left, right⟩)
      cases left
      cases right with
      | notClass outside => exact ⟨_, outside, rfl⟩
    · rintro ⟨ch, outside, same⟩
      rw [same]
      exact .seq (.literal _) (.notClass outside)
  · rw [not_not] at more
    constructor
    · rintro (_ | outside)
      exact ⟨_, outside, by rw [more]; rfl⟩
    · rintro ⟨ch, outside, same⟩
      rw [same, more]
      exact .notClass outside

def Live (strings : List (List Nat)) (pre : List Nat) : Prop :=
  ∃ string ∈ strings, ∃ literal ∈ string.inits, pre <+: literal ∧ literal ∉ strings

instance (strings : List (List Nat)) (pre : List Nat) : Decidable (Live strings pre) :=
  inferInstanceAs (Decidable (∃ string ∈ strings, ∃ literal ∈ string.inits, _))

/-- Reads a text with `pre` at hand: goes on along the literals, starts over at a character
that goes on with no delimiter, and is stuck at one that completes a delimiter. -/
def scan (strings : List (List Nat)) : List Nat → List Nat → Option (List Nat)
  | pre, [] => some pre
  | pre, ch :: rest =>
    if Live strings (pre ++ [ch]) then scan strings (pre ++ [ch]) rest
    else if pre ∉ strings ∧ ¬ Begins strings (pre ++ [ch]) then scan strings [] rest
    else none

variable {pre : List Nat}

theorem isPiece_iff {strings : List (List Nat)} :
    IsPiece strings pre ↔ pre ∉ strings ∧ Begins strings pre := by
  constructor
  · rintro ⟨notWord, ch, begins⟩
    exact ⟨notWord, begins.of_isPrefix (prefix_append ..)⟩
  · rintro ⟨notWord, string, member, rest, whole⟩
    refine ⟨notWord, ?_⟩
    cases rest with
    | nil =>
      rw [append_nil] at whole
      exact absurd (whole ▸ member) notWord
    | cons ch rest =>
      exact ⟨ch, string, member, rest, by rw [← whole, append_assoc, singleton_append]⟩

theorem live_iff {strings : List (List Nat)} :
    Live strings pre ↔ ∃ literal, pre <+: literal ∧ IsPiece strings literal := by
  simp only [isPiece_iff]
  constructor
  · rintro ⟨string, member, literal, isInit, isPrefix, notWord⟩
    exact ⟨literal, isPrefix, notWord, string, member, (mem_inits ..).mp isInit⟩
  · rintro ⟨literal, isPrefix, notWord, string, member, isInit⟩
    exact ⟨string, member, literal, (mem_inits ..).mpr isInit, isPrefix, notWord⟩

theorem Live.of_isPrefix {strings : List (List Nat)} {longer : List Nat}
    (live : Live strings longer) (isPrefix : pre <+: longer) : Live strings pre := by
  obtain ⟨literal, longPrefix, isPiece⟩ := live_iff.mp live
  exact live_iff.mpr ⟨literal, isPrefix.trans longPrefix, isPiece⟩

theorem Live.begins {strings : List (List Nat)} (live : Live strings pre) : Begins strings pre := by
  obtain ⟨literal, isPrefix, isPiece⟩ := live_iff.mp live
  exact (isPiece_iff.mp isPiece).2.of_isPrefix isPrefix

theorem IsPiece.live {strings : List (List Nat)} (isPiece : IsPiece strings pre) :
    Live strings pre := live_iff.mpr ⟨pre, prefix_refl pre, isPiece⟩

section

variable {strings : List (List Nat)}

theorem scan_append (pre u v : List Nat) :
    scan strings pre (u ++ v) = (scan strings pre u).bind fun at_ => scan strings at_ v := by
  induction u generalizing pre with
  | nil => rfl
  | cons ch u ih =>
    rw [cons_append, scan, scan]
    split_ifs with live over_
    · exact ih _
    · exact ih _
    · rfl

variable {pre text : List Nat}

theorem scan_literal {u : List Nat} (live : Live strings (pre ++ u)) :
    scan strings pre u = some (pre ++ u) := by
  induction u generalizing pre with
  | nil => rw [append_nil, scan]
  | cons ch u ih =>
    have next : pre ++ ch :: u = (pre ++ [ch]) ++ u := by
      rw [append_assoc, singleton_append]
    rw [next] at live ⊢
    rw [scan, if_pos (live.of_isPrefix (prefix_append ..)), ih live]

theorem scan_restart (isPiece : IsPiece strings pre) {ch : Nat}
    (off : ¬ Begins strings (pre ++ [ch])) (rest : List Nat) :
    scan strings pre (ch :: rest) = scan strings [] rest := by
  rw [scan, if_neg (fun live => off live.begins), if_pos ⟨(isPiece_iff.mp isPiece).1, off⟩]

theorem scan_live {last : List Nat} (live : Live strings pre)
    (scanned : scan strings pre text = some last) : Live strings last := by
  induction text generalizing pre with
  | nil =>
    cases scanned
    exact live
  | cons ch text ih =>
    rw [scan] at scanned
    split_ifs at scanned with goesOn
    · exact ih goesOn scanned
    · exact ih (live.of_isPrefix nil_prefix) scanned

theorem generates_alternative :
    Generates (.alt ((Trie.ofWords strings).collectPrefixAndNext.map pieceExpr)) text ↔
      ∃ pre ch, IsPiece strings pre ∧ ¬ Begins strings (pre ++ [ch]) ∧ text = pre ++ [ch] := by
  constructor
  · rintro (_ | _ | _ | ⟨member, generated⟩)
    obtain ⟨piece, isPiece, same⟩ := mem_map.mp member
    rw [← same] at generated
    obtain ⟨ch, outside, isText⟩ := generates_pieceExpr.mp generated
    obtain ⟨proper, goesOn⟩ := mem_collectPrefixAndNext isPiece
    exact ⟨piece.pre, ch, proper, fun begins => outside ((goesOn ch).mpr begins), isText⟩
  · rintro ⟨pre, ch, proper, off, isText⟩
    obtain ⟨piece, isPiece, same⟩ := exists_collectPrefixAndNext proper
    obtain ⟨-, goesOn⟩ := mem_collectPrefixAndNext isPiece
    subst same
    refine .alt (mem_map.mpr ⟨piece, isPiece, rfl⟩) (generates_pieceExpr.mpr ⟨ch, ?_, isText⟩)
    exact fun inside => off ((goesOn ch).mp inside)

theorem scan_of_generates {expr : GbnfExpr} (generated : Generates expr text)
    (isPattern : expr = gbnfExcludingPattern strings) : scan strings [] text = some [] := by
  induction generated with
  | starNil => rfl
  | starMore once more _ ih =>
    rw [gbnfExcludingPattern, GbnfExpr.star.injEq] at isPattern
    rw [isPattern] at once
    obtain ⟨pre, ch, proper, off, isText⟩ := generates_alternative.mp once
    rw [isText, append_assoc, singleton_append, scan_append,
      scan_literal (by exact proper.live), nil_append, bind_some,
      scan_restart proper off]
    exact ih (by rw [isPattern, gbnfExcludingPattern])
  | _ => cases isPattern

/-- By induction on the text: what is at hand and the rest make up alternatives. -/
theorem generates_of_scan (live : Live strings pre) (scanned : scan strings pre text = some []) :
    Generates (gbnfExcludingPattern strings) (pre ++ text) := by
  induction text generalizing pre with
  | nil =>
    cases scanned
    exact .starNil _
  | cons ch text ih =>
    have whole : pre ++ ch :: text = (pre ++ [ch]) ++ text := by
      rw [append_assoc, singleton_append]
    rw [scan] at scanned
    split_ifs at scanned with goesOn restarts
    · rw [whole]
      exact ih goesOn scanned
    · have proper := isPiece_iff.mpr ⟨restarts.1, live.begins⟩
      rw [whole]
      exact .starMore (generates_alternative.mpr ⟨pre, ch, proper, restarts.2, rfl⟩)
        (ih (live.of_isPrefix nil_prefix) scanned)

theorem exists_finish (live : Live strings pre) : ∃ rest, scan strings pre rest = some [] := by
  obtain ⟨literal, ⟨u, whole⟩, proper⟩ := live_iff.mp live
  obtain ⟨ch, fresh⟩ := Infinite.exists_notMem_finset strings.flatten.toFinset
  have off : ¬ Begins strings (literal ++ [ch]) := by
    rintro ⟨string, member, isPrefix⟩
    refine fresh (mem_toFinset.mpr (mem_flatten.mpr ⟨string, member, ?_⟩))
    exact isPrefix.subset (mem_append_right _ (mem_singleton.mpr rfl))
  refine ⟨u ++ [ch], ?_⟩
  rw [scan_append, scan_literal (by rw [whole]; exact proper.live), whole, bind_some,
    scan_restart proper off, scan]

end

def ScanStopsAt (strings : List (List Nat)) : Prop :=
  ∀ string ∈ strings, ∀ pre, Live strings pre → scan strings pre string = none

end LlamaCpp.Peg
